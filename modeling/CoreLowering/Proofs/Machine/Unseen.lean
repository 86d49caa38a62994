import Mathlib.Data.List.Basic
import CoreLowering.Core.Machine

/-!
# What builtins see of values

A builtin reads constants and gives a constant or one of its arguments as it
is; it never looks into a closure.  So closures may be changed throughout,
before a call or after it: `call_map` says so for every function on values
that leaves constants alone and makes no constant of anything else.
-/

namespace CoreLowering.Machine

variable {f : Builtin}

/-! ## Computations that may give nothing -/

/-- A computation with other reasons for giving nothing, and with something
else in the place of what it gives. -/
def carry {ε α β : Type} (e : ε → ε) (g : α → β) : Except ε α → Except ε β
  | .ok a => .ok (g a)
  | .error why => .error (e why)

section Carry

variable {ε α β γ δ : Type} {e : ε → ε} {g : β → γ} {b : β} {p : α → δ}

theorem carry_ok : carry e g (.ok b) = .ok (g b) := rfl

theorem carry_error {why : ε} : carry e g (.error why) = .error (e why) := rfl

theorem carry_pure : carry e g (pure b) = pure (g b) := rfl

theorem carry_bind (x : Except ε α) (f : α → Except ε β) :
    carry e g (x >>= f) = carry e id x >>= fun a => carry e g (f a) := by
  cases x <;> rfl

theorem carry_ite {p : Prop} [Decidable p] (x y : Except ε β) :
    carry e g (if p then x else y) = if p then carry e g x else carry e g y :=
  apply_ite ..

/-- Two computations that are carried to the same either both give something
or both give nothing. -/
theorem carry_inv {x y : Except ε α} (h : carry e p x = carry e p y) :
    (∃ a b, x = .ok a ∧ y = .ok b ∧ p a = p b) ∨
      ∃ why why', x = .error why ∧ y = .error why' ∧ e why = e why' := by
  cases x with
  | ok a =>
    cases y with
    | ok b => exact .inl ⟨a, b, rfl, rfl, Except.ok.inj h⟩
    | error why => cases h
  | error why =>
    cases y with
    | ok b => cases h
    | error why' => exact .inr ⟨why, why', rfl, rfl, Except.error.inj h⟩

theorem carry_bind_congr {x y : Except ε α} {f f' : α → Except ε β} (h : carry e p x = carry e p y)
    (hf : ∀ a b, p a = p b → carry e g (f a) = carry e g (f' b)) :
    carry e g (x >>= f) = carry e g (y >>= f') := by
  obtain ⟨a, b, rfl, rfl, hab⟩ | ⟨why, why', rfl, rfl, hwhy⟩ := carry_inv h
  · exact hf a b hab
  · exact congrArg Except.error hwhy

theorem carry_mapM {xs : List α} {f : α → Except ε β} (h : ∀ a, carry e id (f a) = f a) :
    carry e id (xs.mapM f) = xs.mapM f := by
  induction xs with
  | nil => rfl
  | cons x xs ih =>
    rw [List.mapM_cons, carry_bind, h]
    refine bind_congr fun y => ?_
    rw [carry_bind, ih]
    rfl

end Carry

/-! ## Changing what is not a constant -/

/-- Whether a value is a constant. -/
def Value.isCon : Value → Bool
  | .con _ => true
  | _ => false

/-- A change of values that no builtin sees. -/
structure Unseen (g : Value → Value) : Prop where
  con : ∀ c, g (.con c) = .con c
  isCon : ∀ v, (g v).isCon = v.isCon

/-- The refusal with another value in it. -/
def Refusal.map (g : Value → Value) : Refusal → Refusal
  | .shape w v => .shape w (g v)
  | why => why

/-- The failure with other values in it. -/
def Failure.map (g : Value → Value) : Failure → Failure
  | .cannotApply v => .cannotApply (g v)
  | .cannotForce v => .cannotForce (g v)
  | .caseValue s w => .caseValue (g s) w
  | .refused f why => .refused f (why.map g)
  | .notConstant v => .notConstant (g v)
  | why => why

section Arguments

variable {g : Value → Value} (hg : Unseen g)
include hg

/-- What is asked of an argument is asked of constants; anything else is
refused as it is. -/
theorem ask_map {α : Type} (w : Wanted) (read : Constant → Option α) (v : Value) :
    (g v).ask w read = carry (Refusal.map g) id (v.ask w read) := by
  cases hv : v.isCon with
  | true =>
    cases v with
    | con c =>
      rw [hg.con, Value.ask]
      cases read c with
      | some a => rfl
      | none => rw [carry_error, Refusal.map, hg.con]
    | _ => cases hv
  | false =>
    have hrefused : ∀ u : Value, u.isCon = false → u.ask w read = .error (.shape w u) := by
      intro u hu
      cases u <;> first | rfl | cases hu
    rw [hrefused v hv, hrefused (g v) ((hg.isCon v).trans hv), carry_error, Refusal.map]

variable (v : Value)

theorem asData_map : (g v).asData = carry (Refusal.map g) id v.asData := by
  rw [Value.asData, Value.asData, carry_bind, ask_map hg]
  refine bind_congr fun found => ?_
  cases found <;> rfl

theorem asDataList_map : (g v).asDataList = carry (Refusal.map g) id v.asDataList := by
  rw [Value.asDataList, Value.asDataList, Value.asList, carry_bind, ask_map hg]
  refine bind_congr fun p => (carry_mapM fun x => ?_).symm
  split <;> rfl

theorem asDataPairs_map : (g v).asDataPairs = carry (Refusal.map g) id v.asDataPairs := by
  rw [Value.asDataPairs, Value.asDataPairs, Value.asList, carry_bind, ask_map hg]
  refine bind_congr fun p => (carry_mapM fun x => ?_).symm
  split <;> rfl

end Arguments

theorem carry_itemAt {α : Type} {g : Value → Value} (xs : List α) (i : Int) :
    carry (Refusal.map g) id (itemAt xs i) = itemAt xs i := by
  unfold itemAt
  split
  · split <;> rfl
  · rfl

theorem Unseen.carry_con {g : Value → Value} (hg : Unseen g) (e : Refusal → Refusal)
    (c : Constant) : carry e g (pure (.con c)) = pure (.con c) :=
  congrArg Except.ok (hg.con c)

/-- **Builtins do not look into closures**: they read constants, and give a
constant or an argument as it is. -/
theorem call_map {g : Value → Value} (hg : Unseen g) {args : List Value}
    (harity : args.length = f.arity) :
    call f (args.map g) = carry (Refusal.map g) g (call f args) := by
  cases f with
  | unknown code => rfl
  | divideInteger | quotientInteger | remainderInteger | modInteger | consByteString
  | constrData =>
    obtain ⟨a, b, rfl⟩ := List.length_eq_two.1 harity
    simp only [List.map_cons, List.map_nil, call, divide, carry_bind, carry_ite, Value.asInteger,
      Value.asBytes, ask_map hg, asDataList_map hg, carry_pure, integer, byteString, data, hg.con]
    rfl
  | addInteger | subtractInteger | multiplyInteger | equalsInteger | lessThanInteger
  | lessThanEqualsInteger | appendByteString | indexByteString | equalsByteString
  | lessThanByteString | lessThanEqualsByteString | appendString | equalsString | chooseUnit
  | trace | equalsData | mkPairData | indexArray =>
    obtain ⟨a, b, rfl⟩ := List.length_eq_two.1 harity
    simp only [List.map_cons, List.map_nil, call, carry_bind, carry_itemAt, Value.asInteger,
      Value.asBytes, Value.asString, Value.asUnit, Value.asArray, ask_map hg, asData_map hg,
      carry_pure, integer, byteString, bool, hg.con]
  | lengthOfByteString | sha2_256 | sha3_256 | blake2b_256 | encodeUtf8 | nullList | mapData
  | listData | iData | bData | mkNilData | mkNilPairData | serialiseData | lengthOfArray
  | listToArray =>
    obtain ⟨a, rfl⟩ := List.length_eq_one_iff.1 harity
    simp only [List.map_cons, List.map_nil, call, carry_bind, Value.asInteger, Value.asBytes,
      Value.asString, Value.asUnit, Value.asList, Value.asArray, ask_map hg, asData_map hg,
      asDataList_map hg, asDataPairs_map hg, carry_pure, integer, byteString, bool, data, hg.con]
  | sliceByteString | ifThenElse =>
    obtain ⟨a, b, c, rfl⟩ := List.length_eq_three.1 harity
    simp only [List.map_cons, List.map_nil, call, carry_bind, carry_ite, Value.asInteger,
      Value.asBytes, Value.asBool, ask_map hg, carry_pure, byteString, hg.con]
  | decodeUtf8 =>
    obtain ⟨a, rfl⟩ := List.length_eq_one_iff.1 harity
    simp only [List.map_cons, List.map_nil, call, carry_bind, Value.asBytes, ask_map hg]
    refine bind_congr fun b => ?_
    cases b.toString? <;> first | rfl | exact (hg.carry_con _ _).symm
  | fstPair | sndPair =>
    obtain ⟨a, rfl⟩ := List.length_eq_one_iff.1 harity
    simp only [List.map_cons, List.map_nil, call, carry_bind, Value.asPair, ask_map hg]
    refine bind_congr fun xs => ?_
    rcases xs with _ | ⟨x, _ | ⟨y, xs⟩⟩ <;> first | rfl | exact (hg.carry_con _ _).symm
  | headList | tailList =>
    obtain ⟨a, rfl⟩ := List.length_eq_one_iff.1 harity
    simp only [List.map_cons, List.map_nil, call, carry_bind, Value.asList, ask_map hg]
    refine bind_congr fun p => ?_
    rcases p with ⟨e, _ | ⟨x, xs⟩⟩ <;> first | rfl | exact (hg.carry_con _ _).symm
  | chooseList =>
    obtain ⟨a, b, c, rfl⟩ := List.length_eq_three.1 harity
    simp only [List.map_cons, List.map_nil, call, carry_bind, Value.asList, ask_map hg]
    refine bind_congr fun p => ?_
    rcases p with ⟨e, _ | ⟨x, xs⟩⟩ <;> rfl
  | unConstrData | unMapData | unListData | unIData | unBData =>
    obtain ⟨a, rfl⟩ := List.length_eq_one_iff.1 harity
    simp only [List.map_cons, List.map_nil, call, carry_bind, asData_map hg]
    refine bind_congr fun d => ?_
    cases d <;> first | rfl | exact (hg.carry_con _ _).symm
  | chooseData =>
    have hsix : args.length = 6 := harity
    rcases args with _ | ⟨a, _ | ⟨b, _ | ⟨c, _ | ⟨d, _ | ⟨e, _ | ⟨f, _ | ⟨g, args⟩⟩⟩⟩⟩⟩⟩
    case cons.cons.cons.cons.cons.cons.nil =>
      simp only [List.map_cons, List.map_nil, call, carry_bind, asData_map hg]
      refine bind_congr fun d => ?_
      cases d <;> rfl
    all_goals simp at hsix
  | mkCons =>
    -- The new item is not asked for a type, so it is told apart by hand.
    obtain ⟨a, b, rfl⟩ := List.length_eq_two.1 harity
    cases ha : a.isCon with
    | true =>
      cases a with
      | con x =>
        simp only [List.map_cons, List.map_nil, hg.con, call, carry_bind, Value.asList, ask_map hg]
        refine bind_congr fun p => ?_
        rw [carry_ite, carry_pure, hg.con]
        rfl
      | _ => cases ha
    | false =>
      have hrefused : ∀ u : Value, u.isCon = false → ∀ w,
          call .mkCons [u, w] = .error .notConstant := by
        intro u hu w
        cases u <;> first | rfl | cases hu
      rw [List.map_cons, List.map_cons, List.map_nil, hrefused a ha,
        hrefused (g a) ((hg.isCon a).trans ha)]
      rfl

theorem logOf_map {g : Value → Value} (hg : Unseen g) {args : List Value} :
    logOf f (args.map g) = logOf f args := by
  cases f with
  | trace =>
    cases args with
    | nil => rfl
    | cons a args =>
      rw [List.map_cons]
      cases ha : a.isCon with
      | true =>
        cases a with
        | con c =>
          rw [hg.con]
          cases c <;> rfl
        | _ => cases ha
      | false =>
        have hsilent : ∀ u : Value, u.isCon = false → ∀ us, logOf .trace (u :: us) = [] := by
          intro u hu us
          cases u <;> first | rfl | cases hu
        rw [hsilent a ha, hsilent (g a) ((hg.isCon a).trans ha)]
  | _ => rfl

end CoreLowering.Machine
