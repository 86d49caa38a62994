import CoreLowering.Proofs.Graph.Run
import CoreLowering.Proofs.Typed.Joins

/-!
# The types of alternatives

Types in full and without variables are ordered by what suits what, the type of
what never returns coming first.  Alternatives are joined to the least type they
lie below (`joinTypes_least`), so that all of them can be used for it and the
order in which they come does not matter to it.  It does matter to whether a
join is found: the arguments of two cases are not joined, but those of the
second have to suit those of the first.
-/

namespace CoreLowering

namespace Ty

/-! ## Types in full -/

/-- A type in full without variables. -/
structure Definite (n : Discipline) (t : Ty) : Prop where
  regular : t.Regular n
  ground : t.Ground

variable {n : Discipline} {a b j t u : Ty} {c d : TyCon} {xs ys : List Ty}

theorem Definite.whole (h : t.Definite n) : t.Whole :=
  h.regular missing

theorem Definite.mono (h : t.Definite n) (hu : u.parts ⊆ t.parts) : u.Definite n :=
  ⟨fun _ hx => h.regular _ (hu hx), fun v hv => h.ground v (hu hv)⟩

theorem Definite.head (h : t.Definite n) : ∃ c xs, t.unwrap = con c xs ∧ c.isOpen = false ∧
    xs.length = n.arity c ∧ ∀ x ∈ xs, x.Definite n := by
  obtain ⟨c, xs, ht⟩ := h.whole.head h.ground
  obtain ⟨hc, hn⟩ := h.regular (con c xs) (ht ▸ parts_unwrap_subset t (mem_parts _))
  exact ⟨c, xs, ht, hc, hn, fun x hx => h.mono (parts_arg_subset ht hx)⟩

theorem forall_mem_partsAll {p : Ty → Prop} :
    ∀ {xs : List Ty}, (∀ x ∈ xs, ∀ u ∈ x.parts, p u) → ∀ u ∈ partsAll xs, p u
  | x :: xs, h, u, hu => by
    rw [List.forall_mem_cons] at h
    exact (List.mem_append.1 hu).elim (h.1 u) (forall_mem_partsAll h.2 u)

theorem Definite.mk_con (hc : c.isOpen = false) (hlen : xs.length = n.arity c)
    (hxs : ∀ x ∈ xs, x.Definite n) : (con c xs).Definite n := by
  constructor
  · rw [Regular, parts, List.forall_mem_cons]
    exact ⟨⟨hc, hlen⟩, forall_mem_partsAll fun x hx => (hxs x hx).regular⟩
  · intro v hv
    rw [parts] at hv
    obtain h | hv := List.mem_cons.1 hv
    · cases h
    · exact forall_mem_partsAll (p := (· ≠ var v))
        (fun x hx u hu h => (hxs x hx).ground v (h ▸ hu)) _ hv rfl

/-- Whether a head stands for the other or for a case of it. -/
def Below (c d : TyCon) : Prop :=
  c = d ∨ upcasts c d = true

theorem upcasts_iff : upcasts c d = true ↔ ∃ e k, c = .caseClass e k ∧ d = .sum e := by
  constructor
  · intro h
    unfold upcasts at h
    split at h
    · cases of_decide_eq_true h
      exact ⟨_, _, rfl, rfl⟩
    · cases h
  · rintro ⟨e, k, rfl, rfl⟩
    exact decide_eq_true rfl

theorem Below.trans {e : TyCon} (h : Below c d) (h' : Below d e) : Below c e := by
  obtain rfl | h := h
  · exact h'
  obtain rfl | h' := h'
  · exact .inr h
  obtain ⟨_, _, -, rfl⟩ := upcasts_iff.1 h
  cases h'

theorem Below.of_eq (h : Below c d) : n.arity c = n.arity d := by
  obtain rfl | h := h
  · rfl
  obtain ⟨e, k, rfl, rfl⟩ := upcasts_iff.1 h
  exact n.arity_case e k

/-- Between types in full it is the heads and the arguments that count. -/
theorem Definite.suits_iff (ha : a.Definite n) (hb : b.Definite n)
    (hx : a.unwrap = con c xs) (hy : b.unwrap = con d ys) :
    a.suits true b = true ↔ Below c d ∧ suitsAll true xs ys = true := by
  obtain ⟨c', xs', hx', hc, hxn, -⟩ := ha.head
  obtain ⟨d', ys', hy', hd, hyn, -⟩ := hb.head
  cases hx.symm.trans hx'
  cases hy.symm.trans hy'
  rw [suits_con hx hy, hc, hd]
  simp only [Bool.or_eq_true, Bool.and_eq_true, decide_eq_true_eq, Bool.true_and, Bool.false_or]
  refine and_congr_right fun h => ⟨?_, .inr⟩
  have hlen : xs.length = ys.length := by rw [hxn, hyn, Below.of_eq h]
  rintro ((h | h) | h)
  · cases List.isEmpty_iff.1 h
    cases List.length_eq_zero_iff.1 hlen.symm
    rfl
  · cases List.isEmpty_iff.1 h
    cases List.length_eq_zero_iff.1 hlen
    rfl
  · exact h

mutual

theorem Definite.suits_trans : ∀ {a b t : Ty}, a.Definite n → b.Definite n → t.Definite n →
    a.suits true b = true → b.suits true t = true → a.suits true t = true
  | .con c xs, b, t, ha, hb, ht, hab, hbt => by
    obtain ⟨d, ys, hy, -, -, hys⟩ := hb.head
    obtain ⟨e, zs, hz, -, -, hzs⟩ := ht.head
    obtain ⟨h, hargs⟩ := (ha.suits_iff hb rfl hy).1 hab
    obtain ⟨h', hargs'⟩ := (hb.suits_iff ht hy hz).1 hbt
    exact (ha.suits_iff ht rfl hz).2 ⟨h.trans h', suitsAll_trans
      (fun x hx => ha.mono (parts_arg_subset rfl hx)) hys hzs hargs hargs'⟩
  | .all ps body, b, t, ha, hb, ht, hab, hbt =>
    Definite.suits_trans (a := body) (ha.mono (parts_body_subset ps body)) hb ht hab hbt

theorem suitsAll_trans : ∀ {xs ys zs : List Ty}, (∀ x ∈ xs, x.Definite n) →
    (∀ y ∈ ys, y.Definite n) → (∀ z ∈ zs, z.Definite n) → suitsAll true xs ys = true →
    suitsAll true ys zs = true → suitsAll true xs zs = true
  | [], [], [], _, _, _, _, _ => rfl
  | x :: xs, y :: ys, z :: zs, hxs, hys, hzs, h, h' => by
    rw [List.forall_mem_cons] at hxs hys hzs
    rw [suitsAll, Bool.and_eq_true] at h h' ⊢
    exact ⟨hxs.1.suits_trans hys.1 hzs.1 h.1 h'.1, suitsAll_trans hxs.2 hys.2 hzs.2 h.2 h'.2⟩

end

/-! ## Joins of many types -/

/-- The type of an alternative: a type in full or that of what never returns. -/
def ArmType (n : Discipline) (t : Ty) : Prop :=
  t = nothing ∨ t.Definite n

theorem ArmType.ground (h : ArmType n t) : t.Ground := by
  obtain rfl | h := h
  · simp [Ground, nothing, parts, partsAll]
  · exact h.ground

theorem ArmType.whole (h : ArmType n t) : t.Whole := by
  obtain rfl | h := h
  · simp [Whole, nothing, parts, partsAll]
  · exact h.whole

theorem Definite.isNothing (h : t.Definite n) : t.isNothing = false := by
  unfold Ty.isNothing
  split
  · exact (h.regular _ (mem_parts _)).1
  · rfl

/-- A join of types in full is the least type in full that both suit. -/
theorem Joined.least (h : Joined a b j) (ha : a.Definite n) (hb : b.Definite n) :
    j.Definite n ∧ ∀ u : Ty, u.Definite n → a.suits true u = true → b.suits true u = true →
      j.suits true u = true := by
  cases h with
  | left => exact ⟨ha, fun u _ h _ => h⟩
  | right => exact ⟨hb, fun u _ _ h => h⟩
  | @cases d c e xs ys hx hy hn h =>
    obtain ⟨c', xs', hx', -, hlen, hxs⟩ := ha.head
    obtain ⟨d', ys', hy', -, hlen', -⟩ := hb.head
    cases hx.symm.trans hx'
    cases hy.symm.trans hy'
    have hwhole : (if xs.isEmpty then ys else xs) = xs := by
      refine ite_eq_right_iff.2 fun hempty => ?_
      rw [n.arity_case, ← n.arity_case d c, ← hlen] at hlen'
      cases List.isEmpty_iff.1 hempty
      exact List.length_eq_zero_iff.1 hlen'
    rw [hwhole] at h ⊢
    have hj : (sum d xs).Definite n := .mk_con rfl (hlen.trans (n.arity_case d c)) hxs
    refine ⟨hj, fun u hu hau hbu => ?_⟩
    obtain ⟨f, zs, hz, -, -, -⟩ := hu.head
    obtain ⟨hf, hargs⟩ := (ha.suits_iff hu hx hz).1 hau
    obtain ⟨hf', -⟩ := (hb.suits_iff hu hy hz).1 hbu
    refine (hj.suits_iff hu rfl hz).2 ⟨?_, hargs⟩
    obtain rfl | hf := hf
    · -- were both the same case, the second would suit the first
      obtain heq | hf' := hf'
      · cases heq
        exact absurd ((hb.suits_iff ha hy hx).2 ⟨.inl rfl, ((hb.suits_iff hj hy rfl).1 h).2⟩) hn
      · cases hf'
    · obtain ⟨_, _, heq, rfl⟩ := upcasts_iff.1 hf
      cases heq
      exact .inl rfl

/-- The order of the types of alternatives: what never returns comes first. -/
def Lies (a b : Ty) : Prop :=
  a = nothing ∨ b ≠ nothing ∧ a.suits true b = true

theorem ArmType.definite (h : ArmType n t) (hne : t ≠ nothing) : t.Definite n :=
  h.resolve_left hne

theorem Definite.ne_nothing (h : t.Definite n) : t ≠ nothing := by
  rintro rfl
  cases h.isNothing

theorem Lies.trans (ha : ArmType n a) (hb : ArmType n b) (ht : ArmType n t) (hab : Lies a b)
    (hbt : Lies b t) : Lies a t := by
  obtain rfl | ⟨hbn, hab⟩ := hab
  · exact .inl rfl
  obtain ⟨htn, hbt⟩ := hbt.resolve_left hbn
  by_cases han : a = nothing
  · exact .inl han
  · exact .inr ⟨htn, (ha.definite han).suits_trans (hb.definite hbn) (ht.definite htn) hab hbt⟩

theorem Lies.suits (hb : ArmType n b) (h : Lies a b) : a.suits true b = true := by
  obtain rfl | ⟨-, h⟩ := h
  · exact suits_of_isNothing rfl hb.ground hb.whole
  · exact h

/-- The least type that types lie below. -/
structure Least (n : Discipline) (ts : List Ty) (j : Ty) : Prop where
  arm : ArmType n j
  upper : ∀ t ∈ ts, Lies t j
  least : ∀ u, ArmType n u → (∀ t ∈ ts, Lies t u) → Lies j u

theorem Lies.refl (ht : ArmType n t) : Lies t t := by
  obtain rfl | h := ht
  · exact .inl rfl
  · exact .inr ⟨h.ne_nothing, suits_self true h.ground h.whole rfl⟩

theorem Least.single (ht : ArmType n t) : Least n [t] t where
  arm := ht
  upper u hu := by
    cases List.mem_singleton.1 hu
    exact .refl ht
  least u _ h := h t List.mem_cons_self

theorem ArmType.least_join (ha : ArmType n a) (hb : ArmType n b) (h : a.join b = some j) :
    Least n [a, b] j := by
  by_cases han : a = nothing
  · subst han
    cases h
    exact ⟨hb, by simpa using ⟨.inl rfl, Lies.refl hb⟩, fun u _ h => h b (by simp)⟩
  have ha' := ha.definite han
  by_cases hbn : b = nothing
  · subst hbn
    rw [join, if_neg (by simp [ha'.isNothing]), if_pos (by rfl)] at h
    cases h
    exact ⟨ha, by simpa using ⟨Lies.refl ha, .inl rfl⟩, fun u _ h => h a (by simp)⟩
  have hb' := hb.definite hbn
  have hj := joined_of_join ha.ground hb.ground ha.whole hb.whole h
  obtain ⟨haj, hbj⟩ := hj.suits ha.ground hb.ground ha.whole hb.whole
  obtain ⟨hjd, hleast⟩ := hj.least ha' hb'
  refine ⟨.inr hjd, ?_, fun u hu h => ?_⟩
  · simpa using ⟨.inr ⟨hjd.ne_nothing, haj⟩, .inr ⟨hjd.ne_nothing, hbj⟩⟩
  · obtain ⟨hun, hau⟩ := (h a (by simp)).resolve_left han
    obtain ⟨-, hbu⟩ := (h b (by simp)).resolve_left hbn
    exact .inr ⟨hun, hleast u (hu.definite hun) hau hbu⟩

/-- Joining types one after the other gives the least type they lie below. -/
theorem least_foldlM : ∀ {ts : List Ty} {t : Ty}, ArmType n t → (∀ u ∈ ts, ArmType n u) →
    ts.foldlM join t = some j → Least n (t :: ts) j
  | [], t, ht, _, h => by
    cases h
    exact .single ht
  | b :: ts, t, ht, hts, h => by
    rw [List.forall_mem_cons] at hts
    rw [List.foldlM_cons] at h
    obtain ⟨k, hk, h⟩ := Option.bind_eq_some_iff.1 h
    have hfirst := ht.least_join hts.1 hk
    have hrest := least_foldlM hfirst.arm hts.2 h
    have hkj := hrest.upper k List.mem_cons_self
    refine ⟨hrest.arm, ?_, fun u hu hbelow => ?_⟩
    · simp only [List.forall_mem_cons]
      exact ⟨.trans ht hfirst.arm hrest.arm (hfirst.upper t (by simp)) hkj,
        .trans hts.1 hfirst.arm hrest.arm (hfirst.upper b (by simp)) hkj,
        fun u hu => hrest.upper u (.tail _ hu)⟩
    · simp only [List.forall_mem_cons] at hbelow
      refine hrest.least u hu (List.forall_mem_cons.2 ⟨hfirst.least u hu ?_, hbelow.2.2⟩)
      simpa using ⟨hbelow.1, hbelow.2.1⟩

end Ty

namespace Graph

open Ty

variable {n : Discipline} {kind : String} {s s' : State} {t : Ty}

theorem joinTypes_cons {e : Expr} (es : List Expr) (ht : t.Whole) (h : t.join e.type = some k) :
    joinTypes kind t (e :: es) = joinTypes kind k es := by
  cases t with
  | missing => exact (ht (mem_parts _)).elim
  | con | var | all => simp only [joinTypes, h]

/-- The types of alternatives are joined one after the other. -/
theorem joinTypes_ok : ∀ {es : List Expr} {t : Ty}, ArmType n t → (∀ e ∈ es, ArmType n e.type) →
    ∀ {j : Ty}, (joinTypes kind t es).run s = (.ok j, s') →
      (es.map (·.type)).foldlM join t = some j
  | [], t, _, _, j, h => by
    cases h
    rfl
  | e :: es, t, ht, hes, j, h => by
    rw [List.forall_mem_cons] at hes
    rw [List.map_cons, List.foldlM_cons]
    cases hk : t.join e.type with
    | some k =>
      rw [joinTypes_cons es ht.whole hk] at h
      exact joinTypes_ok (ht.least_join hes.1 hk).arm hes.2 h
    | none =>
      unfold joinTypes at h
      split at h
      · exact (ht.whole (mem_parts _)).elim
      · rw [hk] at h
        cases h

/-- The alternatives are joined to the least type that they lie below. -/
theorem joinTypes_least {es : List Expr} (hes : ∀ e ∈ es, ArmType n e.type)
    (h : (joinTypes kind .missing es).run s = (.ok t, s')) (hne : es ≠ []) :
    Least n (es.map (·.type)) t := by
  obtain ⟨e, es, rfl⟩ := List.exists_cons_of_ne_nil hne
  rw [List.forall_mem_cons] at hes
  refine least_foldlM hes.1 ?_ (joinTypes_ok hes.1 hes.2 h)
  exact List.forall_mem_map.2 hes.2

/-- **A join is an upper bound.**  Two types without variables that have a join
can be used for it, and where no type in them is unknown or left out, so can all
alternatives of an expression for the type that they are joined to. -/
theorem joins_are_upper_bounds :
    (∀ a b j : Ty, a.Ground → b.Ground → a.Whole → b.Whole → a.join b = some j →
      (∃ σ, a.unify j true = .ok σ) ∧ ∃ σ, b.unify j true = .ok σ) ∧
    ∀ (n : Discipline) (kind : String) (arms : List Expr) (s s' : State) (t : Ty),
      (∀ e ∈ arms, ArmType n e.type) → (joinTypes kind .missing arms).run s = (.ok t, s') →
      ∀ e ∈ arms, ∃ σ, e.type.unify t true = .ok σ := by
  constructor
  · intro a b j ha hb ha' hb' h
    have hj := joined_of_join ha hb ha' hb' h
    obtain ⟨haj, hbj⟩ := hj.suits ha hb ha' hb'
    have hg := hj.ground ha hb
    exact ⟨⟨_, unify_eq_ok ha hg haj⟩, ⟨_, unify_eq_ok hb hg hbj⟩⟩
  · intro n kind arms s s' t harms h e he
    have hleast := joinTypes_least harms h (List.ne_nil_of_mem he)
    have hlies := hleast.upper e.type (List.mem_map_of_mem he)
    exact ⟨_, unify_eq_ok (harms e he).ground hleast.arm.ground (hlies.suits hleast.arm)⟩

/-- An expression of a type. -/
def exprOf (t : Ty) : Expr :=
  .node t .none (.error "")

/-- The type of options. -/
def option (t : Ty) : Ty :=
  .sum "Option" [t]

/-- One case of the type of options. -/
def optionCase (c : String) (t : Ty) : Ty :=
  .caseClass "Option" c [t]

/-- Two options of a type. -/
theorem join_of_options :
    (optionCase "None" .integer).join (optionCase "Some" .integer) = some (option .integer) ∧
      (∃ σ, (optionCase "None" .integer).unify (option .integer) true = .ok σ) ∧
      (∃ σ, (optionCase "Some" .integer).unify (option .integer) true = .ok σ) ∧
      ∀ e ∈ [optionCase "None" .integer, .nothing, optionCase "Some" .integer].map exprOf,
        ∃ σ, e.type.unify (option .integer) true = .ok σ := by
  let n : Discipline := ⟨fun c => if c = .integer then 0 else 1, fun _ _ => rfl, False⟩
  have hint : integer.Definite n := .mk_con rfl rfl (by simp)
  have hcase (c : String) : (optionCase c .integer).Definite n :=
    .mk_con rfl rfl (by simpa using hint)
  have hjoin : (optionCase "None" .integer).join (optionCase "Some" .integer) =
      some (option .integer) :=
    (join_ground (hcase "None").ground (hcase "Some").ground).trans rfl
  have hboth := joins_are_upper_bounds.1 _ _ (option .integer) (hcase "None").ground
    (hcase "Some").ground (hcase "None").whole (hcase "Some").whole hjoin
  refine ⟨hjoin, hboth.1, hboth.2, ?_⟩
  refine joins_are_upper_bounds.2 n "Match" _ (.new .v3 ⟨[]⟩ false) (.new .v3 ⟨[]⟩ false) _ ?_ ?_
  · simpa [exprOf, Expr.type] using ⟨.inr (hcase "None"), .inl rfl, .inr (hcase "Some")⟩
  · change (joinTypes _ (optionCase "None" .integer) [exprOf .nothing, _]).run _ = _
    rw [joinTypes_cons _ (hcase "None").whole rfl,
      joinTypes_cons (e := exprOf (optionCase "Some" .integer)) _ (hcase "None").whole hjoin]
    rfl

/-- Three types without variables of which the first does not fit the join.  The
second one, which the first is joined to, has nothing where the first has
integers, so the third may have texts there. -/
theorem join_of_three_unfit :
    let a : Ty := .caseClass "Either" "Left" [optionCase "Some" .integer, .integer]
    let b : Ty := .sum "Either" [optionCase "Some" .integer, .nothing]
    let c : Ty := .sum "Either" [option .integer, .string]
    (a.Ground ∧ b.Ground ∧ c.Ground) ∧
      (joinTypes "Match" .missing ([a, b, c].map exprOf)).run (.new .v3 ⟨[]⟩ false) =
        (.ok c, .new .v3 ⟨[]⟩ false) ∧
      ∀ σ, a.unify c true ≠ .ok σ := by
  intro a b c
  obtain ⟨⟨ha, ha'⟩, ⟨hb, hb'⟩, hc⟩ : (a.Ground ∧ a.Whole) ∧ (b.Ground ∧ b.Whole) ∧ c.Ground := by
    simp [a, b, c, Ground, Whole, parts, partsAll, Ty.sum, caseClass, option, optionCase, integer,
      string, nothing]
  have hab : a.join b = some b := (join_ground ha hb).trans rfl
  have hbc : b.join c = some c := (join_ground hb hc).trans rfl
  refine ⟨⟨ha, hb, hc⟩, ?_, fun σ h => ?_⟩
  · change (joinTypes _ a [exprOf b, exprOf c]).run _ = _
    rw [joinTypes_cons (e := exprOf b) _ ha' hab, joinTypes_cons (e := exprOf c) _ hb' hbc]
    rfl
  · obtain ⟨e, he⟩ := unify_ground true ha hc
    cases he.symm.trans h

end Graph
end CoreLowering
