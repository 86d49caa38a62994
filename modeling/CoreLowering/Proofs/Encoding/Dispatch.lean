import CoreLowering.Proofs.Encoding.Growing
import CoreLowering.Proofs.Encoding.Stored

/-!
# Reading fields and choosing branches

A match on a declared type reads the fields of a constructor from a list, one
after the other, and chooses a branch by the tag.  A native case refuses a tag
that has no branch; a choice made by tests takes the last branch for any tag
that no test is made for.

Main statements: `bindFields_reads`, the variables of an arm come to the
fields; `switchInteger_takes`, the choice comes to what `takenBranch` does.
-/

namespace CoreLowering.Encoding

open CoreLowering.Graph
open CoreLowering.FirstOrder (Extends Lands availableIn_of_since)

variable {g s s' : State} {id list x : Nat} {t : Ty} {r : Rep} {span : Span} {ρ : Given}
  {k i tag : Nat} {rest : List (ValueId × Nat)} {bs : List ValueId}

/-! ## Fields -/

/-- The value reads item number `k` of a list of data. -/
structure ReadsItem (g : State) (list k x : Nat) : Prop where
  tidy : ∀ {Δ : List ValueId}, Tidy g Δ list → Tidy g Δ x
  comes : ∀ {ρ ds d}, Comes g ρ list (.con (.dataList ds)) → ds[k]? = some d →
    Comes g ρ x (.con (.data d))

/-- The value is a list of data without its first `n` items. -/
structure Drops (g : State) (list n rest : Nat) : Prop where
  tidy : ∀ {Δ : List ValueId}, Tidy g Δ list → Tidy g Δ rest
  comes : ∀ {ρ ds}, Comes g ρ list (.con (.dataList ds)) → n ≤ ds.length →
    Comes g ρ rest (.con (.dataList (ds.drop n)))

theorem Drops.reads {n rest : Nat} (h : Drops g list n rest) (hx : ReadsItem g rest k x) :
    ReadsItem g list (n + k) x := by
  refine ⟨fun ht => hx.tidy (h.tidy ht), fun hc hd => ?_⟩
  have hlen := (List.getElem?_eq_some_iff.1 hd).1
  refine hx.comes (h.comes hc (by omega)) ?_
  rw [List.getElem?_drop]
  exact hd

theorem Drops.zero : Drops g list 0 list :=
  ⟨fun ht => ht, fun hc _ => hc⟩

section

variable (hw : s.target ≠ .unknown) (hv : Valid s list)

include hw hv

/-- The rest of a list. -/
theorem tailList_drops :
    Lands (builtin .tailList dataListT .constant span [list]) s fun rest s' =>
      Is s' rest (.builtin .tailList [list]) dataListT .constant ∧
        ∀ g, Later 0 s' g → Drops g list 1 rest := by
  refine (builtin_is (availableIn_of_since rfl rfl hw) (by simpa using hv)).mono ?_
  rintro rest s' he ⟨-, h⟩
  refine ⟨h, fun g hg => ⟨fun ht => (h.grow hg).tidy rfl rfl (by simpa using ht), ?_⟩⟩
  intro ρ ds hc hle
  obtain _ | ⟨d, ds⟩ := ds
  · cases hle
  · exact .builtin (h.grow hg).node
      (availableIn_of_since rfl rfl (hg.target.trans he.target ▸ hw)) rfl (by simp) (.cons hc .nil)
      rfl

/-- The first item of a list. -/
theorem headList_reads :
    Lands (builtin .headList t r span [list]) s fun head s' =>
      Is s' head (.builtin .headList [list]) t r ∧
        ∀ g, Later 0 s' g → ReadsItem g list 0 head := by
  refine (builtin_is (availableIn_of_since rfl rfl hw) (by simpa using hv)).mono ?_
  rintro head s' he ⟨-, h⟩
  refine ⟨h, fun g hg => ⟨fun ht => (h.grow hg).tidy rfl rfl (by simpa using ht), ?_⟩⟩
  intro ρ ds d hc hd
  obtain _ | ⟨d', ds⟩ := ds
  · cases hd
  · cases hd
    exact .builtin (h.grow hg).node
      (availableIn_of_since rfl rfl (hg.target.trans he.target ▸ hw)) rfl (by simp) (.cons hc .nil)
      rfl

end

/-- A variable reads what its definition reads. -/
theorem ReadsItem.var {y : Nat} {name : String} (h : ReadsItem g list k y)
    (hx : Is g x (.var name (some y)) t r) : ReadsItem g list k x :=
  ⟨fun ht => hx.tidy rfl rfl (by simpa using h.tidy ht),
    fun hc hd => .defined hx.node (h.comes hc hd)⟩

theorem Drops.var {n y : Nat} {name : String} (h : Drops g list n y)
    (hx : Is g x (.var name (some y)) t r) : Drops g list n x :=
  ⟨fun ht => hx.tidy rfl rfl (by simpa using h.tidy ht),
    fun hc hle => .defined hx.node (h.comes hc hle)⟩

theorem fieldRep_run (ht : s.decls.family t ≠ .function) :
    (fieldRep t span).run s = (.ok (s.decls.packedRep t), s) := by
  rw [fieldRep, run_bind_of_ok decls_run, if_neg ht]
  rfl

/-- The variables of the fields of a constructor, with all variables that were
made to read them. -/
structure FieldsBound (s : State) (list skip : Nat) (fields : List (Field × Ty))
    (xs owned : List ValueId) : Prop where
  known : List.Forall₂ (fun f x => ∃ name rhs, Is s x (.var name (some rhs)) f.2
    (s.decls.packedRep f.2)) fields xs
  used : ∀ x : Nat, x ∈ xs → ∀ u : Nat, u ∈ (s.usedOf x).ids →
    u ∈ owned ∨ u ∈ (s.usedOf list).ids
  reads : ∀ k x : Nat, xs[k]? = some x → ∀ g, Later 0 s g → ReadsItem g list (skip + k) x

/-- Going on to the next field: the list to read it from, and the variable made
for that. -/
def nextField (span : Span) (i : Nat) (list : ValueId) : LowerM (ValueId × List ValueId) :=
  if i = 0 then pure (list, [])
  else do
    let tail ← builtin .tailList dataListT .constant span [list]
    let rest ← newVar "rest" dataListT .constant tail span
    pure (rest, [rest])

theorem bindFields_cons (arm : Option Arm) (f : Field × Ty) (fields : List (Field × Ty))
    (i : Nat) : bindFields arm span (f :: fields) i list = nextField span i list >>= fun p =>
      do
        let rep ← fieldRep f.2 span
        let head ← builtin .headList f.2 rep span [p.1]
        let x ← newVar (binderName arm i f.1.name) f.2 rep head span
        let q ← bindFields arm span fields (i + 1) p.1
        return (x :: q.1, p.2 ++ x :: q.2) := by
  conv => lhs; unfold bindFields
  unfold nextField
  split
  · rfl
  · simp only [bind_assoc, pure_bind]

theorem nextField_drops (hw : s.target ≠ .unknown) (hv : Valid s list) :
    Lands (nextField span i list) s fun p s' => Valid s' p.1 ∧
        (∀ u : Nat, u ∈ (s'.usedOf p.1).ids → u ∈ p.2 ∨ u ∈ (s'.usedOf list).ids) ∧
        ∀ g, Later 0 s' g → Drops g list (if i = 0 then 0 else 1) p.1 := by
  unfold nextField
  split
  · exact .pure ⟨hv, fun u hu => .inr hu, fun g _ => .zero⟩
  · refine .bind (tailList_drops hw hv) ?_
    rintro tail s1 e1 - ⟨htail, hdrops⟩
    refine .bind (newVar_is htail.valid) ?_
    rintro rest s2 e2 - ⟨-, name, hrest⟩
    have l2 : Later 0 s1 s2 := e2.later
    refine .pure ⟨hrest.valid, fun u hu => ?_, fun g hg =>
      (hdrops g (l2.trans hg)).var (hrest.grow hg)⟩
    rcases (hrest.used u).1 hu with ⟨rfl, -⟩ | ⟨y, hy, huy⟩
    · exact .inl (by simp)
    · rw [part_var.1 hy] at huy
      rcases ((htail.grow l2).used u).1 huy with ⟨-, hid⟩ | ⟨z, hz, huz⟩
      · cases hid
      · rw [part_builtin, List.mem_singleton] at hz
        exact .inr (hz ▸ huz)

/-- **The variables of an arm** read the fields of the constructor.  All fields
but the first are read from the rest of the list. -/
theorem bindFields_reads (hw : s.target ≠ .unknown) (hv : Valid s list) (arm : Option Arm)
    {fields : List (Field × Ty)} (hf : ∀ f ∈ fields, s.decls.family f.2 ≠ .function) :
    Lands (bindFields arm span fields i list) s fun p s' =>
      FieldsBound s' list (if i = 0 then 0 else 1) fields p.1 p.2 := by
  induction fields generalizing s list i with
  | nil => exact .pure ⟨.nil, by simp, by simp⟩
  | cons f fields ih =>
    rw [List.forall_mem_cons] at hf
    rw [bindFields_cons]
    refine .bind (nextField_drops hw hv) ?_
    rintro ⟨list', before⟩ s1 e1 - ⟨hv1, hused1, hdrops⟩
    have hw1 : s1.target ≠ .unknown := e1.target ▸ hw
    refine .read (fieldRep_run (e1.decls ▸ hf.1)) ?_
    refine .bind (headList_reads hw1 hv1) ?_
    rintro head s2 e2 - ⟨hhead, hreads⟩
    refine .bind (newVar_is hhead.valid) ?_
    rintro x s3 e3 - ⟨-, name, hx⟩
    have e13 : Extends s1 s3 := e2.trans e3
    have l13 : Later 0 s1 s3 := e13.later
    refine .bind (ih (e13.target ▸ hw1) (l13.valid hv1)
      fun f hmem => (e1.trans e13).decls ▸ hf.2 f hmem) ?_
    rintro ⟨xs, owned⟩ s4 e4 - hrest
    have l3 : Later 0 s2 s4 := (e3.trans e4).later
    have l4 : Later 0 s3 s4 := e4.later
    have l14 : Later 0 s1 s4 := l13.trans l4
    -- what the list in hand uses is a variable that was made, or used by the whole list
    have hbefore : ∀ u : Nat, u ∈ (s4.usedOf list').ids →
        u ∈ before ++ x :: owned ∨ u ∈ (s4.usedOf list).ids := by
      have hlist : Valid s1 list := e1.valid hv
      rw [l14.usedOf hv1.1 hv1, l14.usedOf hlist.1 hlist]
      exact fun u hu => (hused1 u hu).imp_left (List.mem_append_left _)
    refine .pure ⟨.cons ⟨name, head, ?_⟩ hrest.known, ?_, ?_⟩
    · rw [e4.decls.trans e13.decls]
      exact hx.grow l4
    · rw [List.forall_mem_cons]
      refine ⟨fun u hu => ?_, fun y hy u hu => ?_⟩
      · rcases ((hx.grow l4).used u).1 hu with ⟨rfl, -⟩ | ⟨y, hy, huy⟩
        · exact .inl (by simp)
        · rw [part_var.1 hy] at huy
          rcases ((hhead.grow l3).used u).1 huy with ⟨-, hid⟩ | ⟨z, hz, huz⟩
          · cases hid
          · rw [part_builtin, List.mem_singleton] at hz
            subst hz
            exact hbefore u huz
      · rcases hrest.used y hy u hu with hmem | hmem
        · exact .inl (by simp [hmem])
        · exact hbefore u hmem
    · intro k y hy g hg
      have hd := hdrops g (l14.trans hg)
      cases k with
      | zero =>
        cases hy
        exact hd.reads ((hreads g (l3.trans hg)).var (hx.grow (l4.trans hg)))
      | succ k =>
        have hnext := hrest.reads k y (by simpa using hy) g hg
        rw [if_neg (Nat.succ_ne_zero i), Nat.add_comm 1 k] at hnext
        exact hd.reads hnext

/-! ## Branches -/

/-- The branch that is taken for a tag.  A single branch is always taken; a
native case refuses a tag without a branch, tests take the last one for it. -/
def takenBranch (native : Bool) (bs : List ValueId) (k : Nat) : Option ValueId :=
  if bs.length = 1 ∨ native = false then bs[min k (bs.length - 1)]? else bs[k]?

/-- What a chain of tests leads to, the last test being made first. -/
def tested (k : Nat) (rest : List (ValueId × Nat)) (out : ValueId) : ValueId :=
  rest.foldl (fun out p => if k = p.2 then p.1 else out) out

theorem tested_reverse (k i : Nat) (bs : List ValueId) (out : ValueId) (hi : i ≤ k) :
    tested k (bs.zipIdx i).reverse out = (bs[k - i]?).getD out := by
  rw [tested, List.foldl_reverse]
  induction bs generalizing i with
  | nil => rfl
  | cons b bs ih =>
    rw [List.zipIdx_cons, List.foldr_cons]
    by_cases hk : k = i
    · simp [hk]
    · rw [if_neg hk, ih (i + 1) (by omega), show k - i = k - (i + 1) + 1 by omega,
        List.getElem?_cons_succ]

theorem Comes.tested {a b : Nat} {v : Sense} (h : Comes g ρ (tested k rest a) v)
    (hab : Comes g ρ a v → Comes g ρ b v) : Comes g ρ (Encoding.tested k rest b) v := by
  induction rest generalizing a b with
  | nil => exact hab h
  | cons p rest ih =>
    refine ih (a := if k = p.2 then p.1 else a) (b := if k = p.2 then p.1 else b) h ?_
    split
    · exact fun hc => hc
    · exact hab

/-- A choice by a truth value, made by a builtin. -/
theorem ifThenElse_is {cond yes no : Nat} (hn : isNative s.target = false)
    (hc : Valid s cond) (hy : Valid s yes) (hno : Valid s no) :
    Lands (ifThenElse cond yes no t r span) s fun id s' =>
      Is s' id (.caseOf .bool false cond [no, yes] [] []) t r := by
  refine .bind FirstOrder.beginCase_lands ?_
  rintro _ s1 he - rfl
  have l : Later 0 s s1 := he.later
  refine .read (a := [no, yes]) rfl ?_
  rw [hn, if_neg Bool.false_ne_true]
  refine (newNode_is rfl rfl ?_).mono fun _ _ _ h => h.2
  simpa [Node.subs] using ⟨l.valid hc, l.valid hno, l.valid hy⟩

/-- The chain of tests around the last branch. -/
theorem switchChain_takes {out : Nat} (hw : s.target ≠ .unknown) (hn : isNative s.target = false)
    (ht : Valid s tag) (hrest : ∀ p ∈ rest, Valid s p.1) (hout : ∃ n, At s out n t r) :
    Lands (switchChain tag t r span rest out) s fun id s' => (∃ n, At s' id n t r) ∧
      ∀ g, Later 0 s' g →
        (∀ Δ : List ValueId, Tidy g Δ tag → (∀ p ∈ rest, Tidy g Δ p.1) → Tidy g Δ out →
          Tidy g Δ id) ∧
        ∀ ρ (k : Nat) v, Comes g ρ tag (.con (.integer k)) → Comes g ρ (tested k rest out) v →
          Comes g ρ id v := by
  induction rest generalizing s out with
  | nil =>
    exact .pure ⟨hout, fun g _ => ⟨fun _ _ _ h => h, fun _ _ _ _ h => h⟩⟩
  | cons p rest ih =>
    rw [List.forall_mem_cons] at hrest
    refine .bind constIn_is ?_
    rintro number s1 e1 - ⟨-, hnumber⟩
    have l1 : Later 0 s s1 := e1.later
    have hw1 : s1.target ≠ .unknown := e1.target ▸ hw
    refine .bind (builtin_is (availableIn_of_since rfl rfl hw1)
      (by simpa using ⟨l1.valid ht, hnumber.valid⟩)) ?_
    rintro cond s2 e2 - ⟨-, hcond⟩
    have l2 : Later 0 s1 s2 := e2.later
    have e12 : Extends s s2 := e1.trans e2
    have l12 : Later 0 s s2 := e12.later
    obtain ⟨m, hm⟩ := hout
    refine .bind (ifThenElse_is (e12.target ▸ hn) hcond.valid (l12.valid hrest.1)
      (l12.valid hm.valid)) ?_
    intro next s3 e3 _ hnext
    have e : Extends s s3 := e12.trans e3
    have l3 : Later 0 s2 s3 := e3.later
    have l : Later 0 s s3 := e.later
    refine (ih (e.target ▸ hw) (e.target ▸ hn) (l.valid ht)
      (fun q hq => l.valid (hrest.2 q hq)) ⟨_, hnext.known⟩).mono ?_
    rintro id s4 e4 ⟨hat, hid⟩
    refine ⟨hat, fun g hg => ?_⟩
    have l4 : Later 0 s3 g := e4.later.trans hg
    obtain ⟨htidy, hcomes⟩ := hid g hg
    have hnumber := (hnumber.grow l2).grow (l3.trans l4)
    have hcond := hcond.grow (l3.trans l4)
    have hnext := hnext.grow l4
    refine ⟨fun Δ htag hbs hlast => ?_, fun ρ k v htag hv => ?_⟩
    · rw [List.forall_mem_cons] at hbs
      refine htidy Δ htag hbs.2 (hnext.tidy rfl rfl fun x hx => ?_)
      simp only [Part, Node.rhs?, Node.subs, List.mem_cons, List.not_mem_nil, or_false,
        reduceCtorEq, false_or] at hx
      rcases hx with rfl | rfl | rfl
      · refine hcond.tidy rfl rfl fun y hy => ?_
        rw [part_builtin, List.mem_cons, List.mem_singleton] at hy
        rcases hy with rfl | rfl
        · exact htag
        · exact .leaf hnumber.node rfl
      · exact hlast
      · exact hbs.1
    · have hv : Comes g ρ (tested k rest (if k = p.2 then p.1 else out)) v := hv
      refine hcomes ρ k v htag (hv.tested fun htaken => ?_)
      have hw4 : g.target ≠ .unknown := l4.target.trans e.target ▸ hw
      have htest : Comes g ρ cond (.con (.bool ((k : Int) == p.2))) :=
        .builtin hcond.node (availableIn_of_since rfl rfl hw4) rfl (by simp)
          (.cons htag (.cons (.const hnumber.node) .nil)) rfl
      refine .choice hnext.node htest rfl ?_
      simpa [Int.ofNat_inj] using htaken

theorem beginCase_native (hn : isNative s.target = true) {sh : Shape} :
    Lands (beginCase sh x span) s fun opened _ =>
      opened = ⟨sh, true, x, [], List.replicate sh.branches [], span⟩ := by
  refine .read target_run ?_
  rw [hn]
  exact .read rfl (.bind FirstOrder.point_lands fun _ _ _ _ _ => .pure rfl)

theorem fillBranches_run (bs : List ValueId) :
    (fillBranches t span (bs.map some)).run s = (.ok bs, s) := by
  unfold fillBranches
  induction bs with
  | nil => rfl
  | cons b bs ih =>
    rw [List.map_cons, List.mapM_cons, run_bind_of_ok (run_pure b),
      run_bind_of_ok ih, run_pure]

/-- A native choice by an integer. -/
theorem integerCase_is (hn : isNative s.target = true) (ht : Valid s tag)
    (hbs : ∀ b : Nat, b ∈ bs → Valid s b) :
    Lands (do
        let c ← beginCase .integer tag span
        let c := { c with binders := bs.map fun _ => [] }
        c.finish (bs.map some) t r) s fun id s' =>
      Is s' id (.caseOf .integer true tag bs [] (bs.map fun _ => [])) t r := by
  refine .bind (beginCase_native hn) ?_
  rintro _ s1 he - rfl
  have l : Later 0 s s1 := he.later
  refine .read (fillBranches_run bs) ?_
  refine (newNode_is rfl ?_ ?_).mono fun _ _ _ h => h.2
  · simp [Node.scopeOf]
  · simp only [Node.subs, List.forall_mem_cons]
    exact ⟨l.valid ht, fun b hb => l.valid (hbs b hb)⟩

theorem takenBranch_concat (init : List ValueId) (last : ValueId) (k : Nat) :
    takenBranch false (init ++ [last]) k = some ((init[k]?).getD last) := by
  rw [takenBranch, if_pos (.inr rfl), List.length_append, List.length_singleton,
    Nat.add_sub_cancel]
  by_cases hk : k < init.length
  · rw [Nat.min_eq_left (Nat.le_of_lt hk), List.getElem?_append_left hk,
      List.getElem?_eq_getElem hk]
    rfl
  · rw [Nat.min_eq_right (Nat.le_of_not_lt hk), List.getElem?_concat_length,
      List.getElem?_eq_none (Nat.le_of_not_lt hk)]
    rfl

/-- **The choice of a branch by a tag**, which is a variable. -/
theorem switchInteger_takes {n : Node} (hw : s.target ≠ .unknown)
    (ht : At s tag n .integer .constant) (hvar : n.isIdentifiable = true) (hne : bs ≠ [])
    (hbs : ∀ b : Nat, b ∈ bs → ∃ n, At s b n t r) :
    Lands (switchInteger tag bs t r span) s fun id s' => (∃ n, At s' id n t r) ∧
      (isNative s.target = true → ∀ u : Nat, u ∈ (s'.usedOf id).ids →
        u ∈ (s'.usedOf tag).ids ∨ ∃ b : Nat, b ∈ bs ∧ u ∈ (s'.usedOf b).ids) ∧
      ∀ g, Later 0 s' g →
        (∀ Δ : List ValueId, Tidy g Δ tag → (∀ b : Nat, b ∈ bs → Tidy g Δ b) → Tidy g Δ id) ∧
        ∀ ρ (k : Nat) b v, Comes g ρ tag (.con (.integer k)) →
          takenBranch (isNative s.target) bs k = some b → Comes g ρ b v →
          Comes g ρ id v := by
  have hvalid : ∀ b : Nat, b ∈ bs → Valid s b := fun b hb => (hbs b hb).choose_spec.valid
  unfold switchInteger
  split
  · rename_i only
    refine .pure ⟨hbs only (by simp), fun _ u hu => .inr ⟨only, by simp, hu⟩, fun g _ => ?_⟩
    refine ⟨fun Δ _ h => h only (by simp), fun ρ k b v _ hb hv => ?_⟩
    have hb : only = b := by simpa [takenBranch] using hb
    exact hb ▸ hv
  · rename_i hlen
    have hlen : bs.length ≠ 1 := fun h => by
      obtain ⟨b, rfl⟩ := List.length_eq_one_iff.1 h
      exact hlen b rfl
    refine .read target_run ?_
    cases hn : isNative s.target with
    | true =>
      refine (integerCase_is hn ht.valid hvalid).mono fun id s' he h => ?_
      refine ⟨⟨_, h.known⟩, fun _ u hu => ?_, fun g hg => ⟨fun Δ htag hb => ?_, ?_⟩⟩
      · rcases (h.used u).1 hu with ⟨-, hid⟩ | ⟨x, hx, hux⟩
        · cases hid
        · simp only [Part, Node.rhs?, Node.subs, List.mem_cons, reduceCtorEq, false_or] at hx
          rcases hx with rfl | hx
          · exact .inl hux
          · exact .inr ⟨x, hx, hux⟩
      · refine (h.grow hg).tidy (by simp [isFlat]) rfl fun x hx => ?_
        simp only [Part, Node.rhs?, Node.subs, List.mem_cons, reduceCtorEq, false_or] at hx
        rcases hx with rfl | hx
        · exact htag
        · exact hb x hx
      · intro ρ k b v htag hb hv
        rw [takenBranch, if_neg (by simp [hlen])] at hb
        have hw : g.target.hasBuiltinCase = true := by
          rw [hg.target, he.target]
          exact hn
        have hbranch : branch? .integer (.integer k) = some (k, []) := by simp [branch?]
        refine .case (h.grow hg).node hw htag hbranch hb ?_ rfl .nil (.inl rfl) hv
        rw [List.getElem?_map, hb]
        rfl
    | false =>
      obtain ⟨v, hv, rfl, -⟩ := id ht
      have hletVar : (letVar "tag" tag).run s = (.ok tag, s) := by
        rw [letVar, run_bind_of_ok (value_run hv), if_pos hvar]
        rfl
      obtain ⟨init, last, rfl⟩ := (List.eq_nil_or_concat bs).resolve_left hne
      rw [List.concat_eq_append] at *
      have hrev : (init ++ [last]).zipIdx.reverse = (last, init.length) :: init.zipIdx.reverse := by
        simp [List.zipIdx_append]
      rw [hrev]
      refine .read hletVar ?_
      refine (switchChain_takes hw hn ht.valid ?_ (hbs last (by simp))).mono ?_
      · rintro ⟨b, i⟩ hp
        exact hvalid b (by simp [(List.mem_zipIdx (List.mem_reverse.1 hp)).2.2])
      rintro id s' - ⟨hat, h⟩
      refine ⟨hat, by simp, fun g hg => ?_⟩
      obtain ⟨htidy, hcomes⟩ := h g hg
      refine ⟨fun Δ htag hb => ?_, fun ρ k b v htag hb hv => ?_⟩
      · refine htidy Δ htag ?_ (hb last (by simp))
        rintro ⟨b, i⟩ hp
        exact hb b (by simp [(List.mem_zipIdx (List.mem_reverse.1 hp)).2.2])
      · refine hcomes ρ k v htag ?_
        rw [tested_reverse k 0 init last (Nat.zero_le k), Nat.sub_zero]
        rw [takenBranch_concat] at hb
        cases hb
        exact hv

end CoreLowering.Encoding
