import CoreLowering.Proofs.Graph.Run

/-!
# Which arm takes which branch

A branch of a match belongs to the first arm, in the order of the source, that
bears its name or is a wildcard.  The arms are gone over once.  A named arm is
put into its branch at once, a wildcard only at the end, into the branches that
are still empty, and what is reported on the way depends on both.  `Assigned`
says what holds when some arms have been gone over: `Assigned.step` takes one
arm more, with a case for each kind, and `Assigned.run` a list of them.  An arm
is told from its copies by its place.

Main statement: `Matching.branches_go_to_first_arms`.
-/

namespace CoreLowering.Graph

variable {names : List String} {s : State} {p q : Arm × Nat} {done : List (Arm × Nat)}
  {wild : Option Arm} {slots : List (Option Arm)} {rest : List (Arm × Nat)} {arms : List Arm}
  {i : Nat}

/-- An arm takes the branch that it names; a wildcard takes every branch. -/
def takes (name : String) (a : Arm) : Bool := isWildcard a || a.constr == name

/-- The arm that a branch belongs to: the first one that takes it. -/
def taker (arms : List (Arm × Nat)) (name : String) : Option (Arm × Nat) :=
  arms.find? fun p => takes name p.1

/-- The first wildcard. -/
def wildcard? (arms : List (Arm × Nat)) : Option (Arm × Nat) :=
  arms.find? fun p => isWildcard p.1

/-- The arm that a branch belongs to, if it names the branch. -/
def own (arms : List (Arm × Nat)) (name : String) : Option (Arm × Nat) :=
  (taker arms name).filter fun p => !isWildcard p.1

/-- The arm names something that is not a branch. -/
def isStray (names : List String) (a : Arm) : Bool :=
  !isWildcard a && !names.contains a.constr

/-- The finding for an arm that no branch belongs to. -/
def unreachable (a : Arm) : Diagnostic :=
  .warning .unreachableArm a.span
    (if isWildcard a then "wildcard arm is unreachable"
    else "arm " ++ a.constr ++ " is unreachable")

/-- The finding for a branch that belongs to no arm. -/
def Matching.missing (m : Matching) (name : String) : Diagnostic :=
  .warning .unreachableArm m.span ("no arm for " ++ name ++ "; the branch fails at runtime")

/-! ## What a step reports -/

/-- A step that adds findings and goes on as another one. -/
def Reports {α : Type} (m : LowerM α) (ds : List Diagnostic) (m' : LowerM α) : Prop :=
  ∀ s, ∃ s', m.run s = m'.run s' ∧ s'.diagnostics = s.diagnostics ++ ds

namespace Reports

variable {α β : Type} {m m' m'' : LowerM α} {f : α → LowerM β} {a : α} {ds es : List Diagnostic}

theorem refl : Reports m [] m := fun s => ⟨s, rfl, (List.append_nil _).symm⟩

theorem trans (h : Reports m ds m') (h' : Reports m' es m'') : Reports m (ds ++ es) m'' := by
  intro s
  obtain ⟨s', hrun, hds⟩ := h s
  obtain ⟨s'', hrun', hes⟩ := h' s'
  exact ⟨s'', hrun.trans hrun', by rw [hes, hds, List.append_assoc]⟩

theorem bind (h : Reports m ds (pure a)) : Reports (m >>= f) ds (f a) := by
  intro s
  obtain ⟨s', hrun, hds⟩ := h s
  exact ⟨s', run_bind_of_ok hrun, hds⟩

theorem warn {code : Code} {span : Span} {message : String} :
    Reports (Graph.warn code span message) [.warning code span message] (pure ()) := by
  refine fun s => ⟨_, rfl, ?_⟩
  simp only [State.diagnostics, List.reverse_cons]
  split <;> rfl

end Reports

/-! ## First arms -/

theorem find?_eq_some_here {f : Arm × Nat → Bool} (hp : p ∉ done) :
    (done ++ p :: rest).find? f = some p ↔ done.find? f = none ∧ f p = true := by
  constructor
  · intro h
    refine ⟨?_, List.find?_some (p := f) h⟩
    cases hf : done.find? f with
    | none => rfl
    | some q =>
      rw [List.find?_append, hf, Option.some_or, Option.some_inj] at h
      exact absurd (h ▸ List.mem_of_find?_eq_some hf) hp
  · rintro ⟨hf, hp⟩
    rw [List.find?_append, hf, Option.none_or, List.find?_cons_of_pos hp]

/-- Where the first arm for a branch is a wildcard, it is the first wildcard. -/
theorem own_or_wildcard? (done : List (Arm × Nat)) (name : String) :
    (own done name).or (wildcard? done) = taker done name := by
  induction done with
  | nil => rfl
  | cons p rest ih =>
    by_cases hw : isWildcard p.1
    · simp [own, taker, wildcard?, takes, hw, Option.filter_some]
    by_cases hc : p.1.constr = name
    · simp [own, taker, wildcard?, takes, hw, hc, Option.filter_some]
    · simpa [own, taker, wildcard?, takes, hw, hc] using ih

/-- One more arm: it is put into the branch that it names if no arm takes that yet. -/
theorem own_concat (name : String) :
    own (done ++ [p]) name =
      if isWildcard p.1 = false ∧ p.1.constr = name ∧ taker done name = none then some p
      else own done name := by
  rw [own, own, taker, taker, List.find?_append]
  cases done.find? fun p => takes name p.1 with
  | some q => simp
  | none =>
    by_cases hw : isWildcard p.1
    · simp [takes, hw, Option.filter_some]
    by_cases hc : p.1.constr = name <;> simp [takes, hw, hc, Option.filter_some]

theorem wildcard?_isWildcard (h : wildcard? done = some p) : isWildcard p.1 = true :=
  List.find?_some (p := fun q : Arm × Nat => isWildcard q.1) h

theorem wildcard?_concat :
    wildcard? (done ++ [p]) = (wildcard? done).or (if isWildcard p.1 then some p else none) := by
  rw [wildcard?, List.find?_append, List.find?_singleton, wildcard?]

/-! ## Going over the arms -/

/-- What is known when some arms have been gone over. -/
structure Assigned (names : List String) (done : List (Arm × Nat)) (wild : Option Arm)
    (slots : List (Option Arm)) : Prop where
  wild : wild = (wildcard? done).map (·.1)
  slots : slots = names.map fun n => (own done n).map (·.1)

/-- No branch is left to an arm when its turn comes, and another wildcard was before it if it is
one itself. -/
def Late (names : List String) (arms : List (Arm × Nat)) (p : Arm × Nat) : Prop :=
  wildcard? arms ≠ some p ∧ ∀ n ∈ names, taker arms n ≠ some p

noncomputable instance {arms : List (Arm × Nat)} : DecidablePred (Late names arms) :=
  fun _ => Classical.propDecidable _

theorem late_iff (hp : p ∉ done) :
    Late names (done ++ p :: rest) p ↔
      (isWildcard p.1 = true → wildcard? done ≠ none) ∧
        ∀ n ∈ names, takes n p.1 = true → taker done n ≠ none := by
  simp only [Late, wildcard?, taker, ne_eq, find?_eq_some_here hp, not_and']

namespace Assigned

theorem nil : Assigned names [] none (names.map fun _ => none) := ⟨rfl, rfl⟩

/-- A branch is taken when a wildcard has been seen or its slot is full. -/
theorem taken (h : Assigned names done wild slots) {n : String} (hi : names[i]? = some n) :
    (wild.isSome || ((slots[i]?).getD none).isSome) = (taker done n).isSome := by
  rw [h.wild, h.slots, List.getElem?_map, hi, ← own_or_wildcard? done n, Option.isSome_or,
    Bool.or_comm]
  simp

/-- The branches with the wildcard filled in belong to their first arms. -/
theorem filled (h : Assigned names done wild slots) :
    (slots.map fun a => a.or wild) = names.map fun n => (taker done n).map (·.1) := by
  rw [h.slots, h.wild, List.map_map]
  refine List.map_congr_left fun n _ => ?_
  rw [Function.comp_apply, ← Option.map_or, own_or_wildcard?]

/-- The first wildcard has no branch when all slots are full. -/
theorem full_iff (h : Assigned names done wild slots) (hw : wildcard? done = some p) :
    slots.all Option.isSome = true ↔ ∀ n ∈ names, taker done n ≠ some p := by
  rw [h.slots, List.all_map, List.all_eq_true]
  refine forall₂_congr fun n _ => ?_
  have hp := wildcard?_isWildcard hw
  rw [← own_or_wildcard?, hw, Function.comp_apply, Option.isSome_map]
  cases hf : own done n with
  | none => simp
  | some q =>
    have hne : q ≠ p := by
      rintro rfl
      simpa [hp] using (Option.filter_eq_some_iff.1 hf).2
    simpa using hne

/-- The slots stay, unless the arm names a branch that nothing takes yet. -/
theorem kept (h : Assigned names done wild slots) {wild' : Option Arm}
    (hwild : wild' = (wildcard? (done ++ [p])).map (·.1))
    (htaken : isWildcard p.1 = false → taker done p.1.constr ≠ none) :
    Assigned names (done ++ [p]) wild' slots := by
  refine ⟨hwild, h.slots.trans (List.map_congr_left fun n _ => ?_)⟩
  rw [own_concat, if_neg]
  rintro ⟨hw, rfl, hfree⟩
  exact htaken hw hfree

theorem fill (h : Assigned names done wild slots) (hn : names.Nodup) (hw : isWildcard p.1 = false)
    (hi : names[i]? = some p.1.constr) (hfree : taker done p.1.constr = none) :
    Assigned names (done ++ [p]) wild (slots.set i (some p.1)) := by
  have hlt := (List.getElem?_eq_some_iff.1 hi).1
  refine ⟨by simp [h.wild, wildcard?_concat, hw], h.slots ▸ List.ext_getElem? fun j => ?_⟩
  rw [List.getElem?_set, List.length_map, List.getElem?_map, List.getElem?_map]
  split
  · subst i
    rw [hi, Option.map_some, own_concat, if_pos ⟨hw, rfl, hfree⟩]
    rfl
  cases hj : names[j]? with
  | none => rfl
  | some n =>
    rw [Option.map_some, Option.map_some, own_concat, if_neg]
    rintro ⟨-, rfl, -⟩
    exact absurd ((List.getElem?_inj hlt hn).1 (hi.trans hj.symm)) ‹_›

/-- **One arm.**  It is reported at once if it is late. -/
theorem step (h : Assigned names done wild slots) (hn : names.Nodup) (hp : p ∉ done)
    (hknown : isStray names p.1 = false) (rest : List (Arm × Nat)) :
    ∃ wild' slots', Assigned names (done ++ [p]) wild' slots' ∧ ∀ arms,
      Reports (assignArms names wild slots (p.1 :: arms))
        (if Late names (done ++ p :: rest) p then [unreachable p.1] else [])
        (assignArms names wild' slots' arms) := by
  cases hw : isWildcard p.1 with
  | true =>
    cases hfirst : wildcard? done with
    | none =>
      refine ⟨some p.1, slots, h.kept (by simp [wildcard?_concat, hfirst, hw]) (by simp [hw]), ?_⟩
      intro arms
      rw [if_neg fun hlate => ((late_iff hp).1 hlate).1 hw hfirst]
      simpa [assignArms, hw, h.wild, hfirst] using .refl
    | some q =>
      have hsome : wild.isSome = true := by simp [h.wild, hfirst]
      have htaken : ∀ n, taker done n ≠ none := fun n => by
        rw [← own_or_wildcard?, hfirst]
        cases own done n <;> simp
      refine ⟨wild, slots, h.kept (by simp [h.wild, wildcard?_concat, hfirst]) (by simp [hw]), ?_⟩
      intro arms
      rw [if_pos ((late_iff hp).2 ⟨fun _ => by simp [hfirst], fun n _ _ => htaken n⟩)]
      simpa [assignArms, unreachable, hw, hsome] using Reports.warn.bind
  | false =>
    have hmem : p.1.constr ∈ names := by simpa [isStray, hw] using hknown
    have htakes : ∀ n, takes n p.1 = true ↔ p.1.constr = n := fun n => by simp [takes, hw]
    obtain ⟨i, hi⟩ := Option.isSome_iff_exists.1 (List.isSome_idxOf?.2 hmem)
    obtain ⟨hlt, hget, -⟩ := List.idxOf?_eq_some_iff.1 hi
    have hname : names[i]? = some p.1.constr := List.getElem?_eq_some_iff.2 ⟨hlt, hget⟩
    cases hfree : taker done p.1.constr with
    | none =>
      refine ⟨wild, _, h.fill hn hw hname hfree, fun arms => ?_⟩
      rw [if_neg fun hlate => ((late_iff hp).1 hlate).2 _ hmem ((htakes _).2 rfl) hfree]
      simpa [assignArms, hw, hi, h.taken hname, hfree] using .refl
    | some q =>
      refine ⟨wild, slots, h.kept (by simp [h.wild, wildcard?_concat, hw]) (by simp [hfree]), ?_⟩
      intro arms
      have hlate : ∀ n ∈ names, takes n p.1 = true → taker done n ≠ none := by
        intro n _ ht
        simp [← (htakes n).1 ht, hfree]
      rw [if_pos ((late_iff hp).2 ⟨by simp [hw], hlate⟩)]
      simpa [assignArms, unreachable, hw, hi, h.taken hname, hfree] using Reports.warn.bind

/-- **One pass over some arms** reports the late ones. -/
theorem run (h : Assigned names done wild slots) (hn : names.Nodup) (hrest : (done ++ rest).Nodup)
    (hknown : ∀ p ∈ rest, isStray names p.1 = false) :
    ∃ wild' slots', Assigned names (done ++ rest) wild' slots' ∧ ∀ arms,
      Reports (assignArms names wild slots (rest.map (·.1) ++ arms))
        ((rest.filter fun p => Late names (done ++ rest) p).map fun p => unreachable p.1)
        (assignArms names wild' slots' arms) := by
  induction rest generalizing done wild slots with
  | nil => exact ⟨wild, slots, by simpa using h, fun arms => .refl⟩
  | cons p rest ih =>
    have hp : p ∉ done := fun hmem =>
      (List.nodup_append.1 hrest).2.2 p hmem p (List.mem_cons_self ..) rfl
    obtain ⟨wild1, slots1, h1, hr1⟩ := h.step hn hp (hknown p (List.mem_cons_self ..)) rest
    rw [List.append_cons] at hrest
    obtain ⟨wild2, slots2, h2, hr2⟩ := ih h1 hrest fun q hq => hknown q (List.mem_cons_of_mem _ hq)
    rw [← List.append_cons] at h2 hr2
    refine ⟨wild2, slots2, h2, fun arms => ?_⟩
    have hall := (hr1 _).trans (hr2 arms)
    rw [List.filter_cons]
    split <;> simp_all

/-- The pass over all arms, or over those before one that names no branch. -/
theorem all (hn : names.Nodup) (hknown : ∀ a ∈ arms, isStray names a = false) (rest : List Arm) :
    ∃ wild slots, arms.zipIdx.Nodup ∧ Assigned names arms.zipIdx wild slots ∧
      Reports (assignArms names none (names.map fun _ => none) (arms ++ rest))
        ((arms.zipIdx.filter fun p => Late names arms.zipIdx p).map fun p => unreachable p.1)
        (assignArms names wild slots rest) := by
  have hplaces : arms.zipIdx.Nodup := by
    have hpairs : arms.zipIdx.Pairwise fun p q => p.2 ≠ q.2 := by
      rw [← List.pairwise_map (f := Prod.snd), List.zipIdx_map_snd]
      exact List.nodup_range'
    exact hpairs.imp fun hne heq => hne (congrArg Prod.snd heq)
  obtain ⟨wild, slots, h, hrun⟩ := nil.run hn hplaces fun p hp =>
    hknown p.1 (List.fst_mem_of_mem_zipIdx hp)
  simp only [List.nil_append, List.zipIdx_map_fst] at h hrun
  exact ⟨wild, slots, hplaces, h, hrun rest⟩

end Assigned

/-! ## Filling in the wildcard -/

/-- The arms without a branch as they are reported: the first wildcard is known to have none
only at the end. -/
noncomputable def idleArms (names : List String) (arms : List (Arm × Nat))
    (slots : List (Option Arm)) : List (Arm × Nat) :=
  arms.filter (fun p => Late names arms p) ++
    ((wildcard? arms).filter fun _ => slots.all Option.isSome).toList

theorem nodup_idleArms (h : done.Nodup) : (idleArms names done slots).Nodup := by
  refine List.nodup_append.2 ⟨h.filter _, ?_, ?_⟩
  · cases (wildcard? done).filter fun _ => slots.all Option.isSome <;> simp
  · rintro q hq r hr rfl
    exact (of_decide_eq_true (List.mem_filter.1 hq).2).1
      (Option.filter_eq_some_iff.1 (Option.mem_toList.1 hr)).1

theorem Assigned.mem_idleArms (h : Assigned names done wild slots) (q : Arm × Nat) :
    q ∈ idleArms names done slots ↔ q ∈ done ∧ ∀ n ∈ names, taker done n ≠ some q := by
  rw [idleArms, List.mem_append, List.mem_filter, decide_eq_true_iff, Option.mem_toList,
    Option.filter_eq_some_iff, Late]
  by_cases hw : wildcard? done = some q
  · simp [hw, List.mem_of_find?_eq_some hw, h.full_iff hw]
  · simp [hw]

/-- The first arm that names no branch ends the pass. -/
theorem assignArms_stray (hn : names.Nodup) {a : Arm} (h : arms.find? (isStray names) = some a) :
    ((assignArms names none (names.map fun _ => none) arms).run s).1 =
      .error ⟨.unknownArm a.constr, a.span, [], []⟩ := by
  obtain ⟨hs, as, bs, rfl, has⟩ := List.find?_eq_some_iff_append.1 h
  obtain ⟨wild, slots, -, -, hrun⟩ :=
    Assigned.all hn (fun b hb => by simpa using has b hb) (a :: bs)
  obtain ⟨s', hrun, -⟩ := hrun s
  have hw : isWildcard a = false ∧ a.constr ∉ names := by simpa [isStray] using hs
  rw [hrun]
  simp only [assignArms, hw.1, List.idxOf?_eq_none_iff.2 hw.2]
  rfl

namespace Matching

variable {m : Matching}

/-- The branches that belong to no arm are reported in order. -/
theorem missing_reports {g : String → Option Arm} :
    Reports ((names.zip (names.map g)).forM fun p => do
        if p.2.isNone then
          warn .unreachableArm m.span ("no arm for " ++ p.1 ++ "; the branch fails at runtime"))
      ((names.filter fun n => (g n).isNone).map m.missing) (pure ()) := by
  induction names with
  | nil => exact .refl
  | cons n names ih =>
    rw [List.filter_cons]
    split
    · refine .trans (.bind (?_ : Reports _ [m.missing n] (pure ()))) ih
      dsimp only
      rw [if_pos ‹_›]
      exact .warn
    · refine .trans (.bind (?_ : Reports _ [] (pure ()))) ih
      dsimp only
      rw [if_neg ‹_›]
      exact .refl

/-- **The branches of a match whose arms all name branches.** -/
theorem resolve_reports (hn : names.Nodup) (hknown : m.arms.find? (isStray names) = none) :
    ∃ idle : List (Arm × Nat), idle.Nodup ∧
      (∀ p, p ∈ idle ↔ p ∈ m.arms.zipIdx ∧ ∀ n ∈ names, taker m.arms.zipIdx n ≠ some p) ∧
      Reports (m.resolve names) (idle.map (fun p => unreachable p.1) ++
          (names.filter fun n => (taker m.arms.zipIdx n).isNone).map m.missing)
        (pure ⟨names.map fun n => (taker m.arms.zipIdx n).map (·.1), none⟩) := by
  obtain ⟨wild, slots, hplaces, h, hrun⟩ := Assigned.all hn
    (fun a ha => by simpa using List.find?_eq_none.1 hknown a ha) []
  rw [List.append_nil] at hrun
  have hmissing := @missing_reports names m fun n => (taker m.arms.zipIdx n).map (·.1)
  simp only [Option.isNone_map, ← h.filled] at hmissing ⊢
  refine ⟨idleArms names m.arms.zipIdx slots, nodup_idleArms hplaces, h.mem_idleArms, ?_⟩
  rw [idleArms, List.map_append, List.append_assoc]
  refine hrun.bind.trans ?_
  dsimp only
  generalize List.map (fun s => Option.or s wild) slots = filled at hmissing ⊢
  rw [h.wild]
  cases hw : wildcard? m.arms.zipIdx with
  | none => exact hmissing.bind
  | some p =>
    have hp := wildcard?_isWildcard hw
    rw [Option.map_some, Option.filter_some]
    cases slots.all Option.isSome with
    | true =>
      rw [if_pos rfl, Option.toList_some, List.map_singleton, unreachable, if_pos hp]
      exact Reports.warn.bind.trans hmissing.bind
    | false => exact hmissing.bind

/-- **The first arm that fits takes a branch, and exactly the idle arms and the empty branches
are reported.**  Only an arm that names no branch makes it fail. -/
theorem branches_go_to_first_arms (m : Matching) (hn : names.Nodup) (s : State) :
    (∀ e, ((m.resolve names).run s).1 = .error e ↔
      ∃ a, m.arms.find? (isStray names) = some a ∧ e = ⟨.unknownArm a.constr, a.span, [], []⟩) ∧
    ∀ slots s', (m.resolve names).run s = (.ok slots, s') →
      slots.arms = names.map (fun n => (taker m.arms.zipIdx n).map (·.1)) ∧
      ∃ idle : List (Arm × Nat), idle.Nodup ∧
        (∀ p, p ∈ idle ↔ p ∈ m.arms.zipIdx ∧ ∀ n ∈ names, taker m.arms.zipIdx n ≠ some p) ∧
        s'.diagnostics = s.diagnostics ++ (idle.map (fun p => unreachable p.1) ++
          (names.filter fun n => (taker m.arms.zipIdx n).isNone).map m.missing) := by
  cases hstray : m.arms.find? (isStray names) with
  | some a =>
    have hrun : ((m.resolve names).run s).1 = .error ⟨.unknownArm a.constr, a.span, [], []⟩ := by
      have hpass : (assignArms names none (names.map fun _ => none) m.arms).run s =
        (.error _, _) := Prod.ext (assignArms_stray hn hstray) rfl
      rw [resolve, run_bind_of_error hpass]
    refine ⟨fun e => ?_, fun slots s' h => ?_⟩
    · rw [hrun]
      simp [eq_comm]
    · rw [h] at hrun
      cases hrun
  | none =>
    obtain ⟨idle, hnodup, hmem, hrun⟩ := resolve_reports hn hstray
    obtain ⟨s₁, hrun, hds⟩ := hrun s
    rw [hrun]
    refine ⟨fun e => by simp, fun slots s' h => ?_⟩
    cases h
    exact ⟨rfl, idle, hnodup, hmem, hds⟩

/-- Options with an arm after the wildcard. -/
def lateNone : Matching :=
  ⟨.integer, .none, ["Some", "_", "None"].map fun c => ⟨c, [], .missing, .none⟩⟩

theorem none_after_wildcard :
    ["None", "Some"].Nodup ∧ ∀ slots s',
      (lateNone.resolve ["None", "Some"]).run (.new .v3 ⟨[]⟩ false) = (.ok slots, s') →
        slots.arms.map (Option.map (·.constr)) = [some "_", some "Some"] := by
  have hnames : ["None", "Some"].Nodup := by decide
  refine ⟨hnames, fun slots s' h => ?_⟩
  rw [((lateNone.branches_go_to_first_arms hnames _).2 slots s' h).1]
  rfl

end Matching

end CoreLowering.Graph
