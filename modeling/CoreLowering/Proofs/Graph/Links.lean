import CoreLowering.Proofs.Graph.Layers
import CoreLowering.Proofs.Graph.Requests

/-!
# Links between variables and the order of the graph

Requests let the graph grow by changes only, so the order of the graph lasts.
Beside it, changes keep the links between variables: what a definition refers
to is noted down at both ends (`DoublyLinked`).

Main statement: `graph_stays_in_order`.
-/

namespace CoreLowering.Graph

variable {α β : Type} {s s' s'' : State} {id i c l : Nat} {v x r : Value} {n : Node} {rhs : Nat}

/-! ## Links -/

/-- The variables that a variable's definition refers to, and those whose
definitions refer to the variable. -/
def Value.links (v : Value) : List ValueId × List ValueId := (v.dependsOn, v.dependedBy)

def State.links (s : State) (id : Nat) : List ValueId × List ValueId :=
  ((s.value? id).map Value.links).getD ([], [])

/-- References between variables are noted down at both ends, each once, and
only a definition refers to anything. -/
structure DoublyLinked (s : State) : Prop where
  iff : ∀ u v : Nat, u ∈ (s.links v).1 ↔ v ∈ (s.links u).2
  nodup : ∀ v : Nat, (s.links v).1.Nodup ∧ (s.links v).2.Nodup
  blank : ∀ (v : Nat) n, s.node? v = some n → n.rhs? = none → (s.links v).1 = []

def SameLinks (s s' : State) : Prop := ∀ i : Nat, s'.links i = s.links i

theorem SameLinks.trans (h : SameLinks s s') (h' : SameLinks s' s'') : SameLinks s s'' :=
  fun i => (h' i).trans (h i)

theorem SameLinks.of_values (h : s'.values = s.values) : SameLinks s s' := fun i => by
  rw [State.links, State.links, value?_congr h]

theorem links_bump (hid : 0 < id) (f : Value → Value) (i : Nat) :
    (s.bump id f).links i =
      if i = id then ((s.value? i).map (Value.links ∘ f)).getD ([], []) else s.links i := by
  rw [State.links, value?_bump hid]
  split
  · rw [Option.map_map]
  · rfl

/-- A new value is not linked. -/
theorem SameLinks.push (hv : v.links = ([], [])) : SameLinks s (s.push v) := by
  intro i
  rw [State.links, State.links, value?_push]
  split
  · rename_i hi
    rw [hi, value?_of_size_lt (Nat.lt_succ_self _), Option.map_some, hv]
    rfl
  · rfl

/-- A step that leaves the links alone. -/
def Unlinking (m : LowerM α) : Prop := ∀ s, SameLinks s (m.run s).2

namespace Unlinking

variable {m : LowerM α} {f : α → LowerM β}

theorem pure (a : α) : Unlinking (Pure.pure a) := fun _ _ => rfl

theorem bind (hm : Unlinking m) (hf : ∀ a, Unlinking (f a)) : Unlinking (m >>= f) := by
  intro s
  have hs := hm s
  rcases hrun : m.run s with ⟨e | a, s'⟩ <;> rw [hrun] at hs
  · rw [run_bind_of_error hrun]
    exact hs
  · rw [run_bind_of_ok hrun]
    exact hs.trans (hf a s')

theorem get : Unlinking (get : LowerM State) := fun _ _ => rfl

theorem value (id : Nat) : Unlinking (value id) := by
  refine get.bind fun s => ?_
  split
  · exact pure _
  · refine Unlinking.bind (fun s => ?_) fun _ _ _ => rfl
    obtain ⟨s', hr, hq⟩ := point_run s "fatal"
      (⟨.invalidValue id, .none, [], []⟩ : Failure).message
    rw [hr]
    exact .of_values (quiet_eq hq).1

theorem update (id : Nat) {g : Value → Value} (hg : ∀ v, (g v).links = v.links) :
    Unlinking (update id g) := by
  intro s i
  cases i with
  | zero => rfl
  | succ n =>
    simp only [update_run, State.links, State.value?, State.bump, Array.getElem?_modify]
    split
    · cases s.values[n]? <;> simp [hg]
    · rfl

theorem forM {g : α → LowerM Unit} (hg : ∀ a, Unlinking (g a)) : ∀ l : List α, Unlinking (l.forM g)
  | [] => pure ()
  | a :: l => (hg a).bind fun _ => forM hg l

theorem addRefs (id n : Nat) : Unlinking (addRefs id n) := by
  refine update id ?_
  exact fun _ => rfl

theorem noteSlot (id : Nat) : Unlinking (noteSlot id) := by
  refine (value id).bind fun v => ?_
  split
  · exact addRefs id 1
  · refine (update id ?_).bind fun _ => ?_
    · exact fun _ => rfl
    · split
      · refine forM (fun p => ?_) _
        exact addRefs p.1 p.2
      · exact pure _

end Unlinking

theorem newNode_links (node : Node) (type : Ty) (rep : Rep) (span : Span) :
    SameLinks s ((newNode node type rep span).run s).2 := by
  rw [newNode, run_bind_of_ok (alloc_run _)]
  refine (SameLinks.push rfl).trans (Unlinking.bind (.forM (fun i => ?_) _) (fun _ =>
    Unlinking.get.bind fun _ => (Unlinking.forM .noteSlot _).bind fun _ => ?_) _)
  · exact (Unlinking.value i).bind fun _ => .pure _
  · refine (Unlinking.update _ ?_).bind fun _ => .pure _
    exact fun _ => rfl

/-! ## Links of a definition -/

/-- Noting down that `id` refers to some variables. -/
theorem refer_links (id : Nat) : ∀ {ds : List ValueId} {s : State}, ds.Nodup →
    (∀ d : Nat, d ∈ ds → Valid s d) → ∀ i : Nat,
    ((ds.forM fun d => update d fun x =>
        { x with dependedBy := x.dependedBy ++ [id] }).run s).2.links i =
      ((s.links i).1, (s.links i).2 ++ if i ∈ ds then [id] else [])
  | [], _, _, _, i => by simp
  | d :: ds, s, hnd, hvalid, i => by
    obtain ⟨hd, hnd⟩ := List.nodup_cons.1 hnd
    have hvd := hvalid d (List.mem_cons_self ..)
    let f : Value → Value := fun x => { x with dependedBy := x.dependedBy ++ [id] }
    have hrest := refer_links id (s := s.bump d f) hnd (fun e he => by
      rw [Valid, size_bump]
      exact hvalid e (List.mem_cons_of_mem _ he)) i
    refine hrest.trans ?_
    rw [links_bump hvd.1]
    by_cases hi : i = d
    · subst hi
      obtain ⟨v, hv⟩ := hvd.exists_value
      simp [hd, State.links, hv, f, Value.links]
    · simp [hi]

theorem pairwise_insertInto (id : ValueId) {xs : List ValueId} (h : xs.Pairwise (· < ·)) :
    (VarSet.insertInto id xs).Pairwise (· < ·) ∧
      ∀ x ∈ VarSet.insertInto id xs, x = id ∨ x ∈ xs := by
  induction xs with
  | nil => simp [VarSet.insertInto]
  | cons x xs ih =>
    rw [List.pairwise_cons] at h
    obtain ⟨hp, hm⟩ := ih h.2
    unfold VarSet.insertInto
    split_ifs <;> simp only [List.pairwise_cons, List.mem_cons] <;> grind

/-- The numbers of a set rise. -/
theorem pairwise_ofList (ids : List ValueId) : (VarSet.ofList ids).ids.Pairwise (· < ·) := by
  have h : ∀ (ids : List ValueId) (t : VarSet), t.ids.Pairwise (· < ·) →
      (ids.foldl VarSet.insert t).ids.Pairwise (· < ·) := by
    intro ids
    induction ids with
    | nil => exact fun t ht => ht
    | cons id ids ih => exact fun t ht => ih _ (pairwise_insertInto id ht).1
  exact h ids .empty .nil

theorem depsOf_nodup (rhs : ValueId) (r : Value) : (depsOf rhs r).Nodup := by
  unfold depsOf
  split
  · exact List.nodup_singleton rhs
  · exact ((pairwise_ofList _).imp Nat.ne_of_lt).filter _

theorem depsOf_valid (hu : UsesThere s) (hr : s.value? rhs = some r) {d : Nat}
    (hd : d ∈ depsOf rhs r) : Valid s d := by
  unfold depsOf at hd
  split at hd
  · exact List.mem_singleton.1 hd ▸ valid_of_value hr
  · have hused := VarSet.has_iff.1 (List.mem_filter.1 hd).2
    exact hu rhs d (usedOf_of_value hr ▸ hused)

/-- **The links of a definition.** -/
theorem setRhs_links (hx : s.value? id = some x) (hnone : x.node.rhs? = none)
    (hr : s.value? rhs = some r) (hne : rhs ≠ id) (hu : UsesThere s) (i : Nat) :
    ((setRhs id rhs).run s).2.links i =
      (if i = id then depsOf rhs r else (s.links i).1,
        (s.links i).2 ++ if i ∈ depsOf rhs r then [id] else []) := by
  have hid := (valid_of_value hx).1
  obtain ⟨s2, r', hn, hc, hcore, hrun⟩ := setRhs_steps hx hnone hr hne
  -- up to the definition the links are as they were
  have hsame : SameLinks s s2 := by
    let f : Value → Value := fun v => { v with node := v.node.withRhs rhs }
    have h1 : SameLinks s (s.bump id f) := Unlinking.update id (g := f) (fun _ => rfl) s
    have h2 := Unlinking.noteSlot rhs (s.bump id f)
    rw [hn] at h2
    exact h1.trans h2
  have hsize : s2.size = s.size := by rw [hc.size, size_bump]
  rw [hrun, depsOf_core hcore, refer_links id (depsOf_nodup rhs r) fun d hd => ?_, links_bump hid]
  · by_cases hi : i = id
    · subst hi
      have hlinks := hsame i
      obtain ⟨y, hy⟩ : ∃ y, s2.value? i = some y :=
        Valid.exists_value ⟨hid, by have := (valid_of_value hx).2; omega⟩
      rw [State.links, hy, Option.map_some, Option.getD_some] at hlinks
      simp [hy, Value.links, ← hlinks]
    · simp only [if_neg hi, hsame i]
  · have := depsOf_valid hu hr hd
    rwa [Valid, size_bump, hsize]

/-! ## Changes keep the links -/

theorem DoublyLinked.congr (h : DoublyLinked s) (hs : SameLinks s s')
    (hold : ∀ (i : Nat) n, s'.node? i = some n → n.rhs? = none →
      (s.links i).1 = [] ∨ s.node? i = some n) : DoublyLinked s' := by
  refine ⟨fun u v => ?_, fun v => ?_, fun v n hn hnone => ?_⟩
  · rw [hs, hs]
    exact h.iff u v
  · rw [hs]
    exact h.nodup v
  · rw [hs]
    exact (hold v n hn hnone).elim id fun hn => h.blank v n hn hnone

theorem DoublyLinked.adds (h : DoublyLinked s) (hs : SameLinks s s') (ha : Adds s s' v) :
    DoublyLinked s' := by
  refine h.congr hs fun i n hn _ => ?_
  rw [ha.node?] at hn
  split at hn
  · rename_i hi
    rw [hi, State.links, value?_of_size_lt (Nat.lt_succ_self _)]
    exact .inl rfl
  · exact .inr hn

theorem DoublyLinked.of_values (h : DoublyLinked s) (hv : s'.values = s.values) : DoublyLinked s' :=
  h.congr (.of_values hv) fun i _ hn _ => .inr (node?_congr hv i ▸ hn)

/-- A variable that is defined referred to nothing before, so that no variable
knew of it. -/
theorem DoublyLinked.defines (h : DoublyLinked s) (hu : UsesThere s) (hn : s.node? id = some n)
    (hid : n.isIdentifiable = true) (hnone : n.rhs? = none) (hr : s.value? rhs = some r)
    (hne : rhs ≠ id) : DoublyLinked ((setRhs id rhs).run s).2 := by
  have hd := setRhs_defines hn hnone hr hne
  obtain ⟨x, hx, rfl⟩ := value_of_node? hn
  have hlinks := setRhs_links hx hnone hr hne hu
  have hempty := h.blank id _ hn hnone
  have hnew : ∀ u : Nat, id ∉ (s.links u).2 := fun u hu => by
    have := (h.iff u id).2 hu
    rw [hempty] at this
    cases this
  refine ⟨fun u v => ?_, fun v => ?_, fun v m hm hm' => ?_⟩
  · rw [hlinks, hlinks]
    by_cases hv : v = id
    · subst hv
      by_cases hdep : u ∈ depsOf rhs r <;> simp [hdep, hnew u]
    · by_cases hdep : u ∈ depsOf rhs r <;> simp [hv, hdep, h.iff u v]
  · rw [hlinks]
    constructor
    · dsimp only
      split
      · exact depsOf_nodup rhs r
      · exact (h.nodup v).1
    · dsimp only
      split
      · exact List.nodup_append'.2 ⟨(h.nodup v).2, List.nodup_singleton id,
          List.disjoint_singleton.2 (hnew v)⟩
      · rw [List.append_nil]
        exact (h.nodup v).2
  · rw [hlinks]
    rw [hd.node?] at hm
    by_cases hv : v = id
    · subst hv
      rw [if_pos rfl, hn] at hm
      cases hm
      have hsome : (x.node.withRhs rhs).rhs? = some rhs := by
        cases hnode : x.node <;> rw [hnode] at hid <;> first | rfl | cases hid
      rw [hsome] at hm'
      cases hm'
    · rw [if_neg hv] at hm ⊢
      exact h.blank v m hm hm'

/-- **Changes keep the links.** -/
theorem Change.doublyLinked (h : Change l s s') (hu : UsesThere s)
    (hl : DoublyLinked s) : DoublyLinked s' := by
  cases h with
  | node type rep span _ hsubs _ _ =>
    exact hl.adds (newNode_links _ type rep span)
      (newNode_adds type rep span hsubs)
  | binder name type rep span =>
    refine hl.adds ?_ (newBinder_adds name type rep span)
    rw [newBinder_run]
    exact (SameLinks.of_values rfl).trans (.push rfl)
  | aliased base rep span =>
    refine hl.adds ?_ (aliased_adds base _ _ rep span)
    rw [run_bind_of_ok (freshName_run base), allocVar_run]
    exact (SameLinks.of_values rfl).trans (.push rfl)
  | define _ _ hn hid hnone _ hrhs hlt =>
    obtain ⟨r, hr⟩ := hrhs.exists_value
    exact hl.defines hu hn hid hnone hr (Nat.ne_of_lt hlt)
  | close _ hlt _ _ hn hp hnone hfix =>
    obtain ⟨r, hr, -⟩ := value_of_node? hfix
    exact hl.defines hu hn (Node.isIdentifiable_of_plain hp) hnone hr (Nat.ne_of_gt hlt)
  | quiet hq => exact hl.of_values (quiet_eq hq).1
  | scope | view | helper => exact hl.of_values rfl

/-! ## The order of the graph -/

/-- Every value keeps all that describes it, and its definition if it has
one. -/
def Persists (s s' : State) : Prop :=
  ∀ (i : Nat) v, s.value? i = some v → ∃ v', s'.value? i = some v' ∧ v.Evolves v'

/-- The order of the graph: what a node is made of and the variables whose scope
it is came before it, and so did the definition of a variable, unless it is the
recursive function that the variable stands for. -/
structure InOrder (s : State) : Prop where
  subs : ∀ (i : Nat) n, s.node? i = some n → ∀ j : Nat, j ∈ n.subs → 0 < j ∧ j < i
  scopeOf : ∀ (i : Nat) n, s.node? i = some n → ∀ j : Nat, j ∈ n.scopeOf → 0 < j ∧ j < i
  rhs : ∀ (i r : Nat) n, s.node? i = some n → n.rhs? = some r →
    0 < r ∧ r < i ∨ ∃ rec, s.node? r = some (.fix i rec)

theorem Inv.inOrder (h : Inv s) : InOrder s :=
  ⟨h.subs, h.owned, fun i r n hn hr =>
    (h.rhs i r n hn hr).2.imp (fun hlt => ⟨(h.rhs i r n hn hr).1.1, hlt⟩) fun hfix => hfix.2⟩

theorem Persists.trans (h : Persists s s') (h' : Persists s' s'') : Persists s s'' := by
  intro i v hv
  obtain ⟨v', hv', he⟩ := h i v hv
  obtain ⟨v'', hv'', he'⟩ := h' i v' hv'
  exact ⟨v'', hv'', he.trans he'⟩

/-- What holds of a lowering between requests. -/
structure Sorted (s : State) : Prop where
  inv : Inv s
  layered : Layered s
  doublyLinked : DoublyLinked s

theorem links_bare (i : Nat) : s.bare.links i = s.links i := by
  rw [State.links, State.links, value?_bare, Option.map_map]
  rfl

attribute [mk_iff] Layered DoublyLinked Sorted

theorem sorted_bare : Sorted s.bare ↔ Sorted s := by
  simp only [sorted_iff, inv_bare, layered_iff, doublyLinked_iff, HelperBefore, Before, Settled,
    Blank, links_bare, closed_bare, node?_bare, usedOf_bare, size_bare]
  rfl

theorem SameGraph.persists (h : SameGraph s s') : Persists s s' := by
  intro i v hv
  have hi := h.value? i
  rw [hv, Option.map_some] at hi
  obtain ⟨v', hv', heq⟩ := Option.map_eq_some_iff.1 hi
  simp only [Value.bare, Value.mk.injEq] at heq
  obtain ⟨h1, h2, h3, h4, h5, h6, -⟩ := heq
  exact ⟨v', hv', h2, h3, h4, h6, .inl ⟨h1, h5⟩⟩

/-- **One request.** -/
theorem Sorted.serve (h : Sorted s) (q : Request) :
    Sorted (s.serve q) ∧ Persists s (s.serve q) := by
  rcases serve_changes h.inv q with ht | ⟨id, heq⟩
  · have hkept := ht.keeps (P := fun s => UsesThere s ∧ DoublyLinked s)
      (fun hc hs => ⟨hc.usesThere hs.1, hc.doublyLinked hs.1 hs.2⟩) ⟨h.inv.there, h.doublyLinked⟩
    exact ⟨⟨ht.inv h.inv, ht.layered h.inv h.layered, hkept.2⟩, ht.evolves.value?⟩
  · have hs : SameGraph s (s.serve q) := heq ▸ emit_same s id
    exact ⟨sorted_bare.1 ((show (s.serve q).bare = s.bare from hs) ▸ sorted_bare.2 h), hs.persists⟩

/-- Requests, one after the other. -/
theorem Sorted.serveAll (h : Sorted s) (requests : List Request) :
    Sorted (s.serveAll requests) ∧ Persists s (s.serveAll requests) := by
  induction requests generalizing s with
  | nil => exact ⟨h, fun _ v hv => ⟨v, hv, .refl v⟩⟩
  | cons q requests ih =>
    obtain ⟨hq, hp⟩ := h.serve q
    exact ⟨(ih hq).1, hp.trans (ih hq).2⟩

theorem Sorted.new (target : Version) (decls : Decls) (debug : Bool) :
    Sorted (State.new target decls debug) := by
  have hlinks : ∀ i, (State.new target decls debug).links i = ([], []) := fun i => by
    cases i <;> rfl
  refine ⟨.new target decls debug, .new target decls debug, fun u v => ?_, fun v => ?_,
    fun v _ _ _ => ?_⟩
  · simp [hlinks]
  · simp [hlinks]
  · rw [hlinks]

/-- **The graph stays in order**, whatever a lowering has been asked for and
whatever has failed.  Every value keeps all that describes it for good, what a
value is made of came before it, and references between variables are noted
down at both ends. -/
theorem graph_stays_in_order (target : Version) (decls : Decls) (debug : Bool)
    (earlier later : List Request) :
    let s := (State.new target decls debug).serveAll earlier
    Persists s (s.serveAll later) ∧ InOrder s ∧ DoublyLinked s := by
  intro s
  have h : Sorted s := ((Sorted.new target decls debug).serveAll earlier).1
  exact ⟨(h.serveAll later).2, h.inv.inOrder, h.doublyLinked⟩

end CoreLowering.Graph
