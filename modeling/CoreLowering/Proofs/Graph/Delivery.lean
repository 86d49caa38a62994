import CoreLowering.Proofs.Graph.Tables

/-!
# Conversions deliver what is asked for

A change of layout can end in many places: with the value itself, a view of
it, an alias that is remembered, a constant, a wrapper of a closure, or at the
end of a path.  Wherever it ends, the result has the layout that was asked for
and the type of the value.

Most of these ends make their result in a last step that sets both, so nothing
has to be known about the conversions nested in between.  The others rely on
`Memo`: what is remembered for a variable and a layout has the type of the
variable and that layout, and an alias has the type of its variable.

Main statement: `conversions_deliver`.
-/

namespace CoreLowering

namespace Ty

mutual

theorem eq_of_same : ∀ {a b : Ty}, a.same b = true → a = b
  | con c xs, b, h => by
    cases b <;> simp [same] at h
    rw [h.1, eq_of_sameAll h.2]
  | var v, b, h => by cases b <;> simp_all [same]
  | all ps a, b, h => by
    cases b <;> simp [same] at h
    rw [h.1, eq_of_same h.2]
  | missing, b, h => by cases b <;> simp_all [same]

theorem eq_of_sameAll : ∀ {xs ys : List Ty}, sameAll xs ys = true → xs = ys
  | [], ys, h => by cases ys <;> simp_all [sameAll]
  | x :: xs, ys, h => by
    cases ys <;> simp [sameAll] at h
    rw [eq_of_same h.1, eq_of_sameAll h.2]

end

end Ty

namespace Graph

variable {α β : Type} {s s' : State} {id i root : ValueId} {v : Value} {type : Ty} {rep goal : Rep}
  {span : Span} {convert : Converter}

/-! ## Steps that succeed -/

/-- What a step comes to if it succeeds. -/
def Ends (m : LowerM α) (s : State) (P : α → State → Prop) : Prop :=
  ∀ a s', m.run s = (.ok a, s') → P a s'

namespace Ends

variable {m : LowerM α} {f : α → LowerM β} {a : α} {P : β → State → Prop} {Q : α → State → Prop}

theorem pure (h : Q a s) : Ends (Pure.pure a) s Q := by
  rintro _ _ ⟨⟩
  exact h

theorem bind (hm : Ends m s Q) (hf : ∀ a s', Q a s' → Ends (f a) s' P) : Ends (m >>= f) s P := by
  intro b s'' h
  obtain ⟨a, s', hr, h⟩ := run_bind_ok.1 h
  exact hf a s' (hm a s' hr) b s'' h

/-- Whatever comes first. -/
theorem after (hf : ∀ a s', Ends (f a) s' P) : Ends (m >>= f) s P :=
  bind (Q := fun _ _ => True) (fun _ _ _ => trivial) fun a s' _ => hf a s'

theorem and {R : α → State → Prop} (h : Ends m s Q) (h' : Ends m s R) :
    Ends m s fun a s' => Q a s' ∧ R a s' :=
  fun a s' hr => ⟨h a s' hr, h' a s' hr⟩

theorem run (hr : m.run s = (.ok a, s')) (hf : Ends (f a) s' P) : Ends (m >>= f) s P := by
  intro b s'' h
  rw [run_bind_of_ok hr] at h
  exact hf b s'' h

theorem value {f : Value → LowerM β} (hf : ∀ v, s.value? id = some v → Ends (f v) s P) :
    Ends (Graph.value id >>= f) s P := by
  refine bind (Q := fun v s' => s.value? id = some v ∧ s' = s) (fun v s' => run_value_ok.1) ?_
  rintro v _ ⟨hv, rfl⟩
  exact hf v hv

theorem ite {p : Prop} [Decidable p] {n : LowerM α} (hm : p → Ends m s Q) (hn : ¬p → Ends n s Q) :
    Ends (if p then m else n) s Q := by
  split
  · exact hm ‹p›
  · exact hn ‹¬p›

/-- Whatever comes first, in two ways. -/
theorem ite_after {p : Prop} [Decidable p] {n : LowerM α} (hf : ∀ a s', Ends (f a) s' P) :
    Ends (if p then m >>= f else n >>= f) s P :=
  .ite (fun _ => .after hf) fun _ => .after hf

theorem fail {cause : Cause} {types : List Ty} {reps : List Rep} :
    Ends (Graph.fail cause span types reps) s Q := by
  intro a s' h
  obtain ⟨_, _, _, h⟩ := run_bind_ok.1 h
  cases h

end Ends

/-! ## What a value looks like -/

/-- The type of a value, its layout, and the variable that it is an alias of. -/
def State.look (s : State) (i : ValueId) : Option (Ty × Rep × Option ValueId) :=
  (s.value? i).map fun v => (v.type, v.rep, v.node.origin?)

/-- The values look the same, and the same views are remembered. -/
structure Looks (s s' : State) : Prop where
  look : s'.look = s.look
  views : s'.views = s.views

/-- The value has a type and a layout. -/
def Gets (type : Ty) (goal : Rep) (x : ValueId) (s : State) : Prop :=
  ∃ o, s.look x = some (type, goal, o)

theorem look_of_value (h : s.value? i = some v) :
    s.look i = some (v.type, v.rep, v.node.origin?) := by
  rw [State.look, h, Option.map_some]

theorem Gets.value (h : Gets type goal i s) :
    ∃ v, s.value? i = some v ∧ v.type = type ∧ v.rep = goal := by
  obtain ⟨o, h⟩ := h
  obtain ⟨v, hv, heq⟩ := Option.map_eq_some_iff.1 h
  cases heq
  exact ⟨v, hv, rfl, rfl⟩

theorem look_push (v : Value) :
    (s.push v).look i =
      if i = s.size + 1 then some (v.type, v.rep, v.node.origin?) else s.look i := by
  rw [State.look, value?_push]
  split <;> rfl

/-- A step that leaves alone how values look. -/
def Idle (m : LowerM α) : Prop := ∀ s, Ends m s fun _ => Looks s

theorem Looks.trans {s'' : State} (h : Looks s s') (h' : Looks s' s'') : Looks s s'' :=
  ⟨h'.look.trans h.look, h'.views.trans h.views⟩

namespace Idle

variable {m : LowerM α} {f : α → LowerM β}

theorem pure {a : α} : Idle (Pure.pure a : LowerM α) := fun _ => .pure ⟨rfl, rfl⟩

theorem bind (hm : Idle m) (hf : ∀ a, Idle (f a)) : Idle (m >>= f) := fun s =>
  (hm s).bind fun a s' h b s'' hr => h.trans (hf a s' b s'' hr)

theorem value : Idle (Graph.value id) := by
  intro s v s' h
  obtain ⟨-, rfl⟩ := run_value_ok.1 h
  exact ⟨rfl, rfl⟩

theorem update {f : Value → Value}
    (hf : ∀ v, (f v).type = v.type ∧ (f v).rep = v.rep ∧ (f v).node.origin? = v.node.origin?) :
    Idle (Graph.update id f) := by
  rintro s _ _ ⟨⟩
  refine ⟨funext fun i => ?_, rfl⟩
  cases i with
  | zero => rfl
  | succ n =>
    simp only [State.look, State.value?, Array.getElem?_modify]
    split
    · rw [Option.map_map]
      congr 1
      funext v
      obtain ⟨htype, hrep, horigin⟩ := hf v
      simp [htype, hrep, horigin]
    · rfl

theorem forM {xs : List α} {f : α → LowerM Unit} (hf : ∀ a, Idle (f a)) : Idle (xs.forM f) := by
  induction xs with
  | nil => exact pure
  | cons a xs ih => exact (hf a).bind fun _ => ih

theorem noteSlot : Idle (Graph.noteSlot id) := by
  refine value.bind fun v => ?_
  split
  · exact update fun _ => ⟨rfl, rfl, rfl⟩
  · refine .bind (update fun _ => ⟨rfl, rfl, rfl⟩) fun _ => ?_
    split
    · exact forM fun p => update fun _ => ⟨rfl, rfl, rfl⟩
    · exact pure

theorem recordDeps {rhs : ValueId} : Idle (Graph.recordDeps id rhs) :=
  value.bind fun _ => .bind (update fun _ => ⟨rfl, rfl, rfl⟩) fun _ =>
    forM fun _ => update fun _ => ⟨rfl, rfl, rfl⟩

theorem setRhs {rhs : ValueId} : Idle (Graph.setRhs id rhs) := by
  refine value.bind fun v => ?_
  have hrest : Idle (do
      Graph.update id fun v => { v with node := v.node.withRhs rhs }
      Graph.noteSlot rhs
      Graph.recordDeps id rhs) := by
    refine .bind (update fun v => ⟨rfl, rfl, ?_⟩) fun _ => noteSlot.bind fun _ => recordDeps
    cases v.node <;> rfl
  split
  · exact .bind (fun _ => .fail) fun _ => hrest
  · exact hrest

end Idle

theorem newNode_ends {node : Node} : Ends (newNode node type rep span) s fun x s' =>
    x = s.size + 1 ∧ Looks (s.push (.new node type rep span)) s' := by
  refine .run (alloc_run _) (.bind (Idle.forM (fun _ => Idle.value.bind fun _ => .pure) _) ?_)
  refine fun _ s1 h1 => .run run_get (.bind (Idle.forM (fun _ => .noteSlot) _) fun _ s2 h2 => ?_)
  refine .bind (Idle.update ?_ _) fun _ s3 h3 => .pure ⟨rfl, h1.trans (h2.trans h3)⟩
  exact fun _ => ⟨rfl, rfl, rfl⟩

theorem newNode_gets {node : Node} : Ends (newNode node type rep span) s (Gets type rep) := by
  intro x s' h
  obtain ⟨rfl, hlooks⟩ := newNode_ends x s' h
  exact ⟨node.origin?, by rw [hlooks.look, look_push, if_pos rfl]; rfl⟩

/-! ## The memo -/

/-- What conversions rely on. -/
structure Memo (s : State) : Prop where
  /-- What is remembered is what is asked for. -/
  views : ∀ root goal id, ((root, Rep.key goal), id) ∈ s.views →
    ∃ t r o, s.look root = some (t, r, o) ∧ Gets t goal id s
  /-- An alias has the type of its variable. -/
  typed : ∀ i t r o, s.look i = some (t, r, some o) → ∃ r' o', s.look o = some (t, r', o')

/-- A view is made unless the value looks as it should. -/
theorem view_gets {node : Node} (hv : s.value? id = some v) :
    Ends (if v.rep = goal ∧ type.same v.type = true then pure id else newNode node type goal span) s
      (Gets type goal) := by
  refine .ite (fun h => .pure ⟨v.node.origin?, ?_⟩) fun _ => newNode_gets
  rw [look_of_value hv, h.1, Ty.eq_of_same h.2]

theorem reinterpret_gets (h : type = .missing → ∀ v, s.value? id = some v → v.type = .missing) :
    Ends (reinterpret id type goal) s (Gets type goal) := by
  refine .value fun v hv => ?_
  cases type with
  | missing =>
    intro x s' hr
    have hx := view_gets hv x s' hr
    rwa [h rfl v hv] at hx
  | con | var | all => exact view_gets hv

theorem reinterpret_self_gets (hv : s.value? id = some v) :
    Ends (reinterpret id v.type goal) s (Gets v.type goal) :=
  reinterpret_gets fun h w hw => by
    rw [hv, Option.some.injEq] at hw
    rw [← hw, h]

theorem look_lt {q : Ty × Rep × Option ValueId} (h : s.look i = some q) : i ≠ s.size + 1 := by
  obtain ⟨v, hv, -⟩ := Option.map_eq_some_iff.1 h
  exact Nat.ne_of_lt (Nat.lt_succ_of_le (valid_of_value hv).2)

theorem Memo.newNode {node : Node} (hm : Memo s) (hnode : node.origin? = none) :
    Ends (newNode node type rep span) s fun _ => Memo := by
  intro x s' hr
  obtain ⟨-, hlooks⟩ := newNode_ends x s' hr
  have hlook : ∀ {i q}, s.look i = some q → s'.look i = some q := by
    intro i q h
    rw [hlooks.look, look_push, if_neg (look_lt h), h]
  refine ⟨fun root goal id h => ?_, fun i t r o h => ?_⟩
  · rw [hlooks.views] at h
    obtain ⟨t, r, o, hroot, o', hid⟩ := hm.views root goal id h
    exact ⟨t, r, o, hlook hroot, o', hlook hid⟩
  · rw [hlooks.look, look_push] at h
    split at h
    · simp [Value.new, hnode] at h
    · obtain ⟨r', o', h⟩ := hm.typed i t r o h
      exact ⟨r', o', hlook h⟩

theorem Memo.reinterpret (hm : Memo s) : Ends (reinterpret id type goal) s fun _ => Memo :=
  .value fun _ _ => .ite (fun _ => .pure hm) fun _ => hm.newNode rfl

/-- The results of a nested change of layout have the layout that is asked for
and the type of the value. -/
def Delivers (convert : Converter) : Prop :=
  ∀ {s id goal v}, Memo s → s.value? id = some v → Ends (convert id goal) s (Gets v.type goal)

theorem convertClosure_gets (hv : s.value? id = some v) :
    Ends (convertClosure convert id goal) s (Gets v.type goal) := by
  refine .run (value_run hv) (.ite (fun _ => .bind (Q := fun _ _ => False) .fail ?_) fun _ => ?_)
  · rintro _ _ ⟨⟩
  refine .after fun _ _ => .ite_after fun f s1 => ?_
  split
  · exact .after fun _ _ => .after fun _ _ => newNode_gets
  · exact .after fun _ _ => .after fun _ _ => .after fun _ _ => newNode_gets
  · exact .after fun _ _ => .after fun _ _ => .after fun _ _ => .after fun _ _ => newNode_gets
  · exact .after fun _ _ => .after fun _ _ => .after fun _ _ => .after fun _ _ => newNode_gets
  · exact .fail

theorem edges_missing (ds : Decls) (version : Version) : edges ds version .missing = [] := rfl

theorem path?_nil {source goal : Rep} (h : source ≠ goal) : path? [] source goal = none := by
  simp [path?, searchPath, h]

theorem convertValue_gets (hconv : Delivers convert) (hm : Memo s) (hv : s.value? id = some v) :
    Ends (convertValue convert id goal) s (Gets v.type goal) := by
  refine .run (value_run hv) (.run decls_run ?_)
  refine .ite (fun _ => reinterpret_self_gets hv) fun _ => .ite (fun _ => ?_) fun _ => ?_
  · refine .bind (hconv hm hv) fun packed s1 hpacked => ?_
    obtain ⟨w, hw, htype, -⟩ := hpacked.value
    exact htype ▸ reinterpret_self_gets hw
  refine .ite (fun _ => ?_) fun _ => .ite (fun _ => convertClosure_gets hv) fun _ => ?_
  · refine .bind (.and (reinterpret_self_gets hv) hm.reinterpret) ?_
    rintro x s1 ⟨hx, hm1⟩
    obtain ⟨w, hw, htype, -⟩ := hx.value
    exact htype ▸ hconv hm1 hw
  refine .ite (fun _ => reinterpret_self_gets hv) fun hne => .after fun version s1 => ?_
  split
  · exact .fail
  · next way hway =>
    refine .after fun out s2 => reinterpret_gets fun h => ?_
    rw [h, edges_missing, path?_nil] at hway
    · cases hway
    · rwa [h] at hne

/-- What is found, if anything, is of a type, and nothing changes. -/
def Leads (type : Ty) (s : State) (r : Option ValueId) (s' : State) : Prop :=
  s' = s ∧ ∀ root ∈ r, ∃ w, s.value? root = some w ∧ w.type = type

theorem Leads.some (hv : s.value? root = some v) : Leads v.type s (some root) s := by
  refine ⟨rfl, ?_⟩
  rintro _ ⟨⟩
  exact ⟨v, hv, rfl⟩

theorem rootVar_ends (hm : Memo s) (hv : s.value? id = some v) :
    Ends (rootVar id) s (Leads v.type s) := by
  refine .run (value_run hv) ?_
  have horigin : ∀ {i w x o rhs}, s.value? i = some w → w.node = .aliased x o rhs →
      ∃ r, s.value? o = some r ∧ r.type = w.type := by
    intro i w x o rhs hw hnode
    have hlook := look_of_value hw
    rw [hnode] at hlook
    obtain ⟨r', o', ho⟩ := hm.typed _ _ _ _ hlook
    obtain ⟨r, hr, htype, -⟩ := Gets.value ⟨o', ho⟩
    exact ⟨r, hr, htype⟩
  split
  · obtain ⟨r, hr, htype⟩ := horigin hv ‹_›
    exact .pure (htype ▸ .some hr)
  · exact .pure (.some hv)
  · refine .value fun w hw => .ite (fun hsame => ?_) fun _ => .pure ⟨rfl, by simp⟩
    rw [← Ty.eq_of_same hsame]
    split
    · obtain ⟨r, hr, htype⟩ := horigin hw ‹_›
      exact .pure (htype ▸ .some hr)
    · exact .pure (.some hw)
    · exact .pure ⟨rfl, by simp⟩
  · exact .pure ⟨rfl, by simp⟩

theorem aliasOf_gets (hm : Memo s) (hv : s.value? root = some v) :
    Ends (aliasOf convert root goal) s (Gets v.type goal) := by
  refine .run (value_run hv) (.ite (fun h => ?_) fun _ => .run decls_run (.ite (fun _ => ?_) ?_))
  · exact .pure ⟨_, h ▸ look_of_value hv⟩
  · exact reinterpret_self_gets hv
  intro _
  refine .run run_get ?_
  split
  · next id hid =>
    obtain ⟨l1, l2, heq, -⟩ := List.lookup_eq_some_iff.1 hid
    obtain ⟨t, r, o, hroot, hgets⟩ := hm.views root goal id (by simp [heq])
    rw [look_of_value hv] at hroot
    cases hroot
    exact .pure hgets
  refine .after fun folded s1 => ?_
  split
  · exact .bind newNode_gets fun id s2 hid => .run (run_modify _) (.pure hid)
  · refine .after fun converted s2 => .run (freshName_run _) (.run (allocVar_run ..) ?_)
    refine .bind (Idle.setRhs _) fun _ s4 h => .run (run_modify _) (.run (run_modify _) ?_)
    refine .run (run_modify _) (.pure ⟨some root, ?_⟩)
    have hlook : s4.look ((s2.named (v.node.name ++ "_" ++ goal.suffix)).size + 1) =
        some (v.type, goal, some root) := by
      rw [h.look, look_push, if_pos rfl]
      rfl
    split <;> exact hlook

theorem toRepStep_delivers (hconv : Delivers convert) : Delivers (toRepStep convert) := by
  intro s id goal v hm hv
  refine .run (value_run hv) (.ite (fun h => .pure ⟨_, h ▸ look_of_value hv⟩) fun _ => ?_)
  refine .run decls_run (.ite (fun _ => reinterpret_self_gets hv) fun _ => ?_)
  refine .bind (rootVar_ends hm hv) ?_
  rintro r _ ⟨rfl, hroot⟩
  split
  · obtain ⟨w, hw, htype⟩ := hroot _ rfl
    exact htype ▸ aliasOf_gets hm hw
  · exact convertValue_gets hconv hm hv

/-- **A change of layout delivers** the layout that was asked for. -/
theorem toRepIn_delivers (fuel : Nat) : Delivers (toRepIn fuel) := by
  induction fuel with
  | zero => exact fun _ _ => .fail
  | succ fuel ih => exact toRepStep_delivers ih

/-! ## Lowerings -/

theorem Inv.memo (hi : Inv s) : Memo s := by
  refine ⟨fun root goal id hid => ?_, fun i t r o h => ?_⟩
  · obtain ⟨⟨-, v, r, hv, hr, -, htype⟩, w, hw, -, hkey⟩ := hi.views root goal.key id hid
    cases hv.symm.trans hw
    obtain rfl := Rep.key_inj hkey
    exact ⟨_, _, _, look_of_value hr, _, htype ▸ look_of_value hv⟩
  · obtain ⟨w, hw, heq⟩ := Option.map_eq_some_iff.1 h
    obtain ⟨rfl, -, horigin⟩ : w.type = t ∧ w.rep = r ∧ w.node.origin? = some o := by
      simpa using heq
    obtain ⟨x, rhs, hnode⟩ : ∃ x rhs, w.node = .aliased x o rhs := by
      cases hn : w.node <;> simp_all [Node.origin?]
    obtain ⟨-, v, r, hv, hr, -, htype⟩ := hi.origin i o x rhs (hnode ▸ node?_of_value hw)
    cases hw.symm.trans hv
    exact ⟨_, _, htype ▸ look_of_value hr⟩

theorem toRep_gets (hm : Memo s) (hv : s.value? id = some v) :
    Ends (toRep id goal) s (Gets v.type goal) :=
  .run (value_run hv) (toRepIn_delivers _ hm hv)

/-- A value that has the layout is given back. -/
theorem toRep_of_rep (hv : s.value? id = some v) : (toRep id v.rep).run s = (.ok id, s) := by
  obtain ⟨fuel, hfuel⟩ : ∃ fuel, conversionFuel v v.rep = fuel + 1 :=
    Nat.exists_eq_succ_of_ne_zero (by unfold conversionFuel; omega)
  rw [toRep, run_bind_of_ok (value_run hv), hfuel, toRepIn, toRepStep,
    run_bind_of_ok (value_run hv), if_pos rfl]
  rfl

/-- The root of a unit comes out in the standard layout of its type. -/
theorem build_gets (hi : Inv s) (e : Expr) :
    Ends (build e) s fun x s' => ∃ t, Gets t (s.decls.standardRep e.type) x s' := by
  intro x s' hrun
  rw [build, run_reporting_ok] at hrun
  obtain ⟨y, s1, hlower, hrun⟩ := run_bind_ok.1 hrun
  obtain ⟨ht1, hy⟩ := (lowerExpr_kept e).run hi
  rw [hlower] at ht1 hy
  obtain ⟨z, s2, hup, hrun⟩ := run_bind_ok.1 hrun
  obtain ⟨ht2, hz⟩ := (upcast_kept (hy y rfl).2).run (ht1.inv hi)
  rw [hup] at ht2 hz
  have hdecls : s2.decls = s.decls := ht2.evolves.decls.trans ht1.evolves.decls
  obtain ⟨v, hv⟩ := (hz z rfl).2.valid.exists_value
  have hm := (ht2.inv (ht1.inv hi)).memo
  have hstandard : (standardRep e.type).run s2 = (.ok (s.decls.standardRep e.type), s2) := by
    rw [← hdecls]
    rfl
  suffices hends : Ends _ s2 fun x s' => ∃ t, Gets t (s.decls.standardRep e.type) x s' from
    hends x s' hrun
  refine .run hstandard (.bind (toRep_gets hm hv) fun w s3 hw => ?_)
  refine .run run_get (.bind (Idle.forM (fun i => ?_) _) fun _ s4 hlooks => ?_)
  · refine Idle.value.bind fun u => ?_
    split
    · exact fun _ => .fail
    · exact .pure
  · obtain ⟨o, hw⟩ := hw
    exact .pure ⟨v.type, o, by rw [hlooks.look, hw]⟩

/-- **Conversions deliver what is asked for.**  Between requests, whenever a
value is given in a layout, the result has that layout and the type of the
value; if the value has the layout already, it is the value itself and nothing
changes.  So what a unit is lowered to has the standard layout of the type of its
root. -/
theorem conversions_deliver :
    (∀ target decls debug requests id goal x s',
      let s := (State.new target decls debug).serveAll requests
      (toRep id goal).run s = (.ok x, s') →
        ∃ v w, s.value? id = some v ∧ s'.value? x = some w ∧ w.rep = goal ∧ w.type = v.type ∧
          (v.rep = goal → x = id ∧ s' = s)) ∧
    ∀ m target debug r, (lowerModule m target debug).result = .ok r →
      ∃ decls, m.scope = .ok decls ∧ r.rep = decls.standardRep m.root.type := by
  refine ⟨fun target decls debug requests id goal x s' => ?_, fun m target debug r h => ?_⟩
  · intro s hrun
    have hm : Memo s := ((Inv.new target decls debug).serveAll requests).memo
    obtain ⟨v, s1, hvalue, -⟩ := run_bind_ok.1 hrun
    obtain ⟨hv, -⟩ := run_value_ok.1 hvalue
    obtain ⟨w, hw, htype, hrep⟩ := (toRep_gets hm hv x s' hrun).value
    refine ⟨v, w, hv, hw, hrep, htype, ?_⟩
    rintro rfl
    rw [toRep_of_rep hv, Prod.mk.injEq, Except.ok.injEq] at hrun
    exact ⟨hrun.1.symm, hrun.2.symm⟩
  · obtain ⟨decls, hdecls, hrun⟩ := lowerModule_ok h
    obtain ⟨g, id, hyields⟩ := run_yields hrun
    obtain ⟨t, hgets⟩ := build_gets (.new ..) m.root id g hyields.built.run
    obtain ⟨v, hv, -, hrep⟩ := hgets.value
    obtain ⟨w, hw, -, hrep'⟩ := hyields.value
    cases hv.symm.trans hw
    exact ⟨decls, hdecls, hrep'.trans hrep⟩

theorem exists_of_isOk {ε : Type} {e : Except ε α} (h : e.isOk = true) : ∃ a, e = .ok a := by
  cases e with
  | error => cases h
  | ok a => exact ⟨a, rfl⟩

/-- The item of a list is packed in the helper that packs the list, and the
identity on lists is a unit of its own. -/
theorem conversions_deliver_packed :
    let s := (State.new .v3 ⟨[]⟩ false).serveAll (packing .integer 2)
    let m : Module := ⟨"Lists", [], listIdentity .integer⟩
    (∃ x s' v w, (toRep 8 .packed).run s = (.ok x, s') ∧ s.value? 8 = some v ∧
      s'.value? x = some w ∧ w.rep = .packed ∧ w.type = v.type) ∧
    ∃ r decls, (lowerModule m .v3 false).result = .ok r ∧ m.scope = .ok decls ∧
      r.rep = decls.standardRep m.root.type := by
  intro s m
  obtain ⟨hdelivers, hstandard⟩ := conversions_deliver
  constructor
  · obtain ⟨x, hx⟩ : ∃ x, ((toRep 8 .packed).run s).1 = .ok x := exists_of_isOk (by decide +kernel)
    obtain ⟨v, w, hv, hw, hrep, htype, -⟩ := hdelivers _ _ _ _ _ _ x _ (Prod.ext hx rfl)
    exact ⟨x, _, v, w, Prod.ext hx rfl, hv, hw, hrep, htype⟩
  · obtain ⟨r, hr⟩ : ∃ r, (lowerModule m .v3 false).result = .ok r :=
      exists_of_isOk (by decide +kernel)
    obtain ⟨decls, hscope, hrep⟩ := hstandard m .v3 false r hr
    exact ⟨r, decls, hr, hscope, hrep⟩

end Graph

end CoreLowering
