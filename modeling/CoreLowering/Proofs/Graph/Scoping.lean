import CoreLowering.Proofs.Graph.Placing

/-!
# Emitted terms are closed

Every variable of an emitted term is bound by the function that was emitted
for the same value, and the only name that stays free is the one of the
fixed-point combinator, which linking binds.

Main statement: `lowerModule_scoped`.
-/

namespace CoreLowering.Graph

variable {g s : State} {here : ValueId → List ValueId → Prop} {id i : Nat} {t : Marked} {x : Nat}
  {n : Node} {ids : List ValueId} {α : Type}

/-! ## Scopes of marked terms -/

/-- No variable occurs in the term, and no function. -/
def ground : Term → Bool
  | .con _ | .builtin _ | .error => true
  | .force b | .delay b => ground b
  | .apply f a => ground f && ground a
  | _ => false

theorem freeFrom_of_ground {t : Term} (h : ground t = true) (bound seen : List String) :
    t.freeFrom bound seen = seen := by
  fun_induction ground t with
  | case1 | case2 | case3 => rfl
  | case4 b ih | case5 b ih => exact ih h
  | case6 f a ihf iha =>
    rw [Bool.and_eq_true] at h
    rw [Term.freeFrom, ihf h.1, iha h.2]
  | case7 => cases h

theorem ground_forceTimes (n : Nat) (t : Term) : ground (t.forceTimes n) = ground t := by
  induction n generalizing t with
  | zero => rfl
  | succ n ih => exact ih (.force t)

theorem ground_ofBuiltin (f : Builtin) : ground (.ofBuiltin f) = true := ground_forceTimes ..

theorem ground_failing (debug : Bool) (message : String) :
    ground (failing debug message) = true := by
  unfold failing
  split
  · simp only [ground, Term.applyAll, List.foldl_cons, List.foldl_nil, ground_ofBuiltin,
      Bool.and_self]
  · rfl

namespace Marked

mutual

/-- Where the functions of the values `env` are around the term, innermost
first, the nearest one with the name of a variable is the one that was emitted
for the value of the variable, and none has the name of the fixed-point
combinator where that is used. -/
def Scoped (name : ValueId → String) (env : List ValueId) : Marked → Prop
  | var id => env.find? (name · == name id) = some id
  | fixVar => ∀ j ∈ env, name j ≠ fixName
  | lam id b => b.Scoped name (id :: env)
  | apply f a => f.Scoped name env ∧ a.Scoped name env
  | force b => b.Scoped name env
  | delay b => b.Scoped name env
  | leaf t => ground t = true
  | case s bs => s.Scoped name env ∧ ScopedAll name env bs

/-- The same of several terms. -/
def ScopedAll (name : ValueId → String) (env : List ValueId) : List Marked → Prop
  | [] => True
  | t :: ts => t.Scoped name env ∧ ScopedAll name env ts

end

variable {name : ValueId → String} {env : List ValueId}

theorem ScopedAll.iff {ts : List Marked} : ScopedAll name env ts ↔ ∀ t ∈ ts, t.Scoped name env := by
  induction ts with
  | nil => simp [ScopedAll]
  | cons t ts ih => simp [ScopedAll, ih]

theorem Scoped.applyAll {f : Marked} {args : List Marked} (hf : f.Scoped name env)
    (hargs : ∀ t ∈ args, t.Scoped name env) : (f.applyAll args).Scoped name env := by
  induction args generalizing f with
  | nil => exact hf
  | cons a args ih =>
    rw [List.forall_mem_cons] at hargs
    exact ih (f := .apply f a) ⟨hf, hargs.1⟩ hargs.2

theorem Scoped.lams (h : t.Scoped name (ids.reverse ++ env)) :
    (Marked.lams ids t).Scoped name env := by
  induction ids generalizing env with
  | nil => exact h
  | cons x ids ih =>
    rw [List.reverse_cons, List.append_assoc] at h
    exact ih h

/-- The names listed, and the one of the fixed-point combinator if it is used
and not among them. -/
def listed (used : Bool) (seen : List String) : List String :=
  if used && !seen.contains fixName then seen ++ [fixName] else seen

theorem listed_false (seen : List String) : listed false seen = seen := rfl

theorem listed_listed (a b : Bool) (seen : List String) :
    listed b (listed a seen) = listed (a || b) seen := by
  unfold listed
  by_cases h : fixName ∈ seen <;> cases a <;> cases b <;> simp [h]

mutual

/-- The free names of a term in scope, where the names `outer` are bound
around it. -/
theorem freeFrom_erase {env : List ValueId} {t : Marked} (outer seen : List String)
    (h : t.Scoped name env) :
    (t.erase name).freeFrom (env.map name ++ outer) seen =
      listed (t.usesFix && !outer.contains fixName) seen := by
  match t, h with
  | .var id, h =>
    have : (env.map name ++ outer).contains (name id) = true :=
      List.contains_iff_mem.2
        (List.mem_append_left _ (List.mem_map_of_mem (List.mem_of_find?_eq_some h)))
    rw [erase, Term.freeFrom, this, Bool.true_or, if_pos rfl, usesFix, Bool.false_and,
      listed_false]
    all_goals nofun
  | .fixVar, h =>
    have : (env.map name ++ outer).contains fixName = outer.contains fixName := by
      rw [Bool.eq_iff_iff, List.contains_iff_mem, List.contains_iff_mem, List.mem_append,
        List.mem_map]
      refine or_iff_right ?_
      rintro ⟨j, hj, heq⟩
      exact h j hj heq
    rw [erase, Term.freeFrom, this, usesFix, listed, Bool.true_and]
    cases outer.contains fixName <;> cases seen.contains fixName <;> rfl
  | .lam id b, h => exact freeFrom_erase (t := b) outer seen h
  | .apply f a, h =>
    rw [erase, Term.freeFrom, freeFrom_erase outer seen h.1, freeFrom_erase outer _ h.2,
      listed_listed, ← Bool.and_or_distrib_right, usesFix]
  | .force b, h => exact freeFrom_erase (t := b) outer seen h
  | .delay b, h => exact freeFrom_erase (t := b) outer seen h
  | .leaf t, h => exact freeFrom_of_ground h ..
  | .case s bs, h =>
    rw [erase, Term.freeFrom, freeFrom_erase outer seen h.1, freeFromAll_eraseAll outer _ h.2,
      listed_listed, ← Bool.and_or_distrib_right, usesFix]

/-- The same of several terms. -/
theorem freeFromAll_eraseAll {env : List ValueId} {ts : List Marked} (outer seen : List String)
    (h : ScopedAll name env ts) :
    Term.freeFromAll (env.map name ++ outer) seen (eraseAll name ts) =
      listed (usesFixAny ts && !outer.contains fixName) seen := by
  match ts, h with
  | [], _ => rfl
  | t :: ts, h =>
    rw [eraseAll, Term.freeFromAll, freeFrom_erase outer seen h.1,
      freeFromAll_eraseAll outer _ h.2, listed_listed, ← Bool.and_or_distrib_right, usesFixAny]

end

/-- A term in scope has no free name but the one of the fixed-point
combinator. -/
theorem free_erase (h : t.Scoped name []) :
    (t.erase name).free = if t.usesFix then [fixName] else [] := by
  refine (freeFrom_erase [] [] h).trans ?_
  cases t.usesFix <;> rfl

/-- Linking binds the name of the fixed-point combinator. -/
theorem free_link (h : t.Scoped name []) : (link (t.erase name) t.usesFix).free = [] := by
  have hbody : (t.erase name).freeFrom [fixName] [] = [] := by
    refine (freeFrom_erase [fixName] [] h).trans ?_
    cases t.usesFix <;> rfl
  unfold link
  split
  · rw [Term.free, Term.freeFrom, Term.freeFrom, hbody]
    rfl
  · rename_i hfix
    rw [free_erase h, if_neg hfix]

end Marked

/-! ## Emission keeps scopes -/

/-- The value is a variable. -/
def IsVar (g : State) (x : Nat) : Prop := ∃ n, g.node? x = some n ∧ n.isIdentifiable = true

theorem IsVar.of_rhs {rhs : Nat} (hn : g.node? x = some n) (hr : n.rhs? = some rhs) :
    IsVar g x := by
  refine ⟨n, hn, ?_⟩
  cases n <;> first | rfl | cases hr

/-- What a node of a graph binds are variables. -/
theorem Inv.isVar_of_binds (hg : Inv g) (hn : g.node? i = some n) (hx : x ∈ n.binds) :
    IsVar g x := by
  obtain ⟨name, h⟩ | ⟨name, rec, -, h⟩ := hg.binds i x n hn hx
  · exact ⟨_, h, rfl⟩
  · exact ⟨_, h, rfl⟩

/-- The functions around a term are those of the variables bound there. -/
structure Around (g : State) (bound env : List ValueId) : Prop where
  mem : ∀ x, x ∈ env ↔ x ∈ bound
  vars : ∀ x ∈ bound, IsVar g x

section

variable {bound env : List ValueId}

theorem Around.push (h : Around g bound env) (hids : ∀ x ∈ ids, IsVar g x) :
    Around g (ids ++ bound) (ids.reverse ++ env) := by
  constructor
  · intro x
    simp [h.mem]
  · intro x hx
    rcases List.mem_append.1 hx with hx | hx
    · exact hids x hx
    · exact h.vars x hx

theorem Around.cons (h : Around g bound env) (hx : IsVar g x) : Around g (x :: bound) (x :: env) :=
  h.push (List.forall_mem_singleton.2 hx)

theorem mem_flatten_of_head {x : α} {xss : List (List α)} (h : x ∈ xss.head?.getD []) :
    x ∈ xss.flatten := by
  cases xss <;> simp_all

theorem mem_flatten_of_tail {x : α} {xss : List (List α)} (h : x ∈ xss.tail.flatten) :
    x ∈ xss.flatten := by
  cases xss with
  | nil => exact h
  | cons xs xss => exact List.mem_append_right xs h

/-- A variable that is bound is bound by the function that was emitted for
it, since no other one has its name. -/
theorem Around.find? (h : Around g bound env) (hg : Named g) (hid : id ∈ bound) :
    env.find? (g.nameOf · == g.nameOf id) = some id := by
  have hmem := (h.mem id).2 hid
  obtain ⟨j, hj⟩ : ∃ j, env.find? (g.nameOf · == g.nameOf id) = some j :=
    Option.isSome_iff_exists.1 (List.find?_isSome.2 ⟨id, hmem, beq_self_eq_true _⟩)
  have hname : g.nameOf j = g.nameOf id := by simpa using List.find?_some hj
  obtain ⟨n, hn, hv⟩ := h.vars j ((h.mem j).1 (List.mem_of_find?_eq_some hj))
  obtain ⟨m, hm, hw⟩ := h.vars id hid
  rw [nameOf_eq hn, nameOf_eq hm] at hname
  rw [hj, hg.inj j id n m hn hm hv hw hname]

theorem Around.ne_fixName (h : Around g bound env) (hg : Named g) :
    ∀ j ∈ env, g.nameOf j ≠ fixName := by
  intro j hj
  obtain ⟨n, hn, hv⟩ := h.vars j ((h.mem j).1 hj)
  rw [nameOf_eq hn]
  exact hg.ne_fix j n hn hv

end

mutual

/-- **The term of a value is in scope** inside the functions of the variables
that are bound. -/
theorem Emits.scoped {bound env : List ValueId} {id : ValueId} {t : Marked}
    (h : Emits g here bound id t) (hi : Inv g) (hg : Named g)
    (he : Around g bound env) : t.Scoped g.nameOf env := by
  match h with
  | .bound _ _ hmem => exact he.find? hg hmem
  | .inlined _ _ _ _ h => exact h.scoped hi hg he
  | .node hn _ _ hbinds h =>
    exact hbinds.scoped hi hg he fun he => h.scoped (fun x hx => hi.isVar_of_binds hn hx) hi hg he

theorem EmitsBinds.scoped {bound env inside xs : List ValueId} {binds : List (ValueId × Marked)}
    {t : Marked} (h : EmitsBinds g here bound xs binds inside) (hi : Inv g) (hg : Named g)
    (he : Around g bound env) (ht : ∀ {env}, Around g inside env → t.Scoped g.nameOf env) :
    (Marked.wrap binds t).Scoped g.nameOf env := by
  match h with
  | .nil => exact ht he
  | .skip _ h => exact h.scoped hi hg he ht
  | .bind _ hn hr hx h => exact ⟨h.scoped hi hg (he.cons (.of_rhs hn hr)) ht, hx.scoped hi hg he⟩

theorem EmitsNode.scoped {bound env : List ValueId} {n : Node} {t : Marked}
    (h : EmitsNode g here bound n t) (hn : ∀ x ∈ n.binds, IsVar g x) (hi : Inv g) (hg : Named g)
    (he : Around g bound env) : t.Scoped g.nameOf env := by
  match h with
  | .const => exact rfl
  | .builtinRef => exact ground_ofBuiltin _
  | .error | .typeError => exact ground_failing ..
  | .held h | .letIn h | .delay h | .force _ h | .reinterpret h | .forceDelay _ h =>
    exact h.scoped hi hg he
  | .lambda h => exact h.scoped hi hg (he.cons (hn _ (by simp [Node.binds])))
  | .apply hf ha => exact ⟨hf.scoped hi hg he, ha.scoped hi hg he⟩
  | .strict h | .pair h => exact h.scoped hi hg he
  | .fix h => exact ⟨he.ne_fixName hg, h.scoped hi hg (he.cons (hn _ (by simp [Node.binds])))⟩
  | .case hbs hs => exact ⟨hs.scoped hi hg he, hbs.scoped hn hi hg he⟩
  | .choice _ hs hbs =>
    refine Marked.Scoped.applyAll (ground_ofBuiltin _)
      (List.forall_mem_cons.2 ⟨hs.scoped hi hg he, ?_⟩)
    rw [List.forall_mem_map]
    exact Marked.ScopedAll.iff.1 (hbs.scoped hi hg he)
  | .builtin h =>
    exact Marked.Scoped.applyAll (ground_ofBuiltin _) (Marked.ScopedAll.iff.1 (h.scoped hi hg he))

theorem EmitsStrict.scoped {bound env : List ValueId} {x body : ValueId} {t : Marked}
    (h : EmitsStrict g here bound x body t) (hi : Inv g) (hg : Named g) (he : Around g bound env) :
    t.Scoped g.nameOf env := by
  match h with
  | .plain _ h => exact h.scoped hi hg he
  | .first hroot hu h =>
    obtain ⟨-, ⟨n, hn, hr⟩, -⟩ := strictRoot_spec hroot
    exact ⟨h.scoped hi hg (he.cons (.of_rhs hn hr)), hu.scoped hi hg he⟩

theorem EmitsAll.scoped {bound env xs : List ValueId} {ts : List Marked}
    (h : EmitsAll g here bound xs ts) (hi : Inv g) (hg : Named g) (he : Around g bound env) :
    Marked.ScopedAll g.nameOf env ts := by
  match h with
  | .nil => trivial
  | .cons h hs => exact ⟨h.scoped hi hg he, hs.scoped hi hg he⟩

theorem EmitsBranches.scoped {bound env xs : List ValueId} {binders : List (List ValueId)}
    {ts : List Marked} (h : EmitsBranches g here bound xs binders ts)
    (hb : ∀ x ∈ binders.flatten, IsVar g x) (hi : Inv g) (hg : Named g) (he : Around g bound env) :
    Marked.ScopedAll g.nameOf env ts := by
  match h with
  | .nil => trivial
  | .cons h hs =>
    exact ⟨.lams (h.scoped hi hg (he.push fun x hx => hb x (mem_flatten_of_head hx))),
      hs.scoped (fun x hx => hb x (mem_flatten_of_tail hx)) hi hg he⟩

end

/-! ## Lowered units -/

/-- **Emitted programs are closed and free of capture.**  The only name that
is free before linking is the one of the fixed-point combinator, and just when
it is used; after linking no name is.  Every other variable is bound by the
function that was emitted for its value. -/
theorem lowerModule_scoped (m : Module) (target : Version) (debug : Bool) (r : Result)
    (h : (lowerModule m target debug).result = .ok r) :
    (r.unlinked.free = [] ∨ r.unlinked.free = ["__fix"]) ∧
      (r.unlinked.free = ["__fix"] ↔ r.usesFix = true) ∧ r.term.free = [] ∧
      ∃ decls g id t, m.scope = .ok decls ∧
        (build m.root).run (State.new target decls debug) = (.ok id, g) ∧
        Emits g (Placed g fun _ _ => True) [] id t ∧ t.erase g.nameOf = r.unlinked ∧
        t.Scoped g.nameOf [] := by
  obtain ⟨decls, hdecls, hrun⟩ := lowerModule_ok h
  obtain ⟨g, id, hy⟩ := run_yields hrun
  obtain ⟨t, ht, herase, hfix⟩ := hy.unlinked _ .all
  have hscoped : t.Scoped g.nameOf [] := ht.scoped hy.built.inv hy.built.named ⟨by simp, by simp⟩
  have hfree := Marked.free_erase hscoped
  have hlink := Marked.free_link hscoped
  rw [herase, hfix] at hfree hlink
  refine ⟨?_, ?_, hy.term ▸ hlink, decls, g, id, t, hdecls, hy.built.run, ht, herase, hscoped⟩
  · rw [hfree]
    cases r.usesFix
    · exact .inl rfl
    · exact .inr rfl
  · rw [hfree]
    cases r.usesFix <;> simp [fixName]

/-- A unit with a function that calls itself. -/
def selfCalling : Module where
  name := "SelfCalling"
  decls := []
  root :=
    let type : Ty := .arrow .integer .integer
    let f : Expr := .node type default (.var "f")
    let call (arg : Form Expr) : Expr :=
      .node .integer default (.apply f (.node .integer default arg))
    .node .integer default (.letIn true
      [⟨"f", type, .node type default (.lam "x" .integer (call (.var "x"))), default⟩]
      (call (.const (some (.integer 1)))))

/-- The combinator is free in the term of a function that calls itself, and
bound when it is linked. -/
theorem selfCalling_scoped :
    ∃ r, (lowerModule selfCalling .v3 false).result = .ok r ∧ r.unlinked.free = ["__fix"] ∧
      r.term.free = [] := by
  have hfix : (lowerModule selfCalling .v3 false).result.toOption.map (·.usesFix) = some true := by
    decide +kernel
  obtain ⟨r, hr, hused⟩ := Option.map_eq_some_iff.1 hfix
  have hok : (lowerModule selfCalling .v3 false).result = .ok r := by
    revert hr
    cases (lowerModule selfCalling .v3 false).result <;> simp [Except.toOption]
  obtain ⟨-, hfree, hterm, -⟩ := lowerModule_scoped selfCalling .v3 false r hok
  exact ⟨r, hok, hfree.2 hused, hterm⟩

end CoreLowering.Graph
