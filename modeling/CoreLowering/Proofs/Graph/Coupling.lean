import Mathlib.Data.List.Forall2
import CoreLowering.Graph.Lower
import CoreLowering.Proofs.Graph.Run

/-!
# Two lowerings side by side

What a lowering is given besides an expression are declarations, a version
and whether to debug.  A `Coupling` has two such settings, the right one with
a version that takes values apart as the left one does and has all its
builtins.  Two states are `Kin` if they are the same but for the setting and
the trail.

`Alike` says of two steps that from such states they come to such states and
to results of a given relation, or both fail with one and the same failure;
the left one alone fails only for a builtin that its version lacks.  `Steady`
says so of a step and itself, and `SteadyAt` of its run from one state.  They
come with one rule for each way in which steps are put together.  By these
rules building nodes, starting and finishing cases and the helpers for pairs
are steady.

A failure breaks off if the lowering reaches for an item that a list does not
have, which `Cause.breaksOff` tells apart from all other causes.  Lowering
trusts declarations in two places.  It takes a declaration of the name `List`
for the list type, whose constructors are the empty list and an item in front
of a list, and it takes for granted that a value it switches on has a
constructor.  `Decl.orderly` says that a declaration deserves this, and steady
steps do not break off where all declarations do.
-/

namespace CoreLowering

/-! ## Declarations that lowering can rely on -/

namespace Decl

variable {d : Decl} {c : Constructor} {v : Version} {name : String}

/-- Whether lowering finds all it reaches for in a declaration.  Every
constructor of the list type but the empty list has two fields, and any other
type has a constructor where a match is made by tests. -/
def orderly (v : Version) (d : Decl) : Bool :=
  if d.name = Ty.listName then
    d.constructors.all fun c => c.name = "Nil" || 2 ≤ c.fields.length
  else Graph.isNative v || !d.constructors.isEmpty

theorem two_le_of_orderly (h : d.orderly v = true) (hname : d.name = Ty.listName)
    (hc : d.find? name = some c) (hnil : name ≠ "Nil") : 2 ≤ c.fields.length := by
  rw [orderly, if_pos hname] at h
  have hfound : c.name = name := by simpa using List.find?_some hc
  have hfields := List.all_eq_true.1 h c (List.mem_of_find?_eq_some hc)
  simpa [hfound, hnil] using hfields

theorem ne_nil_of_orderly (h : d.orderly v = true) (hname : d.name ≠ Ty.listName)
    (hv : Graph.isNative v = false) : d.constructors ≠ [] := by
  rw [orderly, if_neg hname] at h
  simpa [hv] using h

end Decl

namespace Graph

variable {α β γ δ : Type} {id x : ValueId} {type : Ty} {rep : Rep} {span : Span} {name : String}
  {cause : Cause} {types : List Ty} {reps : List Rep} {xs : List α} {s' : State} {c : OpenCase}
  {bs : List Binder} {h : PairHelper} {m n : LowerM α}
  {next : α → LowerM β} {s : State}

/-! ## Settings -/

/-- What a lowering is given besides an expression. -/
structure Setting where
  decls : Decls
  target : Version
  debug : Bool

def State.under (s : State) (g : Setting) (trail : List Point) : State :=
  { s with target := g.target, decls := g.decls, debug := g.debug, points := trail }

/-- Two settings in which the same is lowered to the same, as far as the left
version has the builtins. -/
structure Coupling where
  left : Setting
  right : Setting
  native : isNative right.target = isNative left.target
  available : ∀ f : Builtin,
    f.availableIn left.target = true → f.availableIn right.target = true

/-- The declarations of the left setting deserve to be trusted. -/
def Coupling.Orderly (κ : Coupling) : Prop :=
  κ.left.decls.list.all (Decl.orderly κ.left.target) = true

/-- The settings have the same declarations. -/
class Coupling.SameDecls (κ : Coupling) : Prop where
  eq : κ.right.decls = κ.left.decls

/-- A setting beside itself. -/
def Setting.twice (g : Setting) : Coupling :=
  ⟨g, g, rfl, fun _ h => h⟩

instance (g : Setting) : g.twice.SameDecls := ⟨rfl⟩

variable {κ : Coupling}

/-- Two states that are the same but for their settings and trails. -/
inductive Kin (κ : Coupling) : State → State → Prop
  | mk (s : State) (p q : List Point) : Kin κ (s.under κ.left p) (s.under κ.right q)

/-- How two steps meet again. -/
inductive Meets (κ : Coupling) (Q : α → β → Prop) :
    Except Failure α × State → Except Failure β × State → Prop
  | ok {a b s s'} (h : Q a b) (hs : Kin κ s s') : Meets κ Q (.ok a, s) (.ok b, s')
  | failed {f s s'} (hf : κ.Orderly → f.cause.breaksOff = false) (hs : Kin κ s s') :
      Meets κ Q (.error f, s) (.error f, s')
  /-- The left version lacks something. -/
  | lacking {f s r} (hc : κ.left.target ≠ κ.right.target)
      (hf : κ.Orderly → f.cause.breaksOff = false) : Meets κ Q (.error f, s) r

theorem Meets.unbroken {Q : α → β → Prop} {f : Failure} {r : Except Failure β × State}
    (h : Meets κ Q (.error f, s) r) (ho : κ.Orderly) : f.cause.breaksOff = false := by
  cases h with
  | failed hf | lacking _ hf => exact hf ho

/-- Two steps that meet again, from whatever kin states. -/
def Alike (κ : Coupling) (Q : α → β → Prop) (m : LowerM α) (m' : LowerM β) : Prop :=
  ∀ s s', Kin κ s s' → Meets κ Q (m.run s) (m'.run s')

/-- A step that does the same in both settings. -/
def Steady (κ : Coupling) (m : LowerM α) : Prop :=
  Alike κ Eq m m

/-- A step that does the same in both settings of every coupling with one set
of declarations, from the state `s`. -/
def SteadyAt (m : LowerM α) (s : State) : Prop :=
  ∀ ⦃κ : Coupling⦄ [κ.SameDecls] ⦃s' : State⦄, Kin κ s s' → Meets κ Eq (m.run s) (m.run s')

/-- Every result of a step has a property. -/
def Returns (m : LowerM α) (P : α → Prop) : Prop :=
  ∀ s a, (m.run s).1 = .ok a → P a

theorem Returns.pure {P : α → Prop} {a : α} (h : P a) : Returns (Pure.pure a) P := by
  intro s b hb
  cases hb
  exact h

theorem Returns.bind_of {P : α → Prop} {Q : β → Prop} (hm : Returns m P)
    (hnext : ∀ a, P a → Returns (next a) Q) : Returns (m >>= next) Q := by
  intro s b hb
  rcases hr : m.run s with ⟨f | a, s'⟩
  · rw [run_bind_of_error hr] at hb
    cases hb
  · rw [run_bind_of_ok hr] at hb
    exact hnext a (hm s a (by rw [hr])) s' b hb

theorem Returns.bind {Q : β → Prop} (hnext : ∀ a, Returns (next a) Q) : Returns (m >>= next) Q :=
  have htrue : Returns m fun _ => True := fun _ _ _ => trivial
  htrue.bind_of fun a _ => hnext a

/-- One result for each of the items, so there are some. -/
theorem Returns.mapM_ne_nil {f : α → LowerM β} :
    Returns (xs.mapM f) fun ys => xs ≠ [] → ys ≠ [] := by
  cases xs with
  | nil => exact fun _ _ _ h => absurd rfl h
  | cons a xs =>
    rw [List.mapM_cons]
    exact .bind fun _ => .bind fun _ => .pure fun _ => List.cons_ne_nil _ _

/-! ## Rules for two steps -/

theorem Meets.mono {P Q : α → β → Prop} {r : Except Failure α × State}
    {r' : Except Failure β × State} (h : Meets κ P r r') (hpq : ∀ a b, P a b → Q a b) :
    Meets κ Q r r' := by
  cases h with
  | ok hab ht => exact .ok (hpq _ _ hab) ht
  | failed hf ht => exact .failed hf ht
  | lacking hc hf => exact .lacking hc hf

theorem Meets.bind {P : α → β → Prop} {Q : γ → δ → Prop} {m' : LowerM β} {next : α → LowerM γ}
    {next' : β → LowerM δ} (hm : Meets κ P (m.run s) (m'.run s'))
    (hnext : ∀ a b t t', m.run s = (.ok a, t) → P a b → Kin κ t t' →
      Meets κ Q ((next a).run t) ((next' b).run t')) :
    Meets κ Q ((m >>= next).run s) ((m' >>= next').run s') := by
  rcases hr : m.run s with ⟨r, t⟩
  rcases hr' : m'.run s' with ⟨r', t'⟩
  rw [hr, hr'] at hm
  cases hm with
  | ok hab ht =>
    rw [run_bind_of_ok hr, run_bind_of_ok hr']
    exact hnext _ _ _ _ hr hab ht
  | failed hf ht =>
    rw [run_bind_of_error hr, run_bind_of_error hr']
    exact .failed hf ht
  | lacking hc hf =>
    rw [run_bind_of_error hr]
    exact .lacking hc hf

/-- The state once a failure is reported. -/
def State.report (s : State) (f : Failure) : State :=
  if f.code ≠ .internal then { s with reported := f.diagnostic :: s.reported } else s

theorem run_reporting_of_error {f : Failure} (h : m.run s = (.error f, s')) :
    (reporting m).run s = (.error f, s'.report f) := by
  rw [reporting, run_tryCatch, h]
  dsimp only
  rw [State.report]
  split <;> rfl

theorem run_reporting_ok {a : α} : (reporting m).run s = (.ok a, s') ↔ m.run s = (.ok a, s') := by
  rcases hr : m.run s with ⟨f | b, t⟩
  · rw [run_reporting_of_error hr]
    simp
  · rw [reporting, run_tryCatch, hr]

theorem State.report_under (s : State) (f : Failure) (g : Setting) (p : List Point) :
    (s.under g p).report f = (s.report f).under g p := by
  unfold report
  split <;> rfl

/-- A failure is reported and stays what it is. -/
theorem Meets.reporting {P : α → β → Prop} {m' : LowerM β} (hm : Meets κ P (m.run s) (m'.run s')) :
    Meets κ P ((Graph.reporting m).run s) ((Graph.reporting m').run s') := by
  rcases hr : m.run s with ⟨r, t⟩
  rcases hr' : m'.run s' with ⟨r', t'⟩
  rw [hr, hr'] at hm
  cases hm with
  | ok hab ht =>
    rw [Graph.reporting, Graph.reporting, run_tryCatch, run_tryCatch, hr, hr']
    exact .ok hab ht
  | failed hf ht =>
    obtain ⟨t, p, q⟩ := ht
    rw [run_reporting_of_error hr, run_reporting_of_error hr', State.report_under,
      State.report_under]
    exact .failed hf (.mk _ p q)
  | lacking hc hf =>
    rw [run_reporting_of_error hr]
    exact .lacking hc hf

namespace Alike

variable {P : α → β → Prop} {Q : γ → δ → Prop} {m' : LowerM β}
  {next : α → LowerM γ} {next' : β → LowerM δ}

theorem pure {a : α} {b : β} (h : P a b) : Alike κ P (Pure.pure a) (Pure.pure b) :=
  fun _ _ hs => .ok h hs

/-- Steps one after the other, where something more is known of the first
result on the left. -/
theorem bind_of {R : α → Prop} (hm : Alike κ P m m') (hR : Returns m R)
    (hnext : ∀ a b, P a b → R a → Alike κ Q (next a) (next' b)) :
    Alike κ Q (m >>= next) (m' >>= next') :=
  fun s s' hs => (hm s s' hs).bind fun a b t t' hr hab ht =>
    hnext a b hab (hR s a (by rw [hr])) t t' ht

theorem bind (hm : Alike κ P m m') (hnext : ∀ a b, P a b → Alike κ Q (next a) (next' b)) :
    Alike κ Q (m >>= next) (m' >>= next') :=
  have htrue : Returns m fun _ => True := fun _ _ _ => trivial
  hm.bind_of htrue fun a b hab _ => hnext a b hab

/-- A look at what the states have in common. -/
theorem get_bind {next : State → LowerM α} {next' : State → LowerM β}
    (h : ∀ s g p, next (s.under g p) = next s) (h' : ∀ s g p, next' (s.under g p) = next' s)
    (hnext : ∀ s, Alike κ P (next s) (next' s)) : Alike κ P (get >>= next) (get >>= next') := by
  rintro _ _ ⟨s, p, q⟩
  have hmeets := hnext s _ _ (.mk s p q)
  rwa [← h s κ.left p, ← h' s κ.right q] at hmeets

theorem ite {p : Prop} [Decidable p] {n' : LowerM β} (hm : p → Alike κ P m m')
    (hn : ¬p → Alike κ P n n') : Alike κ P (if p then m else n) (if p then m' else n') := by
  split
  · exact hm ‹p›
  · exact hn ‹¬p›

theorem mapM {f : γ → LowerM α} {f' : γ → LowerM β} {xs : List γ}
    (h : ∀ a ∈ xs, Alike κ P (f a) (f' a)) : Alike κ (List.Forall₂ P) (xs.mapM f) (xs.mapM f') := by
  induction xs with
  | nil => exact pure .nil
  | cons a xs ih =>
    rw [List.mapM_cons, List.mapM_cons]
    refine (h a List.mem_cons_self).bind fun b b' hb => ?_
    refine (ih fun a' ha' => h a' (List.mem_cons_of_mem _ ha')).bind fun bs bs' hbs => ?_
    exact pure (.cons hb hbs)

end Alike

/-! ## Rules for one step -/

namespace Steady

theorem pure (a : α) : Steady κ (Pure.pure a) :=
  Alike.pure rfl

/-- Steps one after the other, the first of which does the same in both
settings. -/
theorem bindAlike {next' : α → LowerM γ} {Q : β → γ → Prop} (hm : Steady κ m)
    (hnext : ∀ a, Alike κ Q (next a) (next' a)) : Alike κ Q (m >>= next) (m >>= next') :=
  Alike.bind hm fun a _ hab => hab ▸ hnext a

theorem bind (hm : Steady κ m) (hnext : ∀ a, Steady κ (next a)) : Steady κ (m >>= next) :=
  hm.bindAlike hnext

/-- Steps one after the other, where all first results have a property. -/
theorem bind_returns {P : α → Prop} (hm : Steady κ m) (hP : Returns m P)
    (hnext : ∀ a, P a → Steady κ (next a)) : Steady κ (m >>= next) :=
  Alike.bind_of hm hP fun a _ hab ha => hab ▸ hnext a ha

/-- A look at what the states have in common. -/
theorem get_bind {next : State → LowerM β} (h : ∀ s g p, next (s.under g p) = next s)
    (hnext : ∀ s, Steady κ (next s)) : Steady κ (get >>= next) :=
  Alike.get_bind h h hnext

/-- A change of what the states have in common. -/
theorem change {f : State → α × State}
    (h : ∀ s g p, f (s.under g p) = ((f s).1, (f s).2.under g p)) : Steady κ (modifyGet f) := by
  rintro _ _ ⟨s, p, q⟩
  rw [run_modifyGet, run_modifyGet, h, h]
  exact .ok rfl (.mk _ p q)

theorem ite {p : Prop} [Decidable p] (hm : p → Steady κ m) (hn : ¬p → Steady κ n) :
    Steady κ (if p then m else n) :=
  Alike.ite hm hn

theorem mapM {f : α → LowerM β} (h : ∀ a ∈ xs, Steady κ (f a)) : Steady κ (xs.mapM f) := by
  have halike := Alike.mapM h
  rwa [List.forall₂_eq_eq_eq] at halike

theorem forM {f : α → LowerM Unit} (h : ∀ a ∈ xs, Steady κ (f a)) : Steady κ (xs.forM f) := by
  induction xs with
  | nil => exact pure ()
  | cons a xs ih =>
    exact (h a List.mem_cons_self).bind fun _ =>
      ih fun a' ha' => h a' (List.mem_cons_of_mem _ ha')

end Steady

/-! ## Rules for one run -/

/-- Whether the declarations of a lowering deserve to be trusted. -/
def State.Orderly (s : State) : Prop :=
  s.decls.list.all (Decl.orderly s.target) = true

theorem State.Orderly.of_find (h : s.Orderly) {d : Decl} (hd : s.decls.find? name = some d) :
    d.orderly s.target = true :=
  List.all_eq_true.1 h d (List.mem_of_find?_eq_some hd)

theorem Kin.orderly (h : Kin κ s s') (ho : κ.Orderly) : s.Orderly := by
  obtain ⟨s, p, q⟩ := h
  exact ho

/-- The state on the right is the one on the left in another setting. -/
theorem Kin.eq_under [hd : κ.SameDecls] (h : Kin κ s s') :
    s' = s.under ⟨s.decls, κ.right.target, κ.right.debug⟩ s'.points := by
  obtain ⟨s, p, q⟩ := h
  simp [State.under, hd.eq]

namespace SteadyAt

theorem of_steady (h : ∀ {κ : Coupling}, Steady κ m) : SteadyAt m s :=
  fun _ _ _ hs => h _ _ hs

theorem bind (hm : SteadyAt m s) (hnext : ∀ a t, m.run s = (.ok a, t) → SteadyAt (next a) t) :
    SteadyAt (m >>= next) s := by
  intro κ _ s' hs
  refine (hm hs).bind fun a b t t' hr hab ht => ?_
  subst hab
  exact hnext a t hr ht

/-- Looking up what all settings agree on. -/
theorem read {a : α}
    (h : ∀ {v d p}, m.run (s.under ⟨s.decls, v, d⟩ p) = (.ok a, s.under ⟨s.decls, v, d⟩ p))
    (hnext : SteadyAt (next a) s) : SteadyAt (m >>= next) s := by
  intro κ _ s' hs
  have hleft : m.run s = (.ok a, s) := h
  have hright : m.run s' = (.ok a, s') := hs.eq_under ▸ h
  rw [run_bind_of_ok hleft, run_bind_of_ok hright]
  exact hnext hs

/-- A look at what the states have in common. -/
theorem get {next : State → LowerM β} (h : ∀ g p, next (s.under g p) = next s)
    (hnext : SteadyAt (next s) s) : SteadyAt (MonadState.get >>= next) s := by
  intro κ _ s' hs
  have hsame : next s' = next s := hs.eq_under ▸ h _ _
  change Meets κ Eq ((next s).run s) ((next s').run s')
  rw [hsame]
  exact hnext hs

/-- A look at the version, where only how it takes values apart matters. -/
theorem target {next : Version → LowerM β}
    (h : ∀ v, isNative v = isNative s.target → next v = next s.target)
    (hnext : SteadyAt (next s.target) s) : SteadyAt (Graph.target >>= next) s := by
  intro κ _ s' hs
  have hsame : next s'.target = next s.target := by
    obtain ⟨s, p, q⟩ := hs
    exact h _ κ.native
  change Meets κ Eq ((next s.target).run s) ((next s'.target).run s')
  rw [hsame]
  exact hnext hs

theorem reporting (hm : SteadyAt m s) : SteadyAt (Graph.reporting m) s :=
  fun _ _ _ hs => (hm hs).reporting

end SteadyAt

/-! ## Looking things up and failing -/

theorem target_bind_alike {next next' : Version → LowerM β} {Q : β → β → Prop}
    (h : Alike κ Q (next κ.left.target) (next' κ.right.target)) :
    Alike κ Q (target >>= next) (target >>= next') := by
  rintro _ _ ⟨s, p, q⟩
  exact h _ _ (.mk s p q)

/-- What is asked of the version has the same answer for both. -/
theorem target_bind_steady {next : Version → LowerM β}
    (hsame : next κ.right.target = next κ.left.target) (h : Steady κ (next κ.left.target)) :
    Steady κ (target >>= next) := by
  refine target_bind_alike ?_
  rw [hsame]
  exact h

theorem point_steady {detail : String} : Steady κ (point name detail) := by
  have hpoint : ∀ (s : State) (g : Setting) (p : List Point), ∃ p',
      (point name detail).run (s.under g p) = (.ok (), s.under g p') := by
    intro s g p
    cases hdebug : g.debug with
    | true => exact ⟨⟨name, detail⟩ :: p, by simp [point, State.under, hdebug]⟩
    | false => exact ⟨p, by simp [point, State.under, hdebug]⟩
  rintro _ _ ⟨s, p, q⟩
  obtain ⟨p', hp⟩ := hpoint s κ.left p
  obtain ⟨q', hq⟩ := hpoint s κ.right q
  rw [hp, hq]
  exact .ok rfl (.mk s p' q')

/-- A failure for the same reason in both settings, which breaks off only
where a declaration is not orderly. -/
theorem fail_alike_of {Q : α → β → Prop} (h : κ.Orderly → cause.breaksOff = false) :
    Alike κ Q (fail cause span types reps) (fail cause span types reps) :=
  point_steady.bindAlike fun _ _ _ hs => .failed h hs

theorem fail_steady_of (h : κ.Orderly → cause.breaksOff = false) :
    Steady κ (fail cause span types reps : LowerM α) :=
  fail_alike_of h

theorem fail_steady (h : cause.breaksOff = false) :
    Steady κ (fail cause span types reps : LowerM α) :=
  fail_steady_of fun _ => h

theorem failAt_steady (h : cause.breaksOff = false) : Steady κ (failAt cause span : LowerM α) :=
  fail_steady h

/-- Nothing comes after a failure. -/
theorem fail_bind_steady (h : cause.breaksOff = false) :
    Steady κ (fail cause span types reps >>= next) :=
  have hfalse : Returns (fail cause span types reps : LowerM α) fun _ => False :=
    fun _ _ ha => by cases ha
  (fail_steady h).bind_returns hfalse fun _ ha => ha.elim

theorem value_steady : Steady κ (value id) := by
  refine .get_bind (fun _ _ _ => rfl) fun s => ?_
  split
  · exact .pure _
  · exact failAt_steady rfl

theorem warn_steady {code : Code} {message : String} : Steady κ (warn code span message) :=
  .bind (.change fun _ _ _ => rfl) fun _ =>
    .bind point_steady fun _ => .change fun _ _ _ => rfl

theorem update_steady {f : Value → Value} : Steady κ (update id f) :=
  .change fun _ _ _ => rfl

theorem popScope_steady : Steady κ popScope := by
  refine .change fun s _ _ => ?_
  obtain ⟨_, _, _, _, scope⟩ := s
  rcases scope with _ | ⟨_, _ | ⟨_, _⟩⟩ <;> rfl

theorem define_steady : Steady κ (define name id) := by
  refine .change fun s _ _ => ?_
  obtain ⟨_, _, _, _, scope⟩ := s
  cases scope <;> rfl

theorem pushScope_steady : Steady κ pushScope :=
  .change fun _ _ _ => rfl

/-! ## Nodes -/

theorem noteSlot_steady : Steady κ (noteSlot id) := by
  refine .bind value_steady fun w => .ite (fun _ => update_steady) fun _ => ?_
  refine .bind update_steady fun _ => .ite (fun _ => ?_) fun _ => .pure _
  exact .forM fun _ _ => update_steady

theorem newNode_steady {node : Node} : Steady κ (newNode node type rep span) :=
  .bind (.change fun _ _ _ => rfl) fun _ =>
    .bind (.forM fun _ _ => .bind value_steady fun _ => .pure _) fun _ =>
      .get_bind (fun _ _ _ => rfl) fun _ => .bind (.forM fun _ _ => noteSlot_steady) fun _ =>
        .bind update_steady fun _ => .pure _

theorem recordDeps_steady : Steady κ (recordDeps id x) :=
  .bind value_steady fun _ => .bind update_steady fun _ => .forM fun _ _ => update_steady

theorem setRhs_steady : Steady κ (setRhs id x) := by
  refine .bind value_steady fun _ => .ite (fun _ => fail_bind_steady rfl) fun _ => ?_
  exact .bind update_steady fun _ => .bind noteSlot_steady fun _ => recordDeps_steady

theorem allocVar_steady {node : Node} : Steady κ (allocVar node type rep span) :=
  .bind (.change fun _ _ _ => rfl) fun _ => .bind update_steady fun _ => .pure _

theorem newBinder_steady : Steady κ (newBinder name type rep span) :=
  .bind (.change fun _ _ _ => rfl) fun _ => allocVar_steady

theorem newVar_steady : Steady κ (newVar name type rep x span) :=
  .bind newBinder_steady fun _ => .bind setRhs_steady fun _ => .pure _

/-- A builtin that the left version has is there in both settings. -/
theorem builtin_steady {f : Builtin} {args : List ValueId} :
    Steady κ (builtin f type rep span args) := by
  refine target_bind_alike ?_
  by_cases hf : f.availableIn κ.left.target = true
  · rw [hf, κ.available f hf]
    exact newNode_steady
  · by_cases htarget : κ.left.target = κ.right.target
    · rw [← htarget]
      exact Steady.ite (fun _ => fail_bind_steady rfl) fun _ => newNode_steady
    · -- the left version lacks the builtin, whether the right one has it or not
      have hlacks : (!f.availableIn κ.left.target) = true := by simpa using hf
      rintro _ _ ⟨s, p, q⟩
      rw [if_pos hlacks]
      exact .lacking htarget fun _ => rfl

theorem fix_steady : Steady κ (fix id x span) :=
  .bind value_steady fun _ => newNode_steady

namespace State

variable (s : State) (g : Setting) (p : List Point)

theorem value?_under (id : ValueId) : (s.under g p).value? id = s.value? id := rfl

theorem constantIn_under (fuel : Nat) (id : ValueId) :
    (s.under g p).constantIn fuel id = s.constantIn fuel id := by
  induction fuel generalizing id with
  | zero => rfl
  | succ fuel ih => simp only [constantIn, value?_under, ih]

theorem constant?_under (id : ValueId) : (s.under g p).constant? id = s.constant? id :=
  s.constantIn_under g p _ id

theorem underViewsIn_under (fuel : Nat) (id : ValueId) :
    (s.under g p).underViewsIn fuel id = s.underViewsIn fuel id := by
  induction fuel generalizing id with
  | zero => rfl
  | succ fuel ih => simp only [underViewsIn, value?_under, ih]

theorem underViews_under (id : ValueId) : (s.under g p).underViews id = s.underViews id :=
  s.underViewsIn_under g p _ id

theorem isEffortless_under (id : ValueId) : (s.under g p).isEffortless id = s.isEffortless id := by
  simp only [isEffortless, underViews_under]

end State

/-! ## Cases -/

theorem beginCase_steady {shape : Shape} : Steady κ (beginCase shape id span) := by
  have hopened : ∀ o : OpenCase, Steady κ (do
      point "case" (shape.name ++ " " ++ strategyName (isNative κ.left.target))
      return o) :=
    fun _ => .bind point_steady fun _ => .pure _
  refine target_bind_steady (by simp only [κ.native]) <|
    .ite (fun _ => .bind (.pure _) hopened) fun _ => ?_
  exact .bind value_steady fun _ => .ite (fun _ => .bind (.pure _) hopened) fun _ =>
    .bind newVar_steady fun _ => .bind (.pure _) hopened

theorem bindExtracted_steady {branch : Nat} : Steady κ (bindExtracted c branch id bs) := by
  refine .mapM fun b _ => ?_
  dsimp only
  split
  · exact .bind builtin_steady fun _ => newVar_steady
  · exact failAt_steady rfl

theorem OpenCase.bind_steady {branch : Nat} : Steady κ (c.bind branch bs) := by
  refine .ite (fun _ => ?_) fun _ => .ite (fun _ => ?_) fun _ => ?_
  · exact .bind (.mapM fun _ _ => newBinder_steady) fun _ => .pure _
  · exact .bind builtin_steady fun _ => .bind newVar_steady fun _ =>
      .bind bindExtracted_steady fun _ => .pure _
  · exact .bind bindExtracted_steady fun _ => .pure _

theorem OpenCase.finish_steady {branches : List (Option ValueId)} :
    Steady κ (c.finish branches type rep) := by
  refine .bind (.mapM fun b _ => ?_) fun _ =>
    .ite (fun _ => newNode_steady) fun _ => newNode_steady
  cases b with
  | some id => exact .pure _
  | none => exact newNode_steady

/-! ## Changes of layout -/

theorem pairToFields_steady : Steady κ (pairToFields id span) :=
  .bind builtin_steady fun _ => .bind builtin_steady fun _ => .bind newNode_steady fun _ =>
    .bind builtin_steady fun _ => builtin_steady

theorem fieldsToPair_steady : Steady κ (fieldsToPair id type rep span) :=
  .bind builtin_steady fun _ => .bind builtin_steady fun _ => .bind builtin_steady fun _ =>
    builtin_steady

theorem mapListHelper_steady {input output : Ty} {item : Binder} {head : ValueId → LowerM ValueId}
    {empty : Constant} (hhead : ∀ h, Steady κ (head h)) :
    Steady κ (mapListHelper name type input output item head empty) := by
  refine .bind newBinder_steady fun _ => .bind newBinder_steady fun _ =>
    .bind beginCase_steady fun _ => .bind OpenCase.bind_steady fun _ => ?_
  dsimp only
  split
  · exact .bind newNode_steady fun _ => .bind (hhead _) fun _ => .bind builtin_steady fun _ =>
      .bind newNode_steady fun _ => .bind OpenCase.finish_steady fun _ =>
        .bind newNode_steady fun _ => .bind fix_steady fun _ =>
          .bind setRhs_steady fun _ => .pure _
  · exact failAt_steady rfl

theorem pairHelperHead_steady : Steady κ (pairHelperHead h id) := by
  cases h with
  | toData =>
    exact .bind pairToFields_steady fun _ => .bind newNode_steady fun _ => builtin_steady
  | ofData =>
    exact .bind builtin_steady fun _ => .bind builtin_steady fun _ =>
      .bind newVar_steady fun _ => fieldsToPair_steady

theorem keptHelper_steady {key : String} {make : LowerM ValueId} (h : Steady κ make) :
    Steady κ (keptHelper key make) := by
  refine .get_bind (fun _ _ _ => rfl) fun s => ?_
  split
  · exact .pure _
  · exact .bind h fun _ => .bind (.change fun _ _ _ => rfl) fun _ => .pure _

theorem pairHelper_steady : Steady κ (pairHelper h) :=
  keptHelper_steady <| .bind (mapListHelper_steady fun _ => pairHelperHead_steady) fun _ =>
    .bind (.change fun _ _ _ => rfl) fun _ => .bind point_steady fun _ => .pure _

/-- The direct conversions depend on the version by how it takes values
apart. -/
theorem edges_congr {v w : Version} (h : isNative v = isNative w) (ds : Decls) (t : Ty) :
    edges ds v t = edges ds w t := by
  have hcase : v.hasBuiltinCase = w.hasBuiltinCase := h
  simp only [edges, productEdges, hcase]

theorem foldPath_congr {v w : Version} (h : isNative v = isNative w) (ds : Decls) (t : Ty) :
    foldPath ds v t = foldPath ds w t := by
  funext source goal k
  simp only [foldPath, edges_congr h]

end Graph

end CoreLowering
