import CoreLowering.Proofs.Graph.Coupling
import CoreLowering.Proofs.Graph.Lexical

/-!
# Steps that keep the invariant

`Sound J l m s post` says that the step `m`, run in `s` where the names in
scope are within `J`, makes changes only, whether it succeeds or fails, and that
on success the names in scope are what they were, helpers apart, and `post`
holds.  It does the same in all settings that take values apart alike.
`Kept J m s post` is the usual case, where `m` closes off nothing and defines
nothing that was there before.  The rules below put such steps together.
-/

namespace CoreLowering.Graph

variable {α β : Type} {s s' s'' : State} {id l : Nat} {fs : List (List (String × ValueId))}
  {cause : Cause} {span : Span} {f : α → LowerM β} {l' : Nat}
  {frames' : List (List (String × ValueId))} {p : Prop} {a : α} {n : LowerM α}
  {frame : List (String × ValueId)} {r : Except Failure α} {J J' K : Nat → Prop}

/-- Changes that leave alone all that was there. -/
abbrev Grows (s s' : State) : Prop := Trace s.size s s'

theorem Trace.size_le (h : Trace l s s') : s.size ≤ s'.size := h.evolves.size

theorem Trace.orderly (h : Trace l s s') (ho : s'.Orderly) : s.Orderly := by
  rwa [State.Orderly, h.evolves.decls, h.evolves.target] at ho

theorem Grows.trans (h : Grows s s') (h' : Grows s' s'') : Grows s s'' :=
  Trace.trans h (h'.weaken h.size_le)

theorem Within.grow (h : Within K s id) (hs : Grows s s') : Within K s' id :=
  h.trace hs fun _ hx => hs.usedOf (Nat.le_trans hx h.valid.2)
    (.inl (Nat.le_trans hx h.valid.2))

/-! ## Scopes -/

/-- The scopes of `b`, new names of helpers at the top apart, with some frames
in front.  What the names stand for is within `J`, which has nothing in it that
is not there. -/
structure Framed (J : Nat → Prop) (frames : List (List (String × ValueId))) (b s : State) :
    Prop where
  base : b.scope ≠ []
  scope : ∃ extra : List (String × ValueId), (∀ p ∈ extra, IsHelper s p.2) ∧
    s.scope = frames ++ addAllToLast extra b.scope
  inner : ∀ p ∈ frames.flatten, Within J s p.2
  outer : ∀ p ∈ b.scope.flatten, Within J s p.2
  below : ∀ u, J u → u ≤ s.size

theorem mem_addToLast_of_mem {p : String × ValueId} (x : String) (id : ValueId)
    (h : p ∈ fs.flatten) : p ∈ (addToLast x id fs).flatten := by
  induction fs with
  | nil => cases h
  | cons frame fs ih =>
    cases fs with
    | nil => simp_all [addToLast]
    | cons frame' fs =>
      rw [addToLast, List.flatten_cons, List.mem_append] <;>
        simp_all only [List.flatten_cons, List.mem_append, reduceCtorEq,
          implies_true]
      exact h.imp_right ih

theorem mem_addAllToLast_of_mem {p : String × ValueId} (extra : List (String × ValueId))
    (h : p ∈ fs.flatten) : p ∈ (addAllToLast extra fs).flatten := by
  induction extra with
  | nil => exact h
  | cons q extra ih => exact mem_addToLast_of_mem q.1 q.2 ih

theorem addToLast_append (x : String) (id : ValueId) (frames : List (List (String × ValueId)))
    (h : fs ≠ []) : addToLast x id (frames ++ fs) = frames ++ addToLast x id fs := by
  induction frames with
  | nil => rfl
  | cons frame frames ih =>
    cases hfs : frames ++ fs with
    | nil => exact absurd (List.append_eq_nil_iff.1 hfs).2 h
    | cons a as => rw [List.cons_append, List.cons_append, ← ih, hfs, addToLast]; simp

theorem addAllToLast_append (extra : List (String × ValueId))
    (frames : List (List (String × ValueId))) (h : fs ≠ []) :
    addAllToLast extra (frames ++ fs) = frames ++ addAllToLast extra fs := by
  induction extra with
  | nil => rfl
  | cons p extra ih =>
    have hcons : ∀ fs, addAllToLast (p :: extra) fs =
        addToLast p.1 p.2 (addAllToLast extra fs) := fun _ => rfl
    rw [hcons, ih, hcons, addToLast_append _ _ _ (addAllToLast_ne_nil extra h)]

namespace Framed

variable {frames : List (List (String × ValueId))} {b : State}

/-- The names in scope are within the bounds. -/
theorem within (h : Framed J frames b s) (hi : Inv s) {p : String × ValueId}
    (hp : p ∈ s.scope.flatten) : Within J s p.2 := by
  obtain ⟨extra, he, hs⟩ := h.scope
  rw [hs, List.flatten_append, List.mem_append] at hp
  rcases hp with hp | hp
  · exact h.inner p hp
  · rcases mem_addAllToLast hp with hp | hp
    · obtain ⟨key, hk⟩ := he p hp
      exact .helper hi hk
    · exact h.outer p hp

/-- Where nothing is asked of the names. -/
theorem all (hi : Inv s) : Framed (· ≤ s.size) [] s s :=
  ⟨hi.scope_ne, ⟨[], by simp, rfl⟩, by simp, fun p hp => .of_valid hi (hi.scope p hp),
    fun _ => id⟩

theorem start (h : Framed J frames b s) (hi : Inv s) : Framed J [] s s :=
  ⟨hi.scope_ne, ⟨[], by simp, rfl⟩, by simp, fun _ => h.within hi, h.below⟩

theorem kept (h : Framed J frames b s) (hk : Framed J [] s s') (hr : Remembers s s') :
    Framed J frames b s' := by
  obtain ⟨extra, he, hs⟩ := h.scope
  obtain ⟨extra', he', hs'⟩ := hk.scope
  refine ⟨h.base, ⟨extra' ++ extra, ?_, ?_⟩, fun p hp => hk.outer p ?_, fun p hp => hk.outer p ?_,
    hk.below⟩
  · intro p hp
    rcases List.mem_append.1 hp with hp | hp
    · exact he' p hp
    · exact (he p hp).mono hr
  · rw [hs', hs, List.nil_append, addAllToLast_append _ _ (addAllToLast_ne_nil _ h.base),
      addAllToLast, addAllToLast, ← List.foldr_append, addAllToLast]
  · rw [hs, List.flatten_append]
    exact List.mem_append_left _ hp
  · rw [hs, List.flatten_append]
    exact List.mem_append_right _ (mem_addAllToLast_of_mem extra hp)

/-- The frames in front are others. -/
theorem reframe (h : Framed J frames b s) (ht : Trace l s s')
    (hs : ∀ fs, s.scope = frames ++ fs → fs ≠ [] → s'.scope = frames' ++ fs)
    (hin : ∀ p ∈ frames'.flatten, Within J s' p.2)
    (hout : ∀ p ∈ b.scope.flatten, Within J s' p.2) : Framed J frames' b s' := by
  obtain ⟨extra, he, hs'⟩ := h.scope
  exact ⟨h.base, ⟨extra, fun p hp => (he p hp).mono ht.remembers,
    hs _ hs' (addAllToLast_ne_nil extra h.base)⟩, hin, hout,
    fun u hu => Nat.le_trans (h.below u hu) ht.evolves.size⟩

/-- A name stands for what the frames say, for what it stood for, or for a
helper. -/
theorem mem (h : Framed J frames b s) {p : String × ValueId} (hp : p ∈ s.scope.flatten) :
    p ∈ frames.flatten ∨ p ∈ b.scope.flatten ∨ IsHelper s p.2 := by
  obtain ⟨extra, he, hs⟩ := h.scope
  rw [hs, List.flatten_append, List.mem_append] at hp
  refine hp.imp_right fun hp => ?_
  exact (mem_addAllToLast hp).symm.imp_right (he p)

/-- Names stand for older values than one that has just been made. -/
theorem older (h : Framed J [] b s) (hib : Inv b) (hi : Inv s) (hx : Past b.size s.size s) :
    ∀ p ∈ s.scope.flatten, p.2 < s.size := by
  intro p hp
  rcases h.mem hp with hp' | hp' | hp'
  · cases hp'
  · exact Nat.lt_of_le_of_lt (hib.scope p hp').2 hx.lt
  · exact Nat.lt_of_le_of_ne (hi.scope p hp).2 fun heq => hx.not_helper (heq ▸ hp')

end Framed

/-! ## Steps -/

/-- A step that makes changes only, the same in all settings.  It starts in the
scopes of `b` with some frames in front and gets back to the scopes of `b`. -/
def SoundFrom (J : Nat → Prop) (b : State) (frames : List (List (String × ValueId))) (l : Nat)
    (m : LowerM α) (s : State) (post : α → State → Prop) : Prop :=
  Inv s → Framed J frames b s → (Trace l s (m.run s).2 ∧
    ∀ a, (m.run s).1 = .ok a → Framed J [] b (m.run s).2 ∧ post a (m.run s).2) ∧ SteadyAt m s

/-- A step that makes changes only. -/
abbrev Sound (J : Nat → Prop) (l : Nat) (m : LowerM α) (s : State) (post : α → State → Prop) :
    Prop :=
  SoundFrom J s [] l m s post

/-- A step that makes changes only and leaves alone all that was there. -/
abbrev Kept (J : Nat → Prop) (m : LowerM α) (s : State) (post : α → State → Prop) : Prop :=
  Sound J s.size m s post

/-- The result is in reach and within the bounds. -/
abbrev Reached (K : Nat → Prop) (id : ValueId) (s : State) : Prop := Within K s id

/-- All results are in reach and within the bounds. -/
def ReachedAll (K : Nat → Prop) (ids : List ValueId) (s : State) : Prop := ∀ id ∈ ids, Within K s id

@[simp]
theorem reachedAll_nil : ReachedAll K [] s := by simp [ReachedAll]

@[simp]
theorem reachedAll_cons {ids : List ValueId} :
    ReachedAll K (id :: ids) s ↔ Within K s id ∧ ReachedAll K ids s :=
  List.forall_mem_cons

namespace SoundFrom

variable {frames : List (List (String × ValueId))} {b : State} {m : LowerM α}
  {P Q : α → State → Prop} {R : β → State → Prop}

theorem mono (h : SoundFrom J b frames l m s P)
    (hpq : ∀ a s', Trace l s s' → P a s' → Q a s') : SoundFrom J b frames l m s Q := by
  intro hi hfr
  obtain ⟨⟨ht, hr⟩, hsame⟩ := h hi hfr
  exact ⟨⟨ht, fun a ha => ⟨(hr a ha).1, hpq a _ ht (hr a ha).2⟩⟩, hsame⟩

theorem weaken (h : SoundFrom J b frames l m s P) (hl : l' ≤ l) :
    SoundFrom J b frames l' m s P := by
  intro hi hfr
  obtain ⟨⟨ht, hr⟩, hsame⟩ := h hi hfr
  exact ⟨⟨ht.weaken hl, hr⟩, hsame⟩

theorem run (h : Sound (· ≤ s.size) l m s P) (hi : Inv s) : Trace l s (m.run s).2 ∧
    ∀ a, (m.run s).1 = .ok a → Framed (· ≤ s.size) [] s (m.run s).2 ∧ P a (m.run s).2 :=
  (h hi (.all hi)).1

theorem steady (h : Sound (· ≤ s.size) l m s P) (hi : Inv s) : SteadyAt m s :=
  (h hi (.all hi)).2

/-- What holds before a step. -/
theorem look (h : Inv s → Framed J frames b s → SoundFrom J b frames l m s P) :
    SoundFrom J b frames l m s P :=
  fun hi hfr => h hi hfr hi hfr

/-- More names may be given meanings inside. -/
theorem allow (hib : Inv b) (hJ : ∀ u, J u → J' u) (hbelow : ∀ u, J' u → u ≤ s.size)
    (h : SoundFrom J' b frames b.size m s P) : SoundFrom J b frames b.size m s P := by
  intro hi hfr
  obtain ⟨⟨ht, hr⟩, hsame⟩ := h hi ⟨hfr.base, hfr.scope, fun p hp => (hfr.inner p hp).widen hJ,
    fun p hp => (hfr.outer p hp).widen hJ, hbelow⟩
  refine ⟨⟨ht, fun a ha => ⟨?_, (hr a ha).2⟩⟩, hsame⟩
  have hfr' := (hr a ha).1
  refine ⟨hfr'.base, hfr'.scope, by simp, fun p hp => ?_,
    fun u hu => Nat.le_trans (hfr.below u hu) ht.evolves.size⟩
  have hp' := (hib.scope p hp).2
  exact (hfr.outer p hp).trace ht fun x hx => ht.usedOf
    (Nat.le_trans hx (hfr.outer p hp).valid.2) (.inl (Nat.le_trans hx hp'))

/-- A step where no scope is open. -/
theorem last (h : Sound J l m s P) : SoundFrom J b [] l m s P := by
  intro hi hfr
  obtain ⟨⟨ht, hr⟩, hsame⟩ := h hi (hfr.start hi)
  exact ⟨⟨ht, fun a ha => ⟨hfr.kept (hr a ha).1 ht.remembers, (hr a ha).2⟩⟩, hsame⟩

theorem pure (h : P a s) : SoundFrom J b [] l (Pure.pure a) s P := by
  refine fun _ hfr => ⟨⟨.refl, fun _ ha => ?_⟩, .of_steady (.pure a)⟩
  cases ha
  exact ⟨hfr, h⟩

/-- What all results have in common. -/
theorem returns {R : α → Prop} (h : SoundFrom J b frames l m s P) (hR : Returns m R) :
    SoundFrom J b frames l m s fun a s' => R a ∧ P a s' := by
  intro hi hfr
  obtain ⟨⟨ht, hr⟩, hsame⟩ := h hi hfr
  exact ⟨⟨ht, fun a ha => ⟨(hr a ha).1, hR s a ha, (hr a ha).2⟩⟩, hsame⟩

/-- Steps one after the other. -/
theorem bind (hl : l ≤ l') (hm : Sound J l' m s P)
    (hf : ∀ a s', Trace l' s s' → P a s' → SoundFrom J b frames l (f a) s' R) :
    SoundFrom J b frames l (m >>= f) s R := by
  intro hi hfr
  obtain ⟨⟨ht, hr⟩, hsame⟩ := hm hi (hfr.start hi)
  have hnext : ∀ a s', m.run s = (.ok a, s') → Trace l' s s' ∧
      (Trace l s' ((f a).run s').2 ∧ ∀ b', ((f a).run s').1 = .ok b' →
        Framed J [] b ((f a).run s').2 ∧ R b' ((f a).run s').2) ∧ SteadyAt (f a) s' := by
    intro a s' hrun
    rw [hrun] at ht hr
    obtain ⟨hs, hp⟩ := hr a rfl
    exact ⟨ht, hf a s' ht hp (ht.inv hi) (hfr.kept hs ht.remembers)⟩
  refine ⟨?_, hsame.bind fun a s' hrun => (hnext a s' hrun).2.2⟩
  rcases hrun : m.run s with ⟨e | a, s'⟩
  · rw [hrun] at ht
    rw [run_bind_of_error hrun]
    exact ⟨ht.weaken hl, by simp⟩
  · obtain ⟨ht, ⟨ht', hr'⟩, -⟩ := hnext a s' hrun
    rw [run_bind_of_ok hrun]
    exact ⟨(ht.weaken hl).trans ht', hr'⟩

/-- A step on the way from `s₀` that leaves alone all that was there. -/
theorem grow {s₀ : State} {f : α → LowerM β} (h₀ : Grows s₀ s) (hm : Kept J m s P)
    (hf : ∀ a s', Grows s s' → Grows s₀ s' → P a s' →
      SoundFrom J b frames s₀.size (f a) s' R) : SoundFrom J b frames s₀.size (m >>= f) s R :=
  bind h₀.size_le hm fun a s' g => hf a s' g (h₀.trans g)

/-- Looking up what all settings agree on before a step. -/
theorem read (h : ∀ {v d p}, m.run (s.under ⟨s.decls, v, d⟩ p) = (.ok a, s.under ⟨s.decls, v, d⟩ p))
    (hf : SoundFrom J b frames l (f a) s R) : SoundFrom J b frames l (m >>= f) s R := by
  intro hi hfr
  have hrun : m.run s = (.ok a, s) := h
  refine ⟨?_, .read h (hf hi hfr).2⟩
  rw [run_bind_of_ok hrun]
  exact (hf hi hfr).1

/-- Looking up a value. -/
theorem value {f : Value → LowerM β} (hid : Within K s id)
    (hf : ∀ v, s.value? id = some v → SoundFrom J b frames l (f v) s R) :
    SoundFrom J b frames l (Graph.value id >>= f) s R := by
  obtain ⟨v, hv⟩ := hid.valid.exists_value
  exact .read (value_run hv) (hf v hv)

/-- A look at the state, but for the setting. -/
theorem get {f : State → LowerM β} (h : ∀ g p, f (s.under g p) = f s)
    (hf : SoundFrom J b frames l (f s) s R) : SoundFrom J b frames l (MonadState.get >>= f) s R :=
  fun hi hfr => ⟨(hf hi hfr).1, .get h (hf hi hfr).2⟩

/-- A look at how the version takes values apart. -/
theorem target {f : Version → LowerM β} (h : ∀ v, isNative v = isNative s.target → f v = f s.target)
    (hf : SoundFrom J b frames l (f s.target) s R) :
    SoundFrom J b frames l (Graph.target >>= f) s R :=
  fun hi hfr => ⟨(hf hi hfr).1, .target h (hf hi hfr).2⟩

/-- One of two steps. -/
theorem ite [Decidable p] (hm : p → SoundFrom J b frames l m s P)
    (hn : ¬p → SoundFrom J b frames l n s P) : SoundFrom J b frames l (if p then m else n) s P := by
  split
  · exact hm ‹p›
  · exact hn ‹¬p›

/-- A step that changes the scopes only. -/
theorem scopes {frames' : List (List (String × ValueId))} {g : LowerM Unit} {f : Unit → LowerM β}
    (hsame : SteadyAt g s)
    (hg : ∀ rest, s.scope = frames ++ rest → rest ≠ [] →
      g.run s = (.ok (), { s with scope := frames' ++ rest }))
    (hin : ∀ p ∈ frames'.flatten, p ∈ frames.flatten ∨ Within J s p.2)
    (hf : ∀ s', Grows s s' → SoundFrom J b frames' l (f ()) s' R) :
    SoundFrom J b frames l (g >>= f) s R := by
  intro hi hfr
  obtain ⟨extra, -, hs⟩ := hfr.scope
  have hne := addAllToLast_ne_nil extra hfr.base
  have hch : ∀ l, Trace l s { s with scope := frames' ++ addAllToLast extra b.scope } := by
    refine fun l => .one (.scope _ (by simp [hne]) ?_ fun p hp => ?_)
    · rw [hs, List.getLast?_append_of_ne_nil _ hne, List.getLast?_append_of_ne_nil _ hne]
    rw [List.flatten_append, List.mem_append] at hp
    rcases hp.imp_left (hin p) with (hp | hp) | hp
    · exact hi.scope p (by rw [hs]; simp_all)
    · exact hp.valid
    · exact hi.scope p (by rw [hs]; simp_all)
  have hfr' : Framed J frames' b { s with scope := frames' ++ addAllToLast extra b.scope } := by
    refine hfr.reframe (hch 0) (fun fs hfs _ => ?_) (fun p hp => ?_) fun p hp => ?_
    · rw [hs, List.append_cancel_left_eq] at hfs
      rw [hfs]
    · exact ((hin p hp).elim (hfr.inner p) id).grow (hch _)
    · exact (hfr.outer p hp).grow (hch _)
  obtain ⟨⟨ht', hr'⟩, hsame'⟩ := hf _ (hch _) ((hch 0).inv hi) hfr'
  refine ⟨?_, hsame.bind fun a t hrun => ?_⟩
  · rw [run_bind_of_ok (hg _ hs hne)]
    exact ⟨(hch l).trans ht', hr'⟩
  · rw [hg _ hs hne] at hrun
    cases hrun
    exact hsame'

/-- Opening a scope. -/
theorem push {f : Unit → LowerM β}
    (hf : ∀ s', Grows s s' → SoundFrom J b ([] :: frames) l (f ()) s' R) :
    SoundFrom J b frames l (pushScope >>= f) s R := by
  refine scopes (.of_steady pushScope_steady) ?_ ?_ hf
  · intro rest hs _
    rw [pushScope, run_modify, hs]
    rfl
  · exact fun p hp => .inl hp

/-- Giving a name a meaning. -/
theorem define {f : Unit → LowerM β} (x : String) (hid : Within J s id)
    (hf : ∀ s', Grows s s' → SoundFrom J b (((x, id) :: frame) :: frames) l (f ()) s' R) :
    SoundFrom J b (frame :: frames) l (Graph.define x id >>= f) s R := by
  refine scopes (.of_steady define_steady) ?_ ?_ hf
  · intro rest hs _
    rw [Graph.define, run_modify]
    simp only [hs, List.cons_append]
  · intro p hp
    rcases List.mem_cons.1 hp with rfl | hp
    · exact .inr hid
    · exact .inl hp

/-- Closing a scope. -/
theorem pop {f : Unit → LowerM β} (hf : ∀ s', Grows s s' → SoundFrom J b frames l (f ()) s' R) :
    SoundFrom J b (frame :: frames) l (popScope >>= f) s R := by
  refine scopes (.of_steady popScope_steady) ?_ ?_ hf
  · intro rest hs hne
    obtain ⟨fr, fs, hfs⟩ := List.exists_cons_of_ne_nil (l := frames ++ rest) (by simp [hne])
    rw [popScope, run_modify]
    simp only [hs, List.cons_append, hfs]
  · exact fun p hp => .inl (List.mem_append_right _ hp)

/-- A step of which the run is known. -/
theorem of_run (hsame : SteadyAt m s) (h : m.run s = (r, s')) (ht : Trace l s s')
    (hs : s'.scope = s.scope) (hw : ∀ p ∈ s.scope.flatten, Within J s p.2 → Within J s' p.2)
    (hr : ∀ a, r = .ok a → P a s') : Sound J l m s P := by
  refine fun hi hfr => ⟨?_, hsame⟩
  rw [h]
  exact ⟨ht, fun a ha => ⟨hfr.reframe ht (fun fs hfs _ => hs.trans hfs) (by simp)
    fun p hp => hw p hp (hfr.outer p hp), hr a ha⟩⟩

/-- Noting something down. -/
theorem quietly (hsame : SteadyAt m s) (h : m.run s = (r, s')) (hq : s'.quiet = s.quiet)
    (hr : ∀ a, r = .ok a → P a s') : Sound J l m s P :=
  of_run hsame h (.one (.quiet hq)) (quiet_eq hq).2.scope
    (fun _ _ h => h.grow (.one (.quiet hq))) hr

end SoundFrom

/-- Steps one after the other. -/
theorem Sound.bind {P : α → State → Prop} {R : β → State → Prop} {m : LowerM α} (hl : l ≤ l')
    (hm : Sound J l' m s P)
    (hf : ∀ a s', Trace l' s s' → P a s' → Sound J l (f a) s' R) : Sound J l (m >>= f) s R :=
  SoundFrom.bind hl hm fun a s' ht hp => .last (hf a s' ht hp)

namespace Kept

variable {m : LowerM α} {P : α → State → Prop} {R : β → State → Prop}

/-- Steps one after the other. -/
theorem bind (hm : Kept J m s P) (hf : ∀ a s', Grows s s' → P a s' → Kept J (f a) s' R) :
    Kept J (m >>= f) s R :=
  Sound.bind (Nat.le_refl _) hm fun a s' ht hp => (hf a s' ht hp).weaken ht.size_le

/-- One of two steps and then a third. -/
theorem ite_bind [Decidable p] (hm : p → Kept J m s P) (hn : ¬p → Kept J n s P)
    (hf : ∀ a s', Grows s s' → P a s' → Kept J (f a) s' R) :
    Kept J (if p then m >>= f else n >>= f) s R :=
  .ite (fun h => bind (hm h) hf) fun h => bind (hn h) hf

end Kept

/-! ## Noting down and failing -/

theorem point_run (s : State) (name detail : String) :
    ∃ s', (point name detail).run s = (.ok (), s') ∧ s'.quiet = s.quiet := by
  refine ⟨_, rfl, ?_⟩
  beta_reduce
  split <;> rfl

theorem point_sound {name detail : String} : Sound J l (point name detail) s fun _ _ => True := by
  obtain ⟨s', hr, hq⟩ := point_run s name detail
  exact .quietly (.of_steady point_steady) hr hq fun _ _ => trivial

section

variable {frames : List (List (String × ValueId))} {b : State} {types : List Ty} {reps : List Rep}
  {P : α → State → Prop}

/-- A failure, which breaks off only where a declaration is not orderly. -/
theorem fail_sound_of (h : s.Orderly → cause.breaksOff = false) :
    SoundFrom J b frames l (fail cause span types reps) s P := by
  obtain ⟨s', hr, hq⟩ := point_run s "fatal" (Failure.message ⟨cause, span, types, reps⟩)
  refine fun _ _ => ⟨?_, fun κ _ s' hs => fail_alike_of (fun ho => h (hs.orderly ho)) s s' hs⟩
  rw [fail, run_bind_of_ok hr, run_throw]
  exact ⟨.one (.quiet hq), by simp⟩

theorem fail_sound (h : cause.breaksOff = false) :
    SoundFrom J b frames l (fail cause span types reps) s P :=
  fail_sound_of fun _ => h

theorem failAt_sound (h : cause.breaksOff = false) :
    SoundFrom J b frames l (failAt cause span) s P :=
  fail_sound h

theorem fail_bind {P : β → State → Prop} (h : cause.breaksOff = false) :
    SoundFrom J b frames l (fail cause span types reps >>= f) s P := by
  obtain ⟨s', hr, hq⟩ := point_run s "fatal" (Failure.message ⟨cause, span, types, reps⟩)
  refine fun _ _ => ⟨?_, .of_steady (fail_bind_steady h)⟩
  rw [run_bind_of_error (by rw [fail, run_bind_of_ok hr, run_throw])]
  exact ⟨.one (.quiet hq), by simp⟩

theorem failAt_bind {P : β → State → Prop} (h : cause.breaksOff = false) :
    SoundFrom J b frames l (failAt cause span >>= f) s P :=
  fail_bind h

end

theorem warn_sound {code : Code} {message : String} :
    Sound J l (warn code span message) s fun _ _ => True := by
  let s1 := { s with warnings := s.warnings + 1 }
  obtain ⟨s2, hr, hq⟩ := point_run s1 "warning" message
  have hrun : (warn code span message).run s = (.ok (), { s2 with
      reported := Diagnostic.warning code span message :: s2.reported }) := by
    rw [warn, run_bind_of_ok (run_modify _), run_bind_of_ok hr, run_modify]
  exact .quietly (.of_steady warn_steady) hrun hq fun _ _ => trivial

/-! ## Lists of steps -/

namespace Kept

variable {xs : List α}

/-- A step for each item of a list; what holds of a result goes on holding. -/
theorem mapM {P : α → β → State → Prop} (hf : ∀ x ∈ xs, ∀ s', Grows s s' → Kept J (f x) s' (P x))
    (hp : ∀ x b s₁ s₂, Grows s₁ s₂ → P x b s₁ → P x b s₂) :
    Kept J (xs.mapM f) s fun ys s' => List.Forall₂ (fun x y => P x y s') xs ys := by
  induction xs generalizing s with
  | nil =>
    rw [List.mapM_nil]
    exact .pure .nil
  | cons x xs ih =>
    rw [List.mapM_cons]
    refine bind (hf x (by simp) s .refl) fun y s₁ g1 hy => ?_
    have hxs := ih fun x hx s' g => hf x (by simp [hx]) s' (g1.trans g)
    refine bind hxs fun ys s₂ g2 hys => ?_
    exact .pure (.cons (hp x y s₁ s₂ g2 hy) hys)

/-- A step for each item of a list, with the same said of all results. -/
theorem mapM_all {P : β → State → Prop} (hf : ∀ x ∈ xs, ∀ s', Grows s s' → Kept J (f x) s' P)
    (hp : ∀ b s₁ s₂, Grows s₁ s₂ → P b s₁ → P b s₂) :
    Kept J (xs.mapM f) s fun ys s' => ∀ y ∈ ys, P y s' := by
  refine (mapM (P := fun _ => P) hf fun _ => hp).mono fun ys s' _ h => ?_
  clear hf
  induction h with
  | nil => simp
  | cons hy _ ih => exact List.forall_mem_cons.2 ⟨hy, ih⟩

/-- A step for each item of a list, with results that are in reach. -/
theorem mapM_reached {f : α → LowerM ValueId}
    (hf : ∀ x ∈ xs, ∀ s', Grows s s' → Kept J (f x) s' (Reached K)) :
    Kept J (xs.mapM f) s (ReachedAll K) :=
  mapM_all hf fun _ _ _ g h => Within.grow h g

/-- A step for each item of a list, on top of the result before. -/
theorem foldlM_reached {f : ValueId → α → LowerM ValueId} {x : ValueId} (hx : Within K s x)
    (hf : ∀ a ∈ xs, ∀ y s', Grows s s' → Within K s' y → Kept J (f y a) s' (Reached K)) :
    Kept J (xs.foldlM f x) s (Reached K) := by
  induction xs generalizing s x with
  | nil => exact .pure hx
  | cons a xs ih =>
    rw [List.foldlM_cons]
    refine bind (hf a (by simp) x s .refl hx) fun y s1 g1 hy => ?_
    exact ih hy fun b hb z s' g hz => hf b (by simp [hb]) z s' (g1.trans g) hz

/-- A step for each item of a list, without results. -/
theorem forM {f : α → LowerM Unit}
    (hf : ∀ x ∈ xs, ∀ s', Grows s s' → Kept J (f x) s' fun _ _ => True) :
    Kept J (xs.forM f) s fun _ _ => True := by
  induction xs generalizing s with
  | nil => exact .pure trivial
  | cons x xs ih =>
    refine bind (f := fun _ => xs.forM f) (hf x (by simp) s .refl) ?_
    intro _ s1 g1 _
    exact ih fun y hy s' g => hf y (by simp [hy]) s' (g1.trans g)

end Kept

end CoreLowering.Graph
