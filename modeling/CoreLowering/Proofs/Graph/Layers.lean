import CoreLowering.Proofs.Graph.Lexical

/-!
# The layers of the graph

What a value uses is noted down when it is made, and for a variable once more
when it is defined.  So a set can fall behind: a value made inside a recursive
function uses the variable of the function, and the set of the variable grows
when the function is closed off.

`Layered` says what holds of the sets nevertheless.  What a value uses was there
before the value was complete.  The uses of a variable are uses of whatever uses
it, unless it stands for a recursive function.  A recursive function has left
out all that depends on its variable.  Helpers use helpers that were complete
before them.

Main statement: `Trace.layered`.
-/

namespace CoreLowering.Graph

variable {s s' : State} {x y u f F l : Nat} {n : Node} {v r : Value}

/-- The value `u` was there before `x` was complete: before `x`, or before the
recursive function that `x` stands for. -/
def Before (s : State) (u x : Nat) : Prop := u < x ∨ ∃ F, Closed s x F ∧ u < F

/-- A helper that was complete before `x` was. -/
def HelperBefore (s : State) (u x : Nat) : Prop :=
  IsHelper s u ∧ ∃ U, Closed s u U ∧ Before s U x

/-- What holds of the variables that values use. -/
structure Layered (s : State) : Prop where
  before : ∀ x u : Nat, u ∈ (s.usedOf x).ids → u = x ∨ Before s u x
  through : ∀ x y u : Nat, y ∈ (s.usedOf x).ids → (∀ F, ¬Closed s y F) → u ∈ (s.usedOf y).ids →
    u ∈ (s.usedOf x).ids ∨ HelperBefore s u x
  recursive : ∀ f F rec g : Nat, s.node? F = some (.fix f rec) → F = s.size ∨ Closed s f F →
    g ∈ (s.usedOf F).ids → g ≠ f ∧
      (f < g → f ∉ (s.usedOf g).ids ∧ (Settled s g ∨ IsHelper s g ∨ Blank s g))
  helpers : ∀ h : Nat, IsHelper s h → ∃ H, Closed s h H ∧ ∀ u : Nat, u ∈ (s.usedOf h).ids →
    Settled s u ∨ IsHelper s u ∧ ∃ U, Closed s u U ∧ U ≤ H

/-! ## Variables of recursive functions -/

theorem Closed.unique {F' : Nat} (h : Closed s f F) (h' : Closed s f F') : F = F' := by
  obtain ⟨-, n, hn, hr⟩ := h
  obtain ⟨-, m, hm, hr'⟩ := h'
  rw [hn, Option.some.injEq] at hm
  subst hm
  exact Option.some.inj (hr.symm.trans hr')

theorem Settled.not_closed (h : Settled s x) : ¬Closed s x F := by
  rintro ⟨hlt, n, hn, hr⟩
  obtain ⟨m, r, hm, hr', hlt'⟩ := h
  rw [hn, Option.some.injEq] at hm
  subst hm
  obtain rfl : F = r := Option.some.inj (hr.symm.trans hr')
  exact Nat.lt_asymm hlt hlt'

theorem Blank.not_closed (h : Blank s x) : ¬Closed s x F := by
  rintro ⟨-, n, hn, hr⟩
  obtain ⟨name, h⟩ := h
  rw [hn, Option.some.injEq] at h
  subst h
  cases hr

theorem not_closed_of_fix {rec : Nat} (hn : s.node? x = some (.fix f rec)) : ¬Closed s x F := by
  rintro ⟨-, m, hm, hr⟩
  rw [hn, Option.some.injEq] at hm
  subst hm
  cases hr

theorem Before.closed_mono (h : Before s u x) (hc : ∀ f F, Closed s f F → Closed s' f F) :
    Before s' u x :=
  h.imp_right fun ⟨F, hF, hlt⟩ => ⟨F, hc _ _ hF, hlt⟩

theorem HelperBefore.mono (h : HelperBefore s u x) (hr : Remembers s s')
    (hc : ∀ f F, Closed s f F → Closed s' f F) : HelperBefore s' u x := by
  obtain ⟨hh, U, hU, hb⟩ := h
  exact ⟨hh.mono hr, U, hc _ _ hU, hb.closed_mono hc⟩

/-- What a new node uses. -/
theorem mem_used_summed {type : Ty} {rep : Rep} {span : Span} (hs : UsesThere s)
    (hsubs : ∀ j ∈ n.subs, Valid s j) : u ∈ (s.summed n type rep span).used.ids ↔
      (∃ j ∈ n.subs, u ∈ (s.usedOf j).ids) ∧
        ∀ o : Nat, o ∈ n.scopeOf → u ≠ o ∧ o ∉ (s.usedOf u).ids := by
  have hparts : (∃ j ∈ n.subs, u ∈ ((s.push (.new n type rep span)).usedOf j).ids) ↔
      ∃ j ∈ n.subs, u ∈ (s.usedOf j).ids :=
    exists_congr fun j => and_congr_right fun hj => by rw [usedOf_push (hsubs j hj)]
  refine mem_usedBy.trans ?_
  rw [hparts]
  refine and_congr_right fun hsome => ?_
  obtain ⟨j, -, hu⟩ := hsome
  rw [usedOf_push (hs j u hu)]

theorem Inv.closed_le (hi : Inv s) (h : Closed s f F) : F ≤ s.size := by
  obtain ⟨-, n, hn, hr⟩ := h
  exact (hi.rhs f F n hn hr).1.2

theorem Inv.closed_fix (hi : Inv s) (h : Closed s f F) : ∃ rec, s.node? F = some (.fix f rec) := by
  obtain ⟨hlt, n, hn, hr⟩ := h
  rcases (hi.rhs f F n hn hr).2 with h | ⟨-, h⟩
  · omega
  · exact h

theorem Before.lt_size (h : Before s u x) (hi : Inv s) (hx : x ≤ s.size) : u < s.size := by
  rcases h with h | ⟨F, hF, hlt⟩
  · omega
  · have := hi.closed_le hF
    omega

/-- A recursive function does not use itself. -/
theorem Layered.lt_of_fix {rec : Nat} (h : Layered s) (hi : Inv s)
    (hn : s.node? s.size = some (.fix f rec)) (hu : u ∈ (s.usedOf s.size).ids) : u < s.size := by
  rcases hi.inside s.size _ u hn hu with ⟨-, hid⟩ | ⟨y, hy | hy, hu⟩
  · cases hid
  · cases hy
  · have hlt := (hi.subs s.size _ hn y hy).2
    rcases h.before y u hu with rfl | hb
    · exact hlt
    · exact hb.lt_size hi (Nat.le_of_lt hlt)

/-! ## Adding a value -/

/-- What a new node leaves out, with the variables that it is the scope of, is
not used by a variable that it keeps. -/
theorem Layered.kept (h : Layered s) {j : Nat} (hj : j ∈ n.subs)
    (hpast : ∀ o : Nat, o ∈ n.scopeOf → Past l o s ∧ ∀ j ∈ n.subs,
      UsesOnly (fun u => u ≤ o ∨ u ∈ n.scopeOf ∨ Blank s u) s j)
    (hy : ∀ o : Nat, o ∈ n.scopeOf → y ≠ o ∧ o ∉ (s.usedOf y).ids)
    (hu : u ∈ (s.usedOf y).ids) (huj : u ∈ (s.usedOf j).ids) :
    IsHelper s u ∨ ∀ o : Nat, o ∈ n.scopeOf → u ≠ o ∧ o ∉ (s.usedOf u).ids := by
  by_cases hhelper : IsHelper s u
  · exact .inl hhelper
  refine .inr fun o ho => ?_
  have hne : u ≠ o := fun heq => (hy o ho).2 (heq ▸ hu)
  refine ⟨hne, fun hou => ?_⟩
  obtain ⟨hp, honly⟩ := hpast o ho
  by_cases hclosed : ∃ F, Closed s u F
  · obtain ⟨F, hF⟩ := hclosed
    rcases honly j hj u huj with hs | hh | hle | hs | hb
    · exact hs.not_closed hF
    · exact hhelper hh
    · -- it was closed off before the variable was there
      have hlt := hp.around u F hF (by omega)
      rcases h.before u o hou with rfl | hb | ⟨F', hF', hlt'⟩
      · exact hne rfl
      · omega
      · have := hF.unique hF'
        omega
    · exact (hy u hs).2 hu
    · exact hb.not_closed hF
  · rcases h.through y u o hu (not_exists.1 hclosed) hou with ho' | ⟨hh, -⟩
    · exact (hy o ho).2 ho'
    · exact hp.not_helper hh

theorem Layered.adds (h : Layered s) (hi : Inv s) (hi' : Inv s') (ha : Adds s s' v)
    (hv : Added s s' v) (hsubs : ∀ i ∈ v.node.subs, Valid s i)
    (hpast : ∀ o : Nat, o ∈ v.node.scopeOf → Past l o s ∧ ∀ j ∈ v.node.subs,
      UsesOnly (fun u => u ≤ o ∨ u ∈ v.node.scopeOf ∨ Blank s u) s j) : Layered s' := by
  have hclosed : ∀ {f F}, Closed s' f F ↔ Closed s f F := ha.closed_iff hv.rhs?
  have hused : ∀ {y : Nat}, y ≤ s.size → s'.usedOf y = s.usedOf y := fun hy => by
    rw [ha.usedOf, if_neg (by omega)]
  have hnew : s'.usedOf (s.size + 1) = v.used := by rw [ha.usedOf, if_pos rfl]
  have hhelper : ∀ {h : Nat}, IsHelper s' h ↔ IsHelper s h := by simp [IsHelper, ha.helpers]
  have hle : ∀ {y u : Nat}, u ∈ (s'.usedOf y).ids → y ≤ s.size ∨ y = s.size + 1 := fun hu => by
    have := (valid_of_mem_usedOf hu).2
    rw [ha.size] at this
    omega
  refine ⟨fun x u hu => ?_, fun x y u hy hopen hu => ?_, fun f F rec g hn hF hg => ?_,
    fun h' hh => ?_⟩
  · rcases hle hu with hx | rfl
    · rw [hused hx] at hu
      exact (h.before x u hu).imp_right fun hb => hb.closed_mono fun _ _ => hclosed.2
    · have := (hi'.there _ u hu).2
      rw [ha.size] at this
      exact (Nat.eq_or_lt_of_le this).imp_right .inl
  · have hopen' : ∀ F, ¬Closed s y F := fun F hF => hopen F (hclosed.2 hF)
    rcases hle hy with hx | rfl
    · rw [hused hx] at hy ⊢
      rw [hused (hi.there x y hy).2] at hu
      exact (h.through x y u hy hopen' hu).imp_right fun hb =>
        hb.mono ha.remembers fun _ _ => hclosed.2
    · rw [hnew] at hy ⊢
      cases hv with
      | var => exact .inl (by rwa [List.mem_singleton.1 hy, hnew] at hu)
      | node type rep span hid =>
        obtain ⟨⟨j, hj, hyj⟩, hout⟩ := (mem_used_summed hi.there hsubs).1 hy
        rw [hused (hi.there j y hyj).2] at hu
        have hsize : ∀ U, Closed s u U → Before s' U (s.size + 1) := fun U hU =>
          .inl (Nat.lt_succ_of_le (hi.closed_le hU))
        rcases h.through j y u hyj hopen' hu with huj | ⟨hh, U, hU, -⟩
        · rcases h.kept hj hpast hout hu huj with hh | hkept
          · obtain ⟨U, hU, -⟩ := h.helpers u hh
            exact .inr ⟨hhelper.2 hh, U, hclosed.2 hU, hsize U hU⟩
          · exact .inl ((mem_used_summed hi.there hsubs).2 ⟨⟨j, hj, huj⟩, hkept⟩)
        · exact .inr ⟨hhelper.2 hh, U, hclosed.2 hU, hsize U hU⟩
  · have hstays : ∀ {g}, Settled s g ∨ IsHelper s g ∨ Blank s g →
        Settled s' g ∨ IsHelper s' g ∨ Blank s' g :=
      Or.imp (·.mono ha.evolves) (Or.imp hhelper.2 (Exists.imp fun _ => ha.node?_old))
    rcases hle hg with hx | rfl
    · have hF : Closed s f F := hclosed.1 (hF.resolve_left (by rw [ha.size]; omega))
      obtain ⟨rec', hn'⟩ := hi.closed_fix hF
      rw [hused hx] at hg
      rw [hused (hi.there F g hg).2]
      exact (h.recursive f F rec' g hn' (.inr hF) hg).imp_right fun hlt hfg =>
        ⟨(hlt hfg).1, hstays (hlt hfg).2⟩
    · rw [hnew] at hg
      rw [ha.node?, if_pos rfl] at hn
      cases hv with
      | var _ _ _ _ hid =>
        obtain rfl : _ = Node.fix f rec := Option.some.inj hn
        cases hid
      | node type rep span hid =>
        obtain rfl : _ = Node.fix f rec := Option.some.inj hn
        obtain ⟨⟨j, hj, hgj⟩, hout⟩ := (mem_used_summed hi.there hsubs).1 hg
        rw [hused (hi.there j g hgj).2]
        have hf : f ∈ (Node.fix f rec).scopeOf := List.mem_singleton_self f
        refine ⟨(hout f hf).1, fun hlt => ⟨(hout f hf).2, hstays ?_⟩⟩
        rcases (hpast f hf).2 j hj g hgj with hs | hh | hle | hm | hb
        · exact .inl hs
        · exact .inr (.inl hh)
        · exact absurd hlt (Nat.not_lt.2 hle)
        · exact absurd (List.mem_singleton.1 hm) (hout f hf).1
        · exact .inr (.inr hb)
  · obtain ⟨H, hH, hu⟩ := h.helpers h' (hhelper.1 hh)
    refine ⟨H, hclosed.2 hH, fun u hm => ?_⟩
    rw [hused hH.final.valid.2] at hm
    rcases hu u hm with hs | ⟨hh, U, hU, hle⟩
    · exact .inl (hs.mono ha.evolves)
    · exact .inr ⟨hhelper.2 hh, U, hclosed.2 hU, hle⟩

/-! ## Defining a variable -/

/-- The last value is used by no other. -/
theorem Layered.eq_of_mem_last (h : Layered s) (hi : Inv s) (hu : s.size ∈ (s.usedOf x).ids) :
    x = s.size := by
  rcases h.before x s.size hu with heq | hb
  · exact heq.symm
  · exact absurd (hb.lt_size hi (valid_of_mem_usedOf hu).2) (Nat.lt_irrefl _)

section

variable {rhs : Nat} (hd : Defines s s' x rhs r) (hn : s.node? x = some n)
  (hid : n.isIdentifiable = true) (hnone : n.rhs? = none) (hr : s.value? rhs = some r)

include hd hn hid hnone hr

/-- A variable gets a definition.  Nothing else uses it by then, or it stands
for a recursive function from now on. -/
theorem Layered.defines (h : Layered s)
    (hbefore : ∀ u : Nat, u ∈ (s.usedOf rhs).ids → u = x ∨ Before s' u x)
    (hrhs : ∀ u, Before s u rhs → Before s' u x)
    (hopen : ∀ y : Nat, y ≠ x → x ∈ (s.usedOf y).ids → ∃ F, Closed s' x F)
    (hfix : ∀ f F rec : Nat, s.node? F = some (.fix f rec) → F = s.size ∨ Closed s' f F →
      (F = s.size ∨ Closed s f F) ∧ (f < x → x ∉ (s.usedOf F).ids)) : Layered s' := by
  have hx := valid_of_node? hn
  have hev := hd.evolves hn hnone
  have hclosed : ∀ f F, Closed s f F → Closed s' f F := fun f F => hd.closed_of hn hnone
  have hused : ∀ {y : Nat}, y ≠ x → s'.usedOf y = s.usedOf y := fun hy => by
    rw [hd.usedOf hx, if_neg hy]
  have hself : ∀ {u : Nat}, u ∈ (s'.usedOf x).ids ↔ u = x ∨ u ∈ (s.usedOf rhs).ids := fun {u} => by
    rw [hd.usedOf hx, if_pos rfl, VarSet.mem_union, usedOf_of_value hr]
    exact or_congr_left List.mem_singleton
  refine ⟨fun y u hu => ?_, fun z y u hy hy' hu => ?_, fun f F rec g hF hc hg => ?_,
    fun h' hh => ?_⟩
  · by_cases hyx : y = x
    · subst hyx
      exact (hself.1 hu).elim .inl (hbefore u)
    · rw [hused hyx] at hu
      exact (h.before y u hu).imp_right (·.closed_mono hclosed)
  · have hthrough := fun z hyz hu => h.through z y u hyz (fun F hF => hy' F (hclosed _ _ hF)) hu
    by_cases hzx : z = x
    · subst hzx
      by_cases hyz : y = z
      · exact .inl (hyz ▸ hu)
      rw [hused hyz] at hu
      rcases hthrough rhs ((hself.1 hy).resolve_left hyz) hu with hu | ⟨hh, U, hU, hb⟩
      · exact .inl (hself.2 (.inr hu))
      · exact .inr ⟨hh.mono hd.remembers, U, hclosed _ _ hU, hrhs U hb⟩
    · rw [hused hzx] at hy ⊢
      have hyx : y ≠ x := by
        rintro rfl
        obtain ⟨F, hF⟩ := hopen z hzx hy
        exact hy' F hF
      rw [hused hyx] at hu
      exact (hthrough z hy hu).imp_right (·.mono hd.remembers hclosed)
  · have hFx : F ≠ x := by
      rintro rfl
      rw [hd.node?, if_pos rfl, hn, Option.map_some, Option.some.injEq] at hF
      cases n <;> simp [Node.withRhs, Node.isIdentifiable] at hF hid
    rw [hd.node?, if_neg hFx] at hF
    rw [hused hFx] at hg
    obtain ⟨hc, hout⟩ := hfix f F rec hF (hd.size ▸ hc)
    obtain ⟨hne, hlt⟩ := h.recursive f F rec g hF hc hg
    refine ⟨hne, fun hfg => ?_⟩
    have hgx : g ≠ x := fun heq => hout (heq ▸ hfg) (heq ▸ hg)
    rw [hused hgx]
    obtain ⟨hf, hkind⟩ := hlt hfg
    refine ⟨hf, hkind.imp (·.mono hev) (Or.imp (·.mono hd.remembers) (Exists.imp fun _ hb => ?_))⟩
    rw [hd.node?, if_neg hgx, hb]
  · obtain ⟨key, hh⟩ := hh
    obtain ⟨H, hH, hu⟩ := h.helpers h' ⟨key, hd.helpers ▸ hh⟩
    have hhx : h' ≠ x := by
      rintro rfl
      obtain ⟨-, m, hm, hrm⟩ := hH
      rw [hn, Option.some.injEq] at hm
      subst hm
      simp [hnone] at hrm
    refine ⟨H, hclosed _ _ hH, fun u hm => ?_⟩
    rw [hused hhx] at hm
    rcases hu u hm with hset | ⟨hh, U, hU, hle⟩
    · exact .inl (hset.mono hev)
    · exact .inr ⟨hh.mono hd.remembers, U, hclosed _ _ hU, hle⟩

theorem Layered.settles (h : Layered s) (hi : Inv s) (hlt : rhs < x) (hlast : x = s.size) :
    Layered s' := by
  have hother : ∀ y : Nat, y ≠ x → x ∉ (s.usedOf y).ids := fun y hy hm =>
    hy ((h.eq_of_mem_last hi (hlast ▸ hm)).trans hlast.symm)
  refine h.defines hd hn hid hnone hr (fun u hu => ?_) (fun u hb => ?_) (fun y hy hm => ?_)
    fun f F rec hF hc => ?_
  · have := (hi.there _ _ hu).2
    rw [← hlast] at this
    exact (Nat.eq_or_lt_of_le this).imp_right .inl
  · exact .inl (hlast ▸ hb.lt_size hi (by omega))
  · exact absurd hm (hother y hy)
  · refine ⟨hc.imp_right fun hc => (hd.closed hc).resolve_right fun heq => ?_, fun _ => ?_⟩
    · exact Nat.lt_asymm hlt (heq.1 ▸ heq.2 ▸ hc.1)
    · refine hother F ?_
      rintro rfl
      rw [hn, Option.some.injEq] at hF
      subst hF
      cases hid

theorem Layered.closes {rec : Nat} (h : Layered s) (hi : Inv s) (hlt : x < rhs)
    (hlast : rhs = s.size) (haround : ∀ f F, Closed s f F → f < x → F < x)
    (hfix : s.node? rhs = some (.fix x rec)) : Layered s' := by
  have hnew : Closed s' x rhs :=
    ⟨hlt, _, hd.node?_iff.2 (.inr ⟨rfl, n, hn, rfl⟩), Node.rhs?_defined hid rhs⟩
  refine h.defines hd hn hid hnone hr (fun u hu => ?_) (fun u hb => ?_)
    (fun y _ _ => ⟨rhs, hnew⟩) fun f F rec' hF hc => ?_
  · subst hlast
    exact .inr (.inr ⟨_, hnew, h.lt_of_fix hi hfix hu⟩)
  · rcases hb with hb | ⟨F, hF, -⟩
    · exact .inr ⟨rhs, hnew, hb⟩
    · exact absurd hF (not_closed_of_fix hfix)
  · have hc' : F = s.size ∨ Closed s f F := by
      rcases hc with hc | hc
      · exact .inl hc
      · exact (hd.closed hc).symm.imp_left fun heq => heq.2.trans hlast
    refine ⟨hc', fun hfx hm => ?_⟩
    rcases hc' with rfl | hc'
    · rw [← hlast, hfix, Option.some.injEq] at hF
      cases hF
      exact Nat.lt_irrefl _ hfx
    · have hFx := haround f F hc' hfx
      rcases h.before F x hm with rfl | hb | ⟨G, hG, -⟩
      · exact Nat.lt_irrefl _ hFx
      · omega
      · exact not_closed_of_fix hF hG

end

/-! ## Changes -/

/-- **One change.** -/
theorem Change.layered (h : Change l s s') (hi : Inv s) (hs : Layered s) : Layered s' := by
  have hi' : Inv s' := (Trace.one h).inv hi
  cases h.effect with
  | adds ha hv hsubs hpast =>
    exact hs.adds hi hi' ha hv hsubs fun o ho =>
      ⟨(hpast o ho).1, (hpast o ho).2.2⟩
  | defines hd _ _ hn hid hnone hr hwhere hlast =>
    rcases hwhere with ⟨hlt, -⟩ | ⟨hlt, hsize, haround, rec, hfix⟩
    · exact hs.settles hd hn hid hnone hr hi hlt (hlast hlt)
    · exact hs.closes hd hn hid hnone hr hi hlt hsize haround hfix
  | same hv _ hev hrem _ _ hhelpers =>
    have hnode := node?_congr hv
    have hsize : s'.size = s.size := by rw [State.size, State.size, hv]
    have hused : ∀ y, s'.usedOf y = s.usedOf y := fun y => by
      rw [State.usedOf, State.usedOf, value?_congr hv]
    have hclosed : ∀ {f F}, Closed s' f F ↔ Closed s f F := by simp [Closed, hnode]
    refine ⟨fun x u hu => ?_, fun x y u hy hopen hu => ?_, fun f F rec g hn hF hg => ?_,
      fun h' hh => ?_⟩
    · rw [hused] at hu
      exact (hs.before x u hu).imp_right (·.closed_mono fun _ _ => hclosed.2)
    · rw [hused] at hy hu ⊢
      exact (hs.through x y u hy (fun F hF => hopen F (hclosed.2 hF)) hu).imp_right
        (·.mono hrem fun _ _ => hclosed.2)
    · rw [hused] at hg ⊢
      rw [hnode] at hn
      obtain ⟨hne, hlt⟩ := hs.recursive f F rec g hn (hF.imp (·.trans hsize) hclosed.1) hg
      refine ⟨hne, fun hfg => ⟨(hlt hfg).1, (hlt hfg).2.imp (·.mono hev) ?_⟩⟩
      exact Or.imp (·.mono hrem) (Exists.imp fun _ => (hnode g).trans)
    · obtain ⟨key, hh⟩ := hh
      rcases hhelpers _ hh with hold | ⟨-, hc, honly⟩
      · obtain ⟨H, hH, hu⟩ := hs.helpers h' ⟨key, hold⟩
        refine ⟨H, hclosed.2 hH, fun u hm => ?_⟩
        rw [hused] at hm
        rcases hu u hm with hset | ⟨hh, U, hU, hle⟩
        · exact .inl (hset.mono hev)
        · exact .inr ⟨hh.mono hrem, U, hclosed.2 hU, hle⟩
      · -- the helper was closed off last
        refine ⟨s.size, hclosed.2 hc, fun u hm => ?_⟩
        rw [hused] at hm
        rcases honly u hm with hset | hhu | rfl
        · exact .inl (hset.mono hev)
        · obtain ⟨U, hU, -⟩ := hs.helpers u hhu
          exact .inr ⟨hhu.mono hrem, U, hclosed.2 hU, hi.closed_le hU⟩
        · exact .inr ⟨⟨key, hh⟩, s.size, hclosed.2 hc, Nat.le_refl _⟩

/-- **The layers last** along every trace. -/
theorem Trace.layered (h : Trace l s s') (hi : Inv s) (hs : Layered s) : Layered s' :=
  (h.keeps (P := fun s => Inv s ∧ Layered s)
    (fun hc hp => ⟨(Trace.one hc).inv hp.1, hc.layered hp.1 hp.2⟩) ⟨hi, hs⟩).2

theorem Layered.new (target : Version) (decls : Decls) (debug : Bool) :
    Layered (State.new target decls debug) := by
  have hempty : ∀ x u : Nat, u ∉ ((State.new target decls debug).usedOf x).ids := fun x u hu =>
    Nat.not_lt_zero _ (Nat.lt_of_lt_of_le (valid_of_mem_usedOf hu).1 (valid_of_mem_usedOf hu).2)
  refine ⟨fun x u hu => absurd hu (hempty x u), fun x y _ hy => absurd hy (hempty x y),
    fun f F rec g _ _ hg => absurd hg (hempty F g), ?_⟩
  rintro h ⟨key, hh⟩
  cases hh

end CoreLowering.Graph
