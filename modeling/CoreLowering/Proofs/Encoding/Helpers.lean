import CoreLowering.Proofs.Encoding.Direction
import CoreLowering.Proofs.Encoding.Mapping

/-!
# Building helpers

The helper that changes the items of a list is built on its first use and
remembered under a key, which names the direction and the type of the items.
Building one may need others, for lists among the items; what was remembered
before stays right.

Main statement: `keptHelper_makes`, what is found under a key, or built for
it, is a helper that changes items of the type.
-/

namespace CoreLowering.Encoding

open CoreLowering.Graph
open CoreLowering.FirstOrder (Extends Lands availableIn_of_since)

variable {g s s' s'' : State} {way : Direction} {lo u : Nat} {n : Node} {t elem : Ty} {r : Rep}
  {ct : ConstType} {native : Bool} {rep : Rep} {f : Builtin} {list : Ty}

/-! ## What is remembered -/

/-- Views are remembered of values in the graph, and helpers that have their
definitions. -/
structure Orderly (s : State) : Prop where
  views : ∀ p ∈ s.views, p.1.1 ≤ s.size
  helpers : ∀ p ∈ s.helpers, ∃ x r, s.node? p.2 = some (.var x (some r))

theorem Orderly.empty (hviews : s.views = []) (hhelpers : s.helpers = []) : Orderly s :=
  ⟨by simp [hviews], by simp [hhelpers]⟩

theorem Orderly.later (h : Orderly s) (hl : Later 0 s s') (hviews : s'.views = s.views)
    (hhelpers : s'.helpers = s.helpers) : Orderly s' where
  views p hp := Nat.le_trans (h.views p (hviews ▸ hp)) hl.size
  helpers p hp := by
    obtain ⟨x, r, hn⟩ := h.helpers p (hhelpers ▸ hp)
    exact ⟨x, r, hl.node? (valid_of_node? hn).1 hn⟩

theorem Orderly.extend (h : Orderly s) (he : Extends s s') : Orderly s' :=
  h.later he.later he.views he.helpers

/-- The value is a helper for lists with items of the type. -/
def Mapped (g : State) (way : Direction) (elem : Ty) (own : Nat) : Prop :=
  ∃ ct f i, way.result elem = some ct ∧ f.self = own ∧ Mapper g (way.change elem) ct f i

/-- What is remembered in the first graph are helpers in the second one. -/
def Known (way : Direction) (s g : State) : Prop :=
  ∀ elem own, Plain elem → s.helpers.lookup (way.key elem) = some own →
    g.usedOf own = s.usedOf own ∧ Mapped g way elem own

namespace Known

theorem empty (h : s.helpers = []) : Known way s g := by
  intro elem own _ hown
  rw [h] at hown
  cases hown

/-- The helpers that are remembered use what they did. -/
theorem same (hk : Known way s g) (hhelpers : s'.helpers = s.helpers)
    (hused : ∀ p ∈ s.helpers, s'.usedOf p.2 = s.usedOf p.2) : Known way s' g := by
  intro elem own he hown
  rw [hhelpers] at hown
  rw [hused (way.key elem, own) (mem_of_lookup hown)]
  exact hk elem own he hown

theorem later (hk : Known way s g) (ho : Orderly s) (hl : Later 0 s s')
    (hhelpers : s'.helpers = s.helpers) : Known way s' g := by
  refine hk.same hhelpers fun p hp => ?_
  obtain ⟨x, r, hn⟩ := ho.helpers p hp
  exact hl.usedOf (valid_of_node? hn).1 (valid_of_node? hn)

theorem extend (hk : Known way s g) (ho : Orderly s) (he : Extends s s') : Known way s' g :=
  hk.later ho he.later he.helpers

end Known

/-- What is remembered stays right while the first graph grows to the second
one, and so is what is remembered anew. -/
structure Keeps (lo : Nat) (way : Direction) (s s' : State) : Prop where
  orderly : Orderly s'
  known : ∀ g, Later lo s' g → UsedInside g → Known way s g → Known way s' g

namespace Keeps

theorem refl (h : Orderly s) : Keeps lo way s s := ⟨h, fun _ _ _ => id⟩

theorem extend (h : Keeps lo way s s') (he : Extends s' s'') : Keeps lo way s s'' where
  orderly := h.orderly.extend he
  known g hl hu hk := (h.known g (he.later.trans hl) hu hk).extend h.orderly he

/-- Views are remembered. -/
theorem views (h : Keeps lo way s s') (hl : Later 0 s' s'')
    (hviews : ∀ p ∈ s''.views, p.1.1 ≤ s''.size) (hhelpers : s''.helpers = s'.helpers) :
    Keeps lo way s s'' := by
  refine ⟨⟨hviews, fun p hp => ?_⟩, fun g hg hu hk => ?_⟩
  · obtain ⟨x, r, hn⟩ := h.orderly.helpers p (hhelpers ▸ hp)
    exact ⟨x, r, hl.node? (valid_of_node? hn).1 hn⟩
  · exact (h.known g ((hl.anti (Nat.zero_le lo)).trans hg) hu hk).later h.orderly hl hhelpers

theorem trans (h : Keeps lo way s s') (h' : Keeps lo way s' s'') (hl : Later lo s' s'') :
    Keeps lo way s s'' where
  orderly := h'.orderly
  known g hg hu hk := h'.known g hg hu (h.known g (hl.trans hg) hu hk)

end Keeps

/-- The value is a helper in all later graphs. -/
structure Helps (lo : Nat) (way : Direction) (s : State) (elem : Ty) (own : Nat) (s' : State) :
    Prop where
  keeps : Keeps lo way s s'
  defined : ∃ x r, s'.node? own = some (.var x (some r))
  later : ∀ g, Later lo s' g → UsedInside g → Known way s g →
    g.usedOf own = s'.usedOf own ∧ Mapped g way elem own

namespace Helps

variable {own : Nat}

theorem valid (h : Helps lo way s elem own s') : Valid s' own := by
  obtain ⟨x, r, hn⟩ := h.defined
  exact valid_of_node? hn

theorem extend (h : Helps lo way s elem own s') (he : Extends s' s'') :
    Helps lo way s elem own s'' where
  keeps := h.keeps.extend he
  defined := by
    obtain ⟨x, r, hn⟩ := h.defined
    exact ⟨x, r, he.node? hn⟩
  later g hl hu hk := by
    rw [he.later.usedOf h.valid.1 h.valid]
    exact h.later g (he.later.trans hl) hu hk

/-- A helper is remembered. -/
theorem remember (h : Helps lo way s elem own s') (he : Plain elem) :
    Helps lo way s elem own { s' with helpers := (way.key elem, own) :: s'.helpers } := by
  have hsame : Later lo s' { s' with helpers := (way.key elem, own) :: s'.helpers } :=
    .of_values rfl rfl rfl
  have later : ∀ g, Later lo { s' with helpers := (way.key elem, own) :: s'.helpers } g →
      UsedInside g → Known way s g → g.usedOf own = s'.usedOf own ∧ Mapped g way elem own :=
    fun g hl hu hk => h.later g (hsame.trans hl) hu hk
  refine ⟨⟨⟨h.keeps.orderly.views, fun p hp => ?_⟩, fun g hl hu hk e p hp hlookup => ?_⟩,
    h.defined, later⟩
  · rcases List.mem_cons.1 hp with rfl | hp
    · exact h.defined
    · exact h.keeps.orderly.helpers p hp
  · rw [List.lookup_cons] at hlookup
    split at hlookup
    · rename_i heq
      cases hlookup
      cases Direction.key_inj hp he (eq_of_beq heq)
      exact later g hl hu hk
    · exact h.keeps.known g (hsame.trans hl) hu hk e p hp hlookup

end Helps

/-! ## Taking a list apart -/

/-- The case of a helper, started. -/
def openList (w : Version) (l : Nat) (bs : List ValueId) : OpenCase :=
  ⟨.list, isNative w, l, [], [bs, []], .none⟩

theorem beginList_lands {l : Nat} {x : String} (hl : At s l (.var x none) t r) :
    Lands (beginCase .list l .none) s fun opened _ => opened = openList s.target l [] := by
  obtain ⟨v, hv, hn, -⟩ := hl
  refine .read target_run ?_
  dsimp only
  split
  · exact .read rfl (.bind FirstOrder.point_lands fun _ _ _ _ _ => .pure rfl)
  · refine .read (value_run hv) ?_
    have hid : v.node.isIdentifiable = true := by rw [hn]; rfl
    rw [if_pos hid]
    exact .read rfl (.bind FirstOrder.point_lands fun _ _ _ _ _ => .pure rfl)

/-- The first item and the rest of a list, with what they use. -/
structure Opened (lo : Nat) (s : State) (native : Bool) (l h t : Nat) : Prop where
  split : ∀ g, Later lo s g → Split g l native h t
  head : lo < h ∧ Valid s h
  tail : lo < t ∧ Valid s t
  head_self : h ∈ (s.usedOf h).ids
  head_used : ∀ u : Nat, u ∈ (s.usedOf h).ids → u = h ∨ u ∈ (s.usedOf l).ids
  tail_used : ∀ u : Nat, u ∈ (s.usedOf t).ids → u = t ∨ u ∈ (s.usedOf l).ids

theorem Opened.grow {l h t : Nat} (ho : Opened lo s native l h t) (hl : Valid s l)
    (hs : Later 0 s s') : Opened lo s' native l h t := by
  have uh := hs.usedOf ho.head.2.1 ho.head.2
  have ut := hs.usedOf ho.tail.2.1 ho.tail.2
  have ul := hs.usedOf hl.1 hl
  constructor
  case split => exact fun g hg => ho.split g ((hs.anti (Nat.zero_le lo)).trans hg)
  case head => exact ⟨ho.head.1, hs.valid ho.head.2⟩
  case tail => exact ⟨ho.tail.1, hs.valid ho.tail.2⟩
  case head_self =>
    rw [uh]
    exact ho.head_self
  case head_used =>
    rw [uh, ul]
    exact ho.head_used
  case tail_used =>
    rw [ut, ul]
    exact ho.tail_used

theorem bindNative_lands {l : Nat} (hn : s.target.hasBuiltinCase = true) (hlo : lo ≤ s.size)
    {span : Span} :
    Lands (bindNative span [⟨"h", elem, rep⟩, ⟨"t", list, .constant⟩]) s
      fun ids s' => ∃ h t : Nat, ids = [h, t] ∧ Opened lo s' true l h t ∧
        ∃ x rhs, At s' h (.var x rhs) elem rep := by
  simp only [bindNative, List.mapM_cons, List.mapM_nil, bind_assoc, pure_bind]
  refine .bind newBinder_at ?_
  rintro h s₁ e₁ - ⟨hlt1, x, hh, uh⟩
  refine .bind newBinder_at ?_
  rintro t s₂ e2 - ⟨hlt2, y, ht, ut⟩
  have l2 : Later 0 s₁ s₂ := e2.later
  have hsize := e₁.size
  have hle := hh.valid.2
  have huh := l2.usedOf hh.valid.1 hh.valid
  have hh := hh.later l2 hh.valid.1
  refine .pure ⟨h, t, rfl, ⟨fun g hl => ?_, ⟨by omega, hh.valid⟩, ⟨by omega, ht.valid⟩, ?_,
    fun u hu => ?_, fun u hu => ?_⟩, x, none, hh⟩
  · refine .native ?_ ⟨x, (hh.later hl (by omega)).node⟩ ⟨y, (ht.later hl (by omega)).node⟩
      (by omega)
    rw [hl.target, e2.target, e₁.target, hn]
  · rw [huh]
    exact (uh h).2 rfl
  · exact .inl ((uh u).1 (huh ▸ hu))
  · exact .inl ((ut u).1 hu)

/-- A variable that a builtin takes out of a list. -/
theorem extract_lands {l : Nat} (hw : s.target ≠ .unknown) (hl : Valid s l)
    (hf : f.isKnown = true ∧ f.since = .v1) {name : String} {type : Ty} {span : Span} :
    Lands (do
        let rhs ← builtin f type rep span [l]
        newVar name type rep rhs span) s fun id s' => ∃ x rhs, s.size < rhs ∧ rhs < id ∧
      Is s' id (.var x (some rhs)) type rep ∧ Is s' rhs (.builtin f [l]) type rep := by
  refine .bind (builtin_is (availableIn_of_since hf.1 hf.2 hw) (by simpa using hl)) ?_
  rintro a s₁ e₁ - ⟨hlt, ha⟩
  refine (newVar_is ha.valid).mono ?_
  rintro id s₂ e2 ⟨hlt2, x, hid⟩
  exact ⟨x, a, hlt, Nat.lt_of_le_of_lt ha.valid.2 hlt2, hid, ha.grow e2.later⟩

theorem used_extracted {l x a : Nat} {name : String} (hx : Is s x (.var name (some a)) t r)
    (ha : Is s a (.builtin f [l]) t r) : u ∈ (s.usedOf x).ids ↔ u = x ∨ u ∈ (s.usedOf l).ids := by
  rw [hx.used]
  simp [Node.isIdentifiable, ha.used]

theorem bindExtracted_lands {l : Nat} (hw : s.target ≠ .unknown) (hlo : lo ≤ s.size)
    (hl : Valid s l) {c : OpenCase} (hc : c.shape = .list) :
    Lands (bindExtracted c 0 l [⟨"h", elem, rep⟩, ⟨"t", list, .constant⟩]) s
      fun ids s' => ∃ h t : Nat, ids = [h, t] ∧ Opened lo s' false l h t ∧
        ∃ x rhs, At s' h (.var x rhs) elem rep := by
  simp only [bindExtracted, List.zipIdx_cons, List.zipIdx_nil, List.mapM_cons, List.mapM_nil,
    hc, extractor?, if_true, Nat.zero_add, if_neg Nat.one_ne_zero]
  refine .bind (extract_lands hw hl ⟨rfl, rfl⟩) ?_
  rintro h s₁ e₁ - ⟨x, a, hlta, hlth, hh, ha⟩
  simp only [bind_assoc, pure_bind]
  have hw1 : s₁.target ≠ .unknown := e₁.target ▸ hw
  rw [← bind_assoc]
  refine .bind (extract_lands hw1 (e₁.valid hl) ⟨rfl, rfl⟩) ?_
  rintro t s₂ e2 - ⟨y, b, hltb, hltt, ht, hb⟩
  have hsize := e₁.size
  have hh := hh.grow e2.later
  have ha := ha.grow e2.later
  refine .pure ⟨h, t, rfl, ⟨fun g hl => ?_, ⟨by omega, hh.valid⟩, ⟨by omega, ht.valid⟩,
    (used_extracted hh ha).2 (.inl rfl), fun u hu => (used_extracted hh ha).1 hu,
    fun u hu => (used_extracted ht hb).1 hu⟩, x, _, hh.known⟩
  exact .emulated (hh.known.later hl (by omega)).node (ha.known.later hl (by omega)).node
    (ht.known.later hl (by omega)).node (hb.known.later hl (by omega)).node

theorem bindList_lands {l : Nat} (hw : s.target ≠ .unknown) (hlo : lo ≤ s.size) (hl : Valid s l) :
    Lands ((openList s.target l []).bind 0 [⟨"h", elem, rep⟩, ⟨"t", list, .constant⟩]) s
      fun r s' => ∃ h t : Nat, r = (openList s.target l [h, t], [h, t]) ∧
        Opened lo s' (isNative s.target) l h t ∧ ∃ x rhs, At s' h (.var x rhs) elem rep := by
  unfold OpenCase.bind
  have hnot : ¬((openList s.target l []).shape = .data ∧ 0 = 0) := by simp [openList]
  rw [if_neg hnot]
  split
  · rename_i hn
    have hn : isNative s.target = true := hn
    refine .bind (bindNative_lands (l := l) hn hlo) ?_
    rintro ids s' - - ⟨h, t, rfl, ho, hat⟩
    exact .pure ⟨h, t, rfl, hn ▸ ho, hat⟩
  · rename_i hn
    have hn : isNative s.target = false := by simpa [openList] using hn
    refine .bind (bindExtracted_lands hw hlo hl rfl) ?_
    rintro ids s' - - ⟨h, t, rfl, ho, hat⟩
    exact .pure ⟨h, t, rfl, hn ▸ ho, hat⟩

/-! ## The parts of a helper -/

/-- The case on the list, the function around it and the recursive function. -/
def endLoop (own l : Nat) (i : Items) (type output : Ty) : LowerM ValueId := do
  let body ← (⟨.list, i.native, l, [], [[i.head, i.tail], []], .none⟩ : OpenCase).finish
    [some i.cons, some i.nil] output .constant
  let lam ← lambda (some l) body type (.closure .constant .constant) true .none
  fix own lam .none

/-- A helper under construction: all is there but the case on the list, the
function around it and the definition of its variable `own`. -/
structure Begun (way : Direction) (elem : Ty) (ct : ConstType) (s₀ s : State) (own l : Nat)
    (i : Items) : Prop where
  self : ∃ x t r, At s own (.var x none) t r
  self_used : ∀ u : Nat, u ∈ (s.usedOf own).ids → u = own
  param : ∃ x t r, At s l (.var x none) t r
  param_used : ∀ u : Nat, u ∈ (s.usedOf l).ids → u = l
  before : own < l
  opened : Opened own s i.native l i.head i.tail
  again : ∃ t r, Is s i.again (.apply own i.tail) t r
  first : ∃ x t r, Is s i.first (.aliased x i.head (some i.conv)) t r
  cons : ∃ t r, Is s i.cons (.builtin .mkCons [i.first, i.again]) t r
  nil : ∃ t r, Is s i.nil (.const (.list ct [])) t r
  after : own < i.conv ∧ own < i.first ∧ own < i.again ∧ own < i.cons ∧ own < i.nil
  keeps : Keeps own way s₀ s
  later : ∀ g, Later own s g → UsedInside g → Known way s₀ g →
    Converted g (way.change elem) i.head i.conv

/-- A helper whose variable is still to be defined. -/
structure Ended (s s' : State) (own l : Nat) (i : Items) (f : Loop) : Prop where
  self : f.self = own
  param : f.param = l
  whole : s'.node? f.whole = some (.fix f.self f.fn)
  fn : s'.node? f.fn = some (.lambda (some f.param) f.body true)
  body : ∃ owned binders,
    s'.node? f.body = some (.caseOf .list i.native f.param [i.cons, i.nil] owned binders) ∧
      (i.native = true ∧ binders = [[i.head, i.tail], []] ∨ i.native = false ∧ binders = [])
  after : s.size < f.body ∧ s.size < f.fn ∧ s.size < f.whole
  next : f.whole = f.fn + 1
  used : ∀ u : Nat, u ∈ (s'.usedOf f.whole).ids →
    u = i.first ∧ i.head ∉ (s.usedOf i.conv).ids ∨
      u ∈ (s.usedOf i.conv).ids ∧ u ∉ (s.usedOf i.head).ids ∧ i.head ∉ (s.usedOf u).ids

/-- The case on the list. -/
theorem finishList_lands {l cons nil h t : Nat} {type : Ty} (hl : Valid s l) (hcons : Valid s cons)
    (hnil : Valid s nil) :
    Lands ((⟨.list, native, l, [], [[h, t], []], .none⟩ : OpenCase).finish
        [some cons, some nil] type .constant) s fun body s' => s.size < body ∧ Valid s' body ∧
      (∃ owned binders, s'.node? body = some (.caseOf .list native l [cons, nil] owned binders) ∧
        (native = true ∧ binders = [[h, t], []] ∨ native = false ∧ binders = [])) ∧
      ∀ u : Nat, u ∈ (s'.usedOf body).ids →
        (u ∈ (s.usedOf l).ids ∨ u ∈ (s.usedOf cons).ids ∨ u ∈ (s.usedOf nil).ids) ∧
          (u ≠ h ∧ h ∉ (s.usedOf u).ids) ∧ u ≠ t ∧ t ∉ (s.usedOf u).ids := by
  refine .read (a := [cons, nil]) rfl ?_
  cases native with
  | true | false =>
    refine (newNode_at (by simpa [Node.subs] using ⟨hl, hcons, hnil⟩)).mono ?_
    rintro body s' - ⟨⟨rfl, -⟩, hat, hused⟩
    refine ⟨Nat.lt_succ_self _, hat.valid, ⟨_, _, hat.node, by simp⟩, fun u hu => ?_⟩
    rw [hused, mem_usedBy] at hu
    simpa [Node.subs, Node.scopeOf] using hu

namespace Begun

variable {s₀ : State} {own l : Nat} {i : Items}

/-- What the result for a list that is not empty uses. -/
theorem used_cons (h : Begun way elem ct s₀ s own l i) (hu : u ∈ (s.usedOf i.cons).ids) :
    (u = i.first ∨ u ∈ (s.usedOf i.conv).ids) ∨ u = own ∨ u = i.tail ∨ u = l := by
  obtain ⟨_, _, hcons⟩ := h.cons
  obtain ⟨_, _, _, hfirst⟩ := h.first
  obtain ⟨_, _, hagain⟩ := h.again
  have hparts : u ∈ (s.usedOf i.first).ids ∨ u ∈ (s.usedOf i.again).ids := by
    simpa [Node.isIdentifiable] using (hcons.used u).1 hu
  rcases hparts with hu | hu
  · exact .inl (by simpa [Node.isIdentifiable] using (hfirst.used u).1 hu)
  · have hparts : u ∈ (s.usedOf own).ids ∨ u ∈ (s.usedOf i.tail).ids := by
      simpa [Node.isIdentifiable] using (hagain.used u).1 hu
    rcases hparts with hu | hu
    · exact .inr (.inl (h.self_used u hu))
    · exact .inr (.inr ((h.opened.tail_used u hu).imp_right (h.param_used u)))

/-- What is used outside of the body comes from the conversion of an item, and
does not depend on the item. -/
theorem used_whole (h : Begun way elem ct s₀ s own l i)
    (hu : u ∈ (s.usedOf l).ids ∨ u ∈ (s.usedOf i.cons).ids ∨ u ∈ (s.usedOf i.nil).ids)
    (hhead : u ≠ i.head ∧ i.head ∉ (s.usedOf u).ids) (htail : u ≠ i.tail) (hl : u ≠ l)
    (hown : u ≠ own) :
    u = i.first ∧ i.head ∉ (s.usedOf i.conv).ids ∨
      u ∈ (s.usedOf i.conv).ids ∧ u ∉ (s.usedOf i.head).ids ∧ i.head ∉ (s.usedOf u).ids := by
  obtain ⟨_, _, hnil⟩ := h.nil
  obtain ⟨_, _, _, hfirst⟩ := h.first
  have hcons : u ∈ (s.usedOf i.cons).ids := by
    rcases hu with hu | hu | hu
    · exact absurd (h.param_used u hu) hl
    · exact hu
    · simp [hnil.used, Node.isIdentifiable] at hu
  rcases h.used_cons hcons with (rfl | hconv) | rfl | rfl | rfl
  · refine .inl ⟨rfl, fun hmem => hhead.2 ((hfirst.used _).2 (.inr ⟨i.conv, ?_, hmem⟩))⟩
    exact part_aliased.2 rfl
  · refine .inr ⟨hconv, fun hmem => ?_, hhead.2⟩
    exact (h.opened.head_used u hmem).elim hhead.1 fun hmem => hl (h.param_used u hmem)
  · exact absurd rfl hown
  · exact absurd rfl htail
  · exact absurd rfl hl

theorem end_lands (h : Begun way elem ct s₀ s own l i) (type output : Ty) :
    Lands (endLoop own l i type output) s fun whole s' => ∃ f : Loop, f.whole = whole ∧
      Ended s s' own l i f := by
  obtain ⟨_, _, _, hparam⟩ := h.param
  obtain ⟨_, _, hcons⟩ := h.cons
  obtain ⟨_, _, hnil⟩ := h.nil
  refine .bind (finishList_lands hparam.valid hcons.valid hnil.valid) ?_
  rintro body s₁ e₁ - ⟨hlt1, hv1, hbody, hused1⟩
  refine .bind (newNode_at (n := .lambda (some l) body true) (by simpa [Node.subs] using hv1)) ?_
  rintro lam s₂ e2 - ⟨⟨hlt2, hsize⟩, hlam, hused2⟩
  obtain ⟨v, hv, -⟩ := id hlam
  refine .read (value_run hv) ?_
  refine (newNode_at (by simpa [Node.subs] using hlam.valid)).mono ?_
  rintro whole s3 e3 ⟨⟨hlt3, -⟩, hwhole, hused3⟩
  have l2 : Later 0 s₁ s₂ := e2.later
  have l3 : Later 0 s₂ s3 := e3.later
  have hlt2' : s.size < lam := hlt2 ▸ Nat.lt_succ_of_le e₁.size
  have hnext : whole = lam + 1 := hsize ▸ hlt3
  refine ⟨⟨own, whole, lam, l, body⟩, rfl, rfl, rfl, hwhole.node,
    l3.node? hlam.valid.1 hlam.node, ?_, ⟨hlt1, hlt2', hnext ▸ Nat.lt_succ_of_lt hlt2'⟩, hnext,
    fun u hu => ?_⟩
  · obtain ⟨owned, binders, hnode, hbinders⟩ := hbody
    exact ⟨owned, binders, (l2.trans l3).node? hv1.1 hnode, hbinders⟩
  · -- the scopes take the variables away one after the other
    rw [hused3, mem_usedBy] at hu
    simp only [Node.subs, List.mem_singleton, exists_eq_left, Node.scopeOf, forall_eq] at hu
    obtain ⟨hu, hown, -⟩ := hu
    rw [hused2, mem_usedBy] at hu
    simp only [Node.subs, List.mem_singleton, exists_eq_left, Node.scopeOf, Option.toList_some,
      forall_eq] at hu
    obtain ⟨hu, hl, -⟩ := hu
    obtain ⟨hu, hhead, htail, -⟩ := hused1 u hu
    exact h.used_whole hu hhead htail hl hown

/-- Once its variable is defined, the helper is one in all later graphs. -/
theorem mapper {s₁ s₂ : State} {f : Loop} {v : Value} (h : Begun way elem ct s₀ s own l i)
    (he : Ended s s₁ own l i f) (e₁ : Extends s s₁) (hv : s₁.value? f.whole = some v)
    (hd : Defines s₁ s₂ own f.whole v) (hlo : lo < own) (hl : Later lo s₂ g)
    (hitem : Converted g (way.change elem) i.head i.conv) : Mapper g (way.change elem) ct f i := by
  obtain ⟨x, _, _, hself⟩ := h.self
  obtain ⟨y, _, _, hparam⟩ := h.param
  obtain ⟨_, _, hagain⟩ := h.again
  obtain ⟨z, _, _, hfirst⟩ := h.first
  obtain ⟨_, _, hcons⟩ := h.cons
  obtain ⟨_, _, hnil⟩ := h.nil
  obtain ⟨hconv, hafirst, haagain, hacons, hanil⟩ := h.after
  obtain ⟨owned, binders, hbody, hbinders⟩ := he.body
  obtain ⟨hab, haf, haw⟩ := he.after
  have hle := hself.valid.2
  -- nothing past the variable of the helper has changed
  have l1 : Later own s₁ g :=
    (Later.of_defines hd (Nat.le_refl own)).trans (hl.anti (Nat.le_of_lt hlo))
  have l0 : Later own s g := e₁.later.trans l1
  have hwhole : g.usedOf f.whole = s₁.usedOf f.whole :=
    l1.usedOf (by omega) (valid_of_value hv)
  have hvconv : Valid s i.conv := hfirst.parts _ (part_aliased.2 rfl)
  have husedconv := l0.usedOf hconv hvconv
  have husedhead := l0.usedOf h.opened.head.1 h.opened.head.2
  have hn1 : s₁.node? own = some (.var x none) := e₁.node? hself.node
  have hn2 : s₂.node? own = some (.var x (some f.whole)) := by
    rw [hd.node?, if_pos rfl, hn1]
    rfl
  constructor
  case loop =>
    refine ⟨⟨x, ?_⟩, l1.node? (by omega) he.whole, l1.node? (by omega) he.fn, ⟨y, ?_⟩, ?_, he.next⟩
    · rw [he.self]
      exact hl.node? hlo hn2
    · rw [he.param]
      exact l0.node? h.before hparam.node
    · rw [he.self, he.param]
      exact h.before
  case split =>
    rw [he.param]
    exact h.opened.split g l0
  case body => exact ⟨owned, binders, l1.node? (by omega) hbody, hbinders⟩
  case cons => exact l0.node? hacons hcons.node
  case again =>
    rw [he.self]
    exact l0.node? haagain hagain.node
  case first => exact ⟨z, l0.node? hafirst hfirst.node⟩
  case nil => exact l0.node? hanil hnil.node
  case item => exact hitem
  case head_used =>
    rw [husedhead]
    exact h.opened.head_self
  case self_used =>
    intro u hmem
    rw [he.self, hl.usedOf hlo (valid_of_node? hn2), hd.usedOf (valid_of_node? hn1),
      if_pos rfl, VarSet.mem_union] at hmem
    rw [he.self, hwhole, usedOf_of_value hv]
    exact hmem.imp_left List.mem_singleton.1
  case whole_used =>
    intro u hmem
    rw [hwhole] at hmem
    rw [husedconv, husedhead]
    refine (he.used u hmem).imp_right fun ⟨hu, hnot, hhead⟩ => ⟨hu, hnot, fun hbetween => ?_⟩
    -- what is defined between the item and its other layout was there already
    have hvu : Valid s u := ⟨by omega, Nat.le_trans hbetween.2 hvconv.2⟩
    rwa [l0.usedOf (Nat.lt_trans h.opened.head.1 hbetween.1) hvu]

/-- A helper that is remembered has its definition, and is another one. -/
theorem remembered {s₁ : State} {p : String × ValueId} (h : Begun way elem ct s₀ s own l i)
    (e₁ : Extends s s₁) (hp : p ∈ s₁.helpers) :
    p.2 ≠ own ∧ ∃ x r, s₁.node? p.2 = some (.var x (some r)) := by
  obtain ⟨x, _, _, hself⟩ := h.self
  obtain ⟨y, r, hn⟩ := (h.keeps.extend e₁).orderly.helpers p hp
  refine ⟨fun heq => ?_, y, r, hn⟩
  rw [heq, e₁.node? hself.node] at hn
  cases hn

section

variable {s₁ s₂ : State} {whole : Nat} {v : Value} (h : Begun way elem ct s₀ s own l i)
  (e₁ : Extends s s₁) (hd : Defines s₁ s₂ own whole v)

include h e₁ hd

/-- What is remembered stays right when the variable gets its definition. -/
theorem keeps_defined (hlo : lo < own) : Keeps lo way s₀ s₂ := by
  obtain ⟨x, _, _, hself⟩ := h.self
  have hk := h.keeps.extend e₁
  refine ⟨⟨fun p hp => ?_, fun p hp => ?_⟩, fun g hg hu hknown => ?_⟩
  · rw [hd.size]
    exact hk.orderly.views p (hd.views ▸ hp)
  · obtain ⟨hne, y, r, hn⟩ := h.remembered e₁ (hd.helpers ▸ hp)
    exact ⟨y, r, by rw [hd.node?, if_neg hne, hn]⟩
  · have hl : Later own s₁ g :=
      (Later.of_defines hd (Nat.le_refl own)).trans (hg.anti (Nat.le_of_lt hlo))
    refine (hk.known g hl hu hknown).same hd.helpers fun p hp => ?_
    rw [hd.usedOf (valid_of_node? (e₁.node? hself.node)), if_neg (h.remembered e₁ hp).1]

end

end Begun

/-! ## Building a helper -/

/-- How a variable gets another layout: by an alias. -/
structure Aliased (lo : Nat) (way : Direction) (s : State) (t : Ty) (id conv first : Nat)
    (s' : State) : Prop where
  fresh : s.size < conv ∧ s.size < first
  made : ∃ x, Is s' first (.aliased x id (some conv)) t way.goal
  keeps : Keeps lo way s s'
  later : ∀ g, Later lo s' g → UsedInside g → Known way s g → Converted g (way.change t) id conv

/-- The step gives variables of a type, of which there are no views, their
other layout. -/
def ConvertsVar (convert : ValueId → LowerM ValueId) (way : Direction) (t : Ty) : Prop :=
  ∀ {s : State} {lo id : Nat} {x : String} {rhs : Option ValueId}, s.target ≠ .unknown →
    Orderly s → (∀ p ∈ s.views, p.1.1 ≠ id) → lo ≤ s.size → lo < id →
    At s id (.var x rhs) t way.source → s.constant? id = none →
    Makes (convert id) s fun first s' => ∃ conv, Aliased lo way s t id conv first s'

/-- The last steps of building a helper. -/
def endHelper (own l : Nat) (i : Items) (type output : Ty) : LowerM ValueId := do
  let whole ← endLoop own l i type output
  setRhs own whole
  return own

section

variable {head : ValueId → LowerM ValueId} (hhead : ConvertsVar head way elem)
  (hw : s.target ≠ .unknown) (ho : Orderly s)

include hhead hw ho

/-- Building a helper up to its last steps. -/
theorem mapListHelper_begun (name : String) (type input output : Ty) (ct : ConstType) :
    ∃ own l i s', (mapListHelper name type input output ⟨"h", elem, way.source⟩ head
        (.list ct [])).run s = (endHelper own l i type output).run s' ∧
      s.size < own ∧ Later 0 s s' ∧ Begun way elem ct s s' own l i := by
  obtain ⟨own, s₁, r1, e₁, -, hlt1, x, hown, uown⟩ :=
    (newBinder_at : Lands (newBinder name type (.closure .constant .constant) .none) s _)
  obtain ⟨l, s₂, r2, e2, -, hlt2, y, hl, ul⟩ :=
    (newBinder_at : Lands (newBinder "l" input .constant .none) s₁ _)
  obtain ⟨_, s3, r3, e3, -, rfl⟩ := beginList_lands hl
  have hw3 : s3.target ≠ .unknown := (e₁.trans (e2.trans e3)).target ▸ hw
  have l2 : Later 0 s₁ s₂ := e2.later
  have l3 : Later 0 s₂ s3 := e3.later
  have hown3 := hown.later (l2.trans l3) hown.valid.1
  have hl3 := hl.later l3 hl.valid.1
  obtain ⟨_, s4, r4, e4, -, h, t, rfl, hopen, z, rhs, hitem⟩ :=
    bindList_lands hw3 hown3.valid.2 hl3.valid
  rw [e3.target] at r4 hopen
  have l4 : Later 0 s3 s4 := e4.later
  have hown4 := hown3.later l4 hown3.valid.1
  have hl4 := hl3.later l4 hl3.valid.1
  obtain ⟨again, s5, r5, e5, -, hlt5, hagain⟩ :=
    (apply_is hown4.valid hopen.tail.2 : Lands (apply own t output .constant .none) s4 _)
  have l5 : Later 0 s4 s5 := e5.later
  have hopen5 := hopen.grow hl4.valid l5
  have hown5 := hown4.later l5 hown4.valid.1
  have hl5 := hl4.later l5 hl4.valid.1
  have e : Extends s s5 := e₁.trans (e2.trans (e3.trans (e4.trans e5)))
  -- no view of the first item is remembered, as it is new
  have hviews : ∀ p ∈ s5.views, p.1.1 ≠ h := fun p hp =>
    Nat.ne_of_lt (Nat.lt_of_le_of_lt (ho.views p (e.views ▸ hp)) (Nat.lt_trans hlt1 hopen.head.1))
  obtain ⟨first, s6, r6, l6, conv, hfirst⟩ :=
    hhead (e.target ▸ hw) (ho.extend e) hviews hown5.valid.2 hopen5.head.1
      (hitem.later l5 hitem.valid.1) (hopen5.split s5 .refl).constant?_head
  obtain ⟨a, halias⟩ := hfirst.made
  have hw6 : s6.target ≠ .unknown := l6.target.trans e.target ▸ hw
  obtain ⟨cons, s7, r7, e7, -, hlt7, hcons⟩ :=
    (builtin_is (availableIn_of_since rfl rfl hw6)
        (by simpa using ⟨halias.valid, l6.valid hagain.valid⟩) :
      Lands (builtin .mkCons output .constant .none [first, again]) s6 _)
  obtain ⟨nil, s8, r8, e8, -, hlt8, hnil⟩ :=
    (constIn_is : Lands (constIn (.list ct []) output .constant .none) s7 _)
  have e68 : Extends s6 s8 := e7.trans e8
  have l68 : Later 0 s6 s8 := e68.later
  have l58 : Later 0 s5 s8 := l6.trans l68
  have l28 : Later 0 s₂ s8 := l3.trans (l4.trans (l5.trans l58))
  refine ⟨own, l, ⟨isNative s₂.target, h, t, conv, first, again, cons, nil⟩, s8, ?_, hlt1,
    e.later.trans l58, ?_⟩
  · rw [mapListHelper, run_bind_of_ok r1, run_bind_of_ok r2,
      run_bind_of_ok r3, run_bind_of_ok r4]
    dsimp only
    rw [run_bind_of_ok r5, run_bind_of_ok r6, run_bind_of_ok r7, constValue,
      run_bind_of_ok r8, endHelper, endLoop, bind_assoc]
    simp only [bind_assoc]
    rfl
  · have hle := hown5.valid.2
    have hle6 := Nat.le_trans hle l6.size
    constructor
    case self => exact ⟨x, _, _, hown5.later l58 hown5.valid.1⟩
    case self_used =>
      rw [(l2.trans l28).usedOf hown.valid.1 hown.valid]
      exact fun u hu => (uown u).1 hu
    case param => exact ⟨y, _, _, hl5.later l58 hl5.valid.1⟩
    case param_used =>
      rw [l28.usedOf hl.valid.1 hl.valid]
      exact fun u hu => (ul u).1 hu
    case before => exact Nat.lt_of_le_of_lt hown.valid.2 hlt2
    case opened => exact hopen5.grow hl5.valid l58
    case again => exact ⟨_, _, hagain.grow l58⟩
    case first => exact ⟨a, _, _, halias.grow l68⟩
    case cons => exact ⟨_, _, hcons.grow e8.later⟩
    case nil => exact ⟨_, _, hnil⟩
    case after =>
      exact ⟨Nat.lt_of_le_of_lt hle hfirst.fresh.1, Nat.lt_of_le_of_lt hle hfirst.fresh.2,
        Nat.lt_of_le_of_lt hown4.valid.2 hlt5, Nat.lt_of_le_of_lt hle6 hlt7,
        Nat.lt_of_le_of_lt (Nat.le_trans hle6 e7.size) hlt8⟩
    case keeps =>
      exact (((Keeps.refl ho).extend e).trans hfirst.keeps (l6.anti (Nat.zero_le own))).extend e68
    case later =>
      intro g hg hu hk
      exact hfirst.later g (e68.later.trans hg) hu (hk.extend ho e)

/-- **Building a helper** that changes the items of a list. -/
theorem mapListHelper_makes (hlo : lo ≤ s.size) (hct : way.result elem = some ct) (name : String)
    (type input output : Ty) :
    Makes (mapListHelper name type input output ⟨"h", elem, way.source⟩ head (.list ct [])) s
      (Helps lo way s elem) := by
  obtain ⟨own, l, i, s₁, hrun, hlt, l1, hbegun⟩ :=
    mapListHelper_begun hhead hw ho name type input output ct
  obtain ⟨_, s₂, r2, e2, -, f, rfl, hended⟩ :=
    hbegun.end_lands type output
  obtain ⟨x, _, _, hself⟩ := hbegun.self
  have hn := e2.node? hself.node
  obtain ⟨v, hv⟩ := (valid_of_node? hended.whole).exists_value
  have hne : f.whole ≠ own := Nat.ne_of_gt (Nat.lt_of_le_of_lt hself.valid.2 hended.after.2.2)
  obtain ⟨w, hw2, hwn⟩ := value_of_node? hn
  obtain ⟨s3, r3, -⟩ := setRhs_run hw2 (by rw [hwn]; rfl) hv hne
  have hd := setRhs_defines hn rfl hv hne
  rw [r3] at hd
  have hn3 : s3.node? own = some (.var x (some f.whole)) := by
    rw [hd.node?, if_pos rfl, hn]
    rfl
  have hlt' : lo < own := Nat.lt_of_le_of_lt hlo hlt
  refine ⟨own, s3, ?_, (l1.trans e2.later).defines hd hlt,
    hbegun.keeps_defined e2 hd hlt', ⟨x, _, hn3⟩, fun g hg hu hk => ?_⟩
  · rw [hrun, endHelper, run_bind_of_ok r2, run_bind_of_ok r3]
    rfl
  · have hlater : Later own s₁ g := (e2.later.trans
      (Later.of_defines hd (Nat.le_refl own))).trans (hg.anti (Nat.le_of_lt hlt'))
    exact ⟨hg.usedOf hlt' (valid_of_node? hn3), ct, f, i, hct, hended.self,
      hbegun.mapper hended e2 hv hd hlt' hg (hbegun.later g hlater hu hk)⟩

/-- **The helper for a type**: the one that is remembered, or a new one. -/
theorem keptHelper_makes (he : Plain elem) (hlo : lo ≤ s.size) (hct : way.result elem = some ct)
    (name text : String) (type input output : Ty) :
    Makes (keptHelper (way.key elem) do
        let id ← mapListHelper name type input output ⟨"h", elem, way.source⟩ head
          (.list ct [])
        point "helper" text
        return id) s (Helps lo way s elem) := by
  refine .read run_get ?_
  split
  · rename_i own hlookup
    have hmem := mem_of_lookup hlookup
    exact .pure ⟨.refl ho, ho.helpers _ hmem, fun g _ _ hk => hk elem own he hlookup⟩
  · refine .bind (P := Helps lo way s elem) ?_ fun own s₁ _ h => ?_
    · refine .bind (mapListHelper_makes hhead hw ho hlo hct ..) fun own s₁ _ h => ?_
      exact .after FirstOrder.point_lands fun _ s₂ e2 _ => .pure (h.extend e2)
    · refine .bind (.modify rfl rfl rfl) fun _ s₂ _ heq => ?_
      exact .pure (heq ▸ h.remember he)

end

end CoreLowering.Encoding
