import Mathlib.Tactic.MkIffOfInductiveProp
import CoreLowering.Proofs.Graph.Placing

/-!
# Requests

A lowering can be asked for a constant, for the value of an expression, for a
helper, and for any value of its graph in another layout or as a term.  The
value need not be one that it has given: parts of values and values that have
been closed off are as good, and a number that no value has is refused.  A
request may fail anywhere, and the next one goes on from the state that it
left.

Main statement: `Inv.serveAll`, the invariant between requests.
-/

namespace CoreLowering.Graph

variable {s : State} {id : Nat}

/-! ## The invariant under emission -/

attribute [mk_iff] Arranged Lexical Inv

theorem value?_bare (i : Nat) : s.bare.value? i = (s.value? i).map Value.bare := by
  cases i with
  | zero => rfl
  | succ n => simp [State.value?, State.bare]

theorem node?_bare (i : Nat) : s.bare.node? i = s.node? i := by
  rw [State.node?, value?_bare, Option.map_map]
  rfl

theorem size_bare : s.bare.size = s.size := Array.size_map

theorem closed_bare {f F : Nat} : Closed s.bare f F ↔ Closed s f F := by
  simp only [Closed, node?_bare]

theorem stems_bare {root : Nat} : Stems s.bare id root ↔ Stems s id root := by
  simp only [Stems, value?_bare, Option.map_eq_some_iff]
  constructor
  · rintro ⟨h, _, _, ⟨v, hv, rfl⟩, ⟨r, hr, rfl⟩, h'⟩
    exact ⟨h, v, r, hv, hr, h'⟩
  · rintro ⟨h, v, r, hv, hr, h'⟩
    exact ⟨h, v.bare, r.bare, ⟨v, hv, rfl⟩, ⟨r, hr, rfl⟩, h'⟩

theorem shows_bare {root : Nat} {key : String} :
    Shows s.bare root key id ↔ Shows s root key id := by
  rw [Shows, stems_bare, value?_bare, Shows]
  cases s.value? id <;> simp [Value.bare]

theorem usedOf_bare (i : Nat) : s.bare.usedOf i = s.usedOf i := by
  rw [State.usedOf, State.usedOf, value?_bare]
  cases s.value? i <;> rfl

theorem inv_bare : Inv s.bare ↔ Inv s := by
  simp only [inv_iff, arranged_iff, lexical_iff, UsesThere, UsedInside, UsesOnly, Settled, Final,
    DefinedVar, shows_bare, stems_bare, closed_bare, Blank, Valid, node?_bare, size_bare,
    usedOf_bare]
  rfl

/-- **Emission leaves the graph and the names alone**, whether it fails or
not. -/
theorem emit_same (s : State) (id : ValueId) : SameGraph s ((emit id).run s).2 :=
  ((emitWith_gives (dominating_gives SureRules.all fun _ _ _ => trivial) id).reporting.run s .refl
    fun _ _ _ => ⟨fun _ _ _ _ => trivial, fun _ _ => trivial⟩).1

theorem Inv.emit (h : Inv s) (id : ValueId) : Inv ((emit id).run s).2 := by
  have hs : ((Graph.emit id).run s).2.bare = s.bare := emit_same s id
  exact inv_bare.1 (hs ▸ inv_bare.2 h)

/-! ## Requests -/

/-- Something that a lowering is asked for. -/
inductive Request where
  | const (c : Constant) (type : Ty) (rep : Rep)
  | build (e : Expr)
  | convert (id : ValueId) (rep : Rep)
  | helper (h : PairHelper)
  | emit (id : ValueId)

/-- The state that a request leaves, whether it succeeds or fails. -/
def State.serve (s : State) : Request → State
  | .const c type rep => ((constIn c type rep .none).run s).2
  | .build e => ((Graph.build e).run s).2
  | .convert id rep => ((Graph.convert id rep).run s).2
  | .helper h => ((pairHelper h).run s).2
  | .emit id => ((Graph.emit id).run s).2

def State.serveAll (s : State) (requests : List Request) : State := requests.foldl State.serve s

/-- A value is asked for in a layout, whether there is such a value or not. -/
theorem convert_kept {J : Nat → Prop} {rep : Rep} :
    Kept J (convert id rep) s fun id s' => Valid s' id := by
  refine reporting_sound (.look fun hi _ => ?_)
  by_cases hv : Valid s id
  · exact (toRep_kept (.of_valid hi hv)).mono fun _ _ _ h => h.valid
  · refine Kept.bind value_sound ?_
    rintro v _ _ ⟨-, hid⟩
    exact absurd (valid_of_value hid) hv

/-- A request makes changes, or it emits a value and leaves the graph alone. -/
theorem serve_changes (hi : Inv s) (q : Request) :
    Grows s (s.serve q) ∨ ∃ id, s.serve q = ((emit id).run s).2 := by
  cases q with
  | const c type rep => exact .inl ((constIn_reached (K := (· ≤ s.size))).run hi).1
  | build e => exact .inl ((build_kept e).run hi).1
  | convert id rep => exact .inl ((convert_kept (J := (· ≤ s.size))).run hi).1
  | helper h => exact .inl ((pairHelper_kept (K := (· ≤ s.size)) h).run hi).1
  | emit id => exact .inr ⟨id, rfl⟩

/-- **One request**, whether it succeeds or fails. -/
theorem Inv.serve (h : Inv s) (q : Request) : Inv (s.serve q) := by
  rcases serve_changes h q with ht | ⟨id, heq⟩
  · exact ht.inv h
  · exact heq ▸ h.emit id

/-- Requests, one after the other. -/
theorem Inv.serveAll (h : Inv s) (requests : List Request) : Inv (s.serveAll requests) := by
  induction requests generalizing s with
  | nil => exact h
  | cons q requests ih => exact ih (h.serve q)

end CoreLowering.Graph
