import CoreLowering.Proofs.Graph.Requests
import CoreLowering.Proofs.Encoding.Direction

/-!
# What a lowering remembers

A lowering keeps two tables: of the views of variables, by the keys of their
layouts, and of helpers, by texts that name the types of the items.  Neither
mixes up two requests.  A layout is known by its key, what stands in the first
table is a view of its variable in the layout of its key, and helpers that are
kept under different keys are different ones.

Main statement: `tables_unambiguous`.
-/

namespace CoreLowering

namespace Rep

variable {r r' : Rep} {xs ys : List Char}

/-! ## Keys of layouts -/

/-- The part of a key before the brackets. -/
def mark : Rep → List Char
  | closure _ _ => ['1', '2']
  | delayed _ => ['1', '2', 'd']
  | r => r.key.toList

/-- The keys of the parts of a layout, in brackets. -/
def inner : Rep → List Char
  | closure i o => '(' :: (i.key.toList ++ ')' :: '\x7b' :: (o.key.toList ++ ['\x7d']))
  | delayed o => '\x7b' :: (o.key.toList ++ ['\x7d'])
  | _ => []

theorem toList_key (r : Rep) : r.key.toList = r.mark ++ r.inner := by
  cases r <;> simp [key, mark, inner]

/-- A layout with nothing in its parts. -/
def hollow : Rep → Rep
  | closure _ _ => closure invalid invalid
  | delayed _ => delayed invalid
  | r => r

def hollows : List Rep :=
  [invalid, constant, packed, sumConstr, sumList, packedList, sumPairList, assocMap, prodConstr,
    prodList, prodPair, prodArray, closure invalid invalid, delayed invalid, typeVar false,
    typeVar true, error]

theorem hollow_mem (r : Rep) : r.hollow ∈ hollows := by
  cases r <;> simp [hollow, hollows]

theorem mark_hollow (r : Rep) : r.hollow.mark = r.mark := by
  cases r <;> rfl

theorem marks_distinct : ∀ r ∈ hollows, ∀ r' ∈ hollows, r.mark = r'.mark → r = r' := by decide

theorem marks_alphanum : ∀ r ∈ hollows, r.mark.all Char.isAlphanum = true := by decide

/-- Before a bracket, the mark is what a key begins with. -/
theorem takeWhile_key (h : xs.takeWhile Char.isAlphanum = []) :
    (r.key.toList ++ xs).takeWhile Char.isAlphanum = r.mark := by
  have hmark := List.all_eq_true.1 (marks_alphanum _ (hollow_mem r))
  rw [mark_hollow] at hmark
  rw [toList_key, List.append_assoc, List.takeWhile_append_of_pos hmark]
  cases r <;> simp [inner, h]

theorem hollow_and_inner (h : r.key.toList ++ xs = r'.key.toList ++ ys)
    (hx : xs.takeWhile Char.isAlphanum = []) (hy : ys.takeWhile Char.isAlphanum = []) :
    r.hollow = r'.hollow ∧ r.inner ++ xs = r'.inner ++ ys := by
  have hmark : r.mark = r'.mark := by rw [← takeWhile_key hx, h, takeWhile_key hy]
  refine ⟨marks_distinct _ (hollow_mem r) _ (hollow_mem r') (by rwa [mark_hollow, mark_hollow]), ?_⟩
  rwa [toList_key, toList_key, hmark, List.append_assoc, List.append_assoc,
    List.append_cancel_left_eq] at h

/-- Keys that bring about the same text are keys of the same layout. -/
theorem key_append_inj (h : r.key.toList ++ xs = r'.key.toList ++ ys)
    (hx : xs.takeWhile Char.isAlphanum = []) (hy : ys.takeWhile Char.isAlphanum = []) :
    r = r' ∧ xs = ys := by
  induction r generalizing r' xs ys with
  | closure i o ihi iho =>
    obtain ⟨hhollow, hinner⟩ := hollow_and_inner h hx hy
    cases r' <;> cases hhollow
    simp only [inner, List.cons_append, List.append_assoc, List.cons.injEq, true_and] at hinner
    obtain ⟨rfl, houtput⟩ := ihi hinner rfl rfl
    obtain ⟨rfl, hrest⟩ := iho (List.cons.inj (List.cons.inj houtput).2).2 rfl rfl
    exact ⟨rfl, (List.cons.inj hrest).2⟩
  | delayed o ih =>
    obtain ⟨hhollow, hinner⟩ := hollow_and_inner h hx hy
    cases r' <;> cases hhollow
    simp only [inner, List.cons_append, List.append_assoc, List.cons.injEq, true_and] at hinner
    obtain ⟨rfl, hrest⟩ := ih hinner rfl rfl
    exact ⟨rfl, (List.cons.inj hrest).2⟩
  | _ =>
    obtain ⟨hhollow, hinner⟩ := hollow_and_inner h hx hy
    cases r' <;> cases hhollow
    exact ⟨rfl, hinner⟩

/-- **A layout is known by its key.** -/
theorem key_inj (h : r.key = r'.key) : r = r' :=
  (key_append_inj (congrArg (·.toList ++ []) h) rfl rfl).1

end Rep

open Encoding (Plain Direction)

namespace Encoding.Direction

variable {way way' : Direction} {t t' : Ty}

/-- A helper is known by its key, if the items are of a plain type. -/
theorem eq_of_key (ht : Plain t) (ht' : Plain t') (h : way.key t = way'.key t') :
    way = way' ∧ t = t' := by
  have hway : way = way' := by
    have hchars := congrArg String.toList h
    cases way <;> cases way' <;> simp [key] at hchars ⊢
  subst hway
  exact ⟨rfl, key_inj ht ht' h⟩

end Encoding.Direction

namespace Graph

/-- A helper is kept under its key. -/
theorem keptHelper_mem {key : String} {make : LowerM ValueId} {s s' : State} {id : ValueId}
    (h : (keptHelper key make).run s = (.ok id, s')) : (key, id) ∈ s'.helpers := by
  rw [keptHelper, run_bind_of_ok run_get] at h
  split at h
  · next hid =>
    cases h
    obtain ⟨l1, l2, heq, -⟩ := List.lookup_eq_some_iff.1 hid
    simp [heq]
  · obtain ⟨x, s1, -, h⟩ := run_bind_ok.1 h
    cases h
    exact List.mem_cons_self

/-- **The tables mix up no two requests.**  What is remembered of a variable
under a key is a view of it in the layout that has this key.  Helpers for lists
are kept under the keys of their items, and items of plain types that share a
helper are of one type. -/
theorem tables_unambiguous :
    (∀ target decls debug requests,
      let s := (State.new target decls debug).serveAll requests
      (∀ root key id, ((root, key), id) ∈ s.views →
        ∃ r v, s.value? root = some r ∧ s.value? id = some v ∧ key = v.rep.key ∧
          v.type = r.type ∧ ((∃ c, v.node = .const c) ∨ ∃ x rhs, v.node = .aliased x root rhs)) ∧
      ∀ (way way' : Direction) t t' id, Plain t → Plain t' → (way.key t, id) ∈ s.helpers →
        (way'.key t', id) ∈ s.helpers → way = way' ∧ t = t') ∧
    (∀ convert t ct id s s',
      ((packHelper convert t).run s = (.ok id, s') → (Direction.pack.key t, id) ∈ s'.helpers) ∧
      ((unpackHelper convert t ct).run s = (.ok id, s') →
        (Direction.unpack.key t, id) ∈ s'.helpers)) ∧
    ∀ r r' : Rep, r.key = r'.key ↔ r = r' := by
  refine ⟨fun target decls debug requests => ?_,
    fun _ _ _ _ _ _ => ⟨keptHelper_mem, keptHelper_mem⟩,
    fun r r' => ⟨Rep.key_inj, congrArg Rep.key⟩⟩
  intro s
  have hi : Inv s := (Inv.new target decls debug).serveAll requests
  refine ⟨fun root key id hm => ?_, fun way way' t t' id ht ht' hm hm' => ?_⟩
  · obtain ⟨⟨-, v, r, hv, hr, -, htype⟩, w, hw, hview, hkey⟩ := hi.views root key id hm
    cases hv.symm.trans hw
    refine ⟨r, v, hr, hv, hkey.symm, htype, ?_⟩
    cases hnode : v.node with
    | const c => exact .inl ⟨c, rfl⟩
    | aliased x origin rhs =>
      rw [hnode, Node.isViewOf, decide_eq_true_eq] at hview
      exact .inr ⟨x, rhs, by rw [hview]⟩
    | _ => simp [hnode, Node.isViewOf] at hview
  · exact Direction.eq_of_key ht ht' ((hi.helpers _ id hm').2 _ hm)

/-- The identity on builtin lists with items of a type. -/
def listIdentity (elem : Ty) : Expr :=
  let list := Ty.builtinList elem
  .node (.arrow list list) default (.lam "x" list (.node list default (.var "x")))

/-- Asks for this function and then for it, the value `id`, to pack its
result. -/
def packing (elem : Ty) (id : ValueId) : List Request :=
  [.build (listIdentity elem), .convert id (.closure .constant .packed)]

/-- Lists of lists are packed by two helpers, each of which has a view of the
items. -/
theorem tables_unambiguous_nested :
    let s := (State.new .v3 ⟨[]⟩ false).serveAll (packing (.builtinList .integer) 2)
    (∃ r v, s.value? 8 = some r ∧ s.value? 28 = some v ∧ v.rep = .packed ∧ v.type = r.type) ∧
      (Direction.pack.key .integer, 12) ∈ s.helpers ∧
      ∀ way t, Plain t → (Direction.key way t, 12) ∈ s.helpers → way = .pack ∧ t = .integer := by
  intro s
  have hview : ((8, "2"), 28) ∈ s.views := by decide +kernel
  have hhelper : (Direction.pack.key .integer, 12) ∈ s.helpers := by decide +kernel
  obtain ⟨htables, -, hkeys⟩ := tables_unambiguous
  obtain ⟨hviews, hhelpers⟩ := htables .v3 ⟨[]⟩ false (packing (.builtinList .integer) 2)
  refine ⟨?_, hhelper, fun way t ht hm => ?_⟩
  · obtain ⟨r, v, hr, hv, hkey, htype, -⟩ := hviews 8 "2" 28 hview
    exact ⟨r, v, hr, hv, (hkeys v.rep .packed).1 hkey.symm, htype⟩
  · exact hhelpers way .pack t .integer 12 ht (.primitive rfl) hm hhelper

/-- A type with arguments to spare has the text of another one and shares its
helper, where both functions are built and both come to pack their results. -/
theorem surplus_arguments_share_helper :
    let odd := Ty.con .integer [.integer]
    let first := (build (listIdentity .integer)).run (State.new .v3 ⟨[]⟩ false)
    let second := (convert 2 (.closure .constant .packed)).run first.2
    let third := (build (listIdentity odd)).run second.2
    let fourth := (convert 23 (.closure .constant .packed)).run third.2
    (packable .integer = true ∧ packable odd = true ∧ Ty.integer.same odd = false) ∧
      (first.1.toOption = some 2 ∧ second.1.isOk = true) ∧
        (third.1.toOption = some 23 ∧ fourth.1.isOk = true) ∧
        Direction.pack.key odd = Direction.pack.key .integer ∧
        fourth.2.helpers = [(Direction.pack.key .integer, 5)] := by
  decide +kernel

end Graph

end CoreLowering
