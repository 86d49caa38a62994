import CoreLowering.Proofs.Typed.Unification

/-!
# Joins of types without variables

On types without variables a comparison binds nothing, and its answer is a
relation that is read off the two types: `suits`.  A join is then one of the two
types, or the declared type of two cases, and both suit it.
-/

namespace CoreLowering.Ty

variable {up : Bool} {a b : Ty} {s : Subst} {xs ys : List Ty} {t : Ty}

/-! ## Comparisons without variables -/

theorem unifyIn_con {c d : TyCon} (ha : s.resolve a.unwrap = con c xs)
    (hb : s.resolve b.unwrap = con d ys) (fuel : Nat) :
    unifyIn (fuel + 1) up a b s =
      if c.isOpen || d.isOpen then .ok s
      else if c = d || up && upcasts c d then
        if xs.length = ys.length then unifyAll fuel up (con c xs) (con d ys) xs ys s
        else if xs.isEmpty || ys.isEmpty then .ok s
        else .error (.arity (con c xs) (con d ys))
      else .error (.isNot (con c xs) (con d ys)) := by
  rw [unifyIn, ha, hb]
  split
  case h_11 h => exact (h c xs d ys rfl rfl).elim
  all_goals simp_all [TyCon.isOpen]

mutual

/-- Whether a type without variables can be used as another one. -/
def suits (up : Bool) : Ty → Ty → Bool
  | con c xs, b =>
    match b.unwrap with
    | con d ys =>
      c.isOpen || d.isOpen ||
        (c = d || up && upcasts c d) && (xs.isEmpty || ys.isEmpty || suitsAll up xs ys)
    | _ => false
  | all _ body, b => body.suits up b
  | _, _ => false

/-- Whether types can be used as others, place by place. -/
def suitsAll (up : Bool) : List Ty → List Ty → Bool
  | [], [] => true
  | x :: xs, y :: ys => x.suits up y && suitsAll up xs ys
  | _, _ => false

end

theorem suits_unwrap : ∀ a b : Ty, a.unwrap.suits up b = a.suits up b
  | all _ body, b => by rw [unwrap, suits, suits_unwrap body b]
  | con _ _, _ | var _, _ | missing, _ => rfl

theorem suits_con {c d : TyCon} (ha : a.unwrap = con c xs) (hb : b.unwrap = con d ys) :
    a.suits up b = (c.isOpen || d.isOpen ||
      (c = d || up && upcasts c d) && (xs.isEmpty || ys.isEmpty || suitsAll up xs ys)) := by
  rw [← suits_unwrap a b, ha, suits, hb]

theorem unifyAll_ground {fuel : Nat} {t u : Ty} :
    ∀ {xs ys : List Ty}, xs.length = ys.length →
      (∀ x ∈ xs, ∀ y ∈ ys, ∃ e, unifyIn fuel up x y s = if x.suits up y then .ok s else .error e) →
      ∃ e, unifyAll fuel up t u xs ys s = if suitsAll up xs ys then .ok s else .error e
  | [], [], _, _ => by
    rw [unifyAll, suitsAll]
    · exact ⟨.missing, rfl⟩
    · simp
  | x :: xs, y :: ys, hlen, h => by
    obtain ⟨e, hxy⟩ := h x (by simp) y (by simp)
    rw [suitsAll]
    cases hs : x.suits up y with
    | true =>
      rw [unifyAll_cons_of_ok xs ys (hxy.trans (if_pos hs))]
      exact unifyAll_ground (Nat.succ.inj hlen) fun x hx y hy => h x (.tail _ hx) y (.tail _ hy)
    | false =>
      rw [unifyAll_cons_of_error xs ys (hxy.trans (if_neg (by simp [hs])))]
      exact ⟨_, rfl⟩

theorem suitsAll_length : ∀ {xs ys : List Ty}, suitsAll up xs ys = true → xs.length = ys.length
  | [], [], _ => rfl
  | x :: xs, y :: ys, h => by
    rw [suitsAll, Bool.and_eq_true] at h
    rw [List.length_cons, List.length_cons, suitsAll_length h.2]
  | [], _ :: _, h | _ :: _, [], h => by simp [suitsAll] at h

theorem Ground.head : ∀ {t : Ty}, t.Ground → (∃ c xs, t.unwrap = con c xs) ∨ t.unwrap = missing
  | con c xs, _ => .inl ⟨c, xs, rfl⟩
  | all _ body, h => by
    rw [Ty.unwrap]
    exact Ground.head fun v hv => h v (by simp [parts, hv])
  | var v, h => (h.ne_var v rfl).elim
  | missing, _ => .inr rfl

/-- On types without variables a comparison tells whether one suits the other,
and binds nothing. -/
theorem unifyIn_ground (fuel : Nat) : ∀ {a b : Ty}, a.Ground → b.Ground → a.size ≤ fuel →
    ∃ e, unifyIn fuel up a b s = if a.suits up b then .ok s else .error e := by
  induction fuel with
  | zero =>
    intro a b _ _ h
    have := a.size_pos
    omega
  | succ fuel ih =>
    intro a b ha hb hsize
    obtain ⟨c, xs, hx⟩ | hx := ha.head
    · have hra := (ha.resolve (s := s)).trans hx
      obtain ⟨d, ys, hy⟩ | hy := hb.head
      · have hrb := (hb.resolve (s := s)).trans hy
        have hargs (hn : xs.length = ys.length) := unifyAll_ground (t := con c xs) (u := con d ys)
          hn fun x hx y hy => ih (ha.args hra hx).1 (hb.args hrb hy).1
            (Nat.le_of_lt_succ (Nat.lt_of_lt_of_le (ha.args hra hx).2 hsize))
        rw [unifyIn_con hra hrb, suits_con hx hy]
        by_cases ho : (c.isOpen || d.isOpen) = true
        · exact ⟨.missing, by rw [if_pos ho, ho, Bool.true_or, if_pos rfl]⟩
        rw [if_neg ho, eq_false_of_ne_true ho, Bool.false_or]
        by_cases hc : (decide (c = d) || up && upcasts c d) = true
        · rw [if_pos hc, hc, Bool.true_and]
          by_cases hn : xs.length = ys.length
          · obtain ⟨e, he⟩ := hargs hn
            refine ⟨e, ?_⟩
            rw [if_pos hn, he]
            cases xs <;> cases ys <;> simp_all [suitsAll]
          · have hnone : ¬suitsAll up xs ys = true := fun h => hn (suitsAll_length h)
            refine ⟨.arity (con c xs) (con d ys), ?_⟩
            cases xs <;> cases ys <;> simp_all
        · rw [if_neg hc, eq_false_of_ne_true hc]
          exact ⟨_, rfl⟩
      · rw [unifyIn, hra, hb.resolve, hy, ← suits_unwrap, hx, suits, hy]
        exact ⟨_, rfl⟩
    · rw [unifyIn, ha.resolve, hx, ← suits_unwrap, hx]
      exact ⟨_, rfl⟩

theorem unify_ground (up : Bool) (ha : a.Ground) (hb : b.Ground) :
    ∃ e, a.unify b up = if a.suits up b then .ok .empty else .error e :=
  unifyIn_ground _ ha hb (Nat.le_of_lt (size_lt_unifyFuel a b))

theorem unify_eq_ok (ha : a.Ground) (hb : b.Ground) (h : a.suits up b = true) :
    a.unify b up = .ok .empty := by
  obtain ⟨e, he⟩ := unify_ground up ha hb
  rw [he, if_pos h]

mutual

/-- What suits without upcasts suits with them. -/
theorem suits_mono : ∀ {a b : Ty}, a.suits false b = true → a.suits true b = true
  | con c xs, b, h => by
    rw [suits] at h ⊢
    split at h
    · simp only [Bool.or_eq_true, Bool.and_eq_true] at h ⊢
      rcases h with h | ⟨h, hargs⟩
      · exact .inl h
      · simp only [Bool.false_eq_true, false_and, or_false] at h
        exact .inr ⟨.inl h, hargs.imp_right suitsAll_mono⟩
    · exact h
  | all _ body, b, h => suits_mono (a := body) h

theorem suitsAll_mono :
    ∀ {xs ys : List Ty}, suitsAll false xs ys = true → suitsAll true xs ys = true
  | [], [], h => h
  | x :: xs, y :: ys, h => by
    rw [suitsAll, Bool.and_eq_true] at h ⊢
    exact ⟨suits_mono h.1, suitsAll_mono h.2⟩

end

/-- A type no part of which is left out. -/
def Whole (t : Ty) : Prop :=
  missing ∉ t.parts

theorem Whole.head (hw : t.Whole) (hg : t.Ground) : ∃ c xs, t.unwrap = con c xs := by
  refine hg.head.resolve_right fun h => hw (parts_unwrap_subset t ?_)
  rw [h]
  exact mem_parts _

mutual

/-- A type suits itself. -/
theorem suits_self (up : Bool) : ∀ {t : Ty}, t.Ground → t.Whole →
    ∀ {b : Ty}, b.unwrap = t.unwrap → t.suits up b = true
  | con c xs, hg, hw, b, hb => by
    have hargs := suitsAll_self up xs (fun x hx v hv => hg v (parts_arg_subset rfl hx hv))
      (fun x hx hm => hw (parts_arg_subset rfl hx hm))
    rw [suits_con rfl hb, hargs]
    simp
  | all ps body, hg, hw, b, hb =>
    suits_self up (t := body) (fun v hv => hg v (parts_body_subset ps body hv))
      (fun hm => hw (parts_body_subset ps body hm)) hb
  | var v, hg, _, _, _ => (hg.ne_var v rfl).elim
  | missing, _, hw, _, _ => (hw (mem_parts _)).elim

theorem suitsAll_self (up : Bool) : ∀ xs : List Ty, (∀ x ∈ xs, x.Ground) →
    (∀ x ∈ xs, x.Whole) → suitsAll up xs xs = true
  | [], _, _ => rfl
  | x :: xs, hg, hw => by
    rw [List.forall_mem_cons] at hg hw
    rw [suitsAll, suits_self up hg.1 hw.1 rfl, suitsAll_self up xs hg.2 hw.2, Bool.and_self]

end

/-! ## Joins -/

/-- The declared type of two of its cases, with the arguments of the first. -/
def commonSum (a b : Ty) : Option Ty :=
  match a.unwrap, b.unwrap with
  | con (.caseClass d _) xs, con (.caseClass e _) ys =>
    if d = e then some (sum d (if xs.isEmpty then ys else xs)) else none
  | _, _ => none

theorem commonSum_eq_some (h : commonSum a b = some t) :
    ∃ d c e xs ys, a.unwrap = con (.caseClass d c) xs ∧ b.unwrap = con (.caseClass d e) ys ∧
      t = sum d (if xs.isEmpty then ys else xs) := by
  rw [commonSum] at h
  split at h
  · split at h
    case isTrue hd =>
      subst hd
      exact ⟨_, _, _, _, _, ‹_›, ‹_›, (Option.some.inj h).symm⟩
    case isFalse => cases h
  · cases h

theorem Ground.sum {d c e : String} (ha : a.Ground) (hb : b.Ground)
    (hx : a.unwrap = con (.caseClass d c) xs) (hy : b.unwrap = con (.caseClass d e) ys) :
    (sum d (if xs.isEmpty then ys else xs)).Ground := by
  have hxs := ha.unwrap
  have hys := hb.unwrap
  rw [hx, Ground, parts] at hxs
  rw [hy, Ground, parts] at hys
  rw [Ground, Ty.sum, parts]
  split <;> simp_all

/-- A join of types without variables, by what suits what. -/
theorem join_ground (ha : a.Ground) (hb : b.Ground) :
    a.join b =
      if a.isNothing then some b
      else if b.isNothing then some a
      else if b.suits true a then some a
      else if a.suits true b then some b
      else (commonSum a b).filter (b.suits true) := by
  obtain ⟨e, hba⟩ := unify_ground false hb ha
  obtain ⟨f, hba'⟩ := unify_ground true hb ha
  obtain ⟨k, hab⟩ := unify_ground true ha hb
  rw [join, hba, hba', hab]
  split
  · rfl
  split
  · rfl
  cases hs : b.suits true a with
  | true => cases b.suits false a <;> simp [apply_empty]
  | false =>
    have hs' : b.suits false a = false := eq_false_of_ne_true fun h => by
      rw [suits_mono h] at hs
      cases hs
    cases a.suits true b with
    | true => simp [hs', apply_empty]
    | false =>
      simp only [hs', Bool.false_eq_true, if_false]
      split
      case h_1 d c xs e c' ys hx hy =>
        rw [commonSum, hx, hy]
        by_cases hd : d = e
        · subst hd
          obtain ⟨f, hf⟩ := unify_ground true (hy ▸ hb.unwrap) (ha.sum hb hx hy)
          simp only [if_true, hf, Option.filter_some, ← suits_unwrap b, hy]
          cases (con (.caseClass d c') ys).suits true (sum d (if xs.isEmpty then ys else xs)) <;>
            simp [apply_empty]
        · simp [hd]
      case h_2 h =>
        rw [commonSum]
        split
        case h_1 hx hy => exact (h _ _ _ _ _ _ hx hy).elim
        case h_2 => rfl

theorem join_self (hg : a.Ground) (hw : a.Whole) : a.join a = some a := by
  rw [join_ground hg hg, suits_self true hg hw rfl]
  simp

/-- The ways to the join of two types. -/
inductive Joined (a b : Ty) : Ty → Prop
  | left (h : b.suits true a = true) : Joined a b a
  | right (h : a.suits true b = true) : Joined a b b
  | cases {d c e : String} {xs ys : List Ty} (hx : a.unwrap = con (.caseClass d c) xs)
      (hy : b.unwrap = con (.caseClass d e) ys) (hn : ¬b.suits true a = true)
      (h : b.suits true (sum d (if xs.isEmpty then ys else xs)) = true) :
      Joined a b (sum d (if xs.isEmpty then ys else xs))

theorem suits_of_isNothing (h : a.isNothing = true) (hg : b.Ground) (hw : b.Whole) :
    a.suits up b = true := by
  obtain ⟨c, xs, hb⟩ := hw.head hg
  unfold isNothing at h
  split at h
  · rw [suits_con rfl hb]
    rfl
  · cases h

variable {j : Ty}

theorem joined_of_join (ha : a.Ground) (hb : b.Ground) (ha' : a.Whole) (hb' : b.Whole)
    (h : a.join b = some j) : Joined a b j := by
  rw [join_ground ha hb] at h
  split at h
  case isTrue hn =>
    cases h
    exact .right (suits_of_isNothing hn hb hb')
  split at h
  case isTrue hn =>
    cases h
    exact .left (suits_of_isNothing hn ha ha')
  split at h
  · cases h
    exact .left ‹_›
  split at h
  · cases h
    exact .right ‹_›
  obtain ⟨hw, h⟩ := Option.filter_eq_some_iff.1 h
  obtain ⟨d, c, e, xs, ys, hx, hy, rfl⟩ := commonSum_eq_some hw
  exact .cases hx hy ‹_› h

theorem Joined.ground (h : Joined a b j) (ha : a.Ground) (hb : b.Ground) : j.Ground := by
  cases h with
  | left => exact ha
  | right => exact hb
  | cases hx hy => exact ha.sum hb hx hy

/-- Both types suit their join. -/
theorem Joined.suits (h : Joined a b j) (ha : a.Ground) (hb : b.Ground) (ha' : a.Whole)
    (hb' : b.Whole) : a.suits true j = true ∧ b.suits true j = true := by
  cases h with
  | left h => exact ⟨suits_self true ha ha' rfl, h⟩
  | right h => exact ⟨h, suits_self true hb hb' rfl⟩
  | @cases d c e xs ys hx hy hn h =>
    have hxs := suitsAll_self true xs (fun x hx' v hv => ha v (parts_arg_subset hx hx' hv))
      fun x hx' hm => ha' (parts_arg_subset hx hx' hm)
    refine ⟨?_, h⟩
    rw [suits_con hx rfl]
    cases xs <;> simp [upcasts, hxs]

end CoreLowering.Ty
