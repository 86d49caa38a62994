import CoreLowering.Proofs.Encoding.Evaluating
import CoreLowering.Proofs.Encoding.Growing

/-!
# Functions over tidy values

A function of one parameter, whose body is a tidy value.  What the body uses
without depending on the parameter may be bound around the function; it is
asked to be something that can be used anywhere.

Main statements: `Abstraction.emitWith_works`, the function is emitted;
`Abstraction.link_hasValue`, applied to a constant it gives what its body
denotes.
-/

namespace CoreLowering.Encoding

open CoreLowering.Graph
open Machine (Env HasValue Applies)

variable {w : Version} {g : State} {id x body k : Nat} {env : Env} {t : Marked} {c c' : Constant}
  {xs : List ValueId} {u : Nat}

/-- A function with a tidy body, the last value of its graph. -/
structure Abstraction (g : State) (id x body : Nat) : Prop where
  fn : ∃ barrier, g.node? id = some (.lambda (some x) body barrier)
  param : Blank g x
  tidy : Tidy g [x] body
  outside : ∀ u : Nat, u ∈ (g.usedOf body).ids → u ≠ x → x ∉ (g.usedOf u).ids → Free g u
  last : id = g.size

namespace Abstraction

/-- What is bound around the function. -/
theorem free_of_placed (h : Abstraction g id x body) (hp : Placed g (Certain g) id xs)
    (hu : u ∈ xs) : Free g u := by
  obtain ⟨barrier, hfn⟩ := h.fn
  obtain ⟨n, set, hn, rfl, hset⟩ := hp
  rw [hfn] at hn
  cases hn
  rcases hset u (mem_topoOrder.1 hu) with hs | hh
  · exact absurd hs (not_sharedAt_single rfl)
  · have hused := mem_usedBy.1 hh.used
    simp only [Node.subs, List.mem_singleton, exists_eq_left, Node.scopeOf, Option.toList_some,
      forall_eq] at hused
    exact h.outside u hused.1 hused.2.1 hused.2.2

/-- The parameter belongs to no helper. -/
theorem not_local (hi : Inv g) (h : Abstraction g id x body) {f : Loop} {ys : List ValueId}
    (hf : Helper g f ys) : x ∉ ys ++ [f.param] := by
  obtain ⟨barrier, hfn⟩ := h.fn
  have hx : x ∈ (Node.lambda (some x) body barrier).binds := by simp [Node.binds]
  intro hmem
  rcases List.mem_append.1 hmem with hmem | hmem
  · obtain ⟨bs, owned, hbody⟩ := hf.body_of_mem hmem
    have := hi.owner _ _ x _ _ hfn hbody hx (by simpa [Node.binds] using hmem)
    rw [this, hbody] at hfn
    cases hfn
  · have heq := hi.owner _ _ x _ _ hfn hf.loop.fn hx (by simpa [Node.binds] using hmem)
    -- a value comes after the function of a helper, but none after this one
    have hlt := (hi.subs _ _ hf.loop.whole f.fn (by simp [Node.subs])).2
    have hle := (valid_of_node? hf.loop.whole).2
    have := h.last
    omega

section

variable (hi : Inv g) (hu : UsedInside g)

include hi hu

/-- **The function is emitted.** -/
theorem emitWith_works (h : Abstraction g id x body) : Emitted g (emitWith dominating id) := by
  obtain ⟨barrier, hfn⟩ := h.fn
  obtain ⟨y, hy⟩ := h.param
  have hlt := (hi.subs _ _ hfn body (by simp [Node.subs])).2
  have hlast := h.last
  obtain ⟨fuel, hfuel⟩ : ∃ fuel, (g.size + 1) * (g.size + 1) = fuel + 1 :=
    ⟨_, Nat.succ_pred_eq_of_pos (Nat.mul_pos (Nat.succ_pos _) (Nat.succ_pos _)) |>.symm⟩
  have hsquare : (g.size + 1) * (g.size + 1) = g.size * (g.size + 1) + (g.size + 1) :=
    Nat.succ_mul ..
  have hunbound : ∀ inside, unbound g inside * (g.size + 1) ≤ g.size * (g.size + 1) :=
    fun inside => Nat.mul_le_mul_right _ (unbound_le inside)
  intro s hs hj
  have hrun : (emitWith dominating id).run s =
    (emitIn dominating ((s.size + 1) * (s.size + 1)) [] id).run s := rfl
  rw [hrun, hs.size, hfuel]
  refine RipeIn.emitted hi (.node rfl (fun xs hxs u hmem _ => ?_) ?_) hfn s hs hj
  · have hfree := h.free_of_placed hxs hmem
    obtain ⟨n, r, hn, -, hr⟩ := hfree.identifiable
    refine ⟨n, r, hn, hr, fun inside _ hnot => ?_⟩
    have := hunbound inside
    rcases hfree.definition hn hr with hsettled | ⟨f, ys, hf, rfl, rfl⟩
    · obtain ⟨m, hm⟩ := (hsettled.tidy : Tidy g [] r).exists_node
      have hle := (valid_of_node? hm).2
      have hpos := (valid_of_node? hm).1
      have : g.size * 2 ≤ g.size * (g.size + 1) := Nat.mul_le_mul_left _ (by omega)
      exact hsettled.emitted hi (by omega)
    · exact hf.emitted hi hu hnot (by omega) fun fuel' _ _ _ _ ht hΔ hfuel' =>
        ht.emitted hi hu hΔ hfuel'
  · intro xs binds inside _ _
    have := hunbound (x :: inside)
    exact ⟨valid_of_node? hy, h.tidy.emitted hi hu (by simp) (by omega)⟩

variable (hg : Named g) (hv : w = g.target) (hw : w ≠ .unknown)

include hg hv hw

/-- What is bound around the function can be evaluated before it. -/
theorem supplied (h : Abstraction g id x body) (hp : Placed g (Certain g) id xs) (hmem : u ∈ xs) :
    Supplied w g k [] [] u := by
  have hfree := h.free_of_placed hp hmem
  obtain ⟨n, r, hn, -, hr⟩ := hfree.identifiable
  refine ⟨.free hfree, ?_⟩
  rcases hfree.definition hn hr with hsettled | ⟨f, ys, hf, rfl, rfl⟩
  · exact .inl ⟨n, r, hn, hr, hsettled⟩
  · obtain ⟨z, hz⟩ := hf.loop.self
    refine .inr ⟨1, .fn f, .mk hz (.loop hf.loop rfl), fun j hj => ?_⟩
    exact sound hi hu hg hv hw k j (by omega)

/-- The function, and what it gives for a constant. -/
theorem hasValue (h : Abstraction g id x body) (he : Emits g (Placed g (Certain g)) [] id t)
    (hd : Denotes g k [(x, c)] body (.con c')) (hfix : Linked env t) :
    ∃ f, HasValue w env (t.erase g.nameOf) f ∧ ∃ n, Applies w n f (.con c) (.con c') := by
  obtain ⟨barrier, hfn⟩ := h.fn
  cases he with
  | bound hn hid =>
    rw [hfn] at hn
    cases hn
    cases hid
  | inlined hn hid =>
    rw [hfn] at hn
    cases hn
    cases hid
  | @node _ inside _ n xs binds t hn hid hxs hbinds hnode =>
    rw [hfn] at hn
    cases hn
    cases hnode with
    | @lambda _ _ _ _ t hbody =>
      have hready : Ready w g k [] [] [] env :=
        ⟨List.Subset.refl _, by simp, by simp, by simp, by simp⟩
      obtain ⟨env', hready', hlinked, hwrap⟩ := emitsBinds_hasValue hi hu hg hv hw hbinds
        (fun u hmem _ => h.supplied hi hu hg hv hw hxs hmem)
        (fun i _ j hj => sound hi hu hg hv hw i j hj) hready
        fun p hp => hfix.of_usesFix fun h => by
          rw [Marked.usesFix_wrap, List.any_eq_true.2 ⟨p, hp, h⟩, Bool.true_or]
      have hlinked : Linked env' t := hlinked t (hfix.of_usesFix fun h => by
        rw [Marked.usesFix_wrap, Marked.usesFix, h, Bool.or_true])
      -- the parameter is bound to the constant
      have hinside := hready'.enter hg [(x, c)] [x] (by simp) (by simpa using h.param)
        (by simpa using fun hmem => hready'.closed rfl x hmem h.param)
        (fun f ys hf p hp hlocal => by
          rw [List.mem_singleton.1 hp] at hlocal
          exact absurd hlocal (h.not_local hi hf)) (by simp) (by simp)
      obtain ⟨mv, ⟨j, hmv⟩, rfl⟩ := sound hi hu hg hv hw k k (Nat.le_refl k) h.tidy hbody hd
        (by simpa using hinside) (hlinked.bindAll hg (by simpa using h.param))
      exact ⟨_, hwrap _ _ ⟨0, .lam⟩, _, .lam hmv⟩

/-- **The linked term of the function, applied to a constant,** has the value
that the body denotes. -/
theorem link_hasValue (h : Abstraction g id x body) (he : Emits g (Placed g (Certain g)) [] id t)
    (hd : Denotes g k [(x, c)] body (.con c')) {fix : Bool} (hfix : t.usesFix = true → fix = true) :
    HasValue w [] (.apply (link (t.erase g.nameOf) fix) (.con c)) (.con c') := by
  cases fix with
  | false =>
    obtain ⟨f, ⟨i, hf⟩, n, hn⟩ := h.hasValue hi hu hg hv hw he hd
      fun h => absurd (hfix h) Bool.false_ne_true
    exact ⟨_, .apply hf .con hn⟩
  | true =>
    have hlinked : Linked [(fixName, fixValue)] t := fun _ => by simp [Env.find?]
    obtain ⟨f, ⟨i, hf⟩, n, hn⟩ := h.hasValue hi hu hg hv hw he hd hlinked
    exact ⟨_, .apply (.apply .lam .lam (.lam hf)) .con hn⟩

end

end Abstraction

end CoreLowering.Encoding
