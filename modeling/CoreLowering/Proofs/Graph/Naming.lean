import CoreLowering.Proofs.Graph.Names

/-!
# Fresh names

The counters are kept for each base by itself, while a name is taken for all
of them: the second `x` wants to be called `x_1`, which a base may have been
called before.  The search goes on until a name is free.

Main statement: `fresh_names_valid_unique`, for every history of calls, with
nothing known about the normal form of texts.
-/

namespace CoreLowering

/-- Letters, digits, underscores and quotes only, at least one, and neither a
digit nor a quote at the start. -/
structure Name.IsValid (x : String) : Prop where
  ne_empty : x ≠ ""
  allowed : ∀ c ∈ x.toList, isAllowed c = true
  start : ∀ c ∈ x.toList.head?, isInner c = false

namespace Graph

variable {normalize : String → String} {s s' : State}

theorem numbered_valid (base : String) (n : Nat) :
    Name.IsValid (numbered (Name.cleanAfter normalize base) n) := by
  obtain ⟨c, rest, hcs, hc⟩ := Name.cleanChars_eq_cons (normalize base).toList
  have hbase : (Name.cleanAfter normalize base).toList = c :: rest := by
    rw [Name.cleanAfter, String.toList_ofList, hcs]
  -- Whether a number follows or not, the name starts as its base does.
  obtain ⟨number, hname, hnumber⟩ : ∃ number,
      (numbered (Name.cleanAfter normalize base) n).toList = (c :: rest) ++ number ∧
        ∀ d ∈ number, Name.isAllowed d = true := by
    rw [numbered]
    split
    · exact ⟨[], by rw [hbase, List.append_nil], by simp⟩
    · refine ⟨'_' :: Nat.toDigits 10 n, ?_, List.forall_mem_cons.2 ⟨rfl, fun d hd => ?_⟩⟩
      · simp [String.toList_append, hbase, ← Nat.toList_repr]
      · simp [Name.isAllowed, Nat.isDigit_of_mem_toDigits (by decide) (by decide) hd]
  refine ⟨fun h => ?_, fun d hd => ?_, by rw [hname]; simpa using hc⟩
  · simp [h] at hname
  · rw [hname, List.mem_append] at hd
    exact hd.elim (fun hd => Name.isAllowed_of_mem_cleanChars d (hcs ▸ hd)) (hnumber d)

/-- All names that the search passes over are taken. -/
theorem firstFree_passes (taken : List String) (base : String) (fuel n : Nat) :
    n ≤ firstFree taken base fuel n ∧
      ∀ k, n ≤ k → k < firstFree taken base fuel n → numbered base k ∈ taken := by
  induction fuel generalizing n with
  | zero => exact ⟨Nat.le_refl n, fun k hk hlt => absurd hlt (Nat.not_lt.2 hk)⟩
  | succ fuel ih =>
    rw [firstFree]
    split
    · next hn =>
      obtain ⟨hle, hpass⟩ := ih (n + 1)
      refine ⟨by omega, fun k hk hlt => ?_⟩
      rcases Nat.eq_or_lt_of_le hk with rfl | hk
      · simpa using hn
      · exact hpass k hk hlt
    · exact ⟨Nat.le_refl n, fun k hk hlt => absurd hlt (Nat.not_lt.2 hk)⟩

/-- The names that calls on one lowering gave, the last one first.  Other work
between the calls leaves the names that are taken and the counters alone. -/
inductive Gave (normalize : String → String) : State → List String → Prop
  | start (target : Version) (decls : Decls) (debug : Bool) :
    Gave normalize (.new target decls debug) []
  | call {s s' : State} {names : List String} {name : String} (base : String)
    (h : Gave normalize s names)
    (hcall : (freshNameAfter normalize base).run s = (.ok name, s')) :
    Gave normalize s' (name :: names)
  | other {s s' : State} {names : List String} (h : Gave normalize s names)
    (htaken : s'.taken = s.taken) (hcounters : s'.counters = s.counters) :
    Gave normalize s' names

/-- A call gives the first name from the counter on that is not taken. -/
theorem freshNameAfter_spec (normalize : String → String) (base : String) (s : State) :
    ∃ n s', let clean := Name.cleanAfter normalize base
      let counter := (s.counters.lookup clean).getD 0
      (freshNameAfter normalize base).run s = (.ok (numbered clean n), s') ∧
        s'.taken = numbered clean n :: s.taken ∧ numbered clean n ∉ s.taken ∧ counter ≤ n ∧
        ∀ k, counter ≤ k → k < n → numbered clean k ∈ s.taken :=
  ⟨_, _, rfl, rfl, firstFree_not_mem _ _ _, firstFree_passes _ _ _ _⟩

theorem Gave.taken {names : List String} (h : Gave normalize s names) :
    fixName ∈ s.taken ∧ names ⊆ s.taken ∧ names.Nodup ∧ fixName ∉ names ∧
      ∀ x ∈ names, Name.IsValid x := by
  induction h with
  | start => simp [State.new]
  | @call s s' names name base h hcall ih =>
    obtain ⟨hfix, hsub, hnodup, hne, hvalid⟩ := ih
    obtain ⟨n, s₁, hrun, htaken, hnew, -⟩ := freshNameAfter_spec normalize base s
    cases hcall.symm.trans hrun
    rw [htaken]
    exact ⟨List.mem_cons_of_mem _ hfix, List.cons_subset_cons _ hsub,
      List.nodup_cons.2 ⟨fun h => hnew (hsub h), hnodup⟩,
      List.not_mem_cons_of_ne_of_not_mem (fun heq => hnew (heq ▸ hfix)) hne,
      List.forall_mem_cons.2 ⟨numbered_valid base n, hvalid⟩⟩
  | other h htaken _ ih => rwa [htaken]

/-- **Fresh names are valid and unique.**  After any calls with any bases, the
names that were given are valid, different from each other and from the name
of the fixed-point combinator.  The next call ends: it passes over taken names
only, and the name it stops at is free. -/
theorem fresh_names_valid_unique {normalize : String → String} {s : State} {names : List String}
    (h : Gave normalize s names) :
    names.Nodup ∧ fixName ∉ names ∧ (∀ x ∈ names, Name.IsValid x) ∧
      ∀ base, ∃ n s', let clean := Name.cleanAfter normalize base
        let counter := (s.counters.lookup clean).getD 0
        (freshNameAfter normalize base).run s = (.ok (numbered clean n), s') ∧ counter ≤ n ∧
          (∀ k, counter ≤ k → k < n → numbered clean k ∈ s.taken) ∧
          numbered clean n ∉ s.taken := by
  obtain ⟨-, -, hnodup, hne, hvalid⟩ := h.taken
  refine ⟨hnodup, hne, hvalid, fun base => ?_⟩
  obtain ⟨n, s', hrun, -, hnew, hle, hpass⟩ := freshNameAfter_spec normalize base s
  exact ⟨n, s', hrun, hle, hpass, hnew⟩

/-- A base that looks like a numbered name takes it away from another base. -/
theorem fresh_names_valid_unique_numbered :
    ∃ s, Gave compose s ["__fix_1", "x_2", "x", "x_1"] ∧ ["__fix_1", "x_2", "x", "x_1"].Nodup := by
  have h : Gave compose _ ["__fix_1", "x_2", "x", "x_1"] :=
    .call "__fix" (.call "x" (.call "x" (.call "x_1" (.start .v3 ⟨[]⟩ false) rfl) rfl) rfl) rfl
  exact ⟨_, h, (fresh_names_valid_unique h).1⟩

end Graph

end CoreLowering
