import CoreLowering.Proofs.Machine.Evaluation

/-!
# The budget cuts runs short

A machine with a budget makes the moves of a machine without one until it is
to enter one term more than the budget allows.  There it stops, with the
messages written so far.  A machine cannot go on for ever without entering
terms: each value that it gives back leaves less to be done with values.  So
a budget ends every run that would not end by itself.

Main statements: `runFor_within` and `runFor_cut` for runs that end by
themselves, `runFor_exhausts` for all others, `budget_cuts_short`.
-/

namespace CoreLowering.Machine

variable {m : Settings} {r : Run} {fuel : Nat}

/-- The number of terms that have been entered after the next move. -/
def State.entered (s : State) : Nat :=
  match s.control with
  | .enter _ _ => s.steps + 1
  | .back _ => s.steps

theorem State.steps_le_entered (s : State) : s.steps ≤ s.entered := by
  unfold State.entered
  split <;> omega

theorem State.entered_le (s : State) : s.entered ≤ s.steps + 1 := by
  unfold State.entered
  split <;> omega

/-- How often a frame can be given a value before a term is entered for it. -/
def Frame.pending : Frame → Nat
  | .branch args => args.length + 1
  | _ => 1

/-- The same for frames one after the other. -/
def Frame.pendingAll : List Frame → Nat
  | [] => 0
  | frame :: frames => frame.pending + pendingAll frames

theorem Frame.pendingAll_append (frames rest : List Frame) :
    pendingAll (frames ++ rest) = pendingAll frames + pendingAll rest := by
  induction frames with
  | nil => rw [List.nil_append, pendingAll, Nat.zero_add]
  | cons frame frames ih => rw [List.cons_append, pendingAll, pendingAll, ih, Nat.add_assoc]

/-- How many moves can be made before a term is entered. -/
def State.pending (s : State) : Nat :=
  match s.control with
  | .enter _ _ => 0
  | .back _ => Frame.pendingAll s.stack + 1

/-! ## One move -/

/-- Where a frame gives a value back at once, less is left to be done with
values than before. -/
theorem resume_pending {w : Version} {frame : Frame} {v u : Value} {frames : List Frame}
    {logs : List String} (h : resume w frame v = .ok (.back u, frames, logs)) :
    Frame.pendingAll frames < frame.pending := by
  cases frame with
  | argument arg env => cases h
  | function f =>
    simp only [resume] at h
    rcases hr : applyValue f v with why | ⟨control, written⟩ <;> rw [hr] at h <;> cases h
    simp [Frame.pending, Frame.pendingAll]
  | force =>
    simp only [resume] at h
    cases hr : forceValue v <;> rw [hr] at h <;> cases h
    simp [Frame.pending, Frame.pendingAll]
  | field tag done rest env =>
    cases rest with
    | nil =>
      cases h
      simp [Frame.pending, Frame.pendingAll]
    | cons t rest => cases h
  | scrutinee branches env =>
    simp only [resume] at h
    cases hr : selectBranch w v branches <;> rw [hr] at h <;> cases h
  | branch args =>
    cases args with
    | nil =>
      cases h
      simp [Frame.pending, Frame.pendingAll]
    | cons a rest =>
      simp only [resume] at h
      rcases hr : applyValue v a with why | ⟨control, written⟩ <;> rw [hr] at h <;> cases h
      simp [Frame.pending, Frame.pendingAll]

/-- A move that goes on: messages are only added, and where no term is
entered, less is left to be done without entering one. -/
theorem step_inl {s s' : State} (h : step m s = .inl s') :
    s'.steps = s.entered ∧ s.logs <:+ s'.logs ∧
      (s.entered = s.steps → s'.pending < s.pending) := by
  obtain ⟨control, stack, steps, logs⟩ := s
  cases control with
  | enter t env =>
    have hmore : steps + 1 ≠ steps := by omega
    simp only [step] at h
    split at h
    · cases h
    · cases hr : enter m.version t env with
      | ok r =>
        rw [hr] at h
        cases h
        exact ⟨rfl, List.suffix_refl logs, fun hs => absurd hs hmore⟩
      | error why =>
        rw [hr] at h
        cases h
  | back v =>
    cases stack with
    | nil => cases h
    | cons frame rest =>
      simp only [step] at h
      cases hr : resume m.version frame v with
      | error why =>
        rw [hr] at h
        cases h
      | ok r =>
        obtain ⟨control, frames, written⟩ := r
        rw [hr] at h
        cases h
        refine ⟨rfl, List.suffix_append written logs, fun _ => ?_⟩
        cases control with
        | enter t env => simp [State.pending]
        | back u =>
          have hless := resume_pending hr
          simp only [State.pending, Frame.pendingAll_append, Frame.pendingAll]
          omega

/-- The move that ends a run writes no message, and ends it for the budget
only if there is one. -/
theorem step_inr {s : State} (h : step m s = .inr r) :
    r.steps = s.entered ∧ r.logs = s.logs.reverse ∧
      (r.result = .error .budget → 0 < m.budget) := by
  obtain ⟨control, stack, steps, logs⟩ := s
  cases control with
  | enter t env =>
    simp only [step] at h
    split at h
    case isTrue hbudget =>
      cases h
      exact ⟨rfl, rfl, fun _ => hbudget.1⟩
    case isFalse =>
      cases hr : enter m.version t env <;> rw [hr] at h <;> cases h
      exact ⟨rfl, rfl, by simp⟩
  | back v =>
    cases stack with
    | nil =>
      cases h
      exact ⟨rfl, rfl, by simp⟩
    | cons frame rest =>
      simp only [step] at h
      cases hr : resume m.version frame v <;> rw [hr] at h <;> cases h
      exact ⟨rfl, rfl, by simp⟩

section Budgets

variable {w : Version} {free : Int} {budget : Nat} {s : State}

/-- A move that the budget allows is the move without a budget. -/
theorem step_within (hfree : free ≤ 0) (h : s.entered ≤ budget) :
    step ⟨w, budget⟩ s = step ⟨w, free⟩ s := by
  obtain ⟨control, stack, steps, logs⟩ := s
  cases control with
  | enter t env =>
    have hsteps : steps + 1 ≤ budget := h
    have hin : ¬(0 < (budget : Int) ∧ (budget : Int) < ((steps + 1 : Nat) : Int)) := by omega
    have hout : ¬(0 < free ∧ free < ((steps + 1 : Nat) : Int)) := by omega
    simp only [step, if_neg hin, if_neg hout]
  | back v => rfl

/-- The first move that the budget does not allow ends the run. -/
theorem step_beyond (hbudget : 0 < budget) (hs : s.steps ≤ budget) (h : budget < s.entered) :
    step ⟨w, budget⟩ s = .inr ⟨.error .budget, budget + 1, s.logs.reverse⟩ := by
  obtain ⟨control, stack, steps, logs⟩ := s
  cases control with
  | enter t env =>
    have hsteps : steps = budget := by
      have hlt : budget < steps + 1 := h
      have hle : steps ≤ budget := hs
      omega
    subst hsteps
    have hout : 0 < (steps : Int) ∧ (steps : Int) < ((steps + 1 : Nat) : Int) := by omega
    simp only [step, if_pos hout]
  | back v =>
    have hlt : budget < steps := h
    have hle : steps ≤ budget := hs
    omega

/-! ## Runs that end by themselves -/

/-- Terms are entered and messages written; neither is ever taken back. -/
theorem runFor_grows (h : runFor m fuel s = some r) :
    s.entered ≤ r.steps ∧ s.logs.reverse <+: r.logs := by
  induction fuel, s, h using runFor_induction with
  | last hs =>
    obtain ⟨hsteps, hlogs, -⟩ := step_inr hs
    exact ⟨Nat.le_of_eq hsteps.symm, hlogs ▸ List.prefix_refl r.logs⟩
  | @next _ s s' hs _ ih =>
    obtain ⟨hsteps, hlogs, -⟩ := step_inl hs
    have hle := s'.steps_le_entered
    exact ⟨by omega, (List.reverse_prefix.2 hlogs).trans ih.2⟩

/-- A run without a budget ends by itself. -/
theorem runFor_free (hfree : free ≤ 0) (h : runFor ⟨w, free⟩ fuel s = some r) :
    r.result ≠ .error .budget := by
  induction fuel, s, h using runFor_induction with
  | last hs =>
    intro hbudget
    have hpos : 0 < free := (step_inr hs).2.2 hbudget
    omega
  | next _ _ ih => exact ih

/-- A budget that allows all the terms of a run does not change it. -/
theorem runFor_within (hfree : free ≤ 0) (h : runFor ⟨w, free⟩ fuel s = some r)
    (hr : r.steps ≤ budget) : runFor ⟨w, budget⟩ fuel s = some r := by
  induction fuel, s, h using runFor_induction with
  | last hs =>
    have hentered : _ ≤ budget := (step_inr hs).1 ▸ hr
    exact runFor_last ((step_within hfree hentered).trans hs)
  | next hs h ih =>
    have hentered := Nat.le_trans (runFor_grows ((runFor_next hs).trans h)).1 hr
    rw [runFor_next ((step_within hfree hentered).trans hs)]
    exact ih

/-- A budget that does not allow all the terms of a run ends it earlier. -/
theorem runFor_cut (hfree : free ≤ 0) (hbudget : 0 < budget) (h : runFor ⟨w, free⟩ fuel s = some r)
    (hs : s.steps ≤ budget) (hr : budget < r.steps) :
    ∃ logs, logs <+: r.logs ∧
      runFor ⟨w, budget⟩ fuel s = some ⟨.error .budget, budget + 1, logs⟩ := by
  induction fuel, s, h using runFor_induction with
  | @last _ s hstep =>
    obtain ⟨hsteps, hlogs, -⟩ := step_inr hstep
    exact ⟨s.logs.reverse, hlogs ▸ List.prefix_refl r.logs,
      runFor_last (step_beyond hbudget hs (hsteps ▸ hr))⟩
  | @next _ s _ hstep h ih =>
    by_cases hentered : s.entered ≤ budget
    · have hsteps := (step_inl hstep).1
      rw [runFor_next ((step_within hfree hentered).trans hstep)]
      exact ih (by omega)
    · exact ⟨_, (runFor_grows ((runFor_next hstep).trans h)).2,
        runFor_last (step_beyond hbudget hs (Nat.lt_of_not_le hentered))⟩

/-! ## Runs that do not end -/

/-- **A budget ends every run that does not end by itself.** -/
theorem runFor_exhausts {s : State} (hfree : free ≤ 0) (hbudget : 0 < budget)
    (h : ∀ fuel, runFor ⟨w, free⟩ fuel s = none) (hs : s.steps ≤ budget) :
    ∃ fuel logs, runFor ⟨w, budget⟩ fuel s = some ⟨.error .budget, budget + 1, logs⟩ := by
  by_cases hentered : s.entered ≤ budget
  · cases hstep : step ⟨w, free⟩ s with
    | inl s' =>
      have hnext : ∀ fuel, runFor ⟨w, free⟩ fuel s' = none := by
        intro fuel
        rw [← runFor_next hstep]
        exact h (fuel + 1)
      obtain ⟨hsteps, -, hpending⟩ := step_inl hstep
      -- Either one term more has been entered, or less is left to be done before the next.
      have hmeasure : s'.steps = s.steps + 1 ∨ s'.steps = s.steps ∧ s'.pending < s.pending := by
        have hle := s.entered_le
        have hge := s.steps_le_entered
        by_cases heq : s.entered = s.steps
        · exact .inr ⟨by omega, hpending heq⟩
        · exact .inl (by omega)
      obtain ⟨fuel, logs, hrun⟩ :=
        runFor_exhausts hfree hbudget hnext (by omega)
      have hnow := (step_within hfree hentered).trans hstep
      exact ⟨fuel + 1, logs, (runFor_next hnow).trans hrun⟩
    | inr r => cases (runFor_last hstep).symm.trans (h 1)
  · exact ⟨1, _, runFor_last (step_beyond hbudget hs (Nat.lt_of_not_le hentered))⟩
termination_by (budget - s.steps, s.pending)
decreasing_by
  rcases hmeasure with hmore | ⟨hsame, hless⟩
  · refine Prod.Lex.left _ _ ?_
    omega
  · rw [hsame]
    exact Prod.Lex.right _ hless

end Budgets

/-- **The budget only cuts runs short.**  Where the run without a budget ends,
it ends by itself; every budget that allows its terms gives the same run, and
every smaller one ends it at the first term too many, with a part of its
messages.  Where the run without a budget does not end, every budget ends it
at the first term too many. -/
theorem budget_cuts_short (w : Version) (t : Term) {free : Int} (hfree : free ≤ 0) :
    (∀ fuel r, runFor ⟨w, free⟩ fuel (State.start t) = some r →
      r.result ≠ .error .budget ∧
      (∀ budget : Nat, r.steps ≤ budget →
        runFor ⟨w, budget⟩ fuel (State.start t) = some r) ∧
      ∀ budget : Nat, 0 < budget → budget < r.steps →
        ∃ logs, logs <+: r.logs ∧ runFor ⟨w, budget⟩ fuel (State.start t) =
          some ⟨.error .budget, budget + 1, logs⟩) ∧
    ((∀ fuel, runFor ⟨w, free⟩ fuel (State.start t) = none) →
      ∀ budget : Nat, 0 < budget → ∃ fuel logs,
        runFor ⟨w, budget⟩ fuel (State.start t) = some ⟨.error .budget, budget + 1, logs⟩) := by
  refine ⟨fun fuel r h => ⟨runFor_free hfree h, ?_, ?_⟩, ?_⟩
  · intro budget hbudget
    exact runFor_within hfree h hbudget
  · intro budget hpos hbudget
    exact runFor_cut hfree hpos h (Nat.zero_le budget) hbudget
  · intro h budget hpos
    exact runFor_exhausts hfree hpos h (Nat.zero_le budget)

/-- A function applied to itself for ever. -/
def selfApplied : Term :=
  .apply (.lam "x" (.apply (.var "x") (.var "x"))) (.lam "x" (.apply (.var "x") (.var "x")))

/-- Once around: the function is looked up twice and applied to itself again. -/
private theorem runFor_around (steps : Nat) : ∀ fuel,
    runFor ⟨.v1, 0⟩ fuel ⟨.enter (.apply (.var "x") (.var "x"))
      [("x", .lam "x" (.apply (.var "x") (.var "x")) [])], [], steps, []⟩ = none
  | 0 | 1 | 2 | 3 | 4 => rfl
  | fuel + 5 => runFor_around (steps + 3) fuel

theorem runFor_selfApplied : ∀ fuel, runFor ⟨.v1, 0⟩ fuel (State.start selfApplied) = none
  | 0 | 1 | 2 | 3 | 4 => rfl
  | fuel + 5 => runFor_around 3 fuel

/-- A term that writes two messages, one after the other. -/
def twoMessages : Term :=
  .apply
    (.lam "x" (.applyAll (.force (.builtin .trace)) [.con (.string "b"), .con .unit]))
    (.applyAll (.force (.builtin .trace)) [.con (.string "a"), .con .unit])

/-- The two messages take fourteen terms; after nine of them one is written.
The other term has no end but the budget. -/
theorem budget_cuts_short_messages :
    runFor ⟨.v1, 0⟩ 40 (State.start twoMessages) = some ⟨.ok (.con .unit), 14, ["a", "b"]⟩ ∧
    runFor ⟨.v1, 14⟩ 40 (State.start twoMessages) = some ⟨.ok (.con .unit), 14, ["a", "b"]⟩ ∧
    (∃ logs, logs <+: ["a", "b"] ∧ runFor ⟨.v1, 9⟩ 40 (State.start twoMessages) =
      some ⟨.error .budget, 10, logs⟩) ∧
    ∃ fuel logs, runFor ⟨.v1, 100⟩ fuel (State.start selfApplied) =
      some ⟨.error .budget, 101, logs⟩ := by
  have hrun : runFor ⟨.v1, 0⟩ 40 (State.start twoMessages) =
      some ⟨.ok (.con .unit), 14, ["a", "b"]⟩ := rfl
  obtain ⟨-, hsame, hcut⟩ := (budget_cuts_short .v1 twoMessages (Int.le_refl 0)).1 40 _ hrun
  have hnever := (budget_cuts_short .v1 selfApplied (Int.le_refl 0)).2 runFor_selfApplied
  exact ⟨hrun, hsame 14 (by decide), hcut 9 (by decide) (by decide), hnever 100 (by decide)⟩

end CoreLowering.Machine
