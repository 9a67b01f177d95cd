import Dgesv.Solution

namespace Dgesv

open Loop Matrix Equiv

/-!
# What a failed call of `src/dgesv.c` leaves behind

The solver has two failure exits.  The one in the elimination returns at once, with `a` and
`b` still an equivalent system.  The other raises `error_flag` inside the back substitution
and goes on: the division that the test is there to prevent is executed, and its result is
stored over the right-hand side.  (`src/task1/dgesv.c` has the same test in the same place
and returns before the division.)

`FailsCleanly` is what one would expect of both exits, and `failsCleanly_iff` says for which
matrices it holds: for all but those whose last pivot is the first to fail its test.
-/

namespace Pivoted

variable {n nrhs : ℕ} {a b : Mem ℚ} {L : Matrix (Fin n) (Fin n) ℚ} {s : State ℚ}

/-- If the call on `(a, b)` fails, its final arrays describe the given system, and it has
    not divided by anything smaller than the tolerance. -/
def FailsCleanly (n nrhs : ℕ) (a b : Mem ℚ) : Prop :=
  (myDgesv n nrhs a b).1 = -1 →
    (∀ j : Fin nrhs,
      {x | (myDgesv n nrhs a b).2.A n *ᵥ x = fun i => (myDgesv n nrhs a b).2.B n nrhs i j}
        = {x | a.toMatrix n n *ᵥ x = fun i => b.toMatrix n nrhs i j}) ∧
    ∀ d, Event.div d ∈ (myDgesv n nrhs a b).2.trace → 1 / 10 ^ 10 ≤ |d|

/-- At a failed test of the elimination, everything is as it should be. -/
theorem TestInv.sameSolutions {k : Fin n} (h : TestInv n nrhs a b k L s) (j : Fin nrhs) :
    {x | s.A n *ᵥ x = fun i => s.B n nrhs i j}
      = {x | a.toMatrix n n *ᵥ x = fun i => b.toMatrix n nrhs i j} :=
  Set.ext fun x => h.lu.mulVec_eq_iff x j

/-- **The exact condition.**  A call fails cleanly iff it is not the last pivot that fails
    first. -/
theorem failsCleanly_iff (hn : 1 ≤ n) (hnrhs : 1 ≤ nrhs) (a b : Mem ℚ) :
    FailsCleanly n nrhs a b ↔ ¬ LastPivotFails (a.toMatrix n n) := by
  unfold FailsCleanly
  have hout := myDgesv_outcome hn hnrhs a b
  generalize myDgesv n nrhs a b = o at hout
  cases hout with
  | early k L s hk inv small =>
    refine iff_of_true (fun _ => ⟨inv.sameSolutions, inv.divs⟩) fun hlast => ?_
    exact absurd (inv.test_iff.mp (hlast.1 k hk)) (not_le.mpr small)
  | late k L s hk inv small =>
    -- The division by the last diagonal entry is executed for the first column already.
    refine iff_of_false (fun hclean => ?_) (not_not.mpr ⟨fun i hi => ?_, ?_⟩)
    · have hdiv : Event.div (s.A n k k) ∈ (backSubstitute n nrhs s).trace :=
        (backSubstitute_mem_trace n nrhs s _).mpr (Or.inr ⟨hnrhs, k, k.isLt, rfl⟩)
      exact absurd ((hclean rfl).2 _ hdiv) (not_le.mpr small)
    · exact inv.minors i (by omega)
    · have htest := mt inv.test_iff.mp (not_le.mpr small)
      rw [hk, show (k : ℕ) = n - 1 by omega] at htest
      exact not_le.mp htest
  | solved k L s hk inv large =>
    refine iff_of_true (fun h1 => absurd h1 (by simp)) fun hlast => ?_
    have htest := inv.test_iff.mpr large
    rw [hk, show (k : ℕ) = n - 1 by omega] at htest
    exact absurd htest (not_le.mpr hlast.2)

/-- Multiples of one row, the largest of them last. -/
def proportionalA : Mem ℚ := .ofList [1, 2, 3, 2, 4, 6, 4, 8, 12]

/-- The call brings the last row to the top and clears the first column; then there is nothing
    left, and it fails cleanly. -/
theorem failsCleanly_three :
    (myDgesv 3 1 proportionalA (.ofList [1, 2, 3])).1 = -1 ∧
      (myDgesv 3 1 proportionalA (.ofList [1, 2, 3])).2.swaps = 1 ∧
      Event.div 4 ∈ (myDgesv 3 1 proportionalA (.ofList [1, 2, 3])).2.trace ∧
      FailsCleanly 3 1 proportionalA (.ofList [1, 2, 3]) := by
  refine ⟨by decide +kernel, by decide +kernel, by decide +kernel, ?_⟩
  refine (failsCleanly_iff (by decide) (by decide) _ _).mpr fun h => ?_
  have h1 : ¬ tol * |pivotMinor (proportionalA.toMatrix 3 3) 1|
      ≤ |pivotMinor (proportionalA.toMatrix 3 3) 2| := by decide +kernel
  exact h1 (h.1 1 (by decide))

/-- On the system `10⁻¹¹ x = 1` the call returns `-1` after it has divided by `10⁻¹¹` and
    stored `10¹¹`, so that the arrays now say `10⁻¹¹ x = 10¹¹`. -/
theorem not_failsCleanly_one :
    (myDgesv 1 1 (.ofList [1 / 10 ^ 11]) (.ofList [1] : Mem ℚ)).1 = -1 ∧
      (myDgesv 1 1 (.ofList [1 / 10 ^ 11]) (.ofList [1] : Mem ℚ)).2.a 0 = 1 / 10 ^ 11 ∧
      (myDgesv 1 1 (.ofList [1 / 10 ^ 11]) (.ofList [1] : Mem ℚ)).2.b 0 = 10 ^ 11 ∧
      ¬ FailsCleanly 1 1 (.ofList [1 / 10 ^ 11]) (.ofList [1]) := by
  have h1 : (myDgesv 1 1 (.ofList [1 / 10 ^ 11]) (.ofList [1] : Mem ℚ)).1 = -1 := by
    decide +kernel
  refine ⟨h1, by decide +kernel, by decide +kernel, fun hclean => ?_⟩
  have hdiv : Event.div (1 / 10 ^ 11)
      ∈ (myDgesv 1 1 (.ofList [1 / 10 ^ 11]) (.ofList [1] : Mem ℚ)).2.trace := by decide +kernel
  have hsmall := (hclean h1).2 _ hdiv
  norm_num [abs_of_pos] at hsmall

end Pivoted

end Dgesv
