import Dgesv.NoPivoting

namespace Dgesv

open Loop Matrix

/-!
# The two solvers compared

The solver with pivoting and the one without choose different rows at every step, so their
runs have no states in common.  What they share is the given system: where both succeed,
`b` holds the same solution.  Success itself is not shared.  The tolerance is absolute, and
the product of all pivots is the determinant whatever their order, so the larger early
pivots of `src/dgesv.c` can leave a last one below the tolerance that
`src/task1/dgesv.c` never sees.
-/

variable {n nrhs : ℕ}

/-- Equal matrices of right-hand sides are equal in every cell of `b`. -/
theorem State.B_ext {s t : State ℚ} (h : s.B n nrhs = t.B n nrhs) (c : ℕ) (hc : c < n * nrhs) :
    s.b c = t.b c := by
  obtain ⟨i, hi, j, hj, rfl⟩ := exists_cell_of_lt hc
  exact congrFun (congrFun h ⟨i, hi⟩) ⟨j, hj⟩

/-- **Agreement.**  Where both solvers return `0` they leave the same values in `b`; their
    final `a` need not be the same. -/
theorem myDgesv_agree :
    (∀ (n nrhs : ℕ) (a b : Mem ℚ), 1 ≤ n → 1 ≤ nrhs →
      (Unpivoted.myDgesv n nrhs a b).1 = 0 → (Pivoted.myDgesv n nrhs a b).1 = 0 →
      ∀ c < n * nrhs,
        (Unpivoted.myDgesv n nrhs a b).2.b c = (Pivoted.myDgesv n nrhs a b).2.b c) ∧
    ∃ (n nrhs : ℕ) (a b : Mem ℚ), 1 ≤ n ∧ 1 ≤ nrhs ∧
      (Unpivoted.myDgesv n nrhs a b).1 = 0 ∧ (Pivoted.myDgesv n nrhs a b).1 = 0 ∧
      ∃ c < n * n, (Unpivoted.myDgesv n nrhs a b).2.a c ≠ (Pivoted.myDgesv n nrhs a b).2.a c := by
  constructor
  · intro n nrhs a b hn hnrhs hu hp
    obtain ⟨hdet, hsol⟩ := (Pivoted.myDgesv_outcome hn hnrhs a b).solution hp
    obtain ⟨-, hsol'⟩ := (Unpivoted.myDgesv_outcome hn nrhs a b).solution hnrhs hu
    exact State.B_ext (Pivoted.solution_unique hdet hsol hsol')
  · -- On the system of the test programs the pivoted solver starts with an exchange.
    exact ⟨3, 3, Pivoted.testA, Pivoted.testB, by decide, by decide, by decide +kernel,
      by decide +kernel, 0, by decide, by decide +kernel⟩

/-- Both solvers succeed on the system of the test programs, with the same result. -/
theorem myDgesv_agree_test :
    (Unpivoted.myDgesv 3 3 Pivoted.testA Pivoted.testB).1 = 0 ∧
      (Pivoted.myDgesv 3 3 Pivoted.testA Pivoted.testB).1 = 0 ∧
      ∀ c < 9, (Unpivoted.myDgesv 3 3 Pivoted.testA Pivoted.testB).2.b c
        = (Pivoted.myDgesv 3 3 Pivoted.testA Pivoted.testB).2.b c := by
  have hu : (Unpivoted.myDgesv 3 3 Pivoted.testA Pivoted.testB).1 = 0 := by decide +kernel
  have hp : (Pivoted.myDgesv 3 3 Pivoted.testA Pivoted.testB).1 = 0 := by decide +kernel
  exact ⟨hu, hp, myDgesv_agree.1 3 3 _ _ (by decide) (by decide) hu hp⟩

/-- Where partial pivoting keeps the rows in order, both solvers apply the same tests. -/
theorem accepted_of_pivotOrder {A : Matrix (Fin n) (Fin n) ℚ} (horder : ∀ k, pivotOrder A k = 1)
    (h : Unpivoted.Accepted A) : Pivoted.Accepted A := by
  intro k hk
  rw [pivotMinor, pivotMinor, horder, horder]
  exact h k hk

/-- **What success without pivoting says about the pivoted solver.**  The matrix is
    nonsingular, and `src/dgesv.c` accepts it iff it passes every test in its own row order,
    so in particular if that is the order given.  If it rejects the matrix, then a change of
    less than `10⁻¹⁰` in the entries of one column makes the matrix singular. -/
theorem myDgesv_of_unpivoted (hn : 1 ≤ n) (hnrhs : 1 ≤ nrhs) {a b : Mem ℚ}
    (hu : (Unpivoted.myDgesv n nrhs a b).1 = 0) :
    (a.toMatrix n n).det ≠ 0 ∧
    ((Pivoted.myDgesv n nrhs a b).1 = 0 ↔
      ∀ k < n, 1 / 10 ^ 10 * |pivotMinor (a.toMatrix n n) k|
        ≤ |pivotMinor (a.toMatrix n n) (k + 1)|) ∧
    ((∀ k, pivotOrder (a.toMatrix n n) k = 1) → (Pivoted.myDgesv n nrhs a b).1 = 0) ∧
    ((Pivoted.myDgesv n nrhs a b).1 = 0 ∨
      ∃ (c : Fin n) (E : Matrix (Fin n) (Fin n) ℚ), (∀ i j, j ≠ c → E i j = 0) ∧
        (∀ i j, |E i j| < 1 / 10 ^ 10) ∧ (a.toMatrix n n + E).det = 0) := by
  have hout := Pivoted.myDgesv_outcome hn hnrhs a b
  have hout' := Unpivoted.myDgesv_outcome hn nrhs a b
  refine ⟨(hout'.solution hnrhs hu).1, hout.code_eq_zero_iff, fun horder => ?_, ?_⟩
  · have hacc : Unpivoted.Accepted (a.toMatrix n n) := (hout'.code_eq_zero_iff hnrhs).mp hu
    exact hout.code_eq_zero_iff.mpr (accepted_of_pivotOrder horder hacc)
  · exact hout.code.imp_right hout.exists_near_singular

/-- Both solvers accept the matrix with rows `(0.1, 0)` and `(2, 3)`. -/
theorem myDgesv_of_unpivoted_two :
    (Unpivoted.myDgesv 2 1 (.ofList [1 / 10, 0, 2, 3]) (.ofList [1, 1] : Mem ℚ)).1 = 0 ∧
      (Pivoted.myDgesv 2 1 (.ofList [1 / 10, 0, 2, 3]) (.ofList [1, 1] : Mem ℚ)).1 = 0 := by
  have hu : (Unpivoted.myDgesv 2 1 (.ofList [1 / 10, 0, 2, 3]) (.ofList [1, 1] : Mem ℚ)).1 = 0 := by
    decide +kernel
  refine ⟨hu, (myDgesv_of_unpivoted (by decide) (by decide) hu).2.1.mpr ?_⟩
  intro k hk
  interval_cases k
  · decide +kernel
  · decide +kernel

/-- The matrix with rows `(10⁻⁵, 0)` and `(2, 10⁻⁵)` has pivots `10⁻⁵` and `10⁻⁵` as it
    stands, but `2` and `-10⁻¹⁰ / 2` after the exchange. -/
theorem not_myDgesv_of_unpivoted :
    (Unpivoted.myDgesv 2 1 (.ofList [1 / 10 ^ 5, 0, 2, 1 / 10 ^ 5])
        (.ofList [1, 1] : Mem ℚ)).1 = 0 ∧
      (Pivoted.myDgesv 2 1 (.ofList [1 / 10 ^ 5, 0, 2, 1 / 10 ^ 5])
        (.ofList [1, 1] : Mem ℚ)).1 = -1 := by
  constructor <;> decide +kernel

end Dgesv
