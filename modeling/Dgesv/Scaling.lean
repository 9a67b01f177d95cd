import Dgesv.NoPivoting

namespace Dgesv

open Matrix

/-!
# Unknowns in other units

Multiplying the columns of the matrix by factors `d` is a change of the units in which the
unknowns are measured.  It changes neither the row order of partial pivoting nor, but for the
units, the solution.  The tolerance of the two solvers, however, is absolute: each pivot is
multiplied by its factor before it is compared, so the same system may be accepted in one set of
units and rejected in another.

* `test_mul_diagonal` — one test, in both sets of units;
* `myDgesv_scaled` — the two calls.
-/

variable {n nrhs : ℕ}

/-- The test of step `k`, before and after. -/
theorem test_mul_diagonal {d : Fin n → ℚ} (hd : ∀ j, d j ≠ 0) (x y : ℚ) (k : Fin n) :
    tol * |x * diagProd (diagonal d) k| ≤ |y * diagProd (diagonal d) (k + 1)|
      ↔ tol * |x| ≤ |y| * |d k| := by
  have hpos : 0 < |diagProd (diagonal d) k| := abs_pos.mpr (diagProd_diagonal_ne hd k)
  have hleft : tol * |x * diagProd (diagonal d) k| = tol * |x| * |diagProd (diagonal d) k| := by
    rw [abs_mul, mul_assoc]
  have hright : |y * diagProd (diagonal d) (k + 1)|
      = |y| * |d k| * |diagProd (diagonal d) k| := by
    rw [diagProd_succ, diagonal_apply_eq, abs_mul, abs_mul, mul_comm |diagProd _ _|, mul_assoc]
  rw [hleft, hright]
  exact mul_le_mul_iff_left₀ hpos

theorem Pivoted.accepted_mul_diagonal (A : Matrix (Fin n) (Fin n) ℚ) {d : Fin n → ℚ}
    (hd : ∀ j, d j ≠ 0) : Accepted (A * diagonal d)
      ↔ ∀ k : Fin n, tol * |pivotMinor A k| ≤ |pivotMinor A (k + 1)| * |d k| := by
  simp only [Accepted, pivotMinor_mul_diagonal A hd]
  constructor
  · intro h k
    exact (test_mul_diagonal hd _ _ k).mp (h k k.isLt)
  · intro h k hk
    exact (test_mul_diagonal hd _ _ ⟨k, hk⟩).mpr (h ⟨k, hk⟩)

theorem Unpivoted.accepted_mul_diagonal (A : Matrix (Fin n) (Fin n) ℚ) {d : Fin n → ℚ}
    (hd : ∀ j, d j ≠ 0) : Accepted (A * diagonal d)
      ↔ ∀ k : Fin n, tol * |lead A 1 k| ≤ |lead A 1 (k + 1)| * |d k| := by
  simp only [Accepted, lead_mul_diagonal]
  constructor
  · intro h k
    exact (test_mul_diagonal hd _ _ k).mp (h k k.isLt)
  · intro h k hk
    exact (test_mul_diagonal hd _ _ ⟨k, hk⟩).mpr (h ⟨k, hk⟩)

/-- The solution, in both sets of units. -/
theorem diagonal_mul_solution {A : Matrix (Fin n) (Fin n) ℚ} {X X' B : Matrix (Fin n) (Fin nrhs) ℚ}
    {d : Fin n → ℚ} (hdet : A.det ≠ 0) (hX : A * X = B) (hX' : A * diagonal d * X' = B) (i : Fin n)
    (j : Fin nrhs) : d i * X' i j = X i j := by
  rw [Matrix.mul_assoc] at hX'
  have hsame := Pivoted.solution_unique hdet hX hX'
  rw [← hsame, diagonal_mul]

/-- **Change of units.**  In exact arithmetic, the system whose columns are multiplied by
    factors `d`, none of them `0`, is accepted iff every pivot of the given system, that is
    every ratio of consecutive minors, passes its test after it is multiplied by its factor; and
    where both systems are accepted, the unknowns are those of the given one, divided by `d`. -/
theorem myDgesv_scaled (hn : 1 ≤ n) (hnrhs : 1 ≤ nrhs) {d : Fin n → ℚ} (hd : ∀ j, d j ≠ 0)
    {a a' : Mem ℚ} (b : Mem ℚ) (ha : a'.toMatrix n n = a.toMatrix n n * diagonal d) :
    (((Pivoted.myDgesv n nrhs a' b).1 = 0 ↔ ∀ k : Fin n,
        tol * |pivotMinor (a.toMatrix n n) k| ≤ |pivotMinor (a.toMatrix n n) (k + 1)| * |d k|) ∧
      ((Pivoted.myDgesv n nrhs a b).1 = 0 → (Pivoted.myDgesv n nrhs a' b).1 = 0 → ∀ i j,
        d i * (Pivoted.myDgesv n nrhs a' b).2.B n nrhs i j
          = (Pivoted.myDgesv n nrhs a b).2.B n nrhs i j)) ∧
    ((Unpivoted.myDgesv n nrhs a' b).1 = 0 ↔ ∀ k : Fin n,
        tol * |lead (a.toMatrix n n) 1 k| ≤ |lead (a.toMatrix n n) 1 (k + 1)| * |d k|) ∧
      ((Unpivoted.myDgesv n nrhs a b).1 = 0 → (Unpivoted.myDgesv n nrhs a' b).1 = 0 → ∀ i j,
        d i * (Unpivoted.myDgesv n nrhs a' b).2.B n nrhs i j
          = (Unpivoted.myDgesv n nrhs a b).2.B n nrhs i j) := by
  refine ⟨⟨?_, ?_⟩, ?_, ?_⟩
  · rw [Pivoted.myDgesv_eq_zero_iff hn hnrhs, ha, Pivoted.accepted_mul_diagonal _ hd]
  · intro h0 h0'
    obtain ⟨hdet, hsol⟩ := (Pivoted.myDgesv_outcome hn hnrhs a b).solution h0
    obtain ⟨-, hsol'⟩ := (Pivoted.myDgesv_outcome hn hnrhs a' b).solution h0'
    rw [ha] at hsol'
    exact diagonal_mul_solution hdet hsol hsol'
  · rw [(Unpivoted.myDgesv_outcome hn nrhs a' b).code_eq_zero_iff hnrhs, ha,
      Unpivoted.accepted_mul_diagonal _ hd]
  · intro h0 h0'
    obtain ⟨hdet, hsol⟩ := (Unpivoted.myDgesv_outcome hn nrhs a b).solution hnrhs h0
    obtain ⟨-, hsol'⟩ := (Unpivoted.myDgesv_outcome hn nrhs a' b).solution hnrhs h0'
    rw [ha] at hsol'
    exact diagonal_mul_solution hdet hsol hsol'

/-- The unit matrix of order two, with the second unknown in units that make it a factor
    `10⁻¹¹`: singular, as far as the solvers can tell. -/
theorem myDgesv_scaled_two :
    ¬ (Pivoted.myDgesv 2 1 (.ofList [1, 0, 0, 1 / 10 ^ 11]) (.ofList [1, 1] : Mem ℚ)).1 = 0 := by
  have hd : ∀ j : Fin 2, ![(1 : ℚ), 1 / 10 ^ 11] j ≠ 0 := by decide +kernel
  have ha : Mem.toMatrix 2 2 (.ofList [1, 0, 0, 1 / 10 ^ 11] : Mem ℚ)
      = Mem.toMatrix 2 2 (.ofList [1, 0, 0, 1]) * diagonal ![(1 : ℚ), 1 / 10 ^ 11] := by
    decide +kernel
  rw [(myDgesv_scaled (by decide) (by decide) hd (.ofList [1, 1]) ha).1.1]
  decide +kernel

end Dgesv
