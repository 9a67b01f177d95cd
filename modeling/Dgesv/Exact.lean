import Dgesv.Lib.Minors
import Dgesv.Exchange
import Dgesv.Substitution

namespace Dgesv

open Loop Matrix

/-!
# The loops in exact arithmetic

Over `ℚ` the loops are matrix operations.  This file states each of them on the stored
matrices `s.A n` and `s.B n nrhs`:

* `Pivoted.searchPivot_isFirstMax` — the search finds the first largest entry;
* `Pivoted.pivot_A`, `Pivoted.pivot_B` — search and exchange permute the rows;
* `eliminateRows_lu` — the row loop is one elimination step of the factorisation;
* `Solves.mulVec_eq` — the recurrence of the back substitution is the triangular system;
* `LUPrefix.backSubstitute_solution` — a completed elimination is solved by it.
-/

/-- The coefficient matrix stored in a state. -/
def State.A (s : State ℚ) (n : ℕ) : Matrix (Fin n) (Fin n) ℚ := s.a.toMatrix n n

/-- The right-hand sides stored in a state. -/
def State.B (s : State ℚ) (n nrhs : ℕ) : Matrix (Fin n) (Fin nrhs) ℚ := s.b.toMatrix n nrhs

theorem State.A_apply (s : State ℚ) {n : ℕ} (i j : Fin n) : s.A n i j = s.a (i * n + j) := rfl

theorem State.B_apply (s : State ℚ) {n nrhs : ℕ} (i : Fin n) (j : Fin nrhs) :
    s.B n nrhs i j = s.b (i * nrhs + j) := rfl

/-- The tolerance test, in exact arithmetic. -/
theorem lt_fabs_tol (x : ℚ) : lt (fabs x) tol = true ↔ |x| < tol := lt_rat _ _

/-- `SmallDiag`, on the stored matrix. -/
theorem smallDiag_iff {n : ℕ} {s : State ℚ} :
    SmallDiag n s.a ↔ ∃ i : Fin n, |s.A n i i| < tol := by
  constructor
  · rintro ⟨i, hi, h⟩
    exact ⟨⟨i, hi⟩, (lt_fabs_tol _).mp h⟩
  · rintro ⟨i, h⟩
    exact ⟨i, i.isLt, (lt_fabs_tol _).mpr h⟩

/-- What holds of all diagonal positions before the last, and of the last, holds of all. -/
theorem forall_of_last {n : ℕ} {P : Fin n → Prop} {k : Fin n} (hk : k.val + 1 = n)
    (hlt : ∀ i : Fin n, i.val < k → P i) (hlast : P k) (i : Fin n) : P i := by
  have hik : i ≤ k := Fin.le_def.mpr (by omega)
  rcases hik.lt_or_eq with h | rfl
  · exact hlt i h
  · exact hlast

/-! ### Search and exchange -/

namespace Pivoted

/-- The search finds the first of the largest entries of column `k` from row `k` down. -/
theorem searchPivot_isFirstMax {n : ℕ} (k : Fin n) (s : State ℚ) :
    IsFirstMax k (fun i => |s.A n i k|) (pivotRow k s) :=
  searchPivot_firstMax (v := id) lt_rat k s

/-- A diagonal entry that is not exceeded keeps its row. -/
theorem searchPivot_of_max {n k : ℕ} (hk : k < n) {s : State ℚ}
    (hmax : ∀ i < n, k < i → |s.a (i * n + k)| ≤ |s.a (k * n + k)|) :
    (searchPivot n k s.a).1 = k := by
  have hfirst := searchPivot_isFirstMax ⟨k, hk⟩ s
  have hbounds := searchPivot_bounds hk s.a
  by_contra hne
  have hlt : k < (searchPivot n k s.a).1 := by omega
  -- The row found would have to beat row `k`.
  exact absurd (hfirst.first ⟨k, hk⟩ le_rfl (Fin.lt_def.mpr hlt))
    (not_lt.mpr (hmax _ hbounds.2 hlt))

theorem pivot_A {n : ℕ} (nrhs : ℕ) (k : Fin n) (s : State ℚ) :
    (pivot n nrhs k s).A n = (s.A n).submatrix (Equiv.swap k (pivotRow k s)) id :=
  pivot_toMatrix_a nrhs k s

theorem pivot_B {n nrhs : ℕ} (k : Fin n) (s : State ℚ) :
    (pivot n nrhs k s).B n nrhs
      = (s.B n nrhs).submatrix (Equiv.swap k (pivotRow k s)) id :=
  pivot_toMatrix_b nrhs k s

/-- The tested entry is the one the search found. -/
theorem pivot_A_pivot {n : ℕ} (nrhs : ℕ) (k : Fin n) (s : State ℚ) :
    (pivot n nrhs k s).A n k k = s.A n (pivotRow k s) k := by
  rw [pivot_A, submatrix_apply, Equiv.swap_apply_left]
  rfl

end Pivoted

/-! ### The elimination of a column -/

section Eliminate

variable {n nrhs : ℕ} {s : State ℚ} {k : Fin n} {σ : Equiv.Perm (Fin n)}
  {A₀ L : Matrix (Fin n) (Fin n) ℚ} {B₀ : Matrix (Fin n) (Fin nrhs) ℚ}

/-- Row `k` and the rows above it keep their entries. -/
theorem eliminateRows_A_of_le {i : Fin n} (hi : i ≤ k) (j : Fin n) :
    (eliminateRows n nrhs k s).A n i j = s.A n i j := by
  rw [State.A_apply, eliminateRows_a nrhs k.isLt s i j.isLt, if_neg (by omega)]
  rfl

/-- A pivot that passed the test joins those before it. -/
theorem eliminateRows_pivots (hpivots : ∀ i : Fin n, i.val < k → tol ≤ |s.A n i i|)
    (htol : tol ≤ |s.A n k k|) (i : Fin n) (hi : i.val < k + 1) :
    tol ≤ |(eliminateRows n nrhs k s).A n i i| := by
  have hik : i ≤ k := Fin.le_def.mpr (Nat.lt_succ_iff.mp hi)
  rw [eliminateRows_A_of_le hik]
  rcases hik.lt_or_eq with hlt | rfl
  · exact hpivots i hlt
  · exact htol

/-- So does the division by it. -/
theorem eliminateRows_divs (hdivs : ∀ d, Event.div d ∈ s.trace → tol ≤ |d|)
    (htol : tol ≤ |s.A n k k|) (d : ℚ) (hd : Event.div d ∈ (eliminateRows n nrhs k s).trace) :
    tol ≤ |d| := by
  rcases eliminateRows_mem_trace k.isLt hd with hd | hd
  · cases hd
    exact htol
  · exact hdivs d hd

/-- The row loop on `a` subtracts multiples of row `k`.  It starts at column `k`, which is
    enough if row `k` has zeros before it. -/
theorem eliminateRows_A (hzeros : ∀ j, j < k → s.A n k j = 0) :
    (eliminateRows n nrhs k s).A n = s.A n - multipliers k (s.A n) * s.A n := by
  ext i j
  rw [sub_multipliers_mul_apply, State.A_apply, eliminateRows_a nrhs k.isLt s i j.isLt]
  simp only [← State.A_apply]
  by_cases hki : k < i
  · rw [if_pos hki]
    by_cases hkj : k ≤ j
    · rw [if_pos ⟨hki, i.isLt, hkj⟩]
      ring
    · rw [if_neg fun hc => hkj hc.2.2, hzeros j (not_le.mp hkj)]
      ring
  · rw [if_neg fun hc => hki hc.1, if_neg hki, sub_zero]

/-- The row loop on `b` does the same. -/
theorem eliminateRows_B :
    (eliminateRows n nrhs k s).B n nrhs
      = s.B n nrhs - multipliers k (s.A n) * s.B n nrhs := by
  ext i j
  rw [sub_multipliers_mul_apply, State.B_apply, eliminateRows_b k.isLt s i j.isLt]
  simp only [← State.A_apply, ← State.B_apply]
  by_cases hki : k < i
  · rw [if_pos ⟨hki, i.isLt⟩, if_pos hki]
    ring
  · rw [if_neg fun hc => hki hc.1, if_neg hki, sub_zero]

/-- The row loop is one elimination step. -/
theorem eliminateRows_lu (h : LUPrefix A₀ B₀ k σ L (s.A n) (s.B n nrhs)) (hpiv : s.A n k k ≠ 0) :
    LUPrefix A₀ B₀ (k + 1) σ (L + multipliers k (s.A n))
      ((eliminateRows n nrhs k s).A n) ((eliminateRows n nrhs k s).B n nrhs) := by
  rw [eliminateRows_A fun j hj => h.zeros k j hj hj, eliminateRows_B]
  exact h.eliminate hpiv

/-- What an iteration does once the pivot is in place: all of it in `src/task1/dgesv.c`, and
    in `src/dgesv.c` what follows the exchange. -/
theorem Unpivoted.eliminateColumn_cases (nrhs : ℕ) (k : Fin n) (s : State ℚ) :
    (|s.A n k k| < tol ∧ eliminateColumn n nrhs k s = .ret (-1) s) ∨
    (tol ≤ |s.A n k k| ∧ eliminateColumn n nrhs k s = .next (eliminateRows n nrhs k s)) := by
  by_cases h : |s.A n k k| < tol
  · exact Or.inl ⟨h, if_pos ((lt_fabs_tol _).mpr h)⟩
  · exact Or.inr ⟨not_lt.mp h, if_neg fun hc => h ((lt_fabs_tol _).mp hc)⟩

end Eliminate

/-! ### The triangular system -/

/-- The accumulation is a sum. -/
theorem accumulate_eq_sum {n i hi : ℕ} (h : i + 1 ≤ hi) (a : Mem ℚ) (x : ℕ → ℚ) (t : ℚ) :
    accumulate n i hi a x t = t - ∑ k ∈ Finset.Ico (i + 1) hi, a (i * n + k) * x k := by
  refine forUp_inv
    (fun c t' => t' = t - ∑ k ∈ Finset.Ico (i + 1) c, a (i * n + k) * x k) h (by simp) ?_
  intro c t' hc _ ih
  rw [ih, Finset.sum_Ico_succ_top hc, sub_sub]

/-- The recurrence of the back substitution solves an upper triangular system with nonzero
    diagonal. -/
theorem Solves.mulVec_eq {n : ℕ} {s : State ℚ} {y x : ℕ → ℚ} (h : Solves n s.a y x)
    (hup : ∀ i j, j < i → s.A n i j = 0) (hdiag : ∀ i, s.A n i i ≠ 0) :
    s.A n *ᵥ (fun i : Fin n => x i) = fun i : Fin n => y i := by
  funext i
  -- Row `i` of the product: nothing before the diagonal, then the accumulated tail.
  have hrow : (s.A n *ᵥ fun i : Fin n => x i) i
      = s.A n i i * x i + ∑ k ∈ Finset.Ico (i.val + 1) n, s.a (i * n + k) * x k := by
    have hsplit : (s.A n *ᵥ fun i : Fin n => x i) i
        = ∑ k ∈ Finset.range n, s.a (i * n + k) * x k := by
      rw [← Fin.sum_univ_eq_sum_range fun k => s.a (i * n + k) * x k]
      rfl
    have hhead : ∑ k ∈ Finset.range i.val, s.a (i * n + k) * x k = 0 := by
      refine Finset.sum_eq_zero fun k hk => ?_
      have hki : k < i := Finset.mem_range.mp hk
      have hz : s.a (i * n + k) = 0 := hup i ⟨k, hki.trans i.isLt⟩ hki
      rw [hz, zero_mul]
    rw [hsplit, Finset.range_eq_Ico, ← Finset.sum_Ico_consecutive _ (Nat.zero_le i.val) i.isLt.le,
      ← Finset.range_eq_Ico, hhead, zero_add, Finset.sum_eq_sum_Ico_succ_bot i.isLt]
    rfl
  have hne : s.a (i * n + i) ≠ 0 := hdiag i
  have hx := h i i.isLt
  rw [accumulate_eq_sum i.isLt, eq_div_iff hne] at hx
  rw [hrow, mul_comm, State.A_apply, hx, sub_add_cancel]

/-- After a completed elimination with nonzero diagonal, the given matrix is nonsingular and
    the back substitution leaves its solution in `b`. -/
theorem LUPrefix.backSubstitute_solution {n nrhs k : ℕ} {σ : Equiv.Perm (Fin n)} {s : State ℚ}
    {A₀ L : Matrix (Fin n) (Fin n) ℚ} {B₀ : Matrix (Fin n) (Fin nrhs) ℚ}
    (lu : LUPrefix A₀ B₀ k σ L (s.A n) (s.B n nrhs)) (hk : k + 1 = n)
    (hdiag : ∀ i, s.A n i i ≠ 0) :
    A₀.det ≠ 0 ∧ A₀ * (Pivoted.backSubstitute n nrhs s).B n nrhs = B₀ := by
  have hup : ∀ i j : Fin n, j < i → s.A n i j = 0 := fun i j hij =>
    lu.zeros i j (by have := Fin.lt_def.mp hij; omega) hij
  constructor
  · rw [← lu.det_ne_zero_iff, det_of_isUpperTriangular fun i j hij => hup i j hij]
    exact Finset.prod_ne_zero_iff.mpr fun i _ => hdiag i
  · ext i j
    have hsolves := Pivoted.backSubstitute_solves (n := n) j.isLt s
    have hcol := (lu.mulVec_eq_iff _ j).mp (hsolves.mulVec_eq hup hdiag)
    exact congrFun hcol i

end Dgesv
