import Dgesv.Lib.Minors

namespace Dgesv

open Matrix Equiv

/-!
# Elimination on band matrices

A band matrix has `p` diagonals below the main one, `q` above it, and zeros elsewhere.
Elimination in the order given leaves the zeros where they are.  Row exchanges bring longer rows
up, each by at most `p` places, so the upper part of the band grows to `p + q` diagonals and no
further.

* `Banded.eliminate` — a step without exchanges;
* `FillIn p q k r A` — the zeros there are once `k` columns are finished with exchanges;
* `FillIn.swap`, `FillIn.eliminate` — both halves of a step keep it;
* `FillIn.banded` — what it says about the whole matrix.
-/

variable {F : Type*} [Field F] {n p q : ℕ}

/-- Nothing outside the `p` diagonals below the main one and the `q` above it. -/
structure Banded (p q : ℕ) (A : Matrix (Fin n) (Fin n) F) : Prop where
  lower : ∀ i j : Fin n, j.val + p < i → A i j = 0
  upper : ∀ i j : Fin n, i.val + q < j → A i j = 0

variable {A : Matrix (Fin n) (Fin n) F} {k : Fin n}

/-! ### Without exchanges -/

/-- A step fills in nothing below the band. -/
theorem lower_eliminate (hlower : ∀ i j : Fin n, j.val + p < i → A i j = 0)
    (hzeros : ∀ i j : Fin n, j < k → j < i → A i j = 0) {i j : Fin n} (hij : j.val + p < i) :
    (A - multipliers k A * A) i j = 0 := by
  rw [sub_multipliers_mul_apply, hlower i j hij]
  by_cases hki : k < i
  · rw [if_pos hki]
    rcases lt_or_ge j k with hjk | hkj
    · rw [hzeros k j hjk hjk, mul_zero, sub_zero]
    · -- Row `i` is below the band in column `k` already, and is not touched.
      have hik : A i k = 0 := hlower i k (by have := Fin.le_def.mp hkj; omega)
      rw [hik, zero_div, zero_mul, sub_zero]
  · rw [if_neg hki, sub_zero]

/-- Where the row and the pivot row have a zero, the step leaves one. -/
theorem eliminate_eq_zero {i j : Fin n} (hi : A i j = 0) (hk : k < i → A k j = 0) :
    (A - multipliers k A * A) i j = 0 := by
  rw [sub_multipliers_mul_apply, hi]
  by_cases hki : k < i
  · rw [if_pos hki, hk hki, mul_zero, sub_zero]
  · rw [if_neg hki, sub_zero]

/-- **A step without exchanges keeps the band.** -/
theorem Banded.eliminate (h : Banded p q A) (hzeros : ∀ i j : Fin n, j < k → j < i → A i j = 0) :
    Banded p q (A - multipliers k A * A) where
  lower _ _ hij := lower_eliminate h.lower hzeros hij
  upper i j hij := eliminate_eq_zero (h.upper i j hij) fun hki =>
    h.upper k j (by have := Fin.lt_def.mp hki; omega)

/-! ### With exchanges -/

/-- Once `k` columns are finished, the rows from `r` on are as short as in the given matrix but
    for the columns that the exchanges have reached. -/
structure FillIn (p q k r : ℕ) (A : Matrix (Fin n) (Fin n) F) : Prop where
  lower : ∀ i j : Fin n, j.val + p < i → A i j = 0
  upper : ∀ i j : Fin n, i.val + (p + q) < j → A i j = 0
  rest : ∀ i j : Fin n, r ≤ i → i.val + q < j → k + p + q ≤ j → A i j = 0

namespace FillIn

/-- On entry. -/
theorem init (h : Banded p q A) : FillIn p q 0 0 A where
  lower := h.lower
  upper i j hij := h.upper i j (by omega)
  rest i j _ hij _ := h.upper i j hij

/-- The band has grown by at most `p` diagonals. -/
theorem banded {k r : ℕ} (h : FillIn p q k r A) : Banded p (p + q) A := ⟨h.lower, h.upper⟩

/-- **An exchange** with a row that is at most `p` places away. -/
theorem swap (h : FillIn p q k k A) (hzeros : ∀ i j : Fin n, j < k → j < i → A i j = 0) {m : Fin n}
    (hkm : k ≤ m) (hmp : m.val ≤ k + p) :
    FillIn p q k (k + 1) (A.submatrix (Equiv.swap k m) id) := by
  have hkm' : k.val ≤ m := Fin.le_def.mp hkm
  -- In each part: the row brought up, the row sent down, and the others.
  refine ⟨?_, ?_, ?_⟩
  · intro i j hij
    show A (Equiv.swap k m i) j = 0
    rcases eq_or_ne i k with rfl | hik
    · rw [swap_apply_left]
      exact hzeros m j (Fin.lt_def.mpr (by omega)) (Fin.lt_def.mpr (by omega))
    rcases eq_or_ne i m with rfl | him
    · rw [swap_apply_right]
      exact hzeros k j (Fin.lt_def.mpr (by omega)) (Fin.lt_def.mpr (by omega))
    · rw [swap_apply_of_ne_of_ne hik him]
      exact h.lower i j hij
  · intro i j hij
    show A (Equiv.swap k m i) j = 0
    rcases eq_or_ne i k with rfl | hik
    · rw [swap_apply_left]
      exact h.rest m j hkm' (by omega) (by omega)
    rcases eq_or_ne i m with rfl | him
    · rw [swap_apply_right]
      exact h.upper k j (by omega)
    · rw [swap_apply_of_ne_of_ne hik him]
      exact h.upper i j hij
  · intro i j hi hij hj
    have hik : i ≠ k := by
      rintro rfl
      omega
    show A (Equiv.swap k m i) j = 0
    rcases eq_or_ne i m with rfl | him
    · rw [swap_apply_right]
      exact h.rest k j le_rfl (by omega) hj
    · rw [swap_apply_of_ne_of_ne hik him]
      exact h.rest i j (by omega) hij hj

/-- **Clearing a column** after the exchange. -/
theorem eliminate (h : FillIn p q k (k + 1) A)
    (hzeros : ∀ i j : Fin n, j < k → j < i → A i j = 0) :
    FillIn p q (k + 1) (k + 1) (A - multipliers k A * A) where
  lower _ _ hij := lower_eliminate h.lower hzeros hij
  upper i j hij := eliminate_eq_zero (h.upper i j hij) fun hki =>
    h.upper k j (by have := Fin.lt_def.mp hki; omega)
  -- Row `k` ends at column `k + p + q`, before the columns this is about.
  rest i j hi hij hj := eliminate_eq_zero (h.rest i j hi hij (by omega)) fun _ =>
    h.upper k j (by omega)

/-- The largest entry of column `k` is at most `p` places down. -/
theorem firstMax_le [LinearOrder F] [IsStrictOrderedRing F] {r : ℕ} (h : FillIn p q k r A)
    {m : Fin n} (hm : IsFirstMax k (fun i => |A i k|) m) : m.val ≤ k + p := by
  by_contra hlarge
  have hzero : A m k = 0 := h.lower m k (by omega)
  have hlt : |A k k| < |A m k| := hm.first k le_rfl (Fin.lt_def.mpr (by omega))
  rw [hzero, abs_zero] at hlt
  exact absurd (abs_nonneg (A k k)) (not_le.mpr hlt)

end FillIn

end Dgesv
