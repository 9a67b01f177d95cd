import Dgesv.Lib.LU

namespace Dgesv

open Matrix

/-!
# Positive definite blocks

A symmetric matrix whose quadratic form is at least `δ` times the square of the length has all
its eigenvalues at or above `δ`.  `Definite k δ A` says this of the block of `A` from row and
column `k` on, by way of the vectors that vanish before `k`.

* `Definite.le_diag` — the diagonal entries are at least `δ`, so they are pivots;
* `Definite.two_mul_abs_le` — and they bound all the others;
* `Definite.eliminate` — clearing a column leaves the next block definite, with the same `δ`;
* `Definite.abs_eliminate_le` — and no entry larger than any there was.
-/

variable {F : Type*} [Field F] {n : ℕ}

/-! ### Quadratic forms -/

/-- A form at a vector that is changed in one place. -/
theorem form_add_single (A : Matrix (Fin n) (Fin n) F) (x : Fin n → F) (k : Fin n) (c : F) :
    (x + Pi.single k c) ⬝ᵥ A *ᵥ (x + Pi.single k c)
      = x ⬝ᵥ A *ᵥ x + c * ((A *ᵥ x) k + (x ᵥ* A) k) + c ^ 2 * A k k := by
  have hcross : x ⬝ᵥ A *ᵥ Pi.single k c = (x ᵥ* A) k * c := by
    rw [dotProduct_mulVec, dotProduct_single]
  have hlast : (A *ᵥ Pi.single k c) k = A k k * c := dotProduct_single _ _ _
  rw [mulVec_add, dotProduct_add, add_dotProduct, add_dotProduct, single_dotProduct,
    single_dotProduct, hcross, hlast]
  ring

/-- One step of elimination, applied to a vector. -/
theorem sub_multipliers_mulVec (k : Fin n) (A : Matrix (Fin n) (Fin n) F) (x : Fin n → F)
    (i : Fin n) : ((A - multipliers k A * A) *ᵥ x) i
      = (A *ᵥ x) i - if k < i then A i k / A k k * (A *ᵥ x) k else 0 := by
  simp only [mulVec, dotProduct, sub_multipliers_mul_apply, sub_mul, Finset.sum_sub_distrib]
  congr 1
  by_cases hki : k < i
  · simp only [if_pos hki, Finset.mul_sum, mul_assoc]
  · simp [hki]

/-- Its form, at a vector that vanishes up to `k`. -/
theorem form_sub_multipliers {k : Fin n} {x : Fin n → F} (hx : ∀ i ≤ k, x i = 0)
    (A : Matrix (Fin n) (Fin n) F) : x ⬝ᵥ (A - multipliers k A * A) *ᵥ x
      = x ⬝ᵥ A *ᵥ x - (x ᵥ* A) k * ((A *ᵥ x) k / A k k) := by
  have hterm : ∀ i, x i * ((A - multipliers k A * A) *ᵥ x) i
      = x i * (A *ᵥ x) i - x i * A i k * ((A *ᵥ x) k / A k k) := by
    intro i
    rw [sub_multipliers_mulVec]
    by_cases hki : k < i
    · rw [if_pos hki]
      ring
    · rw [hx i (not_lt.mp hki)]
      ring
  calc x ⬝ᵥ (A - multipliers k A * A) *ᵥ x
      = ∑ i, (x i * (A *ᵥ x) i - x i * A i k * ((A *ᵥ x) k / A k k)) :=
        Finset.sum_congr rfl fun i _ => hterm i
    _ = x ⬝ᵥ A *ᵥ x - (x ᵥ* A) k * ((A *ᵥ x) k / A k k) := by
        rw [Finset.sum_sub_distrib, ← Finset.sum_mul]
        rfl

variable [LinearOrder F]

/-! ### Definite blocks -/

/-- The block from row and column `k` on is symmetric, with a quadratic form at least `δ`. -/
structure Definite (k : ℕ) (δ : F) (A : Matrix (Fin n) (Fin n) F) : Prop where
  symm : ∀ i j : Fin n, k ≤ i → k ≤ j → A i j = A j i
  form : ∀ x : Fin n → F, (∀ i : Fin n, i.val < k → x i = 0) → δ * (x ⬝ᵥ x) ≤ x ⬝ᵥ A *ᵥ x

namespace Definite

variable {δ c : F} {A : Matrix (Fin n) (Fin n) F}

/-- On the block, rows and columns give the same sums. -/
theorem vecMul_eq {k : ℕ} (h : Definite k δ A) {x : Fin n → F}
    (hx : ∀ i : Fin n, i.val < k → x i = 0) {i : Fin n} (hi : k ≤ i) :
    (x ᵥ* A) i = (A *ᵥ x) i := by
  show ∑ j, x j * A j i = ∑ j, A i j * x j
  refine Finset.sum_congr rfl fun j _ => ?_
  by_cases hj : j.val < k
  · rw [hx j hj, zero_mul, mul_zero]
  · rw [h.symm i j hi (not_lt.mp hj), mul_comm]

/-- The diagonal entries of the block. -/
theorem le_diag {k : ℕ} (h : Definite k δ A) {i : Fin n} (hi : k ≤ i) : δ ≤ A i i := by
  have hform := h.form (Pi.single i 1) fun l hl => Pi.single_eq_of_ne (by rintro rfl; omega) 1
  simpa using hform

/-- The form of the next block at `x` is that of this one at `x` with the entry at `k` that makes
    it smallest. -/
theorem form_eliminate {k : Fin n} (h : Definite k δ A) (hpiv : A k k ≠ 0) {x : Fin n → F}
    (hx : ∀ i ≤ k, x i = 0) :
    (x + Pi.single k (-((A *ᵥ x) k / A k k))) ⬝ᵥ A *ᵥ (x + Pi.single k (-((A *ᵥ x) k / A k k)))
      = x ⬝ᵥ (A - multipliers k A * A) *ᵥ x := by
  have hsymm : (x ᵥ* A) k = (A *ᵥ x) k :=
    h.vecMul_eq (fun i hi => hx i (Fin.lt_def.mpr hi).le) le_rfl
  rw [form_add_single, form_sub_multipliers hx, hsymm]
  generalize (A *ᵥ x) k = w
  field_simp
  ring

variable [IsStrictOrderedRing F]

/-- The diagonal bounds the entries beside it. -/
theorem two_mul_abs_le {k : ℕ} (h : Definite k δ A) (hδ : 0 ≤ δ) {i j : Fin n} (hi : k ≤ i)
    (hj : k ≤ j) : 2 * |A i j| ≤ A i i + A j j := by
  -- The form at the sum, and at the difference, of the two basis vectors.
  have hpair : ∀ c : F, 0 ≤ A i i + c * (A j i + A i j) + c ^ 2 * A j j := by
    intro c
    have hx : ∀ l : Fin n, l.val < k → (Pi.single i 1 + Pi.single j c : Fin n → F) l = 0 := by
      intro l hl
      rw [Pi.add_apply, Pi.single_eq_of_ne (by rintro rfl; omega),
        Pi.single_eq_of_ne (by rintro rfl; omega), add_zero]
    have hform := h.form _ hx
    rw [form_add_single] at hform
    have hsquare : 0 ≤ (Pi.single i 1 + Pi.single j c : Fin n → F)
        ⬝ᵥ (Pi.single i 1 + Pi.single j c) := Finset.sum_nonneg fun l _ => mul_self_nonneg _
    have hpos := (mul_nonneg hδ hsquare).trans hform
    simpa using hpos
  have hplus := hpair 1
  have hminus := hpair (-1)
  rw [h.symm j i hj hi] at hplus hminus
  rcases abs_cases (A i j) with ⟨habs, -⟩ | ⟨habs, -⟩
  · rw [habs]
    linarith
  · rw [habs]
    linarith

/-- **Clearing column `k` leaves the next block definite.** -/
theorem eliminate {k : Fin n} (h : Definite k δ A) (hδ : 0 ≤ δ) (hpiv : A k k ≠ 0) :
    Definite (k + 1) δ (A - multipliers k A * A) := by
  constructor
  · intro i j hi hj
    have hki : k < i := Fin.lt_def.mpr hi
    have hkj : k < j := Fin.lt_def.mpr hj
    rw [sub_multipliers_mul_apply, sub_multipliers_mul_apply, if_pos hki, if_pos hkj,
      h.symm i j hki.le hkj.le, h.symm i k hki.le le_rfl, h.symm k j le_rfl hkj.le]
    ring
  · intro x hx
    have hx' : ∀ i ≤ k, x i = 0 := fun i hi => hx i (Nat.lt_succ_of_le (Fin.le_def.mp hi))
    rw [← h.form_eliminate hpiv hx']
    -- Whatever the entry at `k` is, it only makes the vector longer.
    generalize -((A *ᵥ x) k / A k k) = c
    have hbefore : ∀ i : Fin n, i.val < k → (x + Pi.single k c : Fin n → F) i = 0 := by
      intro i hi
      rw [Pi.add_apply, hx i (by omega), Pi.single_eq_of_ne (by rintro rfl; omega), add_zero]
    have hlength : x ⬝ᵥ x ≤ (x + Pi.single k c) ⬝ᵥ (x + Pi.single k c) := by
      rw [add_dotProduct, dotProduct_add, dotProduct_add, dotProduct_single, single_dotProduct,
        single_dotProduct, Pi.single_eq_same, hx' k le_rfl]
      have hsquare := mul_self_nonneg c
      linarith
    exact (mul_le_mul_of_nonneg_left hlength hδ).trans (h.form _ hbefore)

/-- The diagonal does not grow, … -/
theorem eliminate_diag_le {k : Fin n} (h : Definite k δ A) (hδ : 0 ≤ δ) {i : Fin n} (hi : k < i) :
    (A - multipliers k A * A) i i ≤ A i i := by
  rw [sub_multipliers_mul_apply, if_pos hi, h.symm k i le_rfl hi.le]
  have hpiv : 0 ≤ A k k := hδ.trans (h.le_diag le_rfl)
  have hsquare : 0 ≤ A i k / A k k * A i k := by
    rw [div_mul_eq_mul_div]
    exact div_nonneg (mul_self_nonneg _) hpiv
  linarith

/-- … and so, **in the whole matrix, no entry does**. -/
theorem abs_eliminate_le {k : Fin n} (h : Definite k δ A) (hδ : 0 ≤ δ) (hpiv : A k k ≠ 0)
    (hzeros : ∀ i j : Fin n, j < k → j < i → A i j = 0) (hA : ∀ i j, |A i j| ≤ c) (i j : Fin n) :
    |(A - multipliers k A * A) i j| ≤ c := by
  by_cases hki : k < i
  · rcases lt_trichotomy k j with hkj | rfl | hjk
    · have htwo := (h.eliminate hδ hpiv).two_mul_abs_le hδ (Fin.lt_def.mp hki) (Fin.lt_def.mp hkj)
      have hi := (h.eliminate_diag_le hδ hki).trans ((le_abs_self _).trans (hA i i))
      have hj := (h.eliminate_diag_le hδ hkj).trans ((le_abs_self _).trans (hA j j))
      linarith
    · rw [sub_multipliers_mul_apply, if_pos hki, div_mul_cancel₀ _ hpiv, sub_self, abs_zero]
      exact (abs_nonneg _).trans (hA k k)
    · rw [sub_multipliers_mul_apply, if_pos hki, hzeros k j hjk hjk, mul_zero, sub_zero]
      exact hA i j
  · rw [sub_multipliers_mul_apply, if_neg hki, sub_zero]
    exact hA i j

end Definite

end Dgesv
