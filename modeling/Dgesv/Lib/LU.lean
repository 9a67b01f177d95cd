import Mathlib.LinearAlgebra.Matrix.Block
import Mathlib.LinearAlgebra.Matrix.NonsingularInverse
import Mathlib.LinearAlgebra.Matrix.Permutation
import Mathlib.Algebra.Order.Field.Basic

namespace Dgesv

open Matrix Equiv

/-!
# Elimination with row exchanges, as a factorisation

Gaussian elimination applied to a system `A₀ X = B₀` keeps a hidden factorisation: with
the rows in the order `σ` chosen so far, `A₀ = L A` and `B₀ = L B`, where `A`, `B` are the
matrices being worked on and `L` is unit lower triangular.  `LUPrefix … k σ L A B` is that
statement together with what `k` finished columns mean for `L` and for `A`.

* `LUPrefix.init`, `LUPrefix.swap`, `LUPrefix.eliminate` — the factorisation is there at
  the start and each of the two operations keeps it;
* `LUPrefix.mulVec_eq_iff` — the worked-on system has the solutions of the given one;
* `LUPrefix.abs_sub_multipliers_mul_le` — with a largest pivot, a step at most doubles the
  entries;
* `LUPrefix.det_eq` — its determinant is the given one up to the sign of `σ`;
* `LUPrefix.exists_near_singular` — if nothing of size `ε` is left in column `k`, the
  given matrix is within `ε` of a singular one.
-/

variable {F : Type*} [Field F] {n p : ℕ}

/-! ### The factorisation -/

/-- After `k` columns, with rows taken in the order `σ`. -/
structure LUPrefix (A₀ : Matrix (Fin n) (Fin n) F) (B₀ : Matrix (Fin n) (Fin p) F) (k : ℕ)
    (σ : Perm (Fin n)) (L A : Matrix (Fin n) (Fin n) F) (B : Matrix (Fin n) (Fin p) F) : Prop where
  hA : A₀.submatrix σ id = L * A
  hB : B₀.submatrix σ id = L * B
  /-- `L` is unit lower triangular, … -/
  diag : ∀ i, L i i = 1
  lower : L.IsLowerTriangular
  /-- … the identity in the columns not yet reached, … -/
  tail : ∀ i j, k ≤ j.val → i ≠ j → L i j = 0
  /-- … and `A` has zeros below the diagonal in the columns that are finished. -/
  zeros : ∀ i j, j.val < k → j < i → A i j = 0

namespace LUPrefix

variable {A₀ L A : Matrix (Fin n) (Fin n) F} {B₀ B : Matrix (Fin n) (Fin p) F} {k : ℕ}
  {σ : Perm (Fin n)}

/-- Nothing done yet. -/
theorem init (A₀ : Matrix (Fin n) (Fin n) F) (B₀ : Matrix (Fin n) (Fin p) F) :
    LUPrefix A₀ B₀ 0 1 1 A₀ B₀ where
  hA := by rw [Perm.coe_one, submatrix_id_id, Matrix.one_mul]
  hB := by rw [Perm.coe_one, submatrix_id_id, Matrix.one_mul]
  diag i := one_apply_eq i
  lower := blockTriangular_one
  tail i j _ hij := one_apply_ne hij
  zeros i j h := absurd h (Nat.not_lt_zero _)

/-- Exchanging two rows not yet finished. -/
theorem swap (h : LUPrefix A₀ B₀ k σ L A B) {q r : Fin n} (hq : k ≤ q) (hr : k ≤ r) :
    LUPrefix A₀ B₀ k (σ * Equiv.swap q r) (L.submatrix (Equiv.swap q r) (Equiv.swap q r))
      (A.submatrix (Equiv.swap q r) id) (B.submatrix (Equiv.swap q r) id) := by
  -- The exchange moves only indices `≥ k`, and moves them among themselves.
  have hfix : ∀ j : Fin n, j.val < k → Equiv.swap q r j = j := fun j hj =>
    swap_apply_of_ne_of_ne (by rintro rfl; omega) (by rintro rfl; omega)
  have hge : ∀ j : Fin n, k ≤ j.val → k ≤ (Equiv.swap q r j).val := by
    intro j hj
    rw [swap_apply_def]
    split_ifs <;> assumption
  have htail : ∀ i j : Fin n, k ≤ j.val → i ≠ j →
      L (Equiv.swap q r i) (Equiv.swap q r j) = 0 := fun i j hj hij =>
    h.tail _ _ (hge j hj) fun he => hij ((Equiv.swap q r).injective he)
  refine ⟨?_, ?_, fun i => h.diag _, ?_, htail, fun i j hj hij => ?_⟩
  · rw [Perm.coe_mul, ← Function.comp_id (id : Fin n → Fin n), ← submatrix_submatrix, h.hA,
      submatrix_mul_equiv]
    rfl
  · rw [Perm.coe_mul, ← Function.comp_id (id : Fin p → Fin p), ← submatrix_submatrix, h.hB,
      submatrix_mul_equiv]
    rfl
  · intro i j hij
    have hij : i < j := hij
    rcases Nat.lt_or_ge j.val k with hj | hj
    · -- Both indices are finished ones, which stay in place.
      rw [submatrix_apply, hfix i (by omega), hfix j hj]
      exact h.lower hij
    · exact htail i j hj hij.ne
  · have hlt : j < Equiv.swap q r i := by
      rcases Nat.lt_or_ge i.val k with hi | hi
      · rwa [hfix i hi]
      · exact Fin.lt_def.mpr (lt_of_lt_of_le hj (hge i hi))
    exact h.zeros _ j hj hlt

end LUPrefix

/-! ### Eliminating one column -/

/-- The multipliers that clear column `k` below row `k`. -/
def multipliers (k : Fin n) (A : Matrix (Fin n) (Fin n) F) : Matrix (Fin n) (Fin n) F :=
  Matrix.of fun i j => if k < i ∧ j = k then A i k / A k k else 0

/-- Multiplying by the multipliers picks out row `k`. -/
theorem multipliers_mul_apply {m : Type*} (k : Fin n) (A : Matrix (Fin n) (Fin n) F)
    (M : Matrix (Fin n) m F) (i : Fin n) (j : m) :
    (multipliers k A * M) i j = if k < i then A i k / A k k * M k j else 0 := by
  rw [mul_apply, Finset.sum_eq_single k]
  · by_cases h : k < i <;> simp [multipliers, h]
  · intro l _ hl
    simp [multipliers, hl]
  · simp

/-- An elimination step, entry by entry. -/
theorem sub_multipliers_mul_apply {m : Type*} (k : Fin n) (A : Matrix (Fin n) (Fin n) F)
    (M : Matrix (Fin n) m F) (i : Fin n) (j : m) :
    (M - multipliers k A * M) i j = M i j - if k < i then A i k / A k k * M k j else 0 := by
  rw [Matrix.sub_apply, multipliers_mul_apply]

theorem multipliers_mul_self (k : Fin n) (A : Matrix (Fin n) (Fin n) F) :
    multipliers k A * multipliers k A = 0 := by
  ext i j
  rw [multipliers_mul_apply]
  simp [multipliers]

namespace LUPrefix

variable {A₀ L A : Matrix (Fin n) (Fin n) F} {B₀ B : Matrix (Fin n) (Fin p) F}
  {σ : Perm (Fin n)}

/-- `L` acts as the identity on the rows not yet finished. -/
theorem mul_multipliers {k : Fin n} (h : LUPrefix A₀ B₀ k σ L A B) (M : Matrix (Fin n) (Fin n) F) :
    L * multipliers k M = multipliers k M := by
  ext i j
  rw [mul_apply, Finset.sum_eq_single i]
  · rw [h.diag, one_mul]
  · intro l _ hl
    by_cases hkl : k < l
    · rw [h.tail i l (Fin.lt_def.mp hkl).le (Ne.symm hl), zero_mul]
    · simp [multipliers, hkl]
  · simp

/-- The factor that undoes the elimination of column `k`. -/
theorem add_multipliers_mul_sub {m : Type*} {k : Fin n} (h : LUPrefix A₀ B₀ k σ L A B)
    (M : Matrix (Fin n) m F) :
    (L + multipliers k A) * (M - multipliers k A * M) = L * M := by
  rw [Matrix.add_mul, Matrix.mul_sub, Matrix.mul_sub, ← Matrix.mul_assoc, ← Matrix.mul_assoc,
    h.mul_multipliers, multipliers_mul_self, Matrix.zero_mul, sub_zero, sub_add_cancel]

/-- Clearing column `k` below row `k`, with a nonzero pivot. -/
theorem eliminate {k : Fin n} (h : LUPrefix A₀ B₀ k σ L A B) (hpiv : A k k ≠ 0) :
    LUPrefix A₀ B₀ (k + 1) σ (L + multipliers k A) (A - multipliers k A * A)
      (B - multipliers k A * B) where
  hA := by rw [h.add_multipliers_mul_sub, h.hA]
  hB := by rw [h.add_multipliers_mul_sub, h.hB]
  diag i := by
    have hne : ¬ (k < i ∧ i = k) := fun ⟨h1, h2⟩ => (h2 ▸ h1).false
    simp [multipliers, h.diag, hne]
  lower i j hij := by
    have hij' : i < j := hij
    have hne : ¬ (k < i ∧ j = k) := fun ⟨h1, h2⟩ => (h1.trans (h2 ▸ hij')).false
    simp [multipliers, h.lower hij, hne]
  tail i j hj hij := by
    have hne : ¬ (k < i ∧ j = k) := fun ⟨_, h2⟩ => by rw [h2] at hj; omega
    simp [multipliers, h.tail i j (by omega) hij, hne]
  zeros i j hj hij := by
    rw [sub_multipliers_mul_apply]
    rcases Nat.lt_succ_iff_lt_or_eq.mp hj with hj | hj
    · -- A finished column: row `k` has a zero there too.
      have hjk : j < k := Fin.lt_def.mpr hj
      rw [h.zeros i j hj hij, h.zeros k j hj hjk]
      simp
    · obtain rfl : j = k := Fin.ext hj
      rw [if_pos hij, div_mul_cancel₀ _ hpiv, sub_self]

/-! ### What the factorisation says about the given system -/

variable {k : ℕ}

theorem det_L (h : LUPrefix A₀ B₀ k σ L A B) : L.det = 1 := by
  rw [det_of_isLowerTriangular L h.lower]
  exact Finset.prod_eq_one fun i _ => h.diag i

/-- The determinant is kept up to the sign of the row order. -/
theorem det_eq (h : LUPrefix A₀ B₀ k σ L A B) : Perm.sign σ * A₀.det = A.det := by
  rw [← det_permute, h.hA, det_mul, h.det_L, one_mul]

/-- The worked-on matrix is nonsingular iff the given one is. -/
theorem det_ne_zero_iff (h : LUPrefix A₀ B₀ k σ L A B) : A.det ≠ 0 ↔ A₀.det ≠ 0 := by
  rw [← h.det_eq]
  rcases Int.units_eq_one_or (Perm.sign σ) with hs | hs <;> simp [hs]

/-- The worked-on system has the solutions of the given one, in every column. -/
theorem mulVec_eq_iff (h : LUPrefix A₀ B₀ k σ L A B) (x : Fin n → F) (j : Fin p) :
    A *ᵥ x = (fun i => B i j) ↔ A₀ *ᵥ x = fun i => B₀ i j := by
  have hinj : Function.Injective (L *ᵥ · : (Fin n → F) → Fin n → F) :=
    mulVec_injective_of_isUnit ((isUnit_iff_isUnit_det L).mpr (h.det_L ▸ isUnit_one))
  -- Both sides, multiplied by `L`, are the given ones with rows in the order `σ`.
  have hl : L *ᵥ (A *ᵥ x) = (A₀ *ᵥ x) ∘ σ := by
    rw [mulVec_mulVec, ← h.hA]
    rfl
  have hr : L *ᵥ (fun i => B i j) = (fun i => B₀ i j) ∘ σ := by
    funext i
    exact congrFun (congrFun h.hB.symm i) j
  rw [← hinj.eq_iff, hl, hr]
  exact σ.surjective.right_cancellable

/-! ### Size of the factors -/

section Order

variable [LinearOrder F] [IsStrictOrderedRing F]

/-- Multipliers are at most `1` in size if the pivot is the largest entry of what is left
    of its column. -/
theorem abs_add_multipliers_le {k : Fin n} (h : LUPrefix A₀ B₀ k σ L A B)
    (hL : ∀ i j, |L i j| ≤ 1) (hmax : ∀ i, k ≤ i → |A i k| ≤ |A k k|) (i j : Fin n) :
    |(L + multipliers k A) i j| ≤ 1 := by
  by_cases hc : k < i ∧ j = k
  · obtain ⟨hki, rfl⟩ := hc
    have hm : (L + multipliers j A) i j = A i j / A j j := by
      simp [multipliers, hki, h.tail i j le_rfl hki.ne']
    rw [hm, abs_div]
    exact div_le_one_of_le₀ (hmax i hki.le) (abs_nonneg _)
  · simpa [multipliers, hc] using hL i j

/-- With such a pivot, an elimination step at most doubles the entries of what it is applied
    to. -/
theorem abs_sub_multipliers_mul_le {m : Type*} {k : Fin n} {M : Matrix (Fin n) m F} {c : F}
    (hmax : ∀ i, k ≤ i → |A i k| ≤ |A k k|) (hM : ∀ i j, |M i j| ≤ c) (i : Fin n) (j : m) :
    |(M - multipliers k A * M) i j| ≤ 2 * c := by
  have hc : 0 ≤ c := (abs_nonneg _).trans (hM i j)
  rw [sub_multipliers_mul_apply]
  by_cases hki : k < i
  · rw [if_pos hki]
    have hratio : |A i k / A k k| ≤ 1 := by
      rw [abs_div]
      exact div_le_one_of_le₀ (hmax i hki.le) (abs_nonneg _)
    calc |M i j - A i k / A k k * M k j|
        ≤ |M i j| + |A i k / A k k * M k j| := abs_sub _ _
      _ ≤ c + 1 * c := by
          rw [abs_mul]
          exact add_le_add (hM i j) (mul_le_mul hratio (hM k j) (abs_nonneg _) zero_le_one)
      _ = 2 * c := by ring
  · rw [if_neg hki, sub_zero]
    linarith [hM i j]

end Order

/-! ### Distance from singularity -/

/-- A matrix whose first `k + 1` columns vanish from row `k` down, below the diagonal for
    the first `k` of them, is singular. -/
theorem det_eq_zero_of_column {k : Fin n} {M : Matrix (Fin n) (Fin n) F}
    (hz : ∀ i j, j < k → j < i → M i j = 0) (hk : ∀ i, k ≤ i → M i k = 0) : M.det = 0 := by
  rw [det_apply]
  refine Finset.sum_eq_zero fun τ _ => ?_
  -- `τ` cannot send all the `k + 1` indices `≤ k` to the `k` indices `< k`.
  obtain ⟨j, hjk, hj⟩ : ∃ j ≤ k, k ≤ τ j := by
    by_contra hno
    push Not at hno
    have hsub : (Finset.Iic k).map τ.toEmbedding ⊆ Finset.Iio k := by
      intro i hi
      obtain ⟨j, hj, rfl⟩ := Finset.mem_map.mp hi
      exact Finset.mem_Iio.mpr (hno j (Finset.mem_Iic.mp hj))
    have hcard := Finset.card_le_card hsub
    rw [Finset.card_map, Fin.card_Iic, Fin.card_Iio] at hcard
    omega
  have hzero : M (τ j) j = 0 := by
    rcases hjk.lt_or_eq with hlt | rfl
    · exact hz _ _ hlt (hlt.trans_le hj)
    · exact hk _ hj
  have hprod : ∏ i, M (τ i) i = 0 := Finset.prod_eq_zero (Finset.mem_univ j) hzero
  rw [hprod, smul_zero]

/-- **Distance from singularity.**  If every entry left in column `k` is smaller than `ε`,
    the given matrix is singular after a change of less than `ε` in the entries of one
    column. -/
theorem exists_near_singular [LinearOrder F] [IsStrictOrderedRing F] {k : Fin n}
    (h : LUPrefix A₀ B₀ k σ L A B) {ε : F} (hsmall : ∀ i, k ≤ i → |A i k| < ε) :
    ∃ E : Matrix (Fin n) (Fin n) F, (∀ i j, j ≠ k → E i j = 0) ∧ (∀ i j, |E i j| < ε) ∧
      (A₀ + E).det = 0 := by
  have hε : 0 < ε := (abs_nonneg _).trans_lt (hsmall k le_rfl)
  -- Erase what is left of column `k`; `L` does not see the change.
  let D : Matrix (Fin n) (Fin n) F := Matrix.of fun i j => if k ≤ i ∧ j = k then -A i k else 0
  have hLD : L * D = D := by
    ext i j
    rw [mul_apply, Finset.sum_eq_single i]
    · rw [h.diag, one_mul]
    · intro l _ hl
      by_cases hkl : k ≤ l
      · rw [h.tail i l hkl (Ne.symm hl), zero_mul]
      · simp [D, hkl]
    · simp
  have hdet : (A + D).det = 0 := by
    refine det_eq_zero_of_column (k := k) (fun i j hj hij => ?_) fun i hi => ?_
    · simp [D, h.zeros i j hj hij, hj.ne]
    · simp [D, hi]
  refine ⟨D.submatrix σ.symm id, fun i j hj => by simp [D, hj], fun i j => ?_, ?_⟩
  · rw [submatrix_apply]
    by_cases hc : k ≤ σ.symm i ∧ j = k
    · obtain ⟨hi, rfl⟩ := hc
      simpa [D, hi] using hsmall _ hi
    · simpa [D, hc] using hε
  · -- With rows in the order `σ`, the changed matrix is `L * (A + D)`.
    have hsum : (A₀ + D.submatrix σ.symm id).submatrix σ id = L * (A + D) := by
      rw [Matrix.mul_add, hLD, ← h.hA]
      ext i j
      simp
    have hsign := det_permute σ (A₀ + D.submatrix σ.symm id)
    rw [hsum, det_mul, hdet, mul_zero] at hsign
    rcases Int.units_eq_one_or (Perm.sign σ) with hs | hs
    · simpa [hs] using hsign.symm
    · simpa [hs] using hsign.symm

end LUPrefix

end Dgesv
