import Dgesv.Lib.Minors

namespace Dgesv

open Matrix Equiv

/-!
# Reordering the rows not yet finished

Two eliminations of the same rows, listed in different orders, differ after `k` steps by a
permutation of the rows not yet finished.  `FixesBelow k τ` says that `τ` is one: it leaves
the first `k` indices in place.

* `FixesBelow.le_iff` — such a permutation moves the others among themselves;
* `FixesBelow.swap_mul_mul_swap` — two exchanges that bring the same row to position `k`
  leave one that fixes position `k` as well;
* `FixesBelow.sub_multipliers_mul` — clearing column `k` commutes with it;
* `IsFirstMax.apply_eq` — the largest entry is the same in either order.
-/

variable {F : Type*} {n : ℕ}

/-- The permutation leaves the first `k` indices in place. -/
def FixesBelow (k : ℕ) (τ : Perm (Fin n)) : Prop := ∀ i : Fin n, i.val < k → τ i = i

namespace FixesBelow

variable {k : ℕ} {τ : Perm (Fin n)}

/-- The other indices are moved among themselves. -/
theorem le_iff (h : FixesBelow k τ) (i : Fin n) : k ≤ (τ i).val ↔ k ≤ i.val := by
  constructor
  · intro hle
    by_contra hlt
    rw [h i (not_le.mp hlt)] at hle
    exact hlt hle
  · intro hle
    by_contra hlt
    -- `τ i` would be fixed, and so be `i`.
    have hfix := h (τ i) (not_le.mp hlt)
    rw [τ.injective hfix] at hlt
    exact hlt hle

theorem symm (h : FixesBelow k τ) : FixesBelow k τ.symm := by
  intro i hi
  rw [Equiv.symm_apply_eq]
  exact (h i hi).symm

/-- If all but the last index are fixed, so is the last. -/
theorem eq_one (h : FixesBelow k τ) (hk : n ≤ k + 1) : τ = 1 := by
  ext i
  show (τ i).val = i.val
  by_cases hi : i.val < k
  · rw [h i hi]
  · have hle := (h.le_iff i).mpr (not_lt.mp hi)
    have hlt := i.isLt
    have hlt' := (τ i).isLt
    omega

/-- Two exchanges that bring the same row to position `k`. -/
theorem swap_mul_mul_swap {k : Fin n} (h : FixesBelow k τ) {p q : Fin n} (hp : k ≤ p)
    (hq : k ≤ q) (hpq : τ q = p) : FixesBelow (k + 1) (Equiv.swap k p * τ * Equiv.swap k q) := by
  intro i hi
  show Equiv.swap k p (τ (Equiv.swap k q i)) = i
  have hik : i ≤ k := Fin.le_def.mpr (Nat.lt_succ_iff.mp hi)
  rcases hik.lt_or_eq with hlt | rfl
  · rw [swap_apply_of_ne_of_ne hlt.ne (hlt.trans_le hq).ne, h i hlt,
      swap_apply_of_ne_of_ne hlt.ne (hlt.trans_le hp).ne]
  · rw [swap_apply_left, hpq, swap_apply_right]

/-- Clearing column `k` commutes with a permutation of the rows below row `k`. -/
theorem sub_multipliers_mul [Field F] {m : Type*} {k : Fin n} (h : FixesBelow (k + 1) τ)
    (A : Matrix (Fin n) (Fin n) F) (M : Matrix (Fin n) m F) :
    (M - multipliers k A * M).submatrix τ id
      = M.submatrix τ id - multipliers k (A.submatrix τ id) * M.submatrix τ id := by
  have hk : τ k = k := h k (Nat.lt_succ_self k)
  ext i j
  rw [submatrix_apply, sub_multipliers_mul_apply, sub_multipliers_mul_apply, submatrix_apply,
    submatrix_apply, submatrix_apply, submatrix_apply, hk]
  have hiff : k < τ i ↔ k < i := h.le_iff i
  simp only [hiff, id]

end FixesBelow

/-! ### The largest entry -/

variable [LinearOrder F] {k : Fin n} {τ : Perm (Fin n)} {f : Fin n → F} {p q : Fin n}

/-- The largest entry does not depend on the order, … -/
theorem IsFirstMax.apply_eq (hp : IsFirstMax k f p) (hq : IsFirstMax k (f ∘ τ) q)
    (h : FixesBelow k τ) : f (τ q) = f p := by
  apply le_antisymm
  · exact hp.max (τ q) ((h.le_iff q).mpr hq.le)
  · have hle := hq.max (τ.symm p) ((h.symm.le_iff p).mpr hp.le)
    simpa using hle

/-- … and if it occurs only once, both orders find the same row. -/
theorem IsFirstMax.reorder (hp : IsFirstMax k f p) (hq : IsFirstMax k (f ∘ τ) q)
    (h : FixesBelow k τ) (huniq : ∀ i, k ≤ i → f i = f p → i = p) : τ q = p :=
  huniq (τ q) ((h.le_iff q).mpr hq.le) (hp.apply_eq hq h)

end Dgesv
