import Dgesv.Lib.LU

namespace Dgesv

open Matrix

/-!
# Column diagonal dominance

A matrix is column diagonally dominant if in every column the diagonal entry is at least as
large, in absolute value, as all the others together.  `Dominant k A` says this of the block
of `A` from row and column `k` on.

* `Dominant.abs_le` — the diagonal entry is the largest of its column;
* `Dominant.eliminate` — clearing a column leaves the next block dominant;
* `TailBound.eliminate` — and in no column does the sum of what is left grow, so neither do
  the entries.
-/

variable {F : Type*} [Field F] [LinearOrder F] [IsStrictOrderedRing F] {n : ℕ}

/-- The block from row and column `k` on is column diagonally dominant. -/
def Dominant (k : ℕ) (A : Matrix (Fin n) (Fin n) F) : Prop :=
  ∀ j : Fin n, k ≤ j → ∑ i with k ≤ i.val ∧ i ≠ j, |A i j| ≤ |A j j|

namespace Dominant

variable {A : Matrix (Fin n) (Fin n) F}

/-- The first diagonal entry of the block is the largest of its column. -/
theorem abs_le {k : Fin n} (h : Dominant k A) {i : Fin n} (hi : k ≤ i) : |A i k| ≤ |A k k| := by
  by_cases hik : i = k
  · rw [hik]
  · have hmem : i ∈ Finset.univ.filter fun l : Fin n => k.val ≤ l.val ∧ l ≠ k :=
      Finset.mem_filter.mpr ⟨Finset.mem_univ i, hi, hik⟩
    exact (Finset.single_le_sum (fun l _ => abs_nonneg (A l k)) hmem).trans (h k le_rfl)

/-- The sum for column `j` of a block, with the term of one row set apart. -/
theorem add_abs_le {k : ℕ} (h : Dominant k A) {j r : Fin n} (hj : k ≤ j) (hr : k ≤ r)
    (hrj : r ≠ j) {S : Finset (Fin n)} (hS : ∀ i ∈ S, k ≤ i ∧ i ≠ j) (hrS : r ∉ S) :
    |A r j| + ∑ i ∈ S, |A i j| ≤ |A j j| := by
  rw [← Finset.sum_insert (f := fun i => |A i j|) hrS]
  refine le_trans (Finset.sum_le_sum_of_subset_of_nonneg ?_ fun i _ _ => abs_nonneg _) (h j hj)
  intro i hi
  rcases Finset.mem_insert.mp hi with rfl | hi
  · exact Finset.mem_filter.mpr ⟨Finset.mem_univ i, hr, hrj⟩
  · exact Finset.mem_filter.mpr ⟨Finset.mem_univ i, hS i hi⟩

/-- **Clearing column `k` leaves the next block dominant.** -/
theorem eliminate {k : Fin n} (h : Dominant k A) (hpiv : A k k ≠ 0) :
    Dominant (k + 1) (A - multipliers k A * A) := by
  intro j hj
  have hkj : k < j := Fin.lt_def.mpr hj
  let S : Finset (Fin n) := Finset.univ.filter fun i => k.val + 1 ≤ i.val ∧ i ≠ j
  have hS : ∀ i ∈ S, k < i ∧ i ≠ j := by
    intro i hi
    have hmem := (Finset.mem_filter.mp hi).2
    exact ⟨Fin.lt_def.mpr hmem.1, hmem.2⟩
  -- Column `j` gives up the entry of row `k`, and column `k` that of row `j`.
  have hcol : |A k j| + ∑ i ∈ S, |A i j| ≤ |A j j| := by
    refine h.add_abs_le hkj.le le_rfl hkj.ne (fun i hi => ⟨(hS i hi).1.le, (hS i hi).2⟩) ?_
    exact fun hk => lt_irrefl k (hS k hk).1
  have hpivot : |A j k| + ∑ i ∈ S, |A i k| ≤ |A k k| := by
    refine h.add_abs_le le_rfl hkj.le hkj.ne' (fun i hi => ⟨(hS i hi).1.le, (hS i hi).1.ne'⟩) ?_
    exact fun hj => (hS j hj).2 rfl
  have hpos : 0 < |A k k| := abs_pos.mpr hpiv
  let c := |A k j| / |A k k|
  have hc : 0 ≤ c := div_nonneg (abs_nonneg _) (abs_nonneg _)
  have hmul : |A k k| * c = |A k j| := mul_div_cancel₀ _ hpos.ne'
  have habs : ∀ i, |A i k / A k k * A k j| = |A i k| * c := by
    intro i
    rw [abs_mul, abs_div, div_mul_eq_mul_div, mul_div_assoc]
  have hentry : ∀ i, k < i → (A - multipliers k A * A) i j = A i j - A i k / A k k * A k j := by
    intro i hi
    rw [sub_multipliers_mul_apply, if_pos hi]
  calc ∑ i ∈ S, |(A - multipliers k A * A) i j|
      ≤ ∑ i ∈ S, (|A i j| + |A i k| * c) := by
        refine Finset.sum_le_sum fun i hi => ?_
        rw [hentry i (hS i hi).1, ← habs i]
        exact abs_sub _ _
    _ = ∑ i ∈ S, |A i j| + (∑ i ∈ S, |A i k|) * c := by
        rw [Finset.sum_add_distrib, Finset.sum_mul]
    _ ≤ (|A j j| - |A k j|) + (|A k k| - |A j k|) * c := by
        refine add_le_add (by linarith) (mul_le_mul_of_nonneg_right (by linarith) hc)
    _ = |A j j| - |A j k / A k k * A k j| := by
        rw [habs, sub_mul, hmul]
        ring
    _ ≤ |A j j - A j k / A k k * A k j| := abs_sub_abs_le_abs_sub _ _
    _ = |(A - multipliers k A * A) j j| := by rw [hentry j hkj]

end Dominant

/-! ### What is left of a column -/

variable {m : Type*} {A : Matrix (Fin n) (Fin n) F} {M : Matrix (Fin n) m F} {c : m → F}

/-- The sizes of the entries of column `j` from row `k` on, added up. -/
def tailSum (k : ℕ) (M : Matrix (Fin n) m F) (j : m) : F := ∑ i with k ≤ i.val, |M i j|

omit [IsStrictOrderedRing F] in
/-- One row set apart. -/
theorem tailSum_eq (k : Fin n) (M : Matrix (Fin n) m F) (j : m) :
    tailSum k M j = |M k j| + tailSum (k + 1) M j := by
  have hset : Finset.univ.filter (fun i : Fin n => k.val ≤ i.val)
      = insert k (Finset.univ.filter fun i : Fin n => k.val + 1 ≤ i.val) := by
    ext i
    simp only [Finset.mem_filter, Finset.mem_univ, true_and, Finset.mem_insert, Fin.ext_iff]
    omega
  unfold tailSum
  rw [hset, Finset.sum_insert (by simp)]

theorem abs_le_tailSum {k : ℕ} {i : Fin n} (hi : k ≤ i) (M : Matrix (Fin n) m F) (j : m) :
    |M i j| ≤ tailSum k M j :=
  Finset.single_le_sum (f := fun i => |M i j|) (fun l _ => abs_nonneg (M l j))
    (Finset.mem_filter.mpr ⟨Finset.mem_univ i, hi⟩)

/-- The first column of a dominant block. -/
theorem Dominant.tailSum_le {k : Fin n} (h : Dominant k A) : tailSum (k + 1) A k ≤ |A k k| := by
  refine le_trans (Finset.sum_le_sum_of_subset_of_nonneg ?_ fun i _ _ => abs_nonneg _)
    (h k le_rfl)
  intro i hi
  have hki : k.val + 1 ≤ i.val := (Finset.mem_filter.mp hi).2
  refine Finset.mem_filter.mpr ⟨Finset.mem_univ i, by omega, ?_⟩
  rintro rfl
  omega

/-- **Clearing a column of a dominant block** adds to the rows that are left, in every column,
    no more than the row that is finished takes with it. -/
theorem Dominant.tailSum_eliminate {k : Fin n} (h : Dominant k A) (hpiv : A k k ≠ 0)
    (M : Matrix (Fin n) m F) (j : m) :
    tailSum (k + 1) (M - multipliers k A * M) j ≤ tailSum k M j := by
  have hpos : 0 < |A k k| := abs_pos.mpr hpiv
  have hterm : ∀ i : Fin n, k.val + 1 ≤ i.val → |(M - multipliers k A * M) i j|
      ≤ |M i j| + |A i k| * (|M k j| / |A k k|) := by
    intro i hi
    rw [sub_multipliers_mul_apply, if_pos (Fin.lt_def.mpr hi)]
    refine (abs_sub _ _).trans (le_of_eq ?_)
    rw [abs_mul, abs_div]
    ring
  calc tailSum (k + 1) (M - multipliers k A * M) j
      ≤ ∑ i with k.val + 1 ≤ i.val, (|M i j| + |A i k| * (|M k j| / |A k k|)) :=
        Finset.sum_le_sum fun i hi => hterm i (Finset.mem_filter.mp hi).2
    _ = tailSum (k + 1) M j + tailSum (k + 1) A k * (|M k j| / |A k k|) := by
        rw [Finset.sum_add_distrib, ← Finset.sum_mul]
        rfl
    _ ≤ tailSum (k + 1) M j + |A k k| * (|M k j| / |A k k|) := by
        have hratio : 0 ≤ |M k j| / |A k k| := div_nonneg (abs_nonneg _) (abs_nonneg _)
        exact add_le_add le_rfl (mul_le_mul_of_nonneg_right h.tailSum_le hratio)
    _ = tailSum k M j := by rw [mul_div_cancel₀ _ hpos.ne', tailSum_eq, add_comm]

/-- The entries of each column, and the sum of what is left of it, are bounded by `c`. -/
structure TailBound (k : ℕ) (c : m → F) (M : Matrix (Fin n) m F) : Prop where
  le : ∀ i j, |M i j| ≤ c j
  tail : ∀ j, tailSum k M j ≤ c j

theorem TailBound.init (h : ∀ j, tailSum 0 M j ≤ c j) : TailBound 0 c M where
  le i j := (abs_le_tailSum (Nat.zero_le i.val) M j).trans (h j)
  tail := h

/-- **A step keeps the bound.** -/
theorem TailBound.eliminate {k : Fin n} (h : TailBound k c M) (hdom : Dominant k A)
    (hpiv : A k k ≠ 0) : TailBound (k + 1) c (M - multipliers k A * M) := by
  have htail : ∀ j, tailSum (k + 1) (M - multipliers k A * M) j ≤ c j := fun j =>
    (hdom.tailSum_eliminate hpiv M j).trans (h.tail j)
  refine ⟨?_, htail⟩
  intro i j
  by_cases hki : k < i
  · exact (abs_le_tailSum (Fin.lt_def.mp hki) _ j).trans (htail j)
  · rw [sub_multipliers_mul_apply, if_neg hki, sub_zero]
    exact h.le i j

end Dgesv
