import Mathlib.Data.Fintype.Fin
import Mathlib.LinearAlgebra.Matrix.AbsoluteValue
import Dgesv.Lib.LU

namespace Dgesv

open Matrix Equiv

/-!
# Pivots as ratios of minors

The pivots of an elimination are computed entry by entry, but they are determined by the
given matrix: with the rows in the order `σ`, the pivot of step `k` is the ratio of two
consecutive leading minors.  Partial pivoting itself can therefore be described on the
given matrix alone: bring to position `k` the first row that makes the next leading minor
largest in size.

* `lead A σ k` — the leading `k × k` minor, rows in the order `σ`;
* `LUPrefix.lead_eq`, `LUPrefix.lead_succ`, `LUPrefix.lead_swap` — the minors, read off the
  factorisation;
* `bordered A σ k v i` — that minor, bordered by row `i` and a column `v`;
  `LUPrefix.entries`: every entry is the ratio of the two;
* `firstMax`, `pivotOrder`, `pivotMinor` — partial pivoting without an elimination;
* `pivotOrder_mul_diagonal` — it does not depend on the units of the columns;
* `LUPrefix.pivotOrder_succ` — it is the order an elimination with partial pivoting makes;
* `exists_lead_eq_intCast`, `abs_lead_le` — minors of integer and of bounded matrices.
-/

variable {F : Type*} [Field F] {n p : ℕ}

/-! ### Leading minors -/

/-- The leading `k × k` minor of `A` with its rows in the order `σ`. -/
def lead (A : Matrix (Fin n) (Fin n) F) (σ : Perm (Fin n)) (k : ℕ) : F :=
  ((A.submatrix σ id).toSquareBlockProp fun i => i.val < k).det

@[simp] theorem lead_zero (A : Matrix (Fin n) (Fin n) F) (σ : Perm (Fin n)) :
    lead A σ 0 = 1 :=
  have : IsEmpty {i : Fin n // i.val < 0} := ⟨fun i => Nat.not_lt_zero _ i.2⟩
  det_isEmpty

/-- The product of the first `k` diagonal entries. -/
def diagProd (A : Matrix (Fin n) (Fin n) F) (k : ℕ) : F :=
  ∏ l with l.val < k, A l l

theorem diagProd_succ (A : Matrix (Fin n) (Fin n) F) (k : Fin n) :
    diagProd A (k + 1) = diagProd A k * A k k := by
  have hset : Finset.univ.filter (fun l : Fin n => l.val < k.val + 1)
      = insert k (Finset.univ.filter fun l : Fin n => l.val < k.val) := by
    ext l
    simp only [Finset.mem_filter, Finset.mem_univ, true_and, Finset.mem_insert, Fin.ext_iff]
    omega
  rw [diagProd, hset, Finset.prod_insert (by simp), mul_comm]
  rfl

namespace LUPrefix

variable {A₀ L A : Matrix (Fin n) (Fin n) F} {B₀ B : Matrix (Fin n) (Fin p) F} {k : ℕ}
  {σ : Perm (Fin n)}

/-- The leading minors of the given matrix are products of diagonal entries, up to and
    including the one the next pivot takes part in. -/
theorem lead_eq (h : LUPrefix A₀ B₀ k σ L A B) {m : ℕ} (hm : m ≤ k + 1) :
    lead A₀ σ m = diagProd A m := by
  -- `L` is lower triangular, so leading blocks multiply.
  have hblock : (A₀.submatrix σ id).toSquareBlockProp (fun i => i.val < m)
      = L.toSquareBlockProp (fun i => i.val < m) * A.toSquareBlockProp (fun i => i.val < m) := by
    ext ⟨i, hi⟩ ⟨j, hj⟩
    rw [h.hA]
    show (L * A) i j = ∑ l : {l : Fin n // l.val < m}, L i l * A l j
    rw [mul_apply, ← Finset.sum_subtype (Finset.univ.filter fun l : Fin n => l.val < m)
      (by simp) fun l => L i l * A l j]
    refine (Finset.sum_subset (Finset.subset_univ _) fun l _ hl => ?_).symm
    have hil : i < l := by
      rw [Finset.mem_filter, not_and] at hl
      exact Fin.lt_def.mpr (by have := hl (Finset.mem_univ l); omega)
    rw [h.lower hil, zero_mul]
  have hL : (L.toSquareBlockProp fun i => i.val < m).det = 1 := by
    have hlow : (L.toSquareBlockProp fun i => i.val < m).IsLowerTriangular :=
      fun i j hij => h.lower hij
    rw [det_of_isLowerTriangular _ hlow]
    exact Finset.prod_eq_one fun i _ => h.diag i
  have hA : (A.toSquareBlockProp fun i => i.val < m).det = diagProd A m := by
    have hup : (A.toSquareBlockProp fun i => i.val < m).IsUpperTriangular := by
      rintro ⟨i, hi⟩ ⟨j, hj⟩ hij
      have hij : j < i := hij
      exact h.zeros i j (by have := Fin.lt_def.mp hij; omega) hij
    rw [det_of_isUpperTriangular hup, diagProd,
      Finset.prod_subtype (p := fun l : Fin n => l.val < m) _ (by simp) fun l => A l l]
    rfl
  rw [lead, hblock, det_mul, hL, hA, one_mul]

/-- A diagonal entry is the ratio of two consecutive leading minors. -/
theorem lead_succ (h : LUPrefix A₀ B₀ k σ L A B) {i : Fin n} (hi : i.val ≤ k) :
    lead A₀ σ (i + 1) = lead A₀ σ i * A i i := by
  rw [h.lead_eq (by omega), h.lead_eq (by omega), diagProd_succ]

/-- The next leading minor if row `i` were taken next. -/
theorem lead_swap {k : Fin n} (h : LUPrefix A₀ B₀ k σ L A B) {i : Fin n} (hi : k ≤ i) :
    lead A₀ (σ * Equiv.swap k i) (k + 1) = lead A₀ σ k * A i k := by
  rw [(h.swap le_rfl hi).lead_eq le_rfl, h.lead_eq (Nat.le_succ _), diagProd_succ,
    submatrix_apply, swap_apply_left]
  congr 1
  refine Finset.prod_congr rfl fun l hl => ?_
  have hlk : l < k := Fin.lt_def.mpr (Finset.mem_filter.mp hl).2
  rw [submatrix_apply, swap_apply_of_ne_of_ne hlk.ne (hlk.trans_le hi).ne]
  rfl

end LUPrefix

/-! ### Bordered minors -/

/-- The leading `k × k` minor of `A`, bordered by row `i` and by the column `v`, with the rows
    in the order `σ`. -/
def bordered (A : Matrix (Fin n) (Fin n) F) (σ : Perm (Fin n)) (k : ℕ) (v : Fin n → F)
    (i : Fin n) : F :=
  (fromBlocks ((A.submatrix σ id).toSquareBlockProp fun l => l.val < k)
    (Matrix.of fun l (_ : Unit) => v (σ l.val))
    (Matrix.of fun (_ : Unit) (l : {l : Fin n // l.val < k}) => A (σ i) l)
    (Matrix.of fun _ _ => v (σ i))).det

namespace LUPrefix

variable {A₀ L A : Matrix (Fin n) (Fin n) F} {B₀ B : Matrix (Fin n) (Fin p) F} {k : ℕ}
  {σ : Perm (Fin n)}

/-- A row of `L` times a column, up to position `m`, for a row before it … -/
theorem sum_row_of_lt (h : LUPrefix A₀ B₀ k σ L A B) {m : ℕ} {r : Fin n} (hr : r.val < m)
    (w : Fin n → F) :
    ∑ l, L r l * w l = ∑ l : {l : Fin n // l.val < m}, L r l * w l := by
  rw [← Finset.sum_subtype (Finset.univ.filter fun l : Fin n => l.val < m) (by simp)
    fun l => L r l * w l]
  refine (Finset.sum_subset (Finset.subset_univ _) fun l _ hl => ?_).symm
  rw [Finset.mem_filter, not_and] at hl
  have hml := hl (Finset.mem_univ l)
  have hrl : r < l := Fin.lt_def.mpr (by omega)
  rw [h.lower hrl, zero_mul]

/-- … and for a row from there on: up to column `k`, its own entry is the only other one. -/
theorem sum_row (h : LUPrefix A₀ B₀ k σ L A B) (i : Fin n) (w : Fin n → F) :
    ∑ l, L i l * w l = ∑ l : {l : Fin n // l.val < min i.val k}, L i l * w l + w i := by
  rw [← Finset.sum_subtype (Finset.univ.filter fun l : Fin n => l.val < min i.val k) (by simp)
    fun l => L i l * w l]
  have hi : i ∉ Finset.univ.filter fun l : Fin n => l.val < min i.val k := by
    rw [Finset.mem_filter]
    omega
  have hsum := Finset.sum_insert (f := fun l => L i l * w l) hi
  rw [h.diag, one_mul, add_comm] at hsum
  rw [← hsum]
  refine (Finset.sum_subset (Finset.subset_univ _) fun l _ hl => ?_).symm
  rw [Finset.mem_insert, Finset.mem_filter, not_or] at hl
  obtain ⟨hli, hlm⟩ := hl
  by_cases hil : i < l
  · rw [h.lower hil, zero_mul]
  · -- Below the diagonal, `L` is zero from column `k` on.
    have hval : l.val ≠ i.val := fun he => hli (Fin.ext he)
    have hlt : ¬ i.val < l.val := fun hlt => hil (Fin.lt_def.mpr hlt)
    have hkl : k ≤ l.val := by
      by_contra hlk
      exact hlm ⟨Finset.mem_univ l, by omega⟩
    rw [h.tail i l hkl (Ne.symm hli), zero_mul]

/-- **An entry is the ratio of two minors.**  What the elimination has made of the column `v`
    of the given system is `w`. -/
theorem bordered_eq (h : LUPrefix A₀ B₀ k σ L A B) (i : Fin n) {v w : Fin n → F}
    (hv : ∀ r, v (σ r) = ∑ l, L r l * w l) :
    bordered A₀ σ (min i.val k) v i = lead A₀ σ (min i.val k) * w i := by
  let m := min i.val k
  let S := {l : Fin n // l.val < m}
  let L₁ : Matrix S S F := Matrix.of fun r l => L r l
  let U₁ : Matrix S S F := Matrix.of fun r l => A r l
  have hA : ∀ r l, A₀ (σ r) l = ∑ q, L r q * A q l := fun r l => congrFun (congrFun h.hA r) l
  have hlead : (A₀.submatrix σ id).toSquareBlockProp (fun l => l.val < m) = L₁ * U₁ := by
    ext ⟨r, hr⟩ ⟨l, hl⟩
    exact (hA r l).trans (h.sum_row_of_lt hr fun q => A q l)
  have hborder : fromBlocks ((A₀.submatrix σ id).toSquareBlockProp fun l => l.val < m)
      (Matrix.of fun (l : S) (_ : Unit) => v (σ l.val))
      (Matrix.of fun (_ : Unit) (l : S) => A₀ (σ i) l) (Matrix.of fun _ _ => v (σ i))
      = fromBlocks L₁ 0 (Matrix.of fun (_ : Unit) (l : S) => L i l) 1
        * fromBlocks U₁ (Matrix.of fun (l : S) (_ : Unit) => w l) 0
          (Matrix.of fun (_ _ : Unit) => w i) := by
    rw [fromBlocks_multiply, hlead]
    congr 1
    · rw [Matrix.zero_mul, add_zero]
    · ext ⟨r, hr⟩ u
      rw [Matrix.zero_mul, add_zero]
      exact (hv r).trans (h.sum_row_of_lt hr w)
    · ext u ⟨l, hl⟩
      have hzero : A i l = 0 := h.zeros i l (by omega) (Fin.lt_def.mpr (by omega))
      rw [Matrix.mul_zero, add_zero]
      refine (hA i l).trans ((h.sum_row i fun q => A q l).trans ?_)
      rw [hzero, add_zero]
      rfl
    · ext u u'
      rw [Matrix.one_mul]
      exact (hv i).trans (h.sum_row i w)
  have hcorner : (Matrix.of fun (_ _ : Unit) => w i).det = w i := det_unique _
  unfold bordered lead
  rw [hborder, hlead, det_mul, det_mul, det_fromBlocks_zero₁₂, det_fromBlocks_zero₂₁, det_one,
    mul_one, hcorner, mul_assoc]

/-- Pivots different from zero give leading minors different from zero. -/
theorem lead_ne (h : LUPrefix A₀ B₀ k σ L A B) (hpiv : ∀ i : Fin n, i.val < k → A i i ≠ 0) {m : ℕ}
    (hm : m ≤ k) : lead A₀ σ m ≠ 0 := by
  rw [h.lead_eq (by omega), diagProd, Finset.prod_ne_zero_iff]
  intro l hl
  exact hpiv l ((Finset.mem_filter.mp hl).2.trans_le hm)

/-- **All entries after `k` steps**, of both matrices, from the given ones. -/
theorem entries (h : LUPrefix A₀ B₀ k σ L A B) (hpiv : ∀ i : Fin n, i.val < k → A i i ≠ 0)
    (i : Fin n) :
    lead A₀ σ (min i.val k) ≠ 0 ∧
      (∀ j, A i j = bordered A₀ σ (min i.val k) (fun r => A₀ r j) i / lead A₀ σ (min i.val k)) ∧
      ∀ j, B i j = bordered A₀ σ (min i.val k) (fun r => B₀ r j) i / lead A₀ σ (min i.val k) := by
  have hne := h.lead_ne hpiv (min_le_right i.val k)
  refine ⟨hne, ?_, ?_⟩
  · intro j
    rw [h.bordered_eq i fun r => congrFun (congrFun h.hA r) j, mul_div_cancel_left₀ _ hne]
  · intro j
    rw [h.bordered_eq i fun r => congrFun (congrFun h.hB r) j, mul_div_cancel_left₀ _ hne]

end LUPrefix

/-! ### Partial pivoting, described on the given matrix -/

variable [LinearOrder F]

/-- `m` is the first index `≥ k` at which `f` is largest. -/
structure IsFirstMax (k : Fin n) (f : Fin n → F) (m : Fin n) : Prop where
  le : k ≤ m
  max : ∀ i, k ≤ i → f i ≤ f m
  first : ∀ i, k ≤ i → i < m → f i < f m

/-- The indices `≥ k` at which `f` is largest. -/
def maxima (k : Fin n) (f : Fin n → F) : Finset (Fin n) :=
  Finset.univ.filter fun m => k ≤ m ∧ ∀ i, k ≤ i → f i ≤ f m

omit [Field F] in
theorem maxima_nonempty (k : Fin n) (f : Fin n → F) : (maxima k f).Nonempty := by
  obtain ⟨m, hm, hmax⟩ := Finset.exists_max_image (Finset.Ici k) f ⟨k, Finset.mem_Ici.mpr le_rfl⟩
  refine ⟨m, Finset.mem_filter.mpr ⟨Finset.mem_univ m, Finset.mem_Ici.mp hm, fun i hi => ?_⟩⟩
  exact hmax i (Finset.mem_Ici.mpr hi)

/-- The first index `≥ k` at which `f` is largest. -/
def firstMax (k : Fin n) (f : Fin n → F) : Fin n := (maxima k f).min' (maxima_nonempty k f)

omit [Field F] in
theorem IsFirstMax.firstMax_eq {k m : Fin n} {f : Fin n → F} (h : IsFirstMax k f m) :
    firstMax k f = m := by
  have hm : m ∈ maxima k f := Finset.mem_filter.mpr ⟨Finset.mem_univ m, h.le, h.max⟩
  refine le_antisymm (Finset.min'_le _ _ hm) ?_
  have hmem := Finset.mem_filter.mp (Finset.min'_mem (maxima k f) (maxima_nonempty k f))
  by_contra hlt
  exact absurd (h.first _ hmem.2.1 (not_le.mp hlt)) (not_lt.mpr (hmem.2.2 m h.le))

/-- The row order after `k` steps of partial pivoting on `A`: step `k` brings to position
    `k` the first of the remaining rows that makes the next leading minor largest. -/
def pivotOrder (A : Matrix (Fin n) (Fin n) F) : ℕ → Perm (Fin n)
  | 0 => 1
  | k + 1 =>
    if h : k < n then
      pivotOrder A k * Equiv.swap ⟨k, h⟩
        (firstMax ⟨k, h⟩ fun i => |lead A (pivotOrder A k * Equiv.swap ⟨k, h⟩ i) (k + 1)|)
    else pivotOrder A k

/-- The `k`-th leading minor of `A` in the row order of partial pivoting. -/
def pivotMinor (A : Matrix (Fin n) (Fin n) F) (k : ℕ) : F := lead A (pivotOrder A k) k

/-! ### Columns in other units -/

omit [LinearOrder F] in
/-- Multiplying the columns by `d` multiplies the leading minors by the factors before them. -/
theorem lead_mul_diagonal (A : Matrix (Fin n) (Fin n) F) (d : Fin n → F) (σ : Perm (Fin n))
    (k : ℕ) : lead (A * diagonal d) σ k = lead A σ k * diagProd (diagonal d) k := by
  have hblock : ((A * diagonal d).submatrix σ id).toSquareBlockProp (fun i => i.val < k)
      = (A.submatrix σ id).toSquareBlockProp (fun i => i.val < k)
        * diagonal fun i : {i : Fin n // i.val < k} => d i := by
    ext i j
    rw [mul_diagonal]
    exact mul_diagonal d A (σ i) j
  have hprod : diagProd (diagonal d) k = ∏ i : {i : Fin n // i.val < k}, d i := by
    simp only [diagProd, diagonal_apply_eq]
    exact Finset.prod_subtype _ (by simp) d
  rw [lead, hblock, det_mul, det_diagonal, hprod]
  rfl

/-- A positive factor does not move the largest. -/
theorem firstMax_mul_const [IsStrictOrderedRing F] (k : Fin n) (f : Fin n → F) {c : F}
    (hc : 0 < c) : firstMax k (fun i => f i * c) = firstMax k f := by
  have hset : maxima k (fun i => f i * c) = maxima k f := by
    simp only [maxima, mul_le_mul_iff_left₀ hc]
  simp only [firstMax, hset]

omit [LinearOrder F] in
theorem diagProd_diagonal_ne {d : Fin n → F} (hd : ∀ j, d j ≠ 0) (k : ℕ) :
    diagProd (diagonal d) k ≠ 0 := by
  rw [diagProd, Finset.prod_ne_zero_iff]
  intro l _
  rw [diagonal_apply_eq]
  exact hd l

/-- **Partial pivoting does not depend on the units of the columns.** -/
theorem pivotOrder_mul_diagonal [IsStrictOrderedRing F] (A : Matrix (Fin n) (Fin n) F)
    {d : Fin n → F} (hd : ∀ j, d j ≠ 0) (k : ℕ) :
    pivotOrder (A * diagonal d) k = pivotOrder A k := by
  induction k with
  | zero => rfl
  | succ k ih =>
    by_cases hk : k < n
    · -- The candidates for step `k` are all multiplied by the same factor.
      have hpos : 0 < |diagProd (diagonal d) (k + 1)| := abs_pos.mpr (diagProd_diagonal_ne hd _)
      simp only [pivotOrder, dif_pos hk, ih, lead_mul_diagonal, abs_mul,
        firstMax_mul_const _ _ hpos]
    · simp only [pivotOrder, dif_neg hk, ih]

theorem pivotMinor_mul_diagonal [IsStrictOrderedRing F] (A : Matrix (Fin n) (Fin n) F)
    {d : Fin n → F} (hd : ∀ j, d j ≠ 0) (k : ℕ) :
    pivotMinor (A * diagonal d) k = pivotMinor A k * diagProd (diagonal d) k := by
  rw [pivotMinor, pivotOrder_mul_diagonal A hd, lead_mul_diagonal]
  rfl

/-! ### Size of the minors -/

omit [LinearOrder F] in
/-- The minors of an integer matrix are integers. -/
theorem exists_lead_eq_intCast (A : Matrix (Fin n) (Fin n) ℤ) (σ : Perm (Fin n)) (k : ℕ) :
    ∃ z : ℤ, lead (A.map (Int.cast : ℤ → F)) σ k = z := by
  refine ⟨((A.submatrix σ id).toSquareBlockProp fun i => i.val < k).det, ?_⟩
  rw [Int.cast_det]
  rfl

/-- A minor of order `k` is at most `k! C ^ k` in size if all entries are at most `C ≥ 1`. -/
theorem abs_lead_le [IsStrictOrderedRing F] {A : Matrix (Fin n) (Fin n) F} {C : F} (hC : 1 ≤ C)
    (hA : ∀ i j, |A i j| ≤ C) (σ : Perm (Fin n)) (k : ℕ) :
    |lead A σ k| ≤ k.factorial * C ^ k := by
  let B := {i : Fin n // i.val < k}
  have hcard : Fintype.card B ≤ k := by
    have hinj : Function.Injective fun i : B => (⟨i.1.val, i.2⟩ : Fin k) := by
      intro i j hij
      exact Subtype.ext (Fin.ext (Fin.mk.inj hij))
    have hle := Fintype.card_le_of_injective _ hinj
    rwa [Fintype.card_fin] at hle
  have hdet : AbsoluteValue.abs (lead A σ k) ≤ (Fintype.card B).factorial • C ^ Fintype.card B := by
    apply det_le
    intro i j
    exact hA _ _
  rw [AbsoluteValue.abs_apply, nsmul_eq_mul] at hdet
  refine hdet.trans (mul_le_mul ?_ (pow_le_pow_right₀ hC hcard) ?_ (Nat.cast_nonneg _))
  · exact Nat.cast_le.mpr (Nat.factorial_le hcard)
  · exact pow_nonneg (zero_le_one.trans hC) _

namespace LUPrefix

variable [IsStrictOrderedRing F] {A₀ L A : Matrix (Fin n) (Fin n) F}
  {B₀ B : Matrix (Fin n) (Fin p) F} {k : Fin n}

/-- An elimination that has followed `pivotOrder` so far, and takes the first row with the
    largest entry in column `k`, goes on following it. -/
theorem pivotOrder_succ (h : LUPrefix A₀ B₀ k (pivotOrder A₀ k) L A B)
    (hne : pivotMinor A₀ k ≠ 0) {m : Fin n} (hm : IsFirstMax k (fun i => |A i k|) m) :
    pivotOrder A₀ (k + 1) = pivotOrder A₀ k * Equiv.swap k m := by
  -- The candidate minors are the entries of column `k`, all scaled by the same factor.
  have hscale : ∀ i, k ≤ i → |lead A₀ (pivotOrder A₀ k * Equiv.swap k i) (k + 1)|
      = |pivotMinor A₀ k| * |A i k| := fun i hi => by
    rw [h.lead_swap hi, abs_mul]
    rfl
  have hpos : 0 < |pivotMinor A₀ k| := abs_pos.mpr hne
  have hfirst : IsFirstMax k
      (fun i => |lead A₀ (pivotOrder A₀ k * Equiv.swap k i) (k + 1)|) m := by
    refine ⟨hm.le, fun i hi => ?_, fun i hi him => ?_⟩
    · show |lead A₀ _ _| ≤ |lead A₀ _ _|
      rw [hscale i hi, hscale m hm.le]
      exact mul_le_mul_of_nonneg_left (hm.max i hi) hpos.le
    · show |lead A₀ _ _| < |lead A₀ _ _|
      rw [hscale i hi, hscale m hm.le]
      exact mul_lt_mul_of_pos_left (hm.first i hi him) hpos
  rw [pivotOrder, dif_pos k.isLt, hfirst.firstMax_eq]

/-- The pivot of step `k` is the ratio of two consecutive minors. -/
theorem pivotMinor_succ (h : LUPrefix A₀ B₀ k (pivotOrder A₀ k) L A B)
    (hne : pivotMinor A₀ k ≠ 0) {m : Fin n} (hm : IsFirstMax k (fun i => |A i k|) m) :
    pivotMinor A₀ (k + 1) = pivotMinor A₀ k * A m k := by
  rw [pivotMinor, h.pivotOrder_succ hne hm, h.lead_swap hm.le]
  rfl

end LUPrefix

end Dgesv
