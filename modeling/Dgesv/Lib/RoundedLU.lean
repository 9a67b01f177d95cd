import Dgesv.Lib.Reorder
import Dgesv.Lib.Rounding

namespace Dgesv

open Matrix Equiv

/-!
# Triangular factors in rounded arithmetic

An elimination with rounding errors does not factor the given matrix, but a matrix close to
it.  `Expands R d M₀ M L` says so entry by entry: `M₀` is `L * M` with a factor
`R.Near d` on each product.  Nothing is assumed about the sizes of the factors.

* `UnitLower k L` — the shape of the multipliers after `k` steps, and `unitLower k f` — the matrix
  of that shape with given columns;
* `Expands.submatrix`, `Expands.eliminate` — a row exchange, and a step of the elimination,
  which costs one more rounding error;
* `Expands.abs_sub_le` — the distance from the exact product;
* `Expands.exists_perturbation` — a system whose two sides expand in the same factor, and
  whose triangular part is solved with errors, is solved exactly for a nearby matrix.
-/

variable {n : ℕ} {m : Type*} {R : Rounding} {L : Matrix (Fin n) (Fin n) ℚ}

/-! ### The shape of the multipliers -/

/-- Unit lower triangular, and the identity in the columns from `k` on. -/
structure UnitLower (k : ℕ) (L : Matrix (Fin n) (Fin n) ℚ) : Prop where
  diag : ∀ i, L i i = 1
  lower : ∀ i l, i < l → L i l = 0
  tail : ∀ i l : Fin n, k ≤ l.val → i ≠ l → L i l = 0

/-- Enter the multipliers `f` below the diagonal of column `k`. -/
def withColumn (k : Fin n) (f : Fin n → ℚ) (L : Matrix (Fin n) (Fin n) ℚ) :
    Matrix (Fin n) (Fin n) ℚ :=
  Matrix.of fun i l => if l = k ∧ k < i then f i else L i l

theorem withColumn_apply (k : Fin n) (f : Fin n → ℚ) (i l : Fin n) :
    withColumn k f L i l = if l = k ∧ k < i then f i else L i l := rfl

namespace UnitLower

theorem one (k : ℕ) : UnitLower k (1 : Matrix (Fin n) (Fin n) ℚ) where
  diag i := one_apply_eq i
  lower _ _ hil := one_apply_ne hil.ne
  tail _ _ _ hil := one_apply_ne hil

theorem mono {k k' : ℕ} (h : UnitLower k L) (hk : k ≤ k') : UnitLower k' L where
  diag := h.diag
  lower := h.lower
  tail i l hl := h.tail i l (hk.trans hl)

/-- Exchanging unfinished rows. -/
theorem submatrix {k : ℕ} {τ : Perm (Fin n)} (h : UnitLower k L) (hτ : FixesBelow k τ) :
    UnitLower k (L.submatrix τ τ) where
  diag i := h.diag (τ i)
  lower i l hil := by
    show L (τ i) (τ l) = 0
    by_cases hl : l.val < k
    · have hi : i.val < k := lt_trans hil hl
      rw [hτ i hi, hτ l hl]
      exact h.lower i l hil
    · exact h.tail _ _ ((hτ.le_iff l).mpr (not_lt.mp hl)) (τ.injective.ne hil.ne)
  tail i l hl hil := h.tail _ _ ((hτ.le_iff l).mpr hl) (τ.injective.ne hil)

/-- Entering a column. -/
theorem withColumn {k : Fin n} (h : UnitLower k L) (f : Fin n → ℚ) :
    UnitLower (k + 1) (withColumn k f L) where
  diag i := by
    rw [withColumn_apply, if_neg, h.diag i]
    rintro ⟨rfl, hlt⟩
    exact lt_irrefl i hlt
  lower i l hil := by
    rw [withColumn_apply, if_neg, h.lower i l hil]
    rintro ⟨rfl, hlt⟩
    exact lt_asymm hil hlt
  tail i l hl hil := by
    rw [withColumn_apply, if_neg, h.tail i l (by omega) hil]
    rintro ⟨rfl, -⟩
    omega

end UnitLower

/-- The unit lower triangular matrix with the entries `f` below the diagonal of the columns
    before `k`. -/
def unitLower (k : ℕ) (f : Fin n → Fin n → ℚ) : Matrix (Fin n) (Fin n) ℚ :=
  Matrix.of fun i l => if l < i ∧ l.val < k then f i l else (1 : Matrix (Fin n) (Fin n) ℚ) i l

theorem unitLower_apply (k : ℕ) (f : Fin n → Fin n → ℚ) (i l : Fin n) :
    unitLower k f i l
      = if l < i ∧ l.val < k then f i l else (1 : Matrix (Fin n) (Fin n) ℚ) i l := rfl

theorem unitLower_zero (f : Fin n → Fin n → ℚ) : unitLower 0 f = 1 := by
  ext i l
  rw [unitLower_apply, if_neg fun hc => Nat.not_lt_zero _ hc.2]

/-- One more column. -/
theorem unitLower_succ (k : Fin n) (f : Fin n → Fin n → ℚ) :
    unitLower (k + 1) f = withColumn k (fun i => f i k) (unitLower k f) := by
  ext i l
  rw [withColumn_apply, unitLower_apply, unitLower_apply]
  by_cases hlk : l = k
  · subst hlk
    refine if_congr ⟨fun hc => ⟨rfl, hc.1⟩, fun hc => ⟨hc.2, Nat.lt_succ_self _⟩⟩ rfl ?_
    rw [if_neg fun hc => lt_irrefl _ hc.2]
  · have hne : l.val ≠ k.val := fun hc => hlk (Fin.ext hc)
    rw [if_neg (fun hc => hlk hc.1 : ¬ (l = k ∧ k < i))]
    exact if_congr (and_congr_right fun _ => by omega) rfl rfl

/-- Exchanging unfinished rows. -/
theorem unitLower_submatrix {k : ℕ} {τ : Perm (Fin n)} (hτ : FixesBelow k τ)
    (f : Fin n → Fin n → ℚ) :
    (unitLower k f).submatrix τ τ = unitLower k fun i l => f (τ i) l := by
  ext i l
  have hone : (1 : Matrix (Fin n) (Fin n) ℚ) (τ i) (τ l) = (1 : Matrix (Fin n) (Fin n) ℚ) i l :=
    congrFun (congrFun (submatrix_one_equiv τ) i) l
  rw [submatrix_apply, unitLower_apply, unitLower_apply, hone]
  by_cases hl : l.val < k
  · rw [hτ l hl]
    refine if_congr (and_congr_left fun _ => ?_) rfl rfl
    -- An unfinished row stays one, and so below the diagonal of a finished column.
    by_cases hi : i.val < k
    · rw [hτ i hi]
    · have hτi := (hτ.le_iff i).mpr (not_lt.mp hi)
      exact iff_of_true (Fin.lt_def.mpr (by omega)) (Fin.lt_def.mpr (by omega))
  · have hτl := (hτ.le_iff l).mpr (not_lt.mp hl)
    rw [if_neg fun hc => absurd hc.2 (not_lt.mpr hτl), if_neg fun hc => hl hc.2]

/-! ### Products with rounding errors -/

/-- `M₀` is the product `L * M`, with up to `d` rounding errors on each of its terms. -/
def Expands (R : Rounding) (d : ℕ) (M₀ M : Matrix (Fin n) m ℚ) (L : Matrix (Fin n) (Fin n) ℚ) :
    Prop :=
  ∀ i j, ∃ C : Fin n → ℚ, (∀ l, R.Near d (C l)) ∧ M₀ i j = ∑ l, L i l * M l j * C l

namespace Expands

variable {d : ℕ} {M₀ M M' : Matrix (Fin n) m ℚ}

/-- Before the first step. -/
theorem init (R : Rounding) (M : Matrix (Fin n) m ℚ) : Expands R 0 M M 1 := by
  intro i j
  refine ⟨fun _ => 1, fun _ => Rounding.Near.one 0, ?_⟩
  rw [Fintype.sum_eq_single i fun l hl => by rw [one_apply_ne hl.symm, zero_mul, zero_mul]]
  rw [one_apply_eq, one_mul, mul_one]

/-- Exchanging rows. -/
theorem submatrix (h : Expands R d M₀ M L) (τ : Perm (Fin n)) :
    Expands R d (M₀.submatrix τ id) (M.submatrix τ id) (L.submatrix τ τ) := by
  intro i j
  obtain ⟨C, hC, hsum⟩ := h (τ i) j
  refine ⟨C ∘ τ, fun l => hC (τ l), ?_⟩
  rw [submatrix_apply, id, hsum]
  exact (Equiv.sum_comp τ fun l => L (τ i) l * M l j * C l).symm

/-- **A step of the elimination.**  Rows below `k` lose a multiple of row `k`; each of the two
    operations on an entry makes one error. -/
theorem eliminate {k : Fin n} {f : Fin n → ℚ} (h : Expands R d M₀ M L) (hL : UnitLower k L)
    (hkeep : ∀ i j, i ≤ k → M' i j = M i j)
    (hstep : ∀ i j, k < i → ∃ c e, R.Near 1 c ∧ R.Near 1 e ∧
      M i j = M' i j * e + f i * M k j * c) :
    Expands R (d + 1) M₀ M' (withColumn k f L) := by
  intro i j
  obtain ⟨C, hC, hsum⟩ := h i j
  by_cases hki : k < i
  · obtain ⟨c, e, hc, he, heq⟩ := hstep i j hki
    let C' : Fin n → ℚ := fun l => if l = k then C i * c else if l = i then C i * e else C l
    have hCk : C' k = C i * c := if_pos rfl
    have hCi : C' i = C i * e := (if_neg hki.ne').trans (if_pos rfl)
    refine ⟨C', ?_, ?_⟩
    · intro l
      show R.Near (d + 1) (if l = k then C i * c else if l = i then C i * e else C l)
      split_ifs
      · exact (hC i).mul hc
      · exact (hC i).mul he
      · exact (hC l).mono (Nat.le_succ d)
    · -- Only the terms of row `k` and of row `i` change.
      rw [hsum, ← sub_eq_zero, ← Finset.sum_sub_distrib, Fintype.sum_eq_add k i hki.ne]
      · rw [withColumn_apply, withColumn_apply, if_pos ⟨rfl, hki⟩, if_neg fun hc => hki.ne' hc.1,
          hCk, hCi, hL.tail i k le_rfl hki.ne', hL.diag i, hkeep k j le_rfl, heq]
        ring
      · rintro l ⟨hlk, hli⟩
        have hCl : C' l = C l := (if_neg hlk).trans (if_neg hli)
        rw [withColumn_apply, if_neg fun hc => hlk hc.1, hCl]
        rcases lt_or_gt_of_ne hlk with hlt | hgt
        · rw [hkeep l j hlt.le, sub_self]
        · rw [hL.tail i l hgt.le hli.symm]
          ring
  · -- A finished row refers to finished rows only.
    refine ⟨C, fun l => (hC l).mono (Nat.le_succ d), ?_⟩
    rw [hsum]
    refine Finset.sum_congr rfl fun l _ => ?_
    rw [withColumn_apply, if_neg fun hc => hki hc.2]
    by_cases hlk : l ≤ k
    · rw [hkeep l j hlk]
    · have hil : i < l := (not_lt.mp hki).trans_lt (not_le.mp hlk)
      rw [hL.lower i l hil, zero_mul, zero_mul, zero_mul, zero_mul]

/-- The distance from the exact product. -/
theorem abs_sub_le (h : Expands R d M₀ M L) (i : Fin n) (j : m) :
    |M₀ i j - (L * M) i j| ≤ R.gamma d * ∑ l, |L i l| * |M l j| := by
  obtain ⟨C, hC, hsum⟩ := h i j
  rw [hsum, mul_apply, ← Finset.sum_sub_distrib, Finset.mul_sum]
  refine (Finset.abs_sum_le_sum_abs _ _).trans (Finset.sum_le_sum fun l _ => ?_)
  calc |L i l * M l j * C l - L i l * M l j| = |C l - 1| * (|L i l| * |M l j|) := by
        rw [← mul_sub_one, abs_mul, abs_mul, mul_comm]
    _ ≤ R.gamma d * (|L i l| * |M l j|) := by
        refine mul_le_mul_of_nonneg_right (hC l).abs_sub_one_le ?_
        positivity

end Expands

/-! ### Solving with the factors -/

/-- `x` solves the system with matrix `U` and right-hand side `y`, with up to `d` rounding
    errors on each product. -/
def SolvesNearly (R : Rounding) (d : ℕ) (U : Matrix (Fin n) (Fin n) ℚ) (y x : Fin n → ℚ) : Prop :=
  ∀ i, ∃ E : Fin n → ℚ, (∀ j, R.Near d (E j)) ∧ y i = ∑ j, U i j * x j * E j

/-- **The two sides of the system together.**  If both expand in the same factor `L`, with `d`
    errors each, and the triangular system is solved with `d'` errors, then `x` solves the given
    system for a matrix that differs from the given one, entry by entry, by at most a small
    multiple of `|L| * |U|`. -/
theorem Expands.exists_perturbation {d d' : ℕ} {A U : Matrix (Fin n) (Fin n) ℚ}
    {B Y : Matrix (Fin n) m ℚ} (hA : Expands R d A U L) (hB : Expands R d B Y L) {c : m}
    {x : Fin n → ℚ} (hx : SolvesNearly R d' U (fun i => Y i c) x) :
    ∃ E : Matrix (Fin n) (Fin n) ℚ,
      (∀ i j, |E i j| ≤ (R.gamma (d + d') + R.gamma d) * ∑ l, |L i l| * |U l j|) ∧
      (A + E) *ᵥ x = fun i => B i c := by
  choose CA hCA hAsum using hA
  choose CB hCB hBsum using fun i => hB i c
  choose CX hCX hXsum using hx
  refine ⟨Matrix.of fun i j => ∑ l, L i l * U l j * (CX l j * CB i l - CA i j l), ?_, ?_⟩
  · intro i j
    rw [of_apply, Finset.mul_sum]
    refine (Finset.abs_sum_le_sum_abs _ _).trans (Finset.sum_le_sum fun l _ => ?_)
    have hnear : R.Near (d + d') (CX l j * CB i l) := by
      rw [Nat.add_comm]
      exact (hCX l j).mul (hCB i l)
    rw [abs_mul, abs_mul, mul_comm]
    refine mul_le_mul_of_nonneg_right (hnear.abs_sub_le (hCA i j l)) ?_
    positivity
  · funext i
    show ∑ j, (A i j + ∑ l, L i l * U l j * (CX l j * CB i l - CA i j l)) * x j = B i c
    calc ∑ j, (A i j + ∑ l, L i l * U l j * (CX l j * CB i l - CA i j l)) * x j
        = ∑ j, ∑ l, L i l * (U l j * x j * CX l j) * CB i l := by
          refine Finset.sum_congr rfl fun j _ => ?_
          rw [hAsum i j, ← Finset.sum_add_distrib, Finset.sum_mul]
          refine Finset.sum_congr rfl fun l _ => ?_
          ring
      _ = ∑ l, L i l * Y l c * CB i l := by
          rw [Finset.sum_comm]
          refine Finset.sum_congr rfl fun l _ => ?_
          rw [show Y l c = _ from hXsum l, Finset.mul_sum, Finset.sum_mul]
      _ = B i c := (hBsum i).symm

end Dgesv
