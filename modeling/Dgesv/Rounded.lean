import Dgesv.AnyArithmetic
import Dgesv.Growth
import Dgesv.Lib.RoundedLU

namespace Dgesv

open Loop Matrix Equiv

/-!
# The solvers in rounded arithmetic

Both solvers over `Fl R`: every `+`, `-`, `*` and `/` of the C text makes one rounding error.
The computed solution solves a system close to the given one; how close depends on the sizes
of the computed factors, and with pivoting these can be bounded in advance.

* `Unpivoted.factor`, `Pivoted.factor` — the multipliers of a run, each row's moved along by the
  later exchanges;
* `RoundedInv k σ L s` — what both eliminations have established after `k` steps: the given
  rows, in the order `σ`, expand in the multipliers `L` and the current arrays;
* `Solves.nearly` — the back substitution, column by column;
* `RoundedInv.exists_perturbation` — both together;
* `Unpivoted.myDgesv_backward`, `Pivoted.eliminateTo_backward` — the bounds in terms of the
  factors;
* `Pivoted.myDgesv_backward_stable` — with pivoting, a bound in terms of the given matrix.
-/

variable {R : Rounding} {n nrhs : ℕ}

/-- `fabs` and `<` are exact; the constant `1e-10` is a rounded literal. -/
instance : FloatOps (Fl R) where
  fabs x := ⟨|x.val|⟩
  lt x y := decide (x.val < y.val)
  tol := ⟨R.rnd (1 / 10 ^ 10)⟩

theorem lt_val (x y : Fl R) : lt x y = true ↔ x.val < y.val := decide_eq_true_iff

/-- The values stored in an `r × w` array. -/
def Mem.values (r w : ℕ) (m : Mem (Fl R)) : Matrix (Fin r) (Fin w) ℚ :=
  Matrix.of fun i j => (m (i * w + j)).val

theorem Mem.values_apply {r w : ℕ} (m : Mem (Fl R)) (i : Fin r) (j : Fin w) :
    m.values r w i j = (m (i * w + j)).val := rfl

/-- An exchange of rows. -/
theorem Mem.values_submatrix {r w : ℕ} {m m' : Mem (Fl R)} {τ : Perm (Fin r)}
    (h : m'.toMatrix r w = (m.toMatrix r w).submatrix τ id) :
    m'.values r w = (m.values r w).submatrix τ id :=
  congrArg (fun M => M.map Fl.val) h

/-- A diagonal entry that passes its test is not zero. -/
theorem Passes.val_ne_zero {a : Mem (Fl R)} {i : ℕ} (h : Passes n a i) :
    (a (i * n + i)).val ≠ 0 := by
  have hle : R.rnd (1 / 10 ^ 10) ≤ |(a (i * n + i)).val| :=
    not_lt.mp (of_decide_eq_false h)
  obtain ⟨c, hc, hrnd⟩ := R.exists_near (1 / 10 ^ 10)
  have hpos : 0 < R.rnd (1 / 10 ^ 10) := by
    rw [hrnd]
    have := hc.pos
    positivity
  exact abs_pos.mp (hpos.trans_le hle)

/-! ### The triangular part -/

/-- The entries that still count once `k` columns are finished.  What the elimination leaves
    below the diagonal of a finished column is rounding residue that nothing reads. -/
def upperPart (k : ℕ) (M : Matrix (Fin n) (Fin n) ℚ) : Matrix (Fin n) (Fin n) ℚ :=
  Matrix.of fun i j => if j.val < k ∧ j < i then 0 else M i j

theorem upperPart_apply (k : ℕ) (M : Matrix (Fin n) (Fin n) ℚ) (i j : Fin n) :
    upperPart k M i j = if j.val < k ∧ j < i then 0 else M i j := rfl

theorem upperPart_zero (M : Matrix (Fin n) (Fin n) ℚ) : upperPart 0 M = M := by
  ext i j
  rw [upperPart_apply, if_neg fun hc => Nat.not_lt_zero _ hc.1]

/-- An exchange of unfinished rows. -/
theorem upperPart_submatrix {k : ℕ} {τ : Perm (Fin n)} (hτ : FixesBelow k τ)
    (M : Matrix (Fin n) (Fin n) ℚ) :
    upperPart k (M.submatrix τ id) = (upperPart k M).submatrix τ id := by
  ext i j
  rw [submatrix_apply, upperPart_apply, upperPart_apply, submatrix_apply]
  refine if_congr (and_congr_right fun hj => ?_) rfl rfl
  by_cases hi : i.val < k
  · rw [hτ i hi, id]
  · have hτi := (hτ.le_iff i).mpr (not_lt.mp hi)
    exact iff_of_true (Fin.lt_def.mpr (by omega)) (Fin.lt_def.mpr (by rw [id]; omega))

/-! ### One iteration of the elimination -/

/-- The multiplier of row `i` in iteration `k`, with the sign of the factor `L`. -/
def multiplier (n k : ℕ) (s : State (Fl R)) (i : ℕ) : ℚ :=
  -(-s.a (i * n + k) / s.a (k * n + k)).val

/-- What iteration `k` does to an entry of `a` below the pivot. -/
theorem eliminateRows_values_a (k : Fin n) (s : State (Fl R)) {i j : Fin n} (hi : k < i)
    (hj : k ≤ j) :
    (eliminateRows n nrhs k s).a.values n n i j
      = (s.a (i * n + j) + -s.a (i * n + k) / s.a (k * n + k) * s.a (k * n + j)).val := by
  rw [Mem.values_apply, eliminateRows_a nrhs k.isLt s i j.isLt, if_pos ⟨hi, i.isLt, hj⟩]

/-- What it does to an entry of `b`. -/
theorem eliminateRows_values_b (k : Fin n) (s : State (Fl R)) {i : Fin n} (hi : k < i)
    (j : Fin nrhs) :
    (eliminateRows n nrhs k s).b.values n nrhs i j
      = (s.b (i * nrhs + j)
          + -s.a (i * n + k) / s.a (k * n + k) * s.b (k * nrhs + j)).val := by
  rw [Mem.values_apply, eliminateRows_b k.isLt s i j.isLt, if_pos ⟨hi, i.isLt⟩]

/-- Every entry of a row below the pivot, from what is left of it. -/
theorem eliminateRows_step_a {k : Fin n} {s : State (Fl R)} (hpiv : (s.a (k * n + k)).val ≠ 0)
    {i : Fin n} (hi : k < i) (j : Fin n) :
    ∃ c e, R.Near 1 c ∧ R.Near 1 e ∧
      upperPart k (s.a.values n n) i j
        = upperPart (k + 1) ((eliminateRows n nrhs k s).a.values n n) i j * e
          + multiplier n k s i * upperPart k (s.a.values n n) k j * c := by
  have hki : k.val < i.val := hi
  rcases lt_trichotomy j k with hlt | rfl | hgt
  · -- A finished column: zero before and after.
    have hjk : j.val < k.val := hlt
    refine ⟨1, 1, Rounding.Near.one 1, Rounding.Near.one 1, ?_⟩
    rw [upperPart_apply, upperPart_apply, upperPart_apply, if_pos ⟨hjk, hlt.trans hi⟩,
      if_pos ⟨by omega, hlt.trans hi⟩, if_pos ⟨hjk, hlt⟩]
    ring
  · -- The column being finished: the multiplier reproduces the entry.
    obtain ⟨c, hc, hdiv⟩ := (-s.a (i * n + j)).exists_div hpiv
    refine ⟨c, 1, hc, Rounding.Near.one 1, ?_⟩
    rw [upperPart_apply, upperPart_apply, upperPart_apply, if_neg fun h => lt_irrefl _ h.1,
      if_pos ⟨by omega, hi⟩, if_neg fun h => lt_irrefl _ h.1, multiplier, Mem.values_apply,
      Mem.values_apply, zero_mul, zero_add]
    rw [Fl.neg_val] at hdiv
    linarith
  · obtain ⟨c, e, hc, he, hadd⟩ := (s.a (i * n + j)).exists_add_mul
      (-s.a (i * n + k) / s.a (k * n + k)) (s.a (k * n + j))
    have hjk : k.val < j.val := hgt
    refine ⟨c, e, hc, he, ?_⟩
    rw [upperPart_apply, upperPart_apply, upperPart_apply, if_neg (by omega), if_neg (by omega),
      if_neg (by omega), eliminateRows_values_a k s hi hgt.le]
    exact hadd

/-- The same for `b`. -/
theorem eliminateRows_step_b {k : Fin n} (s : State (Fl R)) {i : Fin n} (hi : k < i)
    (j : Fin nrhs) :
    ∃ c e, R.Near 1 c ∧ R.Near 1 e ∧
      s.b.values n nrhs i j = (eliminateRows n nrhs k s).b.values n nrhs i j * e
        + multiplier n k s i * s.b.values n nrhs k j * c := by
  obtain ⟨c, e, hc, he, hadd⟩ := (s.b (i * nrhs + j)).exists_add_mul
    (-s.a (i * n + k) / s.a (k * n + k)) (s.b (k * nrhs + j))
  refine ⟨c, e, hc, he, ?_⟩
  rw [eliminateRows_values_b k s hi]
  exact hadd

/-! ### The elimination -/

/-- What an elimination has established once `k` columns are finished, with the given rows in
    the order `σ` and the multipliers so far in `L`. -/
structure RoundedInv (n nrhs : ℕ) (a b : Mem (Fl R)) (k : ℕ) (σ : Perm (Fin n))
    (L : Matrix (Fin n) (Fin n) ℚ) (s : State (Fl R)) : Prop where
  shape : UnitLower k L
  a_expands : Expands R k ((a.values n n).submatrix σ id) (upperPart k (s.a.values n n)) L
  b_expands : Expands R k ((b.values n nrhs).submatrix σ id) (s.b.values n nrhs) L

namespace RoundedInv

variable {a b : Mem (Fl R)} {σ : Perm (Fin n)} {L : Matrix (Fin n) (Fin n) ℚ} {s s' : State (Fl R)}

/-- On entry. -/
theorem init (n nrhs : ℕ) (a b : Mem (Fl R)) : RoundedInv n nrhs a b 0 1 1 (.init a b) where
  shape := UnitLower.one 0
  a_expands := by
    rw [upperPart_zero]
    exact Expands.init R (a.values n n)
  b_expands := Expands.init R (b.values n nrhs)

/-- Exchanging unfinished rows. -/
theorem exchange {k : ℕ} {τ : Perm (Fin n)} (h : RoundedInv n nrhs a b k σ L s)
    (hτ : FixesBelow k τ) (ha : s'.a.values n n = (s.a.values n n).submatrix τ id)
    (hb : s'.b.values n nrhs = (s.b.values n nrhs).submatrix τ id) :
    RoundedInv n nrhs a b k (σ * τ) (L.submatrix τ τ) s' where
  shape := h.shape.submatrix hτ
  a_expands := by
    rw [ha, upperPart_submatrix hτ]
    exact h.a_expands.submatrix τ
  b_expands := by
    rw [hb]
    exact h.b_expands.submatrix τ

/-- Clearing column `k`. -/
theorem eliminateRows {k : Fin n} (h : RoundedInv n nrhs a b k σ L s)
    (hpiv : (s.a (k * n + k)).val ≠ 0) :
    RoundedInv n nrhs a b (k + 1) σ (withColumn k (fun i => multiplier n k s i) L)
      (eliminateRows n nrhs k s) where
  shape := h.shape.withColumn _
  a_expands := by
    refine h.a_expands.eliminate h.shape ?_ fun i j hi => eliminateRows_step_a hpiv hi j
    intro i j hi
    rw [upperPart_apply, upperPart_apply, Mem.values_apply, Mem.values_apply,
      eliminateRows_a_of_le nrhs k.isLt hi s j.isLt]
    -- Up to row `k`, one more finished column makes no difference.
    refine if_congr (and_congr_left fun hji => ?_) rfl rfl
    have hik : i.val ≤ k.val := hi
    have hlt : j.val < i.val := hji
    omega
  b_expands := by
    refine h.b_expands.eliminate h.shape ?_ fun i j hi => eliminateRows_step_b s hi j
    intro i j hi
    rw [Mem.values_apply, Mem.values_apply, eliminateRows_b k.isLt s i j.isLt, if_neg (by omega)]

end RoundedInv

namespace Unpivoted

variable {a b : Mem (Fl R)} {s : State (Fl R)}

/-- The multipliers of the first `k` iterations of a call on `(a, b)`: column `l` has those that
    iteration `l` computes, in the state in which it is reached. -/
def factor (n nrhs : ℕ) (a b : Mem (Fl R)) (k : ℕ) : Matrix (Fin n) (Fin n) ℚ :=
  unitLower k fun i l => multiplier n l (eliminateTo n nrhs l (.init a b)).state i

theorem factor_succ (k : Fin n) (h : eliminateTo n nrhs k (.init a b) = .next s) :
    factor n nrhs a b (k + 1)
      = withColumn k (fun i => multiplier n k s i) (factor n nrhs a b k) := by
  rw [factor, unitLower_succ, h]
  rfl

/-- **The elimination of `src/task1/dgesv.c`** keeps the order of the rows. -/
theorem roundedInv_of_eliminateTo {k : ℕ} (hk : k ≤ n)
    (h : eliminateTo n nrhs k (.init a b) = .next s) :
    RoundedInv n nrhs a b k 1 (factor n nrhs a b k) s := by
  induction k generalizing s with
  | zero =>
    cases h
    rw [factor, unitLower_zero]
    exact RoundedInv.init n nrhs a b
  | succ i ih =>
    obtain ⟨t, ht, hstep⟩ := Flow.bind_eq_next.mp h
    let k : Fin n := ⟨i, hk⟩
    unfold eliminateColumn at hstep
    split_ifs at hstep with hsmall
    cases hstep
    have hpiv := Passes.val_ne_zero (passes_iff.mpr hsmall)
    rw [factor_succ k ht]
    exact (ih (by omega) ht).eliminateRows (k := k) hpiv

end Unpivoted

namespace Pivoted

variable {a b : Mem (Fl R)} {L : Matrix (Fin n) (Fin n) ℚ} {s : State (Fl R)}

/-- The multipliers of the first `k` iterations of a call on `(a, b)`: column `l` has those that
    iteration `l` computes after its exchange.  The later exchanges have moved rows, so the
    multiplier of row `i` was computed for the row where the given one stood at that time. -/
def factor (n nrhs : ℕ) (a b : Mem (Fl R)) (k : ℕ) : Matrix (Fin n) (Fin n) ℚ :=
  unitLower k fun i l =>
    multiplier n l (pivot n nrhs l (eliminateTo n nrhs l (.init a b)).state)
      ((exchangeOrder n nrhs a b (l + 1)).symm (exchangeOrder n nrhs a b k i))

theorem factor_succ (k : Fin n) (h : eliminateTo n nrhs k (.init a b) = .next s) :
    factor n nrhs a b (k + 1)
      = withColumn k (fun i => multiplier n k (pivot n nrhs k s) i)
          ((factor n nrhs a b k).submatrix (swap k (pivotRow k s)) (swap k (pivotRow k s))) := by
  rw [factor, unitLower_succ, factor, unitLower_submatrix (fixesBelow_pivotRow k s),
    exchangeOrder_succ k h, h]
  congr 1
  funext i
  rw [symm_apply_apply]
  rfl

/-- The sizes of the factors after `k` steps. -/
structure RoundedBound (n nrhs : ℕ) (a b : Mem (Fl R)) (k : ℕ) (L : Matrix (Fin n) (Fin n) ℚ)
    (s : State (Fl R)) : Prop where
  factor : ∀ i l, |L i l| ≤ R.stretch
  a_le : ∀ i j, |s.a.values n n i j| ≤ R.growth ^ k * maxAbs (a.values n n)
  b_le : ∀ i j, |s.b.values n nrhs i j| ≤ R.growth ^ k * maxAbs (b.values n nrhs)

/-- On entry. -/
theorem RoundedBound.init (n nrhs : ℕ) (a b : Mem (Fl R)) :
    RoundedBound n nrhs a b 0 1 (.init a b) where
  factor i l := by
    rw [one_apply]
    split_ifs
    · rw [abs_one]
      exact R.one_le_stretch
    · rw [abs_zero]
      exact R.stretch_nonneg
  a_le i j := by
    rw [pow_zero, one_mul]
    exact abs_le_maxAbs _ i j
  b_le i j := by
    rw [pow_zero, one_mul]
    exact abs_le_maxAbs _ i j

/-- An exchange of rows. -/
theorem RoundedBound.exchange {k : ℕ} (h : RoundedBound n nrhs a b k L s) (τ : Perm (Fin n))
    {s' : State (Fl R)} (ha : s'.a.values n n = (s.a.values n n).submatrix τ id)
    (hb : s'.b.values n nrhs = (s.b.values n nrhs).submatrix τ id) :
    RoundedBound n nrhs a b k (L.submatrix τ τ) s' where
  factor i l := h.factor (τ i) (τ l)
  a_le i j := by
    rw [ha]
    exact h.a_le (τ i) j
  b_le i j := by
    rw [hb]
    exact h.b_le (τ i) j

/-- A step of the elimination with a largest pivot. -/
theorem RoundedBound.eliminateRows {k : Fin n} (h : RoundedBound n nrhs a b k L s)
    (hmax : ∀ i : Fin n, k ≤ i → |(s.a (i * n + k)).val| ≤ |(s.a (k * n + k)).val|) :
    RoundedBound n nrhs a b (k + 1) (withColumn k (fun i => multiplier n k s i) L)
      (eliminateRows n nrhs k s) := by
  have hmult : ∀ i : Fin n, k ≤ i →
      |(-s.a (i * n + k) / s.a (k * n + k)).val| ≤ R.stretch := by
    intro i hi
    refine Fl.abs_div_le ?_
    rw [Fl.neg_val, abs_neg]
    exact hmax i hi
  have hgrow : ∀ {c : ℚ}, 0 ≤ c → R.growth ^ k.val * c ≤ R.growth * (R.growth ^ k.val * c) := by
    intro c hc
    have hpow : 0 ≤ R.growth ^ k.val := pow_nonneg (zero_le_one.trans R.one_le_growth) _
    exact le_mul_of_one_le_left (mul_nonneg hpow hc) R.one_le_growth
  refine ⟨?_, ?_, ?_⟩
  · intro i l
    rw [withColumn_apply]
    split_ifs with hc
    · unfold multiplier
      rw [abs_neg]
      exact hmult i hc.2.le
    · exact h.factor i l
  · intro i j
    rw [pow_succ', mul_assoc]
    by_cases hkij : k < i ∧ k ≤ j
    · rw [eliminateRows_values_a k s hkij.1 hkij.2]
      exact Fl.abs_add_mul_le (h.a_le i j) (hmult i hkij.1.le) (h.a_le k j)
    · rw [Mem.values_apply, eliminateRows_a nrhs k.isLt s i j.isLt,
        if_neg fun hc => hkij ⟨hc.1, hc.2.2⟩]
      exact (h.a_le i j).trans (hgrow (maxAbs_nonneg _))
  · intro i j
    rw [pow_succ', mul_assoc]
    by_cases hki : k < i
    · rw [eliminateRows_values_b k s hki]
      exact Fl.abs_add_mul_le (h.b_le i j) (hmult i hki.le) (h.b_le k j)
    · rw [Mem.values_apply, eliminateRows_b k.isLt s i j.isLt, if_neg fun hc => hki hc.1]
      exact (h.b_le i j).trans (hgrow (maxAbs_nonneg _))

/-- What the factors contribute to the bound of an entry. -/
theorem RoundedBound.sum_le {k : ℕ} (h : RoundedBound n nrhs a b k L s) (i j : Fin n) :
    ∑ l, |L i l| * |upperPart k (s.a.values n n) l j|
      ≤ n * (R.stretch * (R.growth ^ k * maxAbs (a.values n n))) := by
  have hgrow : 0 ≤ R.growth ^ k * maxAbs (a.values n n) := (abs_nonneg _).trans (h.a_le i j)
  have hterm : ∀ l, |L i l| * |upperPart k (s.a.values n n) l j|
      ≤ R.stretch * (R.growth ^ k * maxAbs (a.values n n)) := by
    intro l
    refine mul_le_mul (h.factor i l) ?_ (abs_nonneg _) R.stretch_nonneg
    rw [upperPart_apply]
    split_ifs
    · rwa [abs_zero]
    · exact h.a_le l j
  calc ∑ l, |L i l| * |upperPart k (s.a.values n n) l j|
      ≤ ∑ _l : Fin n, R.stretch * (R.growth ^ k * maxAbs (a.values n n)) :=
        Finset.sum_le_sum fun l _ => hterm l
    _ = n * (R.stretch * (R.growth ^ k * maxAbs (a.values n n))) := by
        rw [Finset.sum_const, Finset.card_univ, Fintype.card_fin, nsmul_eq_mul]

/-- **The elimination of `src/dgesv.c`** puts the rows in an order with bounded factors. -/
theorem roundedInv_of_eliminateTo {k : ℕ} (hk : k ≤ n)
    (h : eliminateTo n nrhs k (.init a b) = .next s) :
    RoundedInv n nrhs a b k (exchangeOrder n nrhs a b k) (factor n nrhs a b k) s ∧
      RoundedBound n nrhs a b k (factor n nrhs a b k) s := by
  induction k generalizing s with
  | zero =>
    cases h
    rw [factor, unitLower_zero]
    exact ⟨RoundedInv.init n nrhs a b, RoundedBound.init n nrhs a b⟩
  | succ i ih =>
    obtain ⟨t, ht, hstep⟩ := Flow.bind_eq_next.mp h
    obtain ⟨hinv, hbound⟩ := ih (by omega) ht
    let k : Fin n := ⟨i, hk⟩
    unfold eliminateColumn at hstep
    dsimp only at hstep
    split_ifs at hstep with hsmall
    cases hstep
    have hpiv := Passes.val_ne_zero (passes_iff.mpr hsmall)
    have hfix := fixesBelow_pivotRow k t
    have ha := Mem.values_submatrix (pivot_toMatrix_a nrhs k t)
    have hb := Mem.values_submatrix (pivot_toMatrix_b nrhs k t)
    rw [factor_succ k ht, exchangeOrder_succ k ht]
    refine ⟨(hinv.exchange hfix ha hb).eliminateRows (k := k) hpiv, ?_⟩
    exact (hbound.exchange _ ha hb).eliminateRows (k := k) fun i hi =>
      pivot_max lt_val nrhs k t hi

end Pivoted

/-! ### The back substitution -/

/-- The accumulation, read backwards: each step makes one error on `t` and one on the product. -/
theorem accumulate_expands {i hi : ℕ} (h : i + 1 ≤ hi) (a : Mem (Fl R)) (x : ℕ → Fl R)
    (t : Fl R) :
    ∃ (e : ℚ) (E : ℕ → ℚ), R.Near (hi - (i + 1)) e ∧ (∀ k, R.Near (hi - (i + 1)) (E k)) ∧
      t.val = (accumulate n i hi a x t).val * e
        + ∑ k ∈ Finset.Ico (i + 1) hi, (a (i * n + k)).val * (x k).val * E k := by
  refine forUp_inv (fun c (t' : Fl R) => ∃ (e : ℚ) (E : ℕ → ℚ), R.Near (c - (i + 1)) e ∧
      (∀ k, R.Near (c - (i + 1)) (E k)) ∧
      t.val = t'.val * e + ∑ k ∈ Finset.Ico (i + 1) c, (a (i * n + k)).val * (x k).val * E k)
    h ?_ ?_
  · refine ⟨1, fun _ => 1, Rounding.Near.one _, fun _ => Rounding.Near.one _, ?_⟩
    rw [Finset.Ico_self, Finset.sum_empty, mul_one, add_zero]
  · rintro c t' hc hc' ⟨e, E, he, hE, hsum⟩
    obtain ⟨p, q, hp, hq, hsub⟩ := Fl.exists_sub_mul t' (a (i * n + c)) (x c)
    have hsucc : c + 1 - (i + 1) = 1 + (c - (i + 1)) := by omega
    let F : ℕ → ℚ := fun k => if k = c then p * e else E k
    have hFc : F c = p * e := if_pos rfl
    have hold : ∑ k ∈ Finset.Ico (i + 1) c, (a (i * n + k)).val * (x k).val * F k
        = ∑ k ∈ Finset.Ico (i + 1) c, (a (i * n + k)).val * (x k).val * E k := by
      refine Finset.sum_congr rfl fun k hk => ?_
      rw [show F k = E k from if_neg (Finset.mem_Ico.mp hk).2.ne]
    refine ⟨q * e, F, ?_, ?_, ?_⟩
    · rw [hsucc]
      exact hq.mul he
    · intro k
      show R.Near _ (if k = c then p * e else E k)
      rw [hsucc]
      split_ifs
      · exact hp.mul he
      · exact (hE k).mono (Nat.le_add_left _ 1)
    · rw [Finset.sum_Ico_succ_top hc, hold, hFc, hsum, hsub]
      ring

/-- A row of the upper triangular part, from the diagonal on. -/
theorem sum_upperPart (a : Mem (Fl R)) (f : ℕ → ℚ) (i : Fin n) :
    ∑ j : Fin n, upperPart (n - 1) (a.values n n) i j * f j
      = (a (i * n + i)).val * f i + ∑ k ∈ Finset.Ico (i.val + 1) n, (a (i * n + k)).val * f k := by
  let g : ℕ → ℚ := fun k => if k < i then 0 else (a (i * n + k)).val * f k
  have hentry : ∀ j : Fin n, upperPart (n - 1) (a.values n n) i j * f j = g j := by
    intro j
    show (if j.val < n - 1 ∧ j.val < i.val then 0 else (a (i * n + j)).val) * f j
      = if j.val < i.val then 0 else (a (i * n + j)).val * f j
    have hi := i.isLt
    rw [ite_mul, zero_mul]
    exact if_congr ⟨fun hc => hc.2, fun hlt => ⟨by omega, hlt⟩⟩ rfl rfl
  have hhead : ∑ k ∈ Finset.Ico 0 i.val, g k = 0 :=
    Finset.sum_eq_zero fun k hk => if_pos (Finset.mem_Ico.mp hk).2
  have htail : ∀ k ∈ Finset.Ico i.val n, g k = (a (i * n + k)).val * f k := fun k hk =>
    if_neg (not_lt.mpr (Finset.mem_Ico.mp hk).1)
  calc ∑ j : Fin n, upperPart (n - 1) (a.values n n) i j * f j = ∑ j : Fin n, g j :=
        Finset.sum_congr rfl fun j _ => hentry j
    _ = ∑ k ∈ Finset.Ico 0 n, g k := by
        rw [Fin.sum_univ_eq_sum_range, Finset.range_eq_Ico]
    _ = ∑ k ∈ Finset.Ico i.val n, (a (i * n + k)).val * f k := by
        rw [← Finset.sum_Ico_consecutive g (Nat.zero_le i.val) i.isLt.le, hhead, zero_add]
        exact Finset.sum_congr rfl htail
    _ = (a (i * n + i)).val * f i
          + ∑ k ∈ Finset.Ico (i.val + 1) n, (a (i * n + k)).val * f k :=
        Finset.sum_eq_sum_Ico_succ_bot i.isLt _

/-- **The back substitution** solves its triangular system with at most `n` errors on each
    product. -/
theorem Solves.nearly {a : Mem (Fl R)} {y x : ℕ → Fl R} (h : Solves n a y x)
    (hdiag : ∀ i < n, Passes n a i) :
    SolvesNearly R n (upperPart (n - 1) (a.values n n)) (fun i => (y i).val)
      fun i => (x i).val := by
  intro i
  obtain ⟨e, E, he, hE, hsum⟩ := accumulate_expands (n := n) i.isLt a x (y i)
  have hne : (a (i * n + i)).val ≠ 0 := (hdiag i i.isLt).val_ne_zero
  obtain ⟨c, hc, hdiv⟩ := (accumulate n i n a x (y i)).exists_div hne
  rw [← h i i.isLt] at hdiv
  let F : ℕ → ℚ := fun k => if k = i then c * e else E k
  have hFi : F i = c * e := if_pos rfl
  have hFk : ∀ k, i.val + 1 ≤ k → F k = E k := fun k hk => if_neg (by omega)
  refine ⟨fun j => F j, ?_, ?_⟩
  · intro j
    show R.Near n (if j.val = i then c * e else E j)
    split_ifs
    · exact (hc.mul he).mono (by omega)
    · exact (hE j).mono (by omega)
  · show (y i).val = ∑ j : Fin n, upperPart (n - 1) (a.values n n) i j * (x j).val * F j
    have hrow := sum_upperPart a (fun k => (x k).val * F k) i
    have htail : ∑ k ∈ Finset.Ico (i.val + 1) n, (a (i * n + k)).val * ((x k).val * F k)
        = ∑ k ∈ Finset.Ico (i.val + 1) n, (a (i * n + k)).val * (x k).val * E k := by
      refine Finset.sum_congr rfl fun k hk => ?_
      rw [hFk k (Finset.mem_Ico.mp hk).1, mul_assoc]
    simp only [mul_assoc] at hrow htail hsum ⊢
    rw [hrow, htail, hFi, hsum, hdiv]
    ring

/-! ### The results -/

/-- A small system in arithmetic with 53 binary digits. -/
def smallA : Mem (Fl Rounding.double) := .ofList [⟨1⟩, ⟨3⟩, ⟨3⟩, ⟨1⟩]

/-- Its right-hand side. -/
def smallB : Mem (Fl Rounding.double) := .ofList [⟨1⟩, ⟨2⟩]

/-- **Both halves of a call together.** -/
theorem RoundedInv.exists_perturbation {a b : Mem (Fl R)} {σ : Perm (Fin n)}
    {L : Matrix (Fin n) (Fin n) ℚ} {s : State (Fl R)} (hn : 1 ≤ n)
    (h : RoundedInv n nrhs a b (n - 1) σ L s) (hdiag : ∀ i < n, Passes n s.a i) (c : Fin nrhs) :
    ∃ E : Matrix (Fin n) (Fin n) ℚ,
      (∀ i j, |E i j| ≤ (R.gamma (2 * n - 1) + R.gamma (n - 1))
        * ∑ l, |L i l| * |upperPart (n - 1) (s.a.values n n) l j|) ∧
      ((a.values n n).submatrix σ id + E)
          *ᵥ (fun i => (Pivoted.backSubstitute n nrhs s).b.values n nrhs i c)
        = fun i => b.values n nrhs (σ i) c := by
  have hsolves := Pivoted.backSubstitute_solves (n := n) c.isLt s
  have hcount : 2 * n - 1 = n - 1 + n := by omega
  rw [hcount]
  exact h.a_expands.exists_perturbation h.b_expands (hsolves.nearly hdiag)

namespace Unpivoted

/-- **Backward error without pivoting.**  If `my_dgesv` of `src/task1/dgesv.c` returns `0` in
    rounded arithmetic, the multipliers `L` that the run has computed and the entries `U` it
    leaves on and above the diagonal of `a` are the factors of the given matrix, and each column
    of `b` is the exact solution of the given system, up to changes of the matrix that are small
    against `|L| * |U|`.  Nothing bounds `L` and `U` themselves. -/
theorem myDgesv_backward (hn : 1 ≤ n) (hnrhs : 1 ≤ nrhs) (a b : Mem (Fl R))
    (h : (myDgesv n nrhs a b).1 = 0) :
    ∃ L U : Matrix (Fin n) (Fin n) ℚ, L = factor n nrhs a b (n - 1) ∧ UnitLower n L ∧
      (∀ i j, j < i → U i j = 0) ∧
      (∀ i j, i ≤ j → U i j = (myDgesv n nrhs a b).2.a.values n n i j) ∧
      (∀ i j, |a.values n n i j - (L * U) i j| ≤ R.gamma (n - 1) * ∑ l, |L i l| * |U l j|) ∧
      ∀ c : Fin nrhs, ∃ E : Matrix (Fin n) (Fin n) ℚ,
        (∀ i j, |E i j| ≤ (R.gamma (2 * n - 1) + R.gamma (n - 1)) * ∑ l, |L i l| * |U l j|) ∧
        (a.values n n + E) *ᵥ (fun i => (myDgesv n nrhs a b).2.b.values n nrhs i c)
          = fun i => b.values n nrhs i c := by
  obtain ⟨s, hs, hdiag, hfinal⟩ := exists_of_code_zero hn hnrhs h
  have hinv := roundedInv_of_eliminateTo (Nat.sub_le n 1) hs
  rw [hfinal, Pivoted.backSubstitute_a]
  refine ⟨_, upperPart (n - 1) (s.a.values n n), rfl, hinv.shape.mono (Nat.sub_le n 1),
    ?_, ?_, ?_, ?_⟩
  · intro i j hji
    have hlt : j.val < i.val := hji
    have hi := i.isLt
    exact if_pos ⟨by omega, hji⟩
  · intro i j hij
    exact if_neg fun hc => not_lt.mpr hij hc.2
  · exact hinv.a_expands.abs_sub_le
  · intro c
    exact hinv.exists_perturbation hn hdiag c

/-- The equations `x + 3 y = 1` and `3 x + y = 2`, with 53 binary digits: the multiplier is
    `3`. -/
theorem myDgesv_backward_two :
    (myDgesv 2 1 smallA smallB).1 = 0 ∧ factor 2 1 smallA smallB 1 1 0 = 3 ∧
      ∃ L U : Matrix (Fin 2) (Fin 2) ℚ, L = factor 2 1 smallA smallB 1 ∧
        (∀ i j, |smallA.values 2 2 i j - (L * U) i j|
          ≤ Rounding.double.gamma 1 * ∑ l, |L i l| * |U l j|) ∧
        ∃ E : Matrix (Fin 2) (Fin 2) ℚ,
          (∀ i j, |E i j|
            ≤ (Rounding.double.gamma 3 + Rounding.double.gamma 1) * ∑ l, |L i l| * |U l j|) ∧
          (smallA.values 2 2 + E) *ᵥ (fun i => (myDgesv 2 1 smallA smallB).2.b.values 2 1 i 0)
            = fun i => smallB.values 2 1 i 0 := by
  have h : (myDgesv 2 1 smallA smallB).1 = 0 := by decide +kernel
  obtain ⟨L, U, hL, -, -, -, hfactors, hsolve⟩ := myDgesv_backward (by decide) (by decide) _ _ h
  exact ⟨h, by decide +kernel, L, U, hL, hfactors, hsolve 0⟩

end Unpivoted

namespace Pivoted

/-- **The factors, with pivoting**, in rounded arithmetic.  At the head of every iteration `k`
    that is reached, the multipliers of the run, of size at most `1` up to a rounding, and the
    finished part of `a` are the factors of the given matrix, its rows in the order of the
    run's exchanges, up to `k` rounding errors on each product; the entries of `a` and `b` have
    grown by `R.growth` in each step at most. -/
theorem eliminateTo_backward {k : ℕ} (hk : k ≤ n) (a b : Mem (Fl R)) {s : State (Fl R)}
    (h : eliminateTo n nrhs k (.init a b) = .next s) :
    (∀ i j, |s.a.values n n i j| ≤ R.growth ^ k * maxAbs (a.values n n)) ∧
      (∀ i j, |s.b.values n nrhs i j| ≤ R.growth ^ k * maxAbs (b.values n nrhs)) ∧
      ∃ (σ : Perm (Fin n)) (L : Matrix (Fin n) (Fin n) ℚ),
        σ = exchangeOrder n nrhs a b k ∧ L = factor n nrhs a b k ∧ UnitLower k L ∧
        (∀ i l, |L i l| ≤ R.stretch) ∧
        (∀ i j, |a.values n n (σ i) j - (L * upperPart k (s.a.values n n)) i j|
          ≤ R.gamma k * ∑ l, |L i l| * |upperPart k (s.a.values n n) l j|) ∧
        ∀ i j, |b.values n nrhs (σ i) j - (L * s.b.values n nrhs) i j|
          ≤ R.gamma k * ∑ l, |L i l| * |s.b.values n nrhs l j| := by
  obtain ⟨hinv, hbound⟩ := roundedInv_of_eliminateTo hk h
  exact ⟨hbound.a_le, hbound.b_le, _, _, rfl, rfl, hinv.shape, hbound.factor,
    hinv.a_expands.abs_sub_le, hinv.b_expands.abs_sub_le⟩

/-- The first step on the equations `x + 3 y = 1` and `3 x + y = 2` exchanges them; its
    multiplier is `1 / 3`, rounded. -/
theorem eliminateTo_backward_two :
    exchangeOrder 2 1 smallA smallB 1 = swap 0 1 ∧
      factor 2 1 smallA smallB 1 1 0 = 6004799503160661 / 2 ^ 54 ∧
      ∃ (s : State (Fl Rounding.double)) (σ : Perm (Fin 2)) (L : Matrix (Fin 2) (Fin 2) ℚ),
        eliminateTo 2 1 1 (.init smallA smallB) = .next s ∧
        σ = exchangeOrder 2 1 smallA smallB 1 ∧ L = factor 2 1 smallA smallB 1 ∧
        ∀ i j, |smallA.values 2 2 (σ i) j - (L * upperPart 1 (s.a.values 2 2)) i j|
          ≤ Rounding.double.gamma 1 * ∑ l, |L i l| * |upperPart 1 (s.a.values 2 2) l j| := by
  obtain ⟨s, hs⟩ := Flow.isNext_iff.mp
    (by decide +kernel : (eliminateTo 2 1 1 (.init smallA smallB)).isNext = true)
  obtain ⟨-, -, σ, L, hσ, hL, -, -, hfactors, -⟩ := eliminateTo_backward (by decide) _ _ hs
  exact ⟨by decide +kernel, by decide +kernel, s, σ, L, hs, hσ, hL, hfactors⟩

/-- **Backward stability with pivoting.**  If `my_dgesv` of `src/dgesv.c` returns `0` in rounded
    arithmetic, each column of `b` is the exact solution of the given system for a matrix none
    of whose entries is changed by more than a bound known in advance: the rounding errors on
    one product, times what pivoting lets the entries grow. -/
theorem myDgesv_backward_stable (hn : 1 ≤ n) (hnrhs : 1 ≤ nrhs) (a b : Mem (Fl R))
    (h : (myDgesv n nrhs a b).1 = 0) (c : Fin nrhs) :
    ∃ E : Matrix (Fin n) (Fin n) ℚ,
      (∀ i j, |E i j| ≤ (R.gamma (2 * n - 1) + R.gamma (n - 1))
        * (n * (R.stretch * (R.growth ^ (n - 1) * maxAbs (a.values n n))))) ∧
      (a.values n n + E) *ᵥ (fun i => (myDgesv n nrhs a b).2.b.values n nrhs i c)
        = fun i => b.values n nrhs i c := by
  obtain ⟨s, hs, hdiag, hfinal⟩ := exists_of_code_zero hn hnrhs h
  obtain ⟨hinv, hbound⟩ := roundedInv_of_eliminateTo (Nat.sub_le n 1) hs
  obtain ⟨E, hE, hsolve⟩ := hinv.exists_perturbation hn hdiag c
  rw [hfinal]
  let σ := exchangeOrder n nrhs a b (n - 1)
  -- The change was found for the rows in the order of the elimination.
  refine ⟨E.submatrix σ.symm id, ?_, ?_⟩
  · intro i j
    have hgamma : 0 ≤ R.gamma (2 * n - 1) + R.gamma (n - 1) :=
      add_nonneg (Rounding.gamma_nonneg _) (Rounding.gamma_nonneg _)
    exact (hE (σ.symm i) j).trans (mul_le_mul_of_nonneg_left (hbound.sum_le _ j) hgamma)
  · funext i
    have hrow := congrFun hsolve (σ.symm i)
    rw [apply_symm_apply] at hrow
    rw [← hrow]
    show ∑ j : Fin n, (a.values n n i j + E (σ.symm i) j) * _
      = ∑ j : Fin n, (a.values n n (σ (σ.symm i)) j + E (σ.symm i) j) * _
    rw [apply_symm_apply]

/-- The equations `x + 3 y = 1` and `3 x + y = 2`, with 53 binary digits. -/
theorem myDgesv_backward_stable_two :
    (myDgesv 2 1 smallA smallB).1 = 0 ∧ ∃ E : Matrix (Fin 2) (Fin 2) ℚ,
      (∀ i j, |E i j| ≤ (Rounding.double.gamma 3 + Rounding.double.gamma 1)
        * ((2 : ℕ) * (Rounding.double.stretch
          * (Rounding.double.growth ^ 1 * maxAbs (smallA.values 2 2))))) ∧
      (smallA.values 2 2 + E) *ᵥ (fun i => (myDgesv 2 1 smallA smallB).2.b.values 2 1 i 0)
        = fun i => smallB.values 2 1 i 0 := by
  have h : (myDgesv 2 1 smallA smallB).1 = 0 := by decide +kernel
  exact ⟨h, myDgesv_backward_stable (by decide) (by decide) _ _ h 0⟩

end Pivoted

end Dgesv
