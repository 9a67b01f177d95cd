import Dgesv.Solution

namespace Dgesv

open Loop Matrix

/-!
# The solver on the matrices of the harness

`generate_matrix` of `src/main.c` fills a matrix with integers from `0` to `99`.  The minors
of such a matrix are integers, so a nonzero pivot is a ratio of two integers, and it can
only fall below the tolerance if the minor in its denominator exceeds `10¹⁰`.

* `myDgesv_integer` — which of these matrices are accepted; all nonsingular ones of order at
  most `5`;
* `bidiagonal_rejected` — a nonsingular matrix of every order from `7` on that is not: the
  one with ones on the diagonal and `99` below it.  Partial pivoting brings every `99` to
  the diagonal, which leaves `± 99 ^ (1 - n)` for the last pivot.
-/

namespace Pivoted

variable {n nrhs : ℕ} {a b : Mem ℚ} {L : Matrix (Fin n) (Fin n) ℚ} {s : State ℚ}

/-! ### Integer matrices -/

/-- On a nonsingular matrix, the tested entry is not zero. -/
theorem TestInv.pivot_ne {k : Fin n} (h : TestInv n nrhs a b k L s)
    (hdet : (a.toMatrix n n).det ≠ 0) : s.A n k k ≠ 0 := by
  intro hzero
  have hcol : ∀ i, k ≤ i → s.A n i k = 0 := by
    intro i hi
    have hle := h.max i hi
    rw [hzero, abs_zero] at hle
    exact abs_nonpos_iff.mp hle
  have hsing : (s.A n).det = 0 := LUPrefix.det_eq_zero_of_column h.lu.zeros hcol
  exact h.lu.det_ne_zero_iff.mpr hdet hsing

/-- On a nonsingular integer matrix, a test can only fail after a minor above `10¹⁰`. -/
theorem TestInv.minor_large {k : Fin n} (h : TestInv n nrhs a b k L s)
    {A : Matrix (Fin n) (Fin n) ℤ} (hA : a.toMatrix n n = A.map Int.cast)
    (hdet : (a.toMatrix n n).det ≠ 0) (small : |s.A n k k| < tol) :
    10 ^ 10 < |pivotMinor (a.toMatrix n n) k| := by
  have hne : pivotMinor (a.toMatrix n n) (k + 1) ≠ 0 := by
    rw [h.minor_succ]
    exact mul_ne_zero h.minor_ne (h.pivot_ne hdet)
  have hone : 1 ≤ |pivotMinor (a.toMatrix n n) (k + 1)| := by
    obtain ⟨z, hz⟩ :=
      exists_lead_eq_intCast (F := ℚ) A (pivotOrder (a.toMatrix n n) (k + 1)) (k + 1)
    rw [← hA] at hz
    rw [pivotMinor, hz] at hne ⊢
    rw [← Int.cast_abs]
    exact_mod_cast Int.one_le_abs (Int.cast_ne_zero.mp hne)
  have hfail : |pivotMinor (a.toMatrix n n) (k + 1)| < tol * |pivotMinor (a.toMatrix n n) k| :=
    not_le.mp fun hpass => absurd (h.test_iff.mp hpass) (not_le.mpr small)
  have hlt := hone.trans_lt hfail
  rw [tol_rat, one_div, inv_mul_eq_div, lt_div_iff₀ (by positivity)] at hlt
  linarith

/-- On a nonsingular integer matrix, a failed call has met a minor above `10¹⁰`. -/
theorem Outcome.exists_minor_large {o : ℤ × State ℚ} (h : Outcome n nrhs a b o)
    {A : Matrix (Fin n) (Fin n) ℤ} (hA : a.toMatrix n n = A.map Int.cast)
    (hdet : (a.toMatrix n n).det ≠ 0) (h1 : o.1 = -1) :
    ∃ k < n, 10 ^ 10 < |pivotMinor (a.toMatrix n n) k| := by
  cases h with
  | early k L s hk inv small => exact ⟨k, k.isLt, inv.minor_large hA hdet small⟩
  | late k L s hk inv small => exact ⟨k, k.isLt, inv.minor_large hA hdet small⟩
  | solved => exact absurd h1 (by simp)

/-- Minors of order at most `4` of a matrix with entries from `0` to `99` are below `10¹⁰`. -/
theorem abs_pivotMinor_le {A : Matrix (Fin n) (Fin n) ℤ} (hA : ∀ i j, 0 ≤ A i j ∧ A i j ≤ 99)
    {k : ℕ} (hk : k ≤ 4) : |pivotMinor (A.map (Int.cast : ℤ → ℚ)) k| ≤ 10 ^ 10 := by
  have hentry : ∀ i j, |A.map (Int.cast : ℤ → ℚ) i j| ≤ 99 := by
    intro i j
    rw [map_apply, ← Int.cast_abs, abs_of_nonneg (hA i j).1]
    exact_mod_cast (hA i j).2
  have hlead := abs_lead_le (by norm_num) hentry (pivotOrder (A.map (Int.cast : ℤ → ℚ)) k) k
  refine hlead.trans ?_
  interval_cases k <;> norm_num [Nat.factorial]

/-- **Integer matrices.**  On a nonsingular matrix with integer entries from `0` to `99` the
    call returns `0`, with the one solution in `b`, iff the matrix passes every test; it does
    if no minor met on the way is above `10¹⁰`, and always if `n ≤ 5`. -/
theorem myDgesv_integer (hn : 1 ≤ n) (hnrhs : 1 ≤ nrhs) (a b : Mem ℚ)
    {A : Matrix (Fin n) (Fin n) ℤ} (hA : a.toMatrix n n = A.map Int.cast)
    (hrange : ∀ i j, 0 ≤ A i j ∧ A i j ≤ 99) (hdet : (a.toMatrix n n).det ≠ 0) :
    ((myDgesv n nrhs a b).1 = 0 ↔
      ∀ k < n, 1 / 10 ^ 10 * |pivotMinor (a.toMatrix n n) k|
        ≤ |pivotMinor (a.toMatrix n n) (k + 1)|) ∧
    ((myDgesv n nrhs a b).1 = 0 →
      a.toMatrix n n * (myDgesv n nrhs a b).2.B n nrhs = b.toMatrix n nrhs ∧
      ∀ Y, a.toMatrix n n * Y = b.toMatrix n nrhs → Y = (myDgesv n nrhs a b).2.B n nrhs) ∧
    ((∀ k < n, |pivotMinor (a.toMatrix n n) k| ≤ 10 ^ 10) → (myDgesv n nrhs a b).1 = 0) ∧
    (n ≤ 5 → (myDgesv n nrhs a b).1 = 0) := by
  have hout := myDgesv_outcome hn hnrhs a b
  have hbounded : (∀ k < n, |pivotMinor (a.toMatrix n n) k| ≤ 10 ^ 10) →
      (myDgesv n nrhs a b).1 = 0 := by
    intro hsmall
    refine hout.code.resolve_right fun h1 => ?_
    obtain ⟨k, hk, hlarge⟩ := hout.exists_minor_large hA hdet h1
    exact absurd (hsmall k hk) (not_le.mpr hlarge)
  refine ⟨hout.code_eq_zero_iff, ?_, hbounded, ?_⟩
  · intro h0
    have hsol := (hout.solution h0).2
    exact ⟨hsol, fun Y hY => solution_unique hdet hsol hY⟩
  · intro hn5
    apply hbounded
    intro k hk
    rw [hA]
    exact abs_pivotMinor_le hrange (by omega)

/-- The matrix with rows `(1, 99)` and `(2, 3)` is accepted. -/
theorem myDgesv_integer_two :
    (myDgesv 2 1 (.ofList [1, 99, 2, 3]) (.ofList [1, 1] : Mem ℚ)).1 = 0 := by
  let A : Matrix (Fin 2) (Fin 2) ℤ := !![1, 99; 2, 3]
  have hA : Mem.toMatrix 2 2 (.ofList [1, 99, 2, 3] : Mem ℚ) = A.map Int.cast := by
    decide +kernel
  have hdet : (Mem.toMatrix 2 2 (.ofList [1, 99, 2, 3] : Mem ℚ)).det ≠ 0 := by
    decide +kernel
  have hrange : ∀ i j, 0 ≤ A i j ∧ A i j ≤ 99 := by
    intro i j
    fin_cases i <;> fin_cases j <;> decide
  have h := myDgesv_integer (by decide) (by decide : 1 ≤ 1) _ (.ofList [1, 1]) hA hrange hdet
  exact h.2.2.2 (by decide)

/-! ### A family of matrices that are rejected -/

/-- Ones on the diagonal and `99` below it. -/
def bidiagonal (n : ℕ) : Mem ℚ where
  size := n * n
  get c := if c / n = c % n then 1 else if c / n = c % n + 1 then 99 else 0

theorem bidiagonal_cell (i : ℕ) {j : ℕ} (hj : j < n) :
    bidiagonal n (i * n + j) = if i = j then 1 else if i = j + 1 then 99 else 0 := by
  show (if (i * n + j) / n = (i * n + j) % n then 1
    else if (i * n + j) / n = (i * n + j) % n + 1 then 99 else 0 : ℚ) = _
  rw [cell_div i hj, cell_mod i hj]

/-- The matrix is nonsingular. -/
theorem det_bidiagonal (n : ℕ) : ((bidiagonal n).toMatrix n n).det = 1 := by
  have hlow : ((bidiagonal n).toMatrix n n).IsLowerTriangular := by
    intro i j hij
    have hij : i.val < j.val := hij
    rw [Mem.toMatrix_apply, bidiagonal_cell i j.isLt, if_neg (by omega), if_neg (by omega)]
  rw [det_of_isLowerTriangular _ hlow]
  refine Finset.prod_eq_one fun i _ => ?_
  rw [Mem.toMatrix_apply, bidiagonal_cell i i.isLt, if_pos rfl]

/-- Its entries after `k` steps: rows `1, …, k` have moved up by one, and what is left of
    row `0` is a single entry in row `k`. -/
def bidiagonalAfter (k i j : ℕ) : ℚ :=
  if i < k then if j = i then 99 else if j = i + 1 then 1 else 0
  else if i = k then if j = k then (-1 / 99) ^ k else 0
  else if j = i then 1 else if j + 1 = i then 99 else 0

theorem bidiagonalAfter_of_lt {k i : ℕ} (hi : i < k) (j : ℕ) :
    bidiagonalAfter k i j = if j = i then 99 else if j = i + 1 then 1 else 0 := if_pos hi

theorem bidiagonalAfter_self (k j : ℕ) :
    bidiagonalAfter k k j = if j = k then (-1 / 99) ^ k else 0 := by
  rw [bidiagonalAfter, if_neg (lt_irrefl k), if_pos rfl]

theorem bidiagonalAfter_of_gt {k i : ℕ} (hi : k < i) (j : ℕ) :
    bidiagonalAfter k i j = if j = i then 1 else if j + 1 = i then 99 else 0 := by
  rw [bidiagonalAfter, if_neg (by omega), if_neg (by omega)]

/-- The rows that step `k` exchanges, in column `k`. -/
theorem bidiagonalAfter_succ_self (k : ℕ) : bidiagonalAfter k (k + 1) k = 99 := by
  rw [bidiagonalAfter_of_gt (Nat.lt_succ_self k), if_neg (by omega), if_pos rfl]

/-- The rows further down have nothing in column `k`. -/
theorem bidiagonalAfter_eq_zero {k i : ℕ} (hi : k + 1 < i) : bidiagonalAfter k i k = 0 := by
  rw [bidiagonalAfter_of_gt (by omega), if_neg (by omega), if_neg (by omega)]

/-- What is left of row `0` is never the largest entry of its column. -/
theorem abs_bidiagonalAfter_lt (k : ℕ) : |bidiagonalAfter k k k| < 99 := by
  rw [bidiagonalAfter_self, if_pos rfl, abs_pow]
  refine lt_of_le_of_lt (pow_le_one₀ (abs_nonneg _) ?_) (by norm_num)
  rw [abs_div, abs_neg, abs_one, abs_of_pos (by norm_num)]
  norm_num

/-- Step `k` takes row `k + 1` for its pivot. -/
theorem searchPivot_bidiagonal {k : ℕ} (hk : k + 1 < n)
    (h : ∀ i < n, ∀ j < n, s.a (i * n + j) = bidiagonalAfter k i j) :
    (searchPivot n k s.a).1 = k + 1 := by
  have hk' : k < n := by omega
  have hmax := searchPivot_isFirstMax ⟨k, hk'⟩ s
  have hbounds := searchPivot_bounds hk' s.a
  have hentry : ∀ i : Fin n, s.A n i ⟨k, hk'⟩ = bidiagonalAfter k i k := fun i => h i i.isLt k hk'
  -- The entry below the diagonal is `99`, so the entry found is at least that.
  have hlarge : 99 ≤ |bidiagonalAfter k (searchPivot n k s.a).1 k| := by
    have hle := hmax.max ⟨k + 1, hk⟩ (Fin.mk_le_mk.mpr (Nat.le_succ k))
    simp only [hentry] at hle
    rw [bidiagonalAfter_succ_self] at hle
    exact (le_abs_self _).trans hle
  by_contra hne
  by_cases heq : (searchPivot n k s.a).1 = k
  · rw [heq] at hlarge
    exact absurd (abs_bidiagonalAfter_lt k) (not_lt.mpr hlarge)
  · rw [bidiagonalAfter_eq_zero (by omega), abs_zero] at hlarge
    norm_num at hlarge

/-- The rows after the exchange of step `k`. -/
theorem pivot_bidiagonal (nrhs : ℕ) {k : ℕ} (hk : k + 1 < n)
    (h : ∀ i < n, ∀ j < n, s.a (i * n + j) = bidiagonalAfter k i j) :
    ∀ i < n, ∀ j < n, (pivot n nrhs k s).a (i * n + j)
      = bidiagonalAfter k (Equiv.swap k (k + 1) i) j := by
  intro i hi j hj
  rw [pivot_a n nrhs k s i hj, searchPivot_bidiagonal hk h]
  refine h _ ?_ j hj
  rw [Equiv.swap_apply_def]
  split_ifs <;> omega

/-- The elimination of step `k`. -/
theorem eliminateRows_bidiagonal (nrhs : ℕ) {k : ℕ} (hk : k + 1 < n)
    (h : ∀ i < n, ∀ j < n, s.a (i * n + j) = bidiagonalAfter k (Equiv.swap k (k + 1) i) j) :
    ∀ i < n, ∀ j < n, (eliminateRows n nrhs k s).a (i * n + j) = bidiagonalAfter (k + 1) i j := by
  intro i hi j hj
  have hk' : k < n := by omega
  rw [eliminateRows_a nrhs hk' s i hj, h i hi j hj, h i hi k hk', h k hk' k hk', h k hk' j hj,
    Equiv.swap_apply_left]
  rw [bidiagonalAfter_succ_self]
  rcases lt_trichotomy i k with hlt | rfl | hgt
  · -- Finished rows stay as they are, …
    rw [if_neg (by omega), Equiv.swap_apply_of_ne_of_ne hlt.ne (by omega),
      bidiagonalAfter_of_lt hlt, bidiagonalAfter_of_lt (by omega)]
  · -- … the row exchanged up joins them, …
    rw [if_neg (by omega), Equiv.swap_apply_left, bidiagonalAfter_of_lt (Nat.lt_succ_self i),
      bidiagonalAfter_of_gt (Nat.lt_succ_self i)]
    split_ifs <;> first | rfl | omega
  · by_cases hik : i = k + 1
    · -- … the row exchanged down loses its entry and gets one to the right of it, …
      subst hik
      rw [Equiv.swap_apply_right, bidiagonalAfter_self, bidiagonalAfter_self, bidiagonalAfter_self,
        bidiagonalAfter_of_gt (Nat.lt_succ_self k), if_pos rfl]
      by_cases hjk : j = k
      · rw [if_pos ⟨hgt, hi, hjk.ge⟩, if_pos hjk, if_neg (by omega), if_pos (by omega),
          if_neg (by omega)]
        ring
      · rw [if_neg hjk, pow_succ]
        by_cases hjk' : j = k + 1
        · rw [if_pos ⟨hgt, hi, by omega⟩, if_pos hjk', if_pos hjk']
          ring
        · rw [if_neg hjk', if_neg (by omega : ¬ j + 1 = k + 1), if_neg hjk', mul_zero, add_zero,
            ite_self]
    · -- … and the rows below have nothing to be cleared.
      rw [Equiv.swap_apply_of_ne_of_ne (by omega) hik, bidiagonalAfter_eq_zero (by omega),
        neg_zero, zero_div, zero_mul, add_zero, ite_self, bidiagonalAfter_of_gt (by omega),
        bidiagonalAfter_of_gt (by omega)]

/-- Every pivot but the last is `99`, so the elimination goes through. -/
theorem eliminateTo_bidiagonal (nrhs : ℕ) (b : Mem ℚ) {k : ℕ} (hk : k < n) :
    ∃ s, eliminateTo n nrhs k (.init (bidiagonal n) b) = .next s ∧
      ∀ i < n, ∀ j < n, s.a (i * n + j) = bidiagonalAfter k i j := by
  refine eliminateTo_entries ?_ ?_ hk
  · intro i hi j hj
    rw [bidiagonal_cell i hj]
    simp only [bidiagonalAfter, pow_zero]
    split_ifs <;> first | rfl | omega
  · intro k s hk hentries
    have hk' : k < n := by omega
    have hpivot := pivot_bidiagonal nrhs hk hentries
    refine ⟨?_, eliminateRows_bidiagonal nrhs hk hpivot⟩
    rw [hpivot k hk' k hk', Equiv.swap_apply_left, bidiagonalAfter_succ_self, tol_rat]
    norm_num [abs_of_pos]

/-- The last pivot. -/
theorem abs_bidiagonalAfter_last_lt (hn : 7 ≤ n) :
    |bidiagonalAfter (n - 1) (n - 1) (n - 1)| < tol := by
  rw [bidiagonalAfter_self, if_pos rfl, abs_pow]
  have habs : |(-1 / 99 : ℚ)| = 1 / 99 := by norm_num [abs_div]
  have hpow : (1 / 99 : ℚ) ^ (n - 1) ≤ (1 / 99) ^ 6 :=
    pow_le_pow_of_le_one (by norm_num) (by norm_num) (by omega)
  rw [habs, tol_rat]
  exact hpow.trans_lt (by norm_num)

/-- **Rejected at every order from `7` on**, whatever the right-hand sides. -/
theorem bidiagonal_rejected (hn : 7 ≤ n) (hnrhs : 1 ≤ nrhs) (b : Mem ℚ) :
    (myDgesv n nrhs (bidiagonal n) b).1 = -1 := by
  obtain ⟨s, hs, hentries⟩ := eliminateTo_bidiagonal nrhs b (by omega : n - 1 < n)
  have hsmall : SmallDiag n s.a := by
    refine ⟨n - 1, by omega, (lt_fabs_tol _).mpr ?_⟩
    rw [hentries (n - 1) (by omega) (n - 1) (by omega)]
    exact abs_bidiagonalAfter_last_lt hn
  have hflag := backSubstitute_errorFlag n nrhs s
  rw [if_pos ⟨hnrhs, hsmall⟩] at hflag
  rw [myDgesv, eliminate, hs]
  show exitCode _ = -1
  rw [exitCode, hflag]
  rfl

/-- Its entries are values that `generate_matrix` stores. -/
theorem exists_bidiagonal_eq_intCast (n c : ℕ) :
    ∃ z : ℤ, 0 ≤ z ∧ z ≤ 99 ∧ bidiagonal n c = z := by
  show ∃ z : ℤ, 0 ≤ z ∧ z ≤ 99 ∧
    (if c / n = c % n then 1 else if c / n = c % n + 1 then 99 else 0 : ℚ) = z
  split_ifs
  · exact ⟨1, by norm_num⟩
  · exact ⟨99, by norm_num⟩
  · exact ⟨0, by norm_num⟩

/-- The matrix of order `7` is nonsingular with entries `0`, `1` and `99`, and is rejected. -/
theorem not_myDgesv_integer :
    (∀ c, ∃ z : ℤ, 0 ≤ z ∧ z ≤ 99 ∧ bidiagonal 7 c = z) ∧
      ((bidiagonal 7).toMatrix 7 7).det ≠ 0 ∧
      (myDgesv 7 1 (bidiagonal 7) (.ofList [1, 0, 0, 0, 0, 0, 0])).1 = -1 := by
  refine ⟨exists_bidiagonal_eq_intCast 7, ?_, bidiagonal_rejected (by decide) (by decide) _⟩
  rw [det_bidiagonal]
  exact one_ne_zero

end Pivoted

end Dgesv
