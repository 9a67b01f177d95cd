import Dgesv.Pivoting

namespace Dgesv

open Loop Matrix Equiv

/-!
# What a call of `src/dgesv.c` does

A call ends in one of three ways (`Outcome`): a test of the elimination fails, the last
diagonal entry turns out small in the back substitution, or the system is solved.  Every
statement about a call is read off the three cases.

* `myDgesv_outcome` — there are no other cases;
* `myDgesv_eq_zero_iff` — the call succeeds iff no minor of the given matrix, in the row
  order of partial pivoting, is too small against the one before it;
* `myDgesv_solves`, `myDgesv_failure_near_singular` — what success and failure mean for the
  given system;
* `eliminate_plu` — the factorisation behind the elimination.
-/

namespace Pivoted

variable {n nrhs : ℕ} {a b : Mem ℚ} {L : Matrix (Fin n) (Fin n) ℚ} {s : State ℚ}

/-! ### The three outcomes -/

/-- How a call on `(a, b)` can end, with its return code and final state. -/
inductive Outcome (n nrhs : ℕ) (a b : Mem ℚ) : ℤ × State ℚ → Prop where
  /-- The test of iteration `k` failed. -/
  | early (k : Fin n) (L : Matrix (Fin n) (Fin n) ℚ) (s : State ℚ) (hk : k.val + 1 < n)
      (inv : TestInv n nrhs a b k L s) (small : |s.A n k k| < tol) : Outcome n nrhs a b (-1, s)
  /-- The elimination went through, but its last diagonal entry is small. -/
  | late (k : Fin n) (L : Matrix (Fin n) (Fin n) ℚ) (s : State ℚ) (hk : k.val + 1 = n)
      (inv : TestInv n nrhs a b k L s) (small : |s.A n k k| < tol) :
      Outcome n nrhs a b (-1, backSubstitute n nrhs s)
  /-- All diagonal entries passed. -/
  | solved (k : Fin n) (L : Matrix (Fin n) (Fin n) ℚ) (s : State ℚ) (hk : k.val + 1 = n)
      (inv : TestInv n nrhs a b k L s) (large : tol ≤ |s.A n k k|) :
      Outcome n nrhs a b (0, backSubstitute n nrhs s)

/-- The last row has no other to be exchanged with. -/
theorem pivot_last (nrhs : ℕ) {k : ℕ} (hk : k + 1 = n) (s : State ℚ) : pivot n nrhs k s = s := by
  apply pivot_eq_self
  rw [searchPivot, forUp_of_le (by omega)]

/-- Once the elimination is through, only the last diagonal entry can be small. -/
theorem TestInv.smallDiag_iff_last {k : Fin n} (hk : k.val + 1 = n) (h : TestInv n nrhs a b k L s) :
    SmallDiag n s.a ↔ |s.A n k k| < tol := by
  rw [smallDiag_iff]
  refine ⟨fun ⟨i, hi⟩ => ?_, fun hlt => ⟨k, hlt⟩⟩
  by_contra hlarge
  exact absurd hi (not_lt.mpr (forall_of_last hk h.pivots (not_lt.mp hlarge) i))

/-- **There are no other outcomes.** -/
theorem myDgesv_outcome (hn : 1 ≤ n) (hnrhs : 1 ≤ nrhs) (a b : Mem ℚ) :
    Outcome n nrhs a b (myDgesv n nrhs a b) := by
  rw [myDgesv]
  cases h : eliminate n nrhs (.init a b) with
  | ret r s =>
    obtain ⟨rfl, k, L, hk, inv, small⟩ := testInv_of_eliminate_ret h
    exact .early k L s hk inv small
  | next s =>
    obtain ⟨L, hL⟩ := headInv_of_eliminateTo (Nat.sub_le n 1) h
    -- The last row has no iteration of its own; its pivot step would do nothing.
    have hlast : n - 1 < n := by omega
    have inv := HeadInv.pivot (k := ⟨n - 1, hlast⟩) hL
    rw [pivot_last nrhs (by show n - 1 + 1 = n; omega) s] at inv
    have hk : (⟨n - 1, hlast⟩ : Fin n).val + 1 = n := by show n - 1 + 1 = n; omega
    have hflag := backSubstitute_errorFlag n nrhs s
    rw [hL.flag] at hflag
    by_cases small : |s.A n ⟨n - 1, hlast⟩ ⟨n - 1, hlast⟩| < tol
    · rw [if_pos ⟨hnrhs, (inv.smallDiag_iff_last hk).mpr small⟩] at hflag
      show Outcome n nrhs a b (exitCode _, _)
      rw [exitCode, hflag]
      exact .late _ _ s hk inv small
    · rw [if_neg fun hc => small ((inv.smallDiag_iff_last hk).mp hc.2)] at hflag
      show Outcome n nrhs a b (exitCode _, _)
      rw [exitCode, hflag]
      exact .solved _ _ s hk inv (not_lt.mp small)

/-! ### When a call succeeds -/

/-- The matrix passes every test: no leading minor, in the row order of partial pivoting, is
    smaller than `10⁻¹⁰` times the one before it. -/
def Accepted (A : Matrix (Fin n) (Fin n) ℚ) : Prop :=
  ∀ k < n, tol * |pivotMinor A k| ≤ |pivotMinor A (k + 1)|

/-- Every test but the last is passed, and the last is not. -/
def LastPivotFails (A : Matrix (Fin n) (Fin n) ℚ) : Prop :=
  (∀ k, k + 1 < n → tol * |pivotMinor A k| ≤ |pivotMinor A (k + 1)|) ∧
    |pivotMinor A n| < tol * |pivotMinor A (n - 1)|

/-- A test, on the given matrix. -/
theorem TestInv.test_iff {k : Fin n} (h : TestInv n nrhs a b k L s) :
    tol * |pivotMinor (a.toMatrix n n) k| ≤ |pivotMinor (a.toMatrix n n) (k + 1)|
      ↔ tol ≤ |s.A n k k| := by
  rw [h.minor_succ, abs_mul, mul_comm]
  exact mul_le_mul_iff_right₀ (abs_pos.mpr h.minor_ne)

/-- The call returns `0` or `-1`. -/
theorem Outcome.code {o : ℤ × State ℚ} (h : Outcome n nrhs a b o) : o.1 = 0 ∨ o.1 = -1 := by
  cases h with
  | early => exact Or.inr rfl
  | late => exact Or.inr rfl
  | solved => exact Or.inl rfl

/-- Success, as a condition on the given matrix. -/
theorem Outcome.code_eq_zero_iff {o : ℤ × State ℚ} (h : Outcome n nrhs a b o) :
    o.1 = 0 ↔ Accepted (a.toMatrix n n) := by
  cases h with
  | early k L s hk inv small =>
    refine ⟨fun h0 => absurd h0 (by simp), fun hacc => ?_⟩
    exact absurd (inv.test_iff.mp (hacc k k.isLt)) (not_le.mpr small)
  | late k L s hk inv small =>
    refine ⟨fun h0 => absurd h0 (by simp), fun hacc => ?_⟩
    exact absurd (inv.test_iff.mp (hacc k k.isLt)) (not_le.mpr small)
  | solved k L s hk inv large =>
    refine ⟨fun _ i hi => ?_, fun _ => rfl⟩
    rcases Nat.lt_or_ge i k with hlt | hge
    · exact inv.minors i hlt
    · obtain rfl : i = k := by omega
      exact inv.test_iff.mpr large

/-- **The call succeeds iff the matrix passes every test.** -/
theorem myDgesv_eq_zero_iff (hn : 1 ≤ n) (hnrhs : 1 ≤ nrhs) (a b : Mem ℚ) :
    (myDgesv n nrhs a b).1 = 0 ↔ Accepted (a.toMatrix n n) :=
  (myDgesv_outcome hn hnrhs a b).code_eq_zero_iff

/-! ### What success means -/

/-- A solved system: the given matrix is nonsingular and `b` holds the solution. -/
theorem TestInv.solution {k : Fin n} (hk : k.val + 1 = n) (inv : TestInv n nrhs a b k L s)
    (large : tol ≤ |s.A n k k|) :
    (a.toMatrix n n).det ≠ 0 ∧
      a.toMatrix n n * (backSubstitute n nrhs s).B n nrhs = b.toMatrix n nrhs := by
  refine inv.lu.backSubstitute_solution hk fun i => ?_
  have hi : tol ≤ |s.A n i i| := forall_of_last hk inv.pivots large i
  exact abs_pos.mp (tol_pos.trans_le hi)

/-- A nonsingular system has one solution. -/
theorem solution_unique {A : Matrix (Fin n) (Fin n) ℚ} {X Y B : Matrix (Fin n) (Fin nrhs) ℚ}
    (hdet : A.det ≠ 0) (hX : A * X = B) (hY : A * Y = B) : Y = X := by
  have hinv := nonsing_inv_mul A (isUnit_iff_ne_zero.mpr hdet)
  rw [← Matrix.one_mul Y, ← Matrix.one_mul X, ← hinv, Matrix.mul_assoc, Matrix.mul_assoc, hX, hY]

/-- Code `0` means a nonsingular matrix and a solution in `b`. -/
theorem Outcome.solution {o : ℤ × State ℚ} (h : Outcome n nrhs a b o) (h0 : o.1 = 0) :
    (a.toMatrix n n).det ≠ 0 ∧ a.toMatrix n n * o.2.B n nrhs = b.toMatrix n nrhs := by
  cases h with
  | early => exact absurd h0 (by simp)
  | late => exact absurd h0 (by simp)
  | solved k L s hk inv large => exact inv.solution hk large

/-- **Correctness.**  A call that returns `0` was given a nonsingular matrix and leaves the
    one solution of `A X = B` in `b`; on a singular matrix the call returns `-1`. -/
theorem myDgesv_solves (hn : 1 ≤ n) (hnrhs : 1 ≤ nrhs) (a b : Mem ℚ) :
    ((myDgesv n nrhs a b).1 = 0 →
      (a.toMatrix n n).det ≠ 0 ∧
      a.toMatrix n n * (myDgesv n nrhs a b).2.B n nrhs = b.toMatrix n nrhs ∧
      ∀ Y, a.toMatrix n n * Y = b.toMatrix n nrhs → Y = (myDgesv n nrhs a b).2.B n nrhs) ∧
    ((a.toMatrix n n).det = 0 → (myDgesv n nrhs a b).1 = -1) := by
  have hout := myDgesv_outcome hn hnrhs a b
  refine ⟨fun h0 => ?_, fun hsing => ?_⟩
  · obtain ⟨hdet, hsol⟩ := hout.solution h0
    exact ⟨hdet, hsol, fun Y hY => solution_unique hdet hsol hY⟩
  · refine hout.code.resolve_left fun h0 => ?_
    exact (hout.solution h0).1 hsing

/-- The coefficient matrix of `src/test.c`. -/
def testA : Mem ℚ := .ofList [2, 3, -1, 5, 2, 2, 1, -1, 3]

/-- The right-hand sides of `src/test.c`. -/
def testB : Mem ℚ := .ofList [4, 1, -2, 3, 5, 7, 8, 2, 6]

/-- The system of `src/test.c` is solved. -/
theorem myDgesv_solves_test : (myDgesv 3 3 testA testB).1 = 0 ∧
    testA.toMatrix 3 3 * (myDgesv 3 3 testA testB).2.B 3 3 = testB.toMatrix 3 3 := by
  have h0 : (myDgesv 3 3 testA testB).1 = 0 := by decide +kernel
  exact ⟨h0, ((myDgesv_solves (by decide) (by decide) testA testB).1 h0).2.1⟩

/-! ### What failure means -/

/-- Code `-1` means a matrix close to a singular one: at the failed test the tested entry
    is the largest of what is left of its column, and erasing that makes the matrix
    singular. -/
theorem Outcome.exists_near_singular {o : ℤ × State ℚ} (h : Outcome n nrhs a b o)
    (h1 : o.1 = -1) :
    ∃ (c : Fin n) (E : Matrix (Fin n) (Fin n) ℚ), (∀ i j, j ≠ c → E i j = 0) ∧
      (∀ i j, |E i j| < tol) ∧ (a.toMatrix n n + E).det = 0 := by
  cases h with
  | early k L s hk inv small =>
    exact ⟨k, inv.lu.exists_near_singular fun i hi => (inv.max i hi).trans_lt small⟩
  | late k L s hk inv small =>
    exact ⟨k, inv.lu.exists_near_singular fun i hi => (inv.max i hi).trans_lt small⟩
  | solved => exact absurd h1 (by simp)

/-- **Meaning of the failure code.**  A call that returns `-1` was given a matrix that
    becomes singular by a change of less than `10⁻¹⁰` in the entries of one column; so the
    call succeeds on every matrix that is further than that from all singular ones. -/
theorem myDgesv_failure_near_singular (hn : 1 ≤ n) (hnrhs : 1 ≤ nrhs) (a b : Mem ℚ) :
    ((myDgesv n nrhs a b).1 = -1 →
      ∃ (c : Fin n) (E : Matrix (Fin n) (Fin n) ℚ), (∀ i j, j ≠ c → E i j = 0) ∧
        (∀ i j, |E i j| < 1 / 10 ^ 10) ∧ (a.toMatrix n n + E).det = 0) ∧
    ((∀ S : Matrix (Fin n) (Fin n) ℚ, S.det = 0 →
        ∃ i j, 1 / 10 ^ 10 ≤ |a.toMatrix n n i j - S i j|) →
      (myDgesv n nrhs a b).1 = 0) := by
  have hout := myDgesv_outcome hn hnrhs a b
  refine ⟨fun h1 => hout.exists_near_singular h1, fun hfar => ?_⟩
  refine hout.code.resolve_right fun h1 => ?_
  obtain ⟨c, E, -, hE, hdet⟩ := hout.exists_near_singular h1
  obtain ⟨i, j, hij⟩ := hfar _ hdet
  rw [Matrix.add_apply, sub_add_cancel_left, abs_neg] at hij
  exact absurd hij (not_le.mpr (hE i j))

/-- A call on the singular matrix with rows `(1, 2)` and `(2, 4)` fails, in the last test. -/
theorem myDgesv_failure_near_singular_two :
    (myDgesv 2 1 (.ofList [1, 2, 2, 4]) (.ofList [1, 1] : Mem ℚ)).1 = -1 ∧
      ∃ (c : Fin 2) (E : Matrix (Fin 2) (Fin 2) ℚ), (∀ i j, j ≠ c → E i j = 0) ∧
        (∀ i j, |E i j| < 1 / 10 ^ 10) ∧
        (Mem.toMatrix 2 2 (.ofList [1, 2, 2, 4]) + E).det = 0 := by
  have h1 : (myDgesv 2 1 (.ofList [1, 2, 2, 4]) (.ofList [1, 1] : Mem ℚ)).1 = -1 := by
    decide +kernel
  exact ⟨h1, (myDgesv_failure_near_singular (by decide) (by decide) _ _).1 h1⟩

/-! ### The factorisation behind the elimination -/

/-- **`P A = L U`.**  At the head of every iteration `k` that is reached, the given system
    with its rows permuted is `L` times the worked-on one, with `L` unit lower triangular,
    the identity from column `k` on, and entries of size at most `1`.  When the loop
    completes, `a` is upper triangular and its diagonal gives the determinant, up to one
    sign change for each iteration that exchanged rows. -/
theorem eliminate_plu {k : ℕ} (hk : k ≤ n - 1)
    (h : eliminateTo n nrhs k (.init a b) = .next s) :
    ∃ (σ : Perm (Fin n)) (L : Matrix (Fin n) (Fin n) ℚ),
      (∀ i, L i i = 1) ∧ (∀ i j, i < j → L i j = 0) ∧
      (∀ i j, k ≤ j.val → L i j = (1 : Matrix (Fin n) (Fin n) ℚ) i j) ∧
      (∀ i j, |L i j| ≤ 1) ∧
      σ.permMatrix ℚ * a.toMatrix n n = L * s.A n ∧
      σ.permMatrix ℚ * b.toMatrix n nrhs = L * s.B n nrhs ∧
      (∀ i j, j.val < k → j < i → s.A n i j = 0) ∧
      (k = n - 1 → (∀ i j, j < i → s.A n i j = 0) ∧
        (a.toMatrix n n).det = (-1) ^ s.swaps * ∏ i, s.A n i i) := by
  obtain ⟨L, inv⟩ := headInv_of_eliminateTo (hk.trans (Nat.sub_le n 1)) h
  refine ⟨pivotOrder (a.toMatrix n n) k, L, inv.lu.diag, fun i j hij => inv.lu.lower hij,
    fun i j hj => ?_, inv.bound, ?_, ?_, inv.lu.zeros, fun hlast => ?_⟩
  · by_cases hij : i = j
    · rw [hij, inv.lu.diag, one_apply_eq]
    · rw [inv.lu.tail i j hj hij, one_apply_ne hij]
  · rw [PEquiv.toMatrix_toPEquiv_mul, inv.lu.hA]
  · rw [PEquiv.toMatrix_toPEquiv_mul, inv.lu.hB]
  · have hup : ∀ i j : Fin n, j < i → s.A n i j = 0 := fun i j hij =>
      inv.lu.zeros i j (by have := Fin.lt_def.mp hij; omega) hij
    have hdet := inv.lu.det_eq
    rw [inv.sign, det_of_isUpperTriangular fun i j hij => hup i j hij] at hdet
    refine ⟨hup, ?_⟩
    rw [← hdet, ← mul_assoc]
    push_cast
    rw [← mul_pow]
    simp

/-- The elimination of the system of `src/test.c` completes. -/
theorem eliminate_plu_test :
    ∃ s, eliminateTo 3 3 2 (.init testA testB) = .next s ∧
      (testA.toMatrix 3 3).det = (-1) ^ s.swaps * ∏ i, s.A 3 i i := by
  have hnext : (eliminateTo 3 3 2 (.init testA testB)).isNext = true := by decide +kernel
  obtain ⟨s, hs⟩ := Flow.isNext_iff.mp hnext
  obtain ⟨_, _, _, _, _, _, _, _, _, hlast⟩ := eliminate_plu (by decide) hs
  exact ⟨s, hs, (hlast rfl).2⟩

end Pivoted

end Dgesv
