import Dgesv.Solution

namespace Dgesv

open Loop Matrix Equiv

/-!
# What a call of `src/task1/dgesv.c` does

The solver without pivoting runs the same elimination with the rows in the order given,
and tests the diagonal entry where it stands.  Its back substitution has a second test,
which can only fail in its very first iteration: the diagonal entries before the last have
passed the test of the elimination and are not written afterwards.

* `Unpivoted.headInv_of_eliminateTo` — the invariant of the elimination;
* `Unpivoted.myDgesv_outcome` — the three ways in which a call can end;
* `Unpivoted.myDgesv_failure_equivalent` — a failed call leaves an equivalent system;
* `Unpivoted.Outcome.code_eq_zero_iff` — which matrices are accepted;
* `Unpivoted.Outcome.solution` — a successful call leaves the solution;
* `Unpivoted.myDgesv_accepts_iff` — the same, in terms of the leading blocks.
-/

namespace Unpivoted

variable {n nrhs : ℕ} {a b : Mem ℚ} {L : Matrix (Fin n) (Fin n) ℚ} {s s' : State ℚ}

/-- At the head of iteration `k` of a call on `(a, b)`. -/
structure HeadInv (n nrhs : ℕ) (a b : Mem ℚ) (k : ℕ) (L : Matrix (Fin n) (Fin n) ℚ)
    (s : State ℚ) : Prop where
  lu : LUPrefix (a.toMatrix n n) (b.toMatrix n nrhs) k 1 L (s.A n) (s.B n nrhs)
  /-- The pivots so far passed the test and are still in place. -/
  pivots : ∀ i : Fin n, i.val < k → tol ≤ |s.A n i i|
  divs : ∀ d, Event.div d ∈ s.trace → tol ≤ |d|
  /-- No solution value has been stored. -/
  unsolved : ∀ c, Event.store c ∉ s.trace

/-! ### The elimination loop -/

/-- Elimination, after a test that passed. -/
theorem HeadInv.eliminateRows {k : Fin n} (h : HeadInv n nrhs a b k L s)
    (htol : tol ≤ |s.A n k k|) :
    HeadInv n nrhs a b (k + 1) (L + multipliers k (s.A n)) (eliminateRows n nrhs k s) := by
  have hpos : 0 < |s.A n k k| := tol_pos.trans_le htol
  refine ⟨eliminateRows_lu h.lu (abs_pos.mp hpos), eliminateRows_pivots h.pivots htol,
    eliminateRows_divs h.divs htol, fun c hc => ?_⟩
  rcases eliminateRows_mem_trace k.isLt hc with hc | hc
  · cases hc
  · exact h.unsolved c hc

/-- On entry. -/
theorem headInv_init (n nrhs : ℕ) (a b : Mem ℚ) : HeadInv n nrhs a b 0 1 (.init a b) where
  lu := LUPrefix.init _ _
  pivots i hi := absurd hi (Nat.not_lt_zero _)
  divs d hd := by simp [State.init] at hd
  unsolved c hc := by simp [State.init] at hc

/-- **The invariant holds at every head that is reached.** -/
theorem headInv_of_eliminateTo {k : ℕ} (hk : k ≤ n)
    (h : eliminateTo n nrhs k (.init a b) = .next s) : ∃ L, HeadInv n nrhs a b k L s := by
  refine forUpRet_inv (fun k s => ∃ L, HeadInv n nrhs a b k L s) ⟨1, headInv_init n nrhs a b⟩ ?_ h
  rintro i t t' hi ⟨L, hL⟩ ht
  have hin : i < n := by omega
  rcases eliminateColumn_cases nrhs ⟨i, hin⟩ t with ⟨-, hr⟩ | ⟨htol, hr⟩
  · rw [hr] at ht
    cases ht
  · rw [hr] at ht
    cases ht
    exact ⟨_, HeadInv.eliminateRows (k := ⟨i, hin⟩) hL htol⟩

/-- **A return from the loop.**  It is the return of a failed test, with code `-1`. -/
theorem headInv_of_eliminate_ret {r : ℤ} (h : eliminate n nrhs (.init a b) = .ret r s) :
    r = -1 ∧
      ∃ (k : Fin n) (L : _), k.val + 1 < n ∧ HeadInv n nrhs a b k L s ∧ |s.A n k k| < tol := by
  obtain ⟨k, t, hk, ht, hr⟩ := forUpRet_eq_ret h
  have hkn : k < n := by omega
  obtain ⟨L, hL⟩ := headInv_of_eliminateTo hkn.le ht
  rcases eliminateColumn_cases nrhs ⟨k, hkn⟩ t with ⟨hlt, hc⟩ | ⟨-, hc⟩
  · rw [hc] at hr
    cases hr
    exact ⟨rfl, ⟨k, hkn⟩, L, by show k + 1 < n; omega, hL, hlt⟩
  · rw [hc] at hr
    cases hr

/-! ### The three outcomes -/

/-- How a call on `(a, b)` can end, with its return code and final state. -/
inductive Outcome (n nrhs : ℕ) (a b : Mem ℚ) : ℤ × State ℚ → Prop where
  /-- The test of iteration `k` failed. -/
  | early (k : Fin n) (L : Matrix (Fin n) (Fin n) ℚ) (s : State ℚ) (hk : k.val + 1 < n)
      (inv : HeadInv n nrhs a b k L s) (small : |s.A n k k| < tol) : Outcome n nrhs a b (-1, s)
  /-- The elimination went through, but its last diagonal entry is small. -/
  | late (k : Fin n) (L : Matrix (Fin n) (Fin n) ℚ) (s : State ℚ) (hk : k.val + 1 = n)
      (inv : HeadInv n nrhs a b k L s) (small : |s.A n k k| < tol) : Outcome n nrhs a b (-1, s)
  /-- All diagonal entries passed, or there is no column to test the last of them. -/
  | solved (k : Fin n) (L : Matrix (Fin n) (Fin n) ℚ) (s : State ℚ) (hk : k.val + 1 = n)
      (inv : HeadInv n nrhs a b k L s) (large : 0 < nrhs → tol ≤ |s.A n k k|) :
      Outcome n nrhs a b (0, Pivoted.backSubstitute n nrhs s)

/-- After the elimination, the back substitution either returns at once or solves. -/
theorem HeadInv.backSubstitute_cases {k : Fin n} (hk : k.val + 1 = n)
    (h : HeadInv n nrhs a b k L s) :
    (0 < nrhs ∧ |s.A n k k| < tol ∧ backSubstitute n nrhs s = .ret (-1) s) ∨
    ((0 < nrhs → tol ≤ |s.A n k k|) ∧
      backSubstitute n nrhs s = .next (Pivoted.backSubstitute n nrhs s)) := by
  rcases Nat.eq_zero_or_pos nrhs with rfl | hnrhs
  · exact Or.inr ⟨fun hc => absurd hc (lt_irrefl 0), rfl⟩
  by_cases small : |s.A n k k| < tol
  · refine Or.inl ⟨hnrhs, small, backSubstitute_of_last_small (by omega) hnrhs ?_⟩
    rw [show n - 1 = k by omega]
    exact (lt_fabs_tol _).mpr small
  · refine Or.inr ⟨fun _ => not_lt.mp small, backSubstitute_eq nrhs fun hsmall => ?_⟩
    obtain ⟨i, hi⟩ := smallDiag_iff.mp hsmall
    exact absurd hi (not_lt.mpr (forall_of_last hk h.pivots (not_lt.mp small) i))

/-- **There are no other outcomes.** -/
theorem myDgesv_outcome (hn : 1 ≤ n) (nrhs : ℕ) (a b : Mem ℚ) :
    Outcome n nrhs a b (myDgesv n nrhs a b) := by
  rw [myDgesv]
  cases h : eliminate n nrhs (.init a b) with
  | ret r s =>
    obtain ⟨rfl, k, L, hk, inv, small⟩ := headInv_of_eliminate_ret h
    exact .early k L s hk inv small
  | next s =>
    obtain ⟨L, inv⟩ := headInv_of_eliminateTo (Nat.sub_le n 1) h
    have hk : (⟨n - 1, by omega⟩ : Fin n).val + 1 = n := by show n - 1 + 1 = n; omega
    rcases HeadInv.backSubstitute_cases hk inv with ⟨-, small, hback⟩ | ⟨large, hback⟩
    · rw [Flow.bind_next, hback]
      exact .late _ L s hk inv small
    · rw [Flow.bind_next, hback]
      exact .solved _ L s hk inv large

/-! ### What failure leaves behind -/

/-- While no solution value is stored, the arrays are the given ones multiplied by an
    invertible matrix. -/
theorem HeadInv.equivalent {k : ℕ} (h : HeadInv n nrhs a b k L s) :
    ∃ M : Matrix (Fin n) (Fin n) ℚ, IsUnit M ∧ s.A n = M * a.toMatrix n n ∧
      s.B n nrhs = M * b.toMatrix n nrhs := by
  have hunit : IsUnit L.det := h.lu.det_L ▸ isUnit_one
  have hA := h.lu.hA
  have hB := h.lu.hB
  rw [Perm.coe_one, submatrix_id_id] at hA hB
  refine ⟨L⁻¹, (isUnit_nonsing_inv_iff).mpr ((isUnit_iff_isUnit_det L).mpr hunit), ?_, ?_⟩
  · rw [hA, nonsing_inv_mul_cancel_left _ _ hunit]
  · rw [hB, nonsing_inv_mul_cancel_left _ _ hunit]

/-- Every division of a call is by an entry that passed a test. -/
theorem Outcome.divs {o : ℤ × State ℚ} (h : Outcome n nrhs a b o) (d : ℚ)
    (hd : Event.div d ∈ o.2.trace) : tol ≤ |d| := by
  cases h with
  | early k L s hk inv small => exact inv.divs d hd
  | late k L s hk inv small => exact inv.divs d hd
  | solved k L s hk inv large =>
    rcases (Pivoted.backSubstitute_mem_trace n nrhs s d).mp hd with hd | ⟨hpos, i, hi, rfl⟩
    · exact inv.divs d hd
    · exact forall_of_last hk inv.pivots (large hpos) ⟨i, hi⟩

/-- **What a failed call leaves behind.**  No call divides by anything smaller than the
    tolerance.  A call that returns `-1` leaves the given system multiplied by an invertible
    matrix, and has stored no solution value; where the return is the one of the back
    substitution, that has not changed the state at all. -/
theorem myDgesv_failure_equivalent (hn : 1 ≤ n) (nrhs : ℕ) (a b : Mem ℚ) :
    (∀ d, Event.div d ∈ (myDgesv n nrhs a b).2.trace → 1 / 10 ^ 10 ≤ |d|) ∧
    ((myDgesv n nrhs a b).1 = -1 →
      (∃ M : Matrix (Fin n) (Fin n) ℚ, IsUnit M ∧
        (myDgesv n nrhs a b).2.A n = M * a.toMatrix n n ∧
        (myDgesv n nrhs a b).2.B n nrhs = M * b.toMatrix n nrhs) ∧
      ∀ c, Event.store c ∉ (myDgesv n nrhs a b).2.trace) ∧
    ∀ s s' r, eliminate n nrhs (.init a b) = .next s → backSubstitute n nrhs s = .ret r s' →
      s' = s := by
  have hout := myDgesv_outcome hn nrhs a b
  refine ⟨hout.divs, fun h1 => ?_, fun s s' r hs hr => ?_⟩
  · generalize myDgesv n nrhs a b = o at hout h1
    cases hout with
    | early k L s hk inv small => exact ⟨inv.equivalent, inv.unsolved⟩
    | late k L s hk inv small => exact ⟨inv.equivalent, inv.unsolved⟩
    | solved => exact absurd h1 (by simp)
  · obtain ⟨L, inv⟩ := headInv_of_eliminateTo (Nat.sub_le n 1) hs
    have hk : (⟨n - 1, by omega⟩ : Fin n).val + 1 = n := by show n - 1 + 1 = n; omega
    rcases HeadInv.backSubstitute_cases hk inv with ⟨-, -, hback⟩ | ⟨-, hback⟩
    · rw [hback] at hr
      cases hr
      rfl
    · rw [hback] at hr
      cases hr

/-- The singular system with rows `(1, 2)` and `(2, 4)` fails in the back substitution. -/
theorem myDgesv_failure_equivalent_two :
    (myDgesv 2 1 (.ofList [1, 2, 2, 4]) (.ofList [1, 1] : Mem ℚ)).1 = -1 ∧
      ∃ M : Matrix (Fin 2) (Fin 2) ℚ, IsUnit M ∧
        (myDgesv 2 1 (.ofList [1, 2, 2, 4]) (.ofList [1, 1])).2.A 2
          = M * Mem.toMatrix 2 2 (.ofList [1, 2, 2, 4]) ∧
        (myDgesv 2 1 (.ofList [1, 2, 2, 4]) (.ofList [1, 1])).2.B 2 1
          = M * Mem.toMatrix 2 1 (.ofList [1, 1] : Mem ℚ) := by
  have h1 : (myDgesv 2 1 (.ofList [1, 2, 2, 4]) (.ofList [1, 1] : Mem ℚ)).1 = -1 := by
    decide +kernel
  exact ⟨h1, ((myDgesv_failure_equivalent (by decide) 1 _ _).2.1 h1).1⟩

/-! ### When a call succeeds, and what that means -/

/-- The matrix passes every test as it stands: no leading minor is smaller than `10⁻¹⁰`
    times the one before it. -/
def Accepted (A : Matrix (Fin n) (Fin n) ℚ) : Prop :=
  ∀ k < n, tol * |lead A 1 k| ≤ |lead A 1 (k + 1)|

/-- Pivots that passed the test give nonzero minors. -/
theorem HeadInv.lead_ne {k : ℕ} (h : HeadInv n nrhs a b k L s) {i : ℕ} (hi : i ≤ k) :
    lead (a.toMatrix n n) 1 i ≠ 0 := by
  rw [h.lu.lead_eq (by omega), diagProd, Finset.prod_ne_zero_iff]
  intro l hl
  have hlk : l.val < k := (Finset.mem_filter.mp hl).2.trans_le hi
  exact abs_pos.mp (tol_pos.trans_le (h.pivots l hlk))

/-- A test, on the given matrix. -/
theorem HeadInv.test_iff {k : ℕ} (h : HeadInv n nrhs a b k L s) {i : Fin n} (hi : i.val ≤ k) :
    tol * |lead (a.toMatrix n n) 1 i| ≤ |lead (a.toMatrix n n) 1 (i + 1)|
      ↔ tol ≤ |s.A n i i| := by
  rw [h.lu.lead_succ hi, abs_mul, mul_comm]
  exact mul_le_mul_iff_right₀ (abs_pos.mpr (h.lead_ne hi))

/-- Success, as a condition on the given matrix. -/
theorem Outcome.code_eq_zero_iff {o : ℤ × State ℚ} (h : Outcome n nrhs a b o)
    (hnrhs : 1 ≤ nrhs) : o.1 = 0 ↔ Accepted (a.toMatrix n n) := by
  cases h with
  | early k L s hk inv small =>
    refine ⟨fun h0 => absurd h0 (by simp), fun hacc => ?_⟩
    exact absurd ((inv.test_iff le_rfl).mp (hacc k k.isLt)) (not_le.mpr small)
  | late k L s hk inv small =>
    refine ⟨fun h0 => absurd h0 (by simp), fun hacc => ?_⟩
    exact absurd ((inv.test_iff le_rfl).mp (hacc k k.isLt)) (not_le.mpr small)
  | solved k L s hk inv large =>
    refine ⟨fun _ i hi => ?_, fun _ => rfl⟩
    have hlarge : tol ≤ |s.A n ⟨i, hi⟩ ⟨i, hi⟩| :=
      forall_of_last hk inv.pivots (large hnrhs) ⟨i, hi⟩
    exact (inv.test_iff (i := ⟨i, hi⟩) (by show i ≤ k; omega)).mpr hlarge

/-- Code `0` means a nonsingular matrix and a solution in `b`. -/
theorem Outcome.solution {o : ℤ × State ℚ} (h : Outcome n nrhs a b o) (hnrhs : 1 ≤ nrhs)
    (h0 : o.1 = 0) :
    (a.toMatrix n n).det ≠ 0 ∧ a.toMatrix n n * o.2.B n nrhs = b.toMatrix n nrhs := by
  cases h with
  | early => exact absurd h0 (by simp)
  | late => exact absurd h0 (by simp)
  | solved k L s hk inv large =>
    refine inv.lu.backSubstitute_solution hk fun i => ?_
    have hi : tol ≤ |s.A n i i| := forall_of_last hk inv.pivots (large hnrhs) i
    exact abs_pos.mp (tol_pos.trans_le hi)

/-- The minors that the tests compare are those of the leading blocks. -/
theorem lead_one_eq_det_leading (a : Mem ℚ) {k : ℕ} (hk : k ≤ n) :
    lead (a.toMatrix n n) 1 k = (a.leading n k).det := by
  have hblock : a.leading n k
      = (((a.toMatrix n n).submatrix (1 : Perm (Fin n)) id).toSquareBlockProp
          fun i => i.val < k).submatrix (Fin.castLEOrderIso hk) (Fin.castLEOrderIso hk) := rfl
  rw [lead, hblock]
  exact (det_submatrix_equiv_self (Fin.castLEOrderIso hk).toEquiv _).symm

/-- After a solved call, the diagonal holds the ratios of consecutive minors. -/
theorem Outcome.diagonal {o : ℤ × State ℚ} (h : Outcome n nrhs a b o) (h0 : o.1 = 0)
    (i : Fin n) :
    o.2.A n i i = lead (a.toMatrix n n) 1 (i + 1) / lead (a.toMatrix n n) 1 i := by
  cases h with
  | early => exact absurd h0 (by simp)
  | late => exact absurd h0 (by simp)
  | solved k L s hk inv large =>
    have hik : i.val ≤ k := by omega
    show (Pivoted.backSubstitute n nrhs s).a.toMatrix n n i i = _
    rw [Pivoted.backSubstitute_a, inv.lu.lead_succ hik, mul_div_cancel_left₀ _ (inv.lead_ne hik)]
    rfl

/-- **Exact acceptance condition.**  The call returns `0` iff no leading minor is smaller
    than `10⁻¹⁰` times the one before it; the final diagonal then consists of the ratios of
    consecutive leading minors, and `b` holds the one solution of `A X = B`. -/
theorem myDgesv_accepts_iff (hn : 1 ≤ n) (hnrhs : 1 ≤ nrhs) (a b : Mem ℚ) :
    ((myDgesv n nrhs a b).1 = 0 ↔
      ∀ k, 1 ≤ k → k ≤ n →
        1 / 10 ^ 10 * |(a.leading n (k - 1)).det| ≤ |(a.leading n k).det|) ∧
    ((myDgesv n nrhs a b).1 = 0 →
      (∀ k, 1 ≤ k → k ≤ n → (myDgesv n nrhs a b).2.a ((k - 1) * n + (k - 1))
        = (a.leading n k).det / (a.leading n (k - 1)).det) ∧
      a.toMatrix n n * (myDgesv n nrhs a b).2.B n nrhs = b.toMatrix n nrhs ∧
      ∀ Y, a.toMatrix n n * Y = b.toMatrix n nrhs → Y = (myDgesv n nrhs a b).2.B n nrhs) := by
  have hout := myDgesv_outcome hn nrhs a b
  refine ⟨?_, fun h0 => ⟨?_, ?_⟩⟩
  · rw [hout.code_eq_zero_iff hnrhs]
    constructor
    · intro hacc k hk1 hkn
      rw [← lead_one_eq_det_leading a hkn, ← lead_one_eq_det_leading a (by omega : k - 1 ≤ n)]
      have hstep := hacc (k - 1) (by omega)
      rwa [Nat.sub_add_cancel hk1] at hstep
    · intro hacc k hk
      have hstep := hacc (k + 1) (by omega) hk
      rw [Nat.add_sub_cancel, ← lead_one_eq_det_leading a hk, ← lead_one_eq_det_leading a hk.le]
        at hstep
      exact hstep
  · intro k hk1 hkn
    have hdiag := hout.diagonal h0 ⟨k - 1, by omega⟩
    rw [← lead_one_eq_det_leading a hkn, ← lead_one_eq_det_leading a (by omega : k - 1 ≤ n)]
    rw [show k - 1 + 1 = k by omega] at hdiag
    exact hdiag
  · obtain ⟨hdet, hsol⟩ := hout.solution hnrhs h0
    exact ⟨hsol, fun Y hY => Pivoted.solution_unique hdet hsol hY⟩

/-- The system of the test programs is accepted; its last pivot is the ratio of the last two
    leading minors. -/
theorem myDgesv_accepts_iff_test :
    (myDgesv 3 3 Pivoted.testA Pivoted.testB).1 = 0 ∧
      (myDgesv 3 3 Pivoted.testA Pivoted.testB).2.a 8
        = (Pivoted.testA.leading 3 3).det / (Pivoted.testA.leading 3 2).det := by
  have h0 : (myDgesv 3 3 Pivoted.testA Pivoted.testB).1 = 0 := by decide +kernel
  have h := (myDgesv_accepts_iff (by decide) (by decide) Pivoted.testA Pivoted.testB).2 h0
  exact ⟨h0, h.1 3 (by decide) (by decide)⟩

end Unpivoted

end Dgesv
