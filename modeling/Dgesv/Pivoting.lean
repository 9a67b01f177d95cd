import Dgesv.Exact

namespace Dgesv

open Loop Matrix Equiv

/-!
# The elimination loop of `src/dgesv.c`

`ElimInv n nrhs a b k σ L s` is what a call on `(a, b)` has established once `k` columns are
finished: the factorisation with row order `σ`, the bounds on its factors, and what the
trace has recorded.  `HeadInv` is that at the head of iteration `k`, where `σ` is the order
of partial pivoting; `TestInv` is that at the tolerance test, between the exchange and the
elimination.

* `eliminateColumn_cases` — what one iteration can do;
* `HeadInv.pivot`, `TestInv.eliminateRows` — the two halves of an iteration keep the
  invariant;
* `headInv_of_eliminateTo` — it holds at every head that is reached;
* `eliminateTo_entries` — a run whose entries are known at every head;
* `testInv_of_eliminate_ret` — and at the test that makes the loop return.
-/

namespace Pivoted

variable {n nrhs : ℕ} {a b : Mem ℚ} {L : Matrix (Fin n) (Fin n) ℚ} {s s' : State ℚ}

/-- After `k` finished columns, with the rows in the order `σ`. -/
structure ElimInv (n nrhs : ℕ) (a b : Mem ℚ) (k : ℕ) (σ : Perm (Fin n))
    (L : Matrix (Fin n) (Fin n) ℚ) (s : State ℚ) : Prop where
  lu : LUPrefix (a.toMatrix n n) (b.toMatrix n nrhs) k σ L (s.A n) (s.B n nrhs)
  bound : ∀ i j, |L i j| ≤ 1
  sign : Perm.sign σ = (-1) ^ s.swaps
  /-- The pivots so far passed the test and are still in place. -/
  pivots : ∀ i : Fin n, i.val < k → tol ≤ |s.A n i i|
  /-- The same, on the given matrix. -/
  minors : ∀ i < k, tol * |pivotMinor (a.toMatrix n n) i| ≤ |pivotMinor (a.toMatrix n n) (i + 1)|
  divs : ∀ d, Event.div d ∈ s.trace → tol ≤ |d|
  flag : s.errorFlag = 0

/-- At the head of iteration `k`. -/
abbrev HeadInv (n nrhs : ℕ) (a b : Mem ℚ) (k : ℕ) (L : Matrix (Fin n) (Fin n) ℚ)
    (s : State ℚ) : Prop :=
  ElimInv n nrhs a b k (pivotOrder (a.toMatrix n n) k) L s

/-- At the tolerance test of iteration `k`, after its exchange. -/
structure TestInv (n nrhs : ℕ) (a b : Mem ℚ) (k : Fin n) (L : Matrix (Fin n) (Fin n) ℚ)
    (s : State ℚ) : Prop
    extends ElimInv n nrhs a b k (pivotOrder (a.toMatrix n n) (k + 1)) L s where
  /-- The entry to be tested is the largest of what is left of its column, … -/
  max : ∀ i, k ≤ i → |s.A n i k| ≤ |s.A n k k|
  /-- … and the ratio of two minors of the given matrix. -/
  minor_ne : pivotMinor (a.toMatrix n n) k ≠ 0
  minor_succ : pivotMinor (a.toMatrix n n) (k + 1) = pivotMinor (a.toMatrix n n) k * s.A n k k

/-! ### One iteration -/

/-- What iteration `k` can do. -/
theorem eliminateColumn_cases (nrhs : ℕ) (k : Fin n) (s : State ℚ) :
    (|(pivot n nrhs k s).A n k k| < tol ∧
        eliminateColumn n nrhs k s = .ret (-1) (pivot n nrhs k s)) ∨
    (tol ≤ |(pivot n nrhs k s).A n k k| ∧
        eliminateColumn n nrhs k s = .next (eliminateRows n nrhs k (pivot n nrhs k s))) :=
  Unpivoted.eliminateColumn_cases nrhs k (pivot n nrhs k s)

/-- Pivots that passed the test give nonzero minors. -/
theorem HeadInv.minor_ne {k : ℕ} (h : HeadInv n nrhs a b k L s) :
    pivotMinor (a.toMatrix n n) k ≠ 0 := by
  rw [pivotMinor, h.lu.lead_eq (Nat.le_succ k), diagProd, Finset.prod_ne_zero_iff]
  intro i hi
  exact abs_pos.mp (tol_pos.trans_le (h.pivots i (Finset.mem_filter.mp hi).2))

/-- Search and exchange. -/
theorem HeadInv.pivot {k : Fin n} (h : HeadInv n nrhs a b k L s) :
    TestInv n nrhs a b k (L.submatrix (Equiv.swap k (pivotRow k s)) (Equiv.swap k (pivotRow k s)))
      (pivot n nrhs k s) := by
  have hmax := searchPivot_isFirstMax k s
  have hne := HeadInv.minor_ne h
  have horder := h.lu.pivotOrder_succ hne hmax
  refine ⟨⟨?_, fun i j => h.bound _ _, ?_, fun i hi => ?_, h.minors, fun d hd => ?_, ?_⟩,
    fun i hi => ?_, hne, ?_⟩
  · rw [horder, pivot_A, pivot_B]
    exact h.lu.swap le_rfl hmax.le
  · -- An exchange of a row with itself is neither counted nor a sign change.
    rw [horder, Perm.sign_mul, h.sign, pivot_swaps]
    by_cases hk : pivotRow k s = k
    · rw [hk, swap_self, if_pos ((pivotRow_eq_iff k s).mp hk), Perm.sign_refl, mul_one]
    · rw [Perm.sign_swap (Ne.symm hk), if_neg (mt (pivotRow_eq_iff k s).mpr hk), pow_succ]
  · have hik : i < k := hi
    rw [pivot_A, submatrix_apply, swap_apply_of_ne_of_ne hik.ne (hik.trans_le hmax.le).ne]
    exact h.pivots i hi
  · exact h.divs d ((pivot_mem_trace n nrhs k s d).mp hd)
  · rw [pivot_errorFlag, h.flag]
  · exact pivot_max (v := id) lt_rat nrhs k s hi
  · rw [pivot_A_pivot]
    exact h.lu.pivotMinor_succ hne hmax

/-- Elimination, after a test that passed. -/
theorem TestInv.eliminateRows {k : Fin n} (h : TestInv n nrhs a b k L s)
    (htol : tol ≤ |s.A n k k|) :
    HeadInv n nrhs a b (k + 1) (L + multipliers k (s.A n)) (eliminateRows n nrhs k s) := by
  have hpos : 0 < |s.A n k k| := tol_pos.trans_le htol
  refine ⟨eliminateRows_lu h.lu (abs_pos.mp hpos), h.lu.abs_add_multipliers_le h.bound h.max, ?_,
    eliminateRows_pivots h.pivots htol, fun i hi => ?_, eliminateRows_divs h.divs htol, ?_⟩
  · rw [h.sign, eliminateRows_swaps nrhs k.isLt]
  · rcases Nat.lt_succ_iff_lt_or_eq.mp hi with hi | rfl
    · exact h.minors i hi
    · rw [h.minor_succ, abs_mul, mul_comm]
      exact mul_le_mul_of_nonneg_left htol (abs_nonneg _)
  · rw [eliminateRows_errorFlag, h.flag]

/-! ### The loop -/

/-- On entry. -/
theorem headInv_init (n nrhs : ℕ) (a b : Mem ℚ) : HeadInv n nrhs a b 0 1 (.init a b) where
  lu := LUPrefix.init _ _
  bound i j := by
    rw [one_apply]
    split_ifs <;> simp
  sign := by simp [pivotOrder, State.swaps, State.init]
  pivots i hi := absurd hi (Nat.not_lt_zero _)
  minors i hi := absurd hi (Nat.not_lt_zero _)
  divs d hd := by simp [State.init] at hd
  flag := rfl

/-- **An iteration that falls through** takes one head to the next. -/
theorem HeadInv.eliminateColumn {k : Fin n} (h : HeadInv n nrhs a b k L s)
    (hs : eliminateColumn n nrhs k s = .next s') : ∃ L', HeadInv n nrhs a b (k + 1) L' s' := by
  rcases eliminateColumn_cases nrhs k s with ⟨-, hr⟩ | ⟨htol, hr⟩
  · rw [hr] at hs
    cases hs
  · rw [hr] at hs
    cases hs
    exact ⟨_, (HeadInv.pivot h).eliminateRows htol⟩

/-- **The invariant holds at every head that is reached.** -/
theorem headInv_of_eliminateTo {k : ℕ} (hk : k ≤ n)
    (h : eliminateTo n nrhs k (.init a b) = .next s) : ∃ L, HeadInv n nrhs a b k L s := by
  refine forUpRet_inv (fun k s => ∃ L, HeadInv n nrhs a b k L s) ⟨1, headInv_init n nrhs a b⟩ ?_ h
  rintro i t t' hi ⟨L, hL⟩ ht
  have hin : i < n := by omega
  exact HeadInv.eliminateColumn (k := ⟨i, hin⟩) hL ht

/-- **Symbolic runs.**  If the entries at the head of iteration `k` are `f k`, and each
    iteration accepts its pivot and takes `f k` to `f (k + 1)`, then every head is reached. -/
theorem eliminateTo_entries {f : ℕ → ℕ → ℕ → ℚ} (h0 : ∀ i < n, ∀ j < n, a (i * n + j) = f 0 i j)
    (hstep : ∀ k (s : State ℚ), k + 1 < n → (∀ i < n, ∀ j < n, s.a (i * n + j) = f k i j) →
      tol ≤ |(pivot n nrhs k s).a (k * n + k)| ∧
      ∀ i < n, ∀ j < n,
        (eliminateRows n nrhs k (pivot n nrhs k s)).a (i * n + j) = f (k + 1) i j)
    {k : ℕ} (hk : k < n) :
    ∃ s, eliminateTo n nrhs k (.init a b) = .next s ∧
      ∀ i < n, ∀ j < n, s.a (i * n + j) = f k i j := by
  induction k with
  | zero => exact ⟨_, rfl, h0⟩
  | succ k ih =>
    have hk' : k < n := by omega
    obtain ⟨s, hs, hentries⟩ := ih hk'
    obtain ⟨htol, hnext⟩ := hstep k s hk hentries
    rcases eliminateColumn_cases nrhs ⟨k, hk'⟩ s with ⟨hsmall, -⟩ | ⟨-, hcol⟩
    · exact absurd htol (not_le.mpr hsmall)
    · refine ⟨_, ?_, hnext⟩
      rw [eliminateTo, forUpRet_succ]
      exact Flow.bind_eq_next.mpr ⟨s, hs, hcol⟩

/-- **A return from the loop.**  It is the return of a failed test, with code `-1`. -/
theorem testInv_of_eliminate_ret {r : ℤ} (h : eliminate n nrhs (.init a b) = .ret r s) :
    r = -1 ∧
      ∃ (k : Fin n) (L : _), k.val + 1 < n ∧ TestInv n nrhs a b k L s ∧ |s.A n k k| < tol := by
  obtain ⟨k, t, hk, ht, hr⟩ := forUpRet_eq_ret h
  have hkn : k < n := by omega
  obtain ⟨L, hL⟩ := headInv_of_eliminateTo hkn.le ht
  rcases eliminateColumn_cases nrhs ⟨k, hkn⟩ t with ⟨hlt, hc⟩ | ⟨-, hc⟩
  · rw [hc] at hr
    cases hr
    exact ⟨rfl, ⟨k, hkn⟩, _, by show k + 1 < n; omega,
      HeadInv.pivot (k := ⟨k, hkn⟩) hL, hlt⟩
  · rw [hc] at hr
    cases hr

end Pivoted

end Dgesv
