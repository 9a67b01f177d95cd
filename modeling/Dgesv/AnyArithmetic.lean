import Dgesv.Columns

namespace Dgesv

open Loop

/-!
# What holds in any arithmetic

Results about both solvers that use no law of the operations or of the comparison, so that
they hold bit for bit for `double`, rounding errors, infinities and NaNs included.

* `Pivoted.tested_of_eliminateTo`, `Unpivoted.tested_of_eliminateTo` — a diagonal entry that
  passed its test is never written again;
* `backSubstitute_tests` — so the tests of the back substitution can only fail in the last
  row;
* `Unpivoted.myDgesv_rel` — `src/task1/dgesv.c` treats every right-hand side by itself;
* `myDgesv_of_no_swap` — a run of `src/dgesv.c` without a row exchange is a run of
  `src/task1/dgesv.c`;
* `myDgesv_related` — right-hand sides in a relation that the operations keep lead to results
  in that relation.
-/

variable {K : Type*} [Neg K] [Add K] [Sub K] [Mul K] [Div K] [FloatOps K]
variable {n nrhs : ℕ} {a b : Mem K} {s s' : State K}

/-- The diagonal entry of row `i` passes the tolerance test. -/
def Passes (n : ℕ) (a : Mem K) (i : ℕ) : Prop := lt (fabs (a (i * n + i))) tol = false

instance (n : ℕ) (a : Mem K) (i : ℕ) : Decidable (Passes n a i) :=
  inferInstanceAs (Decidable (_ = false))

omit [Neg K] [Add K] [Sub K] [Mul K] [Div K] in
theorem passes_iff {i : ℕ} : Passes n a i ↔ ¬ lt (fabs (a (i * n + i))) tol = true := by
  unfold Passes
  rw [Bool.not_eq_true]

omit [Neg K] [Add K] [Sub K] [Mul K] [Div K] in
/-- Runs that agree test the same entries. -/
theorem Agree.passes_iff {w w' : ℕ} {C : ℕ → ℕ → Prop} {t : State K} (h : Agree n w w' C s t)
    {i : ℕ} (hi : i < n) : Passes n s.a i ↔ Passes n t.a i := by
  unfold Passes
  rw [h.a i hi i hi]

/-! ### Invariants of the elimination -/

omit [Sub K] in
/-- What every step of the elimination keeps, whatever the tests say, holds at every head of
    `src/task1/dgesv.c` … -/
theorem Unpivoted.inv_of_eliminateTo (I : ℕ → State K → Prop) (h0 : I 0 (.init a b))
    (helim : ∀ k t, k + 1 < n → I k t → I (k + 1) (eliminateRows n nrhs k t)) {k : ℕ}
    (hk : k ≤ n - 1) (h : eliminateTo n nrhs k (.init a b) = .next s) : I k s := by
  refine forUpRet_inv I h0 ?_ h
  intro i t t' hi ht hstep
  unfold eliminateColumn at hstep
  split_ifs at hstep
  cases hstep
  exact helim i t (by omega) ht

omit [Sub K] in
/-- … and of `src/dgesv.c`, if the exchange keeps it as well. -/
theorem Pivoted.inv_of_eliminateTo (I : ℕ → State K → Prop) (h0 : I 0 (.init a b))
    (hpivot : ∀ k t, k + 1 < n → I k t → I k (pivot n nrhs k t))
    (helim : ∀ k t, k + 1 < n → I k t → I (k + 1) (eliminateRows n nrhs k t)) {k : ℕ}
    (hk : k ≤ n - 1) (h : eliminateTo n nrhs k (.init a b) = .next s) : I k s := by
  refine forUpRet_inv I h0 ?_ h
  intro i t t' hi ht hstep
  unfold eliminateColumn at hstep
  dsimp only at hstep
  split_ifs at hstep
  cases hstep
  exact helim i _ (by omega) (hpivot i t (by omega) ht)

/-! ### Entries that have been tested -/

omit [Sub K] [FloatOps K] in
/-- Clearing column `k` does not touch the rows down to `k`. -/
theorem eliminateRows_a_of_le {k i : ℕ} (nrhs : ℕ) (hk : k < n) (hi : i ≤ k) (s : State K)
    {j : ℕ} (hj : j < n) : (eliminateRows n nrhs k s).a (i * n + j) = s.a (i * n + j) := by
  rw [eliminateRows_a nrhs hk s i hj, if_neg (by omega)]

omit [Neg K] [Add K] [Sub K] [Mul K] [Div K] in
/-- Search and exchange do not touch the rows before `k`. -/
theorem Pivoted.pivot_a_of_lt {k i : ℕ} (nrhs : ℕ) (hk : k < n) (hi : i < k) (s : State K)
    {j : ℕ} (hj : j < n) : (pivot n nrhs k s).a (i * n + j) = s.a (i * n + j) := by
  have hbound := (searchPivot_bounds hk s.a).1
  rw [pivot_a n nrhs k s i hj, Equiv.swap_apply_of_ne_of_ne (by omega) (by omega)]

omit [Sub K] in
/-- What one iteration of `src/task1/dgesv.c` tests and keeps. -/
theorem Unpivoted.tested_step {k : ℕ} (hk : k < n) (hs : ∀ i < k, Passes n s.a i)
    (h : eliminateColumn n nrhs k s = .next s') : ∀ i < k + 1, Passes n s'.a i := by
  unfold eliminateColumn at h
  split_ifs at h with hsmall
  cases h
  intro i hi
  unfold Passes
  rw [eliminateRows_a_of_le nrhs hk (by omega) s (by omega)]
  rcases Nat.lt_succ_iff_lt_or_eq.mp hi with hlt | rfl
  · exact hs i hlt
  · exact passes_iff.mpr hsmall

omit [Sub K] in
/-- **Tested entries stay**, in `src/task1/dgesv.c` … -/
theorem Unpivoted.tested_of_eliminateTo {k : ℕ} (hk : k ≤ n)
    (h : eliminateTo n nrhs k (.init a b) = .next s) : ∀ i < k, Passes n s.a i := by
  refine forUpRet_inv (fun k (s : State K) => ∀ i < k, Passes n s.a i) ?_ ?_ h
  · intro i hi
    omega
  · intro k t t' hkk ht hstep
    exact tested_step (by omega) ht hstep

omit [Sub K] in
/-- … and in `src/dgesv.c`. -/
theorem Pivoted.tested_of_eliminateTo {k : ℕ} (hk : k ≤ n)
    (h : eliminateTo n nrhs k (.init a b) = .next s) : ∀ i < k, Passes n s.a i := by
  refine forUpRet_inv (fun k (s : State K) => ∀ i < k, Passes n s.a i) ?_ ?_ h
  · intro i hi
    omega
  · intro k t t' hkk ht hstep
    have hkn : k < n := by omega
    -- After the exchange, the iteration is that of `src/task1/dgesv.c`.
    have hpivot : ∀ i < k, Passes n (pivot n nrhs k t).a i := by
      intro i hi
      unfold Passes
      rw [pivot_a_of_lt nrhs hkn hi t (by omega)]
      exact ht i hi
    exact Unpivoted.tested_step hkn hpivot hstep

/-! ### The tests of the back substitution -/

omit [Neg K] [Add K] [Sub K] [Mul K] [Div K] in
theorem passes_of_last {a : Mem K} (h : ∀ i < n - 1, Passes n a i) (hlast : Passes n a (n - 1)) :
    ∀ i < n, Passes n a i := by
  intro i hi
  rcases Nat.lt_or_ge i (n - 1) with hlt | hge
  · exact h i hlt
  · rwa [show i = n - 1 by omega]

omit [Neg K] [Add K] [Sub K] [Mul K] [Div K] in
/-- Only the last entry is left to be tested. -/
theorem smallDiag_iff_last {a : Mem K} (hn : 1 ≤ n) (h : ∀ i < n - 1, Passes n a i) :
    SmallDiag n a ↔ ¬ Passes n a (n - 1) := by
  rw [passes_iff, not_not]
  constructor
  · rintro ⟨i, hi, hsmall⟩
    rcases Nat.lt_or_ge i (n - 1) with hlt | hge
    · exact absurd hsmall (passes_iff.mp (h i hlt))
    · rwa [show i = n - 1 by omega] at hsmall
  · intro hsmall
    exact ⟨n - 1, by omega, hsmall⟩

omit [Sub K] in
/-- The flag is clear until the back substitution. -/
theorem Pivoted.errorFlag_of_eliminateTo {k : ℕ}
    (h : eliminateTo n nrhs k (.init a b) = .next s) : s.errorFlag = 0 := by
  refine forUpRet_inv (fun _ (s : State K) => s.errorFlag = 0) rfl ?_ h
  intro k t t' _ ht hstep
  unfold eliminateColumn at hstep
  dsimp only at hstep
  split_ifs at hstep
  cases hstep
  rw [eliminateRows_errorFlag, pivot_errorFlag, ht]

omit [Neg K] [Add K] in
/-- What the back substitution of `src/task1/dgesv.c` does after the elimination. -/
theorem Unpivoted.backSubstitute_of_tested (hn : 1 ≤ n) (hnrhs : 1 ≤ nrhs)
    (h : ∀ i < n - 1, Passes n s.a i) :
    backSubstitute n nrhs s
      = if Passes n s.a (n - 1) then .next (Pivoted.backSubstitute n nrhs s) else .ret (-1) s := by
  by_cases hlast : Passes n s.a (n - 1)
  · rw [if_pos hlast]
    exact backSubstitute_eq nrhs fun hsmall => (smallDiag_iff_last hn h).mp hsmall hlast
  · rw [if_neg hlast]
    rw [passes_iff, not_not] at hlast
    exact backSubstitute_of_last_small hn hnrhs hlast

omit [Neg K] [Add K] in
/-- What the call of `src/dgesv.c` returns after the elimination. -/
theorem Pivoted.exitCode_of_tested (hn : 1 ≤ n) (hnrhs : 1 ≤ nrhs) (hflag : s.errorFlag = 0)
    (h : ∀ i < n - 1, Passes n s.a i) :
    exitCode (backSubstitute n nrhs s) = if Passes n s.a (n - 1) then 0 else -1 := by
  rw [exitCode, backSubstitute_errorFlag, hflag]
  by_cases hlast : Passes n s.a (n - 1)
  · have hlarge : ¬ (0 < nrhs ∧ SmallDiag n s.a) := fun hc =>
      (smallDiag_iff_last hn h).mp hc.2 hlast
    rw [if_neg hlarge, if_pos hlast]
    rfl
  · have hsmall : 0 < nrhs ∧ SmallDiag n s.a := ⟨hnrhs, (smallDiag_iff_last hn h).mpr hlast⟩
    rw [if_pos hsmall, if_neg hlast]
    rfl

omit [Sub K] in
/-- The elimination of `src/task1/dgesv.c` only returns `-1`, … -/
theorem Unpivoted.eliminateTo_ret {k : ℕ} {r : ℤ} {t : State K}
    (h : eliminateTo n nrhs k t = .ret r s) : r = -1 := by
  obtain ⟨i, t', -, -, hret⟩ := forUpRet_eq_ret h
  unfold eliminateColumn at hret
  split_ifs at hret
  cases hret
  rfl

omit [Sub K] in
/-- … and so does that of `src/dgesv.c`. -/
theorem Pivoted.eliminateTo_ret {k : ℕ} {r : ℤ} {t : State K}
    (h : eliminateTo n nrhs k t = .ret r s) : r = -1 := by
  obtain ⟨i, t', -, -, hret⟩ := forUpRet_eq_ret h
  unfold eliminateColumn at hret
  dsimp only at hret
  split_ifs at hret
  cases hret
  rfl

/-- A call of `src/dgesv.c` that returned `0` went through, and all diagonal entries passed. -/
theorem Pivoted.exists_of_code_zero (hn : 1 ≤ n) (hnrhs : 1 ≤ nrhs)
    (h : (myDgesv n nrhs a b).1 = 0) :
    ∃ s, eliminate n nrhs (.init a b) = .next s ∧ (∀ i < n, Passes n s.a i) ∧
      (myDgesv n nrhs a b).2 = backSubstitute n nrhs s := by
  unfold myDgesv at h ⊢
  cases hs : eliminate n nrhs (.init a b) with
  | ret r s =>
    rw [hs] at h
    exact absurd ((eliminateTo_ret hs).symm.trans h) (by decide)
  | next s =>
    rw [hs] at h
    have htested := tested_of_eliminateTo (Nat.sub_le n 1) hs
    dsimp only at h
    rw [exitCode_of_tested hn hnrhs (errorFlag_of_eliminateTo hs) htested] at h
    by_cases hlast : Passes n s.a (n - 1)
    · exact ⟨s, rfl, passes_of_last htested hlast, rfl⟩
    · rw [if_neg hlast] at h
      exact absurd h (by decide)

/-- The same for `src/task1/dgesv.c`. -/
theorem Unpivoted.exists_of_code_zero (hn : 1 ≤ n) (hnrhs : 1 ≤ nrhs)
    (h : (myDgesv n nrhs a b).1 = 0) :
    ∃ s, eliminate n nrhs (.init a b) = .next s ∧ (∀ i < n, Passes n s.a i) ∧
      (myDgesv n nrhs a b).2 = Pivoted.backSubstitute n nrhs s := by
  unfold myDgesv at h ⊢
  cases hs : eliminate n nrhs (.init a b) with
  | ret r s =>
    rw [hs] at h
    exact absurd ((eliminateTo_ret hs).symm.trans h) (by decide)
  | next s =>
    have htested := tested_of_eliminateTo (Nat.sub_le n 1) hs
    rw [hs, Flow.bind_next, backSubstitute_of_tested hn hnrhs htested] at h
    rw [Flow.bind_next, backSubstitute_of_tested hn hnrhs htested]
    by_cases hlast : Passes n s.a (n - 1)
    · rw [if_pos hlast]
      exact ⟨s, rfl, passes_of_last htested hlast, rfl⟩
    · rw [if_neg hlast] at h
      exact absurd (show (-1 : ℤ) = 0 from h) (by decide)

/-- **The tests of the back substitution**, in any arithmetic.  After a completed elimination
    they can only fail in the last row.  There `src/dgesv.c` returns `-1` after having solved
    every column all the same; `src/task1/dgesv.c` returns `-1` at once, before any cell of `b`
    is overwritten.  Otherwise both return `0`, and do the same back substitution. -/
theorem backSubstitute_tests (hn : 1 ≤ n) (hnrhs : 1 ≤ nrhs) (a b : Mem K) :
    (∀ s, Pivoted.eliminate n nrhs (.init a b) = .next s →
      (∀ i < n - 1, Passes n s.a i) ∧
      Pivoted.myDgesv n nrhs a b
        = (if Passes n s.a (n - 1) then 0 else -1, Pivoted.backSubstitute n nrhs s)) ∧
    ∀ s, Unpivoted.eliminate n nrhs (.init a b) = .next s →
      (∀ i < n - 1, Passes n s.a i) ∧
      Unpivoted.myDgesv n nrhs a b
        = if Passes n s.a (n - 1) then (0, Pivoted.backSubstitute n nrhs s) else (-1, s) := by
  constructor
  · intro s hs
    have htested := Pivoted.tested_of_eliminateTo (Nat.sub_le n 1) hs
    refine ⟨htested, ?_⟩
    rw [Pivoted.myDgesv, hs]
    show (Pivoted.exitCode _, _) = _
    rw [Pivoted.exitCode_of_tested hn hnrhs (Pivoted.errorFlag_of_eliminateTo hs) htested]
  · intro s hs
    have htested := Unpivoted.tested_of_eliminateTo (Nat.sub_le n 1) hs
    refine ⟨htested, ?_⟩
    rw [Unpivoted.myDgesv, hs, Flow.bind_next,
      Unpivoted.backSubstitute_of_tested hn hnrhs htested]
    by_cases hlast : Passes n s.a (n - 1)
    · rw [if_pos hlast, if_pos hlast]
    · rw [if_neg hlast, if_neg hlast]

/-- On the matrix of ones of order two the first entry passes its test and the last does not. -/
theorem backSubstitute_tests_ones :
    ∃ s : State ℚ,
      Unpivoted.eliminate 2 1 (.init (.ofList [1, 1, 1, 1]) (.ofList [3, 5])) = .next s ∧
      (∀ i < 1, Passes 2 s.a i) ∧
      (Unpivoted.myDgesv 2 1 (.ofList [1, 1, 1, 1]) (.ofList [3, 5] : Mem ℚ)).1 = -1 := by
  obtain ⟨s, hs⟩ := Flow.isNext_iff.mp (by decide +kernel :
    (Unpivoted.eliminate 2 1 (.init (.ofList [1, 1, 1, 1]) (.ofList [3, 5] : Mem ℚ))).isNext = true)
  refine ⟨s, hs, ?_⟩
  exact ⟨((backSubstitute_tests (by decide) (by decide) _ _).2 s hs).1, by decide +kernel⟩

/-! ### Right-hand sides one by one, without pivoting -/

namespace Unpivoted

variable {w w' : ℕ} {C : ℕ → ℕ → Prop} {t : State K}

omit [Sub K] in
/-- An iteration of the elimination returns in both runs or in neither. -/
theorem Agree.eliminateColumn {k : ℕ} (hk : k < n) (hC : InRange w w' C)
    (h : Agree n w w' C s t) :
    Flow.Rel Eq (Agree n w w' C) (eliminateColumn n w k s) (eliminateColumn n w' k t) := by
  unfold Unpivoted.eliminateColumn
  rw [h.a k hk k hk]
  by_cases hsmall : lt (fabs (t.a (k * n + k))) tol = true
  · rw [if_pos hsmall, if_pos hsmall]
    exact ⟨rfl, h⟩
  · rw [if_neg hsmall, if_neg hsmall]
    exact Pivoted.Agree.eliminateRows hk hC h

omit [Neg K] [Add K] in
/-- The back substitution, after an elimination that went through. -/
theorem Agree.backSubstitute (hn : 1 ≤ n) (hw : 1 ≤ w) (hw' : 1 ≤ w') (hC : InRange w w' C)
    (h : Agree n w w' C s t) (hs : ∀ i < n - 1, Passes n s.a i) :
    Flow.Rel Eq (Agree n w w' C) (backSubstitute n w s) (backSubstitute n w' t) := by
  have ht : ∀ i < n - 1, Passes n t.a i := fun i hi => (h.passes_iff (by omega)).mp (hs i hi)
  rw [backSubstitute_of_tested hn hw hs, backSubstitute_of_tested hn hw' ht]
  by_cases hlast : Passes n s.a (n - 1)
  · rw [if_pos hlast, if_pos ((h.passes_iff (by omega)).mp hlast)]
    exact Pivoted.Agree.backSubstitute hw hw' hC h
  · rw [if_neg hlast, if_neg fun hc => hlast ((h.passes_iff (by omega)).mpr hc)]
    exact ⟨rfl, h⟩

/-- **Two calls that agree on entry** return the same code and agree at the end. -/
theorem myDgesv_rel (hn : 1 ≤ n) (hw : 1 ≤ w) (hw' : 1 ≤ w') (hC : InRange w w' C)
    (a b a' b' : Mem K) (ha : ∀ i < n, ∀ j < n, a (i * n + j) = a' (i * n + j))
    (hb : ∀ j j', C j j' → ∀ i < n, b (i * w + j) = b' (i * w' + j')) :
    (myDgesv n w a b).1 = (myDgesv n w' a' b').1 ∧
      Agree n w w' C (myDgesv n w a b).2 (myDgesv n w' a' b').2 := by
  have hrel : Flow.Rel Eq (Agree n w w' C) (eliminate n w (.init a b))
      (eliminate n w' (.init a' b')) :=
    forUpRet_rel Eq (Agree n w w' C) ⟨ha, hb, rfl⟩ fun k s' t' hk h' =>
      Agree.eliminateColumn (by omega) hC h'
  have hcall := hrel.bind fun s' t' hs h' =>
    Agree.backSubstitute hn hw hw' hC h' (tested_of_eliminateTo (Nat.sub_le n 1) hs)
  unfold myDgesv
  rcases hcall.cases with ⟨s, t, hs, ht, hst⟩ | ⟨r, r', s, t, hs, ht, hret⟩
  · rw [hs, ht]
    exact ⟨rfl, hst⟩
  · rw [hs, ht]
    exact hret

/-- **Right-hand sides at once, or one by one**, for `src/task1/dgesv.c` and in any
    arithmetic: a call with `nrhs` right-hand sides and a call with column `j` alone return the
    same code, leave the same `a`, and leave the same column, on success and on both returns of
    `-1`. -/
theorem myDgesv_one_by_one (hn : 1 ≤ n) {j : ℕ} (hj : j < nrhs) (a b b₁ : Mem K)
    (hb₁ : ∀ i < n, b₁ i = b (i * nrhs + j)) :
    (myDgesv n nrhs a b).1 = (myDgesv n 1 a b₁).1 ∧
      (∀ c < n * n, (myDgesv n nrhs a b).2.a c = (myDgesv n 1 a b₁).2.a c) ∧
      ∀ i < n, (myDgesv n nrhs a b).2.b (i * nrhs + j) = (myDgesv n 1 a b₁).2.b i := by
  -- With one right-hand side, row `i` of `b` is cell `i`.
  have hcell : ∀ i, i * 1 + 0 = i := fun i => by omega
  have hrange : InRange nrhs 1 fun l l' => l = j ∧ l' = 0 := by
    rintro l l' ⟨rfl, rfl⟩
    exact ⟨hj, Nat.one_pos⟩
  have hcol : ∀ l l', l = j ∧ l' = 0 → ∀ i < n, b (i * nrhs + l) = b₁ (i * 1 + l') := by
    rintro l l' ⟨rfl, rfl⟩ i hi
    rw [hcell, hb₁ i hi]
  obtain ⟨hcode, hagree⟩ := myDgesv_rel hn (Nat.one_le_of_lt hj) le_rfl hrange a b a b₁
    (fun _ _ _ _ => rfl) hcol
  refine ⟨hcode, fun c hc => Pivoted.Agree.a_eq hagree hc, ?_⟩
  intro i hi
  have hsame := hagree.b j 0 ⟨rfl, rfl⟩ i hi
  rwa [hcell] at hsame

/-- The system of `src/test.c`, and its middle column alone. -/
theorem myDgesv_one_by_one_test :
    (myDgesv 3 3 Pivoted.testA Pivoted.testB).1
        = (myDgesv 3 1 Pivoted.testA (.ofList [1, 5, 2])).1 ∧
      ∀ i < 3, (myDgesv 3 3 Pivoted.testA Pivoted.testB).2.b (i * 3 + 1)
        = (myDgesv 3 1 Pivoted.testA (.ofList [1, 5, 2])).2.b i := by
  have hcol : ∀ i < 3, (.ofList [1, 5, 2] : Mem ℚ) i = Pivoted.testB (i * 3 + 1) := by
    decide +kernel
  obtain ⟨hcode, -, hb⟩ := myDgesv_one_by_one (by decide) (by decide : 1 < 3) Pivoted.testA
    Pivoted.testB _ hcol
  exact ⟨hcode, hb⟩

end Unpivoted

/-! ### Runs without an exchange -/

omit [Sub K] in
/-- Up to iteration `k`, a run of `src/dgesv.c` that exchanged nothing is one of
    `src/task1/dgesv.c`. -/
theorem eliminateTo_of_no_swap {k : ℕ} (hk : k ≤ n) (s : State K)
    (h : (Pivoted.eliminateTo n nrhs k s).state.swaps = 0) :
    Unpivoted.eliminateTo n nrhs k s = Pivoted.eliminateTo n nrhs k s := by
  induction k with
  | zero => rfl
  | succ k ih =>
    have hkn : k < n := by omega
    unfold Pivoted.eliminateTo at h ih ⊢
    unfold Unpivoted.eliminateTo at ih ⊢
    rw [forUpRet_succ] at h ⊢
    rw [forUpRet_succ]
    cases hx : forUpRet (Pivoted.eliminateColumn n nrhs) k s with
    | ret r t =>
      rw [hx] at h ih
      rw [ih (by omega) h]
      rfl
    | next t =>
      rw [hx] at h ih
      -- The last iteration records an exchange iff its search leaves row `k`.
      have hswaps : (Pivoted.eliminateColumn n nrhs k t).state.swaps
          = (Pivoted.pivot n nrhs k t).swaps := by
        unfold Pivoted.eliminateColumn
        dsimp only
        split_ifs
        · rfl
        · exact eliminateRows_swaps nrhs hkn _
      rw [Flow.bind_next, hswaps, Pivoted.pivot_swaps] at h
      split_ifs at h with hstay
      rw [ih (by omega) h, Flow.bind_next, Flow.bind_next]
      show _ = Unpivoted.eliminateColumn n nrhs k (Pivoted.pivot n nrhs k t)
      rw [Pivoted.pivot_eq_self nrhs hstay]

/-- The exchanges of a call are those of its elimination. -/
theorem Pivoted.myDgesv_swaps (n nrhs : ℕ) (a b : Mem K) :
    (myDgesv n nrhs a b).2.swaps = (eliminate n nrhs (.init a b)).state.swaps := by
  unfold myDgesv
  cases h : eliminate n nrhs (.init a b) with
  | ret r s => rfl
  | next s => exact backSubstitute_swaps n nrhs s

/-- **A run of `src/dgesv.c` without a row exchange** is a run of `src/task1/dgesv.c`, in any
    arithmetic: the two calls return the same code and leave the same `a`, and if the code is
    `0` they end in the same state altogether. -/
theorem myDgesv_of_no_swap (hn : 1 ≤ n) (hnrhs : 1 ≤ nrhs) (a b : Mem K)
    (h : (Pivoted.myDgesv n nrhs a b).2.swaps = 0) :
    (Unpivoted.myDgesv n nrhs a b).1 = (Pivoted.myDgesv n nrhs a b).1 ∧
      (Unpivoted.myDgesv n nrhs a b).2.a = (Pivoted.myDgesv n nrhs a b).2.a ∧
      ((Pivoted.myDgesv n nrhs a b).1 = 0 →
        Unpivoted.myDgesv n nrhs a b = Pivoted.myDgesv n nrhs a b) := by
  rw [Pivoted.myDgesv_swaps] at h
  have heq := eliminateTo_of_no_swap (Nat.sub_le n 1) (.init a b) h
  unfold Unpivoted.myDgesv Pivoted.myDgesv
  cases hs : Pivoted.eliminate n nrhs (.init a b) with
  | ret r s =>
    rw [show Unpivoted.eliminate n nrhs (.init a b) = .ret r s from heq.trans hs]
    exact ⟨rfl, rfl, fun _ => rfl⟩
  | next s =>
    have htested := Pivoted.tested_of_eliminateTo (Nat.sub_le n 1) hs
    rw [show Unpivoted.eliminate n nrhs (.init a b) = .next s from heq.trans hs, Flow.bind_next,
      Unpivoted.backSubstitute_of_tested hn hnrhs htested]
    dsimp only
    rw [Pivoted.exitCode_of_tested hn hnrhs (Pivoted.errorFlag_of_eliminateTo hs) htested]
    by_cases hlast : Passes n s.a (n - 1)
    · rw [if_pos hlast, if_pos hlast]
      exact ⟨rfl, rfl, fun _ => rfl⟩
    · rw [if_neg hlast, if_neg hlast]
      exact ⟨rfl, (Pivoted.backSubstitute_a n nrhs s).symm, fun h0 => absurd h0 (by simp)⟩

/-- The rows `(2, 1)` and `(1, 3)` stay where they are. -/
theorem myDgesv_of_no_swap_two :
    (Pivoted.myDgesv 2 1 (.ofList [2, 1, 1, 3]) (.ofList [3, 4] : Mem ℚ)).2.swaps = 0 ∧
      Unpivoted.myDgesv 2 1 (.ofList [2, 1, 1, 3]) (.ofList [3, 4] : Mem ℚ)
        = Pivoted.myDgesv 2 1 (.ofList [2, 1, 1, 3]) (.ofList [3, 4]) := by
  have hswaps :
      (Pivoted.myDgesv 2 1 (.ofList [2, 1, 1, 3]) (.ofList [3, 4] : Mem ℚ)).2.swaps = 0 := by
    decide +kernel
  obtain ⟨-, -, hsame⟩ := myDgesv_of_no_swap (by decide) (by decide) _ _ hswaps
  exact ⟨hswaps, hsame (by decide +kernel)⟩

/-! ### Related right-hand sides -/

section RelatedRhs

variable {Q : K → K → Prop} {t : State K}

omit [Neg K] [FloatOps K] in
/-- A relation between right-hand sides that the operations of the solvers keep. -/
structure Respects (Q : K → K → Prop) : Prop where
  add : ∀ {x x' y y' : K} (m : K), Q x x' → Q y y' → Q (x + m * y) (x' + m * y')
  sub : ∀ {x x' y y' : K} (m : K), Q x x' → Q y y' → Q (x - m * y) (x' - m * y')
  div : ∀ {x x' : K} (d : K), Q x x' → Q (x / d) (x' / d)

/-- Two runs with the same `a` and related right-hand sides. -/
structure RhsRel (Q : K → K → Prop) (n nrhs : ℕ) (s t : State K) : Prop
    extends Agree n nrhs nrhs (fun _ _ => False) s t where
  rhs : ∀ i < n, ∀ j < nrhs, Q (s.b (i * nrhs + j)) (t.b (i * nrhs + j))

omit [Neg K] [Add K] [Sub K] [Mul K] [Div K] in
theorem RhsRel.pivot {k : ℕ} (hk : k < n) (h : RhsRel Q n nrhs s t) :
    RhsRel Q n nrhs (Pivoted.pivot n nrhs k s) (Pivoted.pivot n nrhs k t) where
  toAgree := Pivoted.Agree.pivot hk (fun _ _ => False.elim) h.toAgree
  rhs i hi j hj := by
    have hbound := (Pivoted.searchPivot_bounds hk t.a).2
    rw [Pivoted.pivot_b n nrhs k s i hj, Pivoted.pivot_b n nrhs k t i hj,
      Pivoted.searchPivot_congr hk h.a]
    refine h.rhs _ ?_ j hj
    rw [Equiv.swap_apply_def]
    split_ifs <;> assumption

omit [FloatOps K] in
theorem RhsRel.eliminateRows {k : ℕ} (hQ : Respects Q) (hk : k < n) (h : RhsRel Q n nrhs s t) :
    RhsRel Q n nrhs (eliminateRows n nrhs k s) (eliminateRows n nrhs k t) where
  toAgree := Pivoted.Agree.eliminateRows hk (fun _ _ => False.elim) h.toAgree
  rhs i hi j hj := by
    rw [eliminateRows_b hk s i hj, eliminateRows_b hk t i hj, h.a i hi k hk, h.a k hk k hk]
    split_ifs
    · exact hQ.add _ (h.rhs i hi j hj) (h.rhs k hk j hj)
    · exact h.rhs i hi j hj

/-- An iteration of `src/task1/dgesv.c` returns in both runs or in neither … -/
theorem RhsRel.eliminateColumn {k : ℕ} (hQ : Respects Q) (hk : k < n) (h : RhsRel Q n nrhs s t) :
    Flow.Rel Eq (RhsRel Q n nrhs) (Unpivoted.eliminateColumn n nrhs k s)
      (Unpivoted.eliminateColumn n nrhs k t) := by
  unfold Unpivoted.eliminateColumn
  rw [h.a k hk k hk]
  by_cases hsmall : lt (fabs (t.a (k * n + k))) tol = true
  · rw [if_pos hsmall, if_pos hsmall]
    exact ⟨rfl, h⟩
  · rw [if_neg hsmall, if_neg hsmall]
    exact h.eliminateRows hQ hk

omit [Neg K] [FloatOps K] in
/-- The recurrence of the back substitution, for related right-hand sides. -/
theorem Solves.related {y y' x x' : ℕ → K} (hQ : Respects Q) (h : Solves n a y x)
    (h' : Solves n a y' x') (hy : ∀ i < n, Q (y i) (y' i)) : ∀ i < n, Q (x i) (x' i) := by
  -- Downward, as in `Solves.unique`.
  have hdown : ∀ d, ∀ i < n, n ≤ i + d → Q (x i) (x' i) := by
    intro d
    induction d with
    | zero =>
      intro i hi hd
      omega
    | succ d ih =>
      intro i hi hd
      rw [h i hi, h' i hi]
      refine hQ.div _ ?_
      exact forUp_rel Q (hy i hi) fun k u u' hik hk hu =>
        hQ.sub _ hu (ih k hk (by omega))
  exact fun i hi => hdown n i hi (by omega)

omit [Neg K] in
/-- The back substitution. -/
theorem RhsRel.backSubstitute (hQ : Respects Q) (hnrhs : 1 ≤ nrhs) (h : RhsRel Q n nrhs s t) :
    RhsRel Q n nrhs (Pivoted.backSubstitute n nrhs s) (Pivoted.backSubstitute n nrhs t) where
  toAgree := Pivoted.Agree.backSubstitute hnrhs hnrhs (fun _ _ => False.elim) h.toAgree
  rhs i hi j hj := by
    have hs := Pivoted.backSubstitute_solves (n := n) hj s
    have ht := Pivoted.backSubstitute_solves (n := n) hj t
    have ht' := ht.congr (fun i hi j hj => (h.a i hi j hj).symm) fun _ _ => rfl
    exact hs.related hQ ht' (fun i hi => h.rhs i hi j hj) i hi

omit [Neg K] in
/-- The back substitution of `src/task1/dgesv.c`, after an elimination that went through. -/
theorem RhsRel.unpivotedBackSubstitute (hQ : Respects Q) (hn : 1 ≤ n) (hnrhs : 1 ≤ nrhs)
    (h : RhsRel Q n nrhs s t) (hs : ∀ i < n - 1, Passes n s.a i) :
    Flow.Rel Eq (RhsRel Q n nrhs) (Unpivoted.backSubstitute n nrhs s)
      (Unpivoted.backSubstitute n nrhs t) := by
  have ht : ∀ i < n - 1, Passes n t.a i := fun i hi => (h.passes_iff (by omega)).mp (hs i hi)
  rw [Unpivoted.backSubstitute_of_tested hn hnrhs hs,
    Unpivoted.backSubstitute_of_tested hn hnrhs ht]
  by_cases hlast : Passes n s.a (n - 1)
  · rw [if_pos hlast, if_pos ((h.passes_iff (by omega)).mp hlast)]
    exact h.backSubstitute hQ hnrhs
  · rw [if_neg hlast, if_neg fun hc => hlast ((h.passes_iff (by omega)).mpr hc)]
    exact ⟨rfl, h⟩

/-- **Related right-hand sides lead to related results**, for both solvers: the return code and
    the final `a` are the same, and `b` is related in every cell, on every return.  In
    exact arithmetic, for instance, scaled right-hand sides give solutions scaled by the same
    factor. -/
theorem myDgesv_related (hn : 1 ≤ n) (hnrhs : 1 ≤ nrhs) (hQ : Respects Q) (a b b' : Mem K)
    (h : ∀ c < n * nrhs, Q (b c) (b' c)) :
    ((Pivoted.myDgesv n nrhs a b).1 = (Pivoted.myDgesv n nrhs a b').1 ∧
      RhsRel Q n nrhs (Pivoted.myDgesv n nrhs a b).2 (Pivoted.myDgesv n nrhs a b').2) ∧
    ((Unpivoted.myDgesv n nrhs a b).1 = (Unpivoted.myDgesv n nrhs a b').1 ∧
      RhsRel Q n nrhs (Unpivoted.myDgesv n nrhs a b).2 (Unpivoted.myDgesv n nrhs a b').2) := by
  have hinit : RhsRel Q n nrhs (.init a b) (.init a b') :=
    { a := fun _ _ _ _ => rfl
      b := fun _ _ => False.elim
      flag := rfl
      rhs := fun i hi j hj => h _ (cell_lt hi hj) }
  constructor
  · have helim : Flow.Rel Eq (RhsRel Q n nrhs) (Pivoted.eliminate n nrhs (.init a b))
        (Pivoted.eliminate n nrhs (.init a b')) :=
      forUpRet_rel Eq (RhsRel Q n nrhs) hinit fun k s' t' hk h' =>
        (h'.pivot (by omega)).eliminateColumn hQ (by omega)
    unfold Pivoted.myDgesv
    rcases helim.cases with ⟨s, t, hs, ht, hst⟩ | ⟨r, r', s, t, hs, ht, hret⟩
    · rw [hs, ht]
      have hback := hst.backSubstitute hQ hnrhs
      exact ⟨Pivoted.Agree.exitCode_eq hback.toAgree, hback⟩
    · rw [hs, ht]
      exact hret
  · have helim : Flow.Rel Eq (RhsRel Q n nrhs) (Unpivoted.eliminate n nrhs (.init a b))
        (Unpivoted.eliminate n nrhs (.init a b')) :=
      forUpRet_rel Eq (RhsRel Q n nrhs) hinit fun k s' t' hk h' =>
        h'.eliminateColumn hQ (by omega)
    have hcall := helim.bind fun s t hs hst =>
      hst.unpivotedBackSubstitute hQ hn hnrhs
        (Unpivoted.tested_of_eliminateTo (Nat.sub_le n 1) hs)
    unfold Unpivoted.myDgesv
    rcases hcall.cases with ⟨s, t, hs, ht, hst⟩ | ⟨r, r', s, t, hs, ht, hret⟩
    · rw [hs, ht]
      exact ⟨rfl, hst⟩
    · rw [hs, ht]
      exact hret

end RelatedRhs

/-- In exact arithmetic, any factor will do. -/
theorem respects_mul (c : ℚ) : Respects fun x y : ℚ => y = c * x where
  add m hx hy := by
    rw [hx, hy]
    ring
  sub m hx hy := by
    rw [hx, hy]
    ring
  div d hx := by rw [hx, mul_div_assoc]

/-- The right-hand sides of `src/test.c`, doubled. -/
theorem myDgesv_related_test :
    (Pivoted.myDgesv 3 3 Pivoted.testA Pivoted.testB).1
        = (Pivoted.myDgesv 3 3 Pivoted.testA (.ofList [8, 2, -4, 6, 10, 14, 16, 4, 12])).1 ∧
      ∀ i < 3, ∀ j < 3, (Pivoted.myDgesv 3 3 Pivoted.testA
          (.ofList [8, 2, -4, 6, 10, 14, 16, 4, 12])).2.b (i * 3 + j)
        = 2 * (Pivoted.myDgesv 3 3 Pivoted.testA Pivoted.testB).2.b (i * 3 + j) := by
  have hcells : ∀ c < 3 * 3,
      (.ofList [8, 2, -4, 6, 10, 14, 16, 4, 12] : Mem ℚ) c = 2 * Pivoted.testB c := by
    decide +kernel
  have h := (myDgesv_related (by decide) (by decide) (respects_mul 2) Pivoted.testA Pivoted.testB
    _ hcells).1
  exact ⟨h.1, h.2.rhs⟩

end Dgesv
