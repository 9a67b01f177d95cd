import Dgesv.AnyArithmetic
import Dgesv.NoPivoting

namespace Dgesv

open Loop Matrix

/-!
# Calling the solver twice

Both solvers work in place, so a caller that passes `a` on to a second call passes on what the
first one left there.  In exact arithmetic that matrix is a fixed point: its finished columns
have zeros to subtract and nothing to exchange, and the test that failed before fails again.

* `Finished n m a` — the first `m` columns of `a` are finished;
* `Unpivoted.eliminateTo_finished`, `Pivoted.eliminateTo_finished` — the elimination passes over
  them;
* `myDgesv_again` — a second call repeats the return code and leaves `a` as it is.
-/

variable {n nrhs k m : ℕ} {a b : Mem ℚ} {s : State ℚ}

/-! ### Steps that do nothing -/

/-- Adding a multiple by `0`. -/
theorem addRow_zero (w k i lo hi : ℕ) (m : Mem ℚ) : addRow w k i lo hi 0 m = m := by
  refine forUp_preserves (fun m' : Mem ℚ => m' = m) rfl ?_
  rintro j m' - - rfl
  rw [zero_mul, add_zero, Mem.set_self]

/-- A column of zeros. -/
theorem eliminateRows_of_zeros (nrhs : ℕ) (hzeros : ∀ i < n, k < i → s.a (i * n + k) = 0) :
    (eliminateRows n nrhs k s).a = s.a ∧ (eliminateRows n nrhs k s).b = s.b := by
  refine forUp_preserves (fun s' : State ℚ => s'.a = s.a ∧ s'.b = s.b) ⟨rfl, rfl⟩ ?_
  rintro i s' hi hi' ⟨ha, hb⟩
  have ht : -s'.a (i * n + k) / s'.a (k * n + k) = 0 := by
    rw [ha, hzeros i hi' hi, neg_zero, zero_div]
  constructor
  · show addRow n k i k n (-s'.a (i * n + k) / s'.a (k * n + k)) s'.a = s.a
    rw [ht, addRow_zero, ha]
  · show addRow nrhs k i 0 nrhs (-s'.a (i * n + k) / s'.a (k * n + k)) s'.b = s.b
    rw [ht, addRow_zero, hb]

/-- A diagonal entry that fails its test. -/
theorem Unpivoted.eliminateColumn_stuck (nrhs : ℕ) (k : Fin n) (h : |s.A n k k| < tol) :
    eliminateColumn n nrhs k s = .ret (-1) s := by
  rcases eliminateColumn_cases nrhs k s with ⟨-, hr⟩ | ⟨htol, -⟩
  · exact hr
  · exact absurd h (not_lt.mpr htol)

/-! ### Finished columns -/

/-- The first `m` columns of `a` have zeros below the diagonal, and a diagonal that passes. -/
structure Finished (n m : ℕ) (a : Mem ℚ) : Prop where
  zeros : ∀ i < n, ∀ j < m, j < i → a (i * n + j) = 0
  pivots : ∀ i < m, tol ≤ |a (i * n + i)|

/-- A call on `(a, b)` has changed neither of them so far, and recorded nothing of note. -/
structure Untouched (a b : Mem ℚ) (s : State ℚ) : Prop where
  a : s.a = a
  b : s.b = b
  flag : s.errorFlag = 0
  swaps : s.swaps = 0

theorem untouched_init (a b : Mem ℚ) : Untouched a b (.init a b) := ⟨rfl, rfl, rfl, rfl⟩

/-- An iteration on a finished column. -/
theorem Unpivoted.eliminateColumn_finished (nrhs : ℕ) (h : Finished n m a) (hm : m ≤ n)
    (hk : k < m) (hs : Untouched a b s) :
    ∃ s', eliminateColumn n nrhs k s = .next s' ∧ Untouched a b s' := by
  have hkn : k < n := by omega
  have hpivot := h.pivots k hk
  rw [← hs.a] at hpivot
  rcases eliminateColumn_cases nrhs ⟨k, hkn⟩ s with ⟨hsmall, -⟩ | ⟨-, hr⟩
  · exact absurd hpivot (not_le.mpr hsmall)
  · obtain ⟨ha, hb⟩ := eliminateRows_of_zeros (s := s) nrhs fun i hi hki => by
      rw [hs.a]
      exact h.zeros i hi k hk hki
    exact ⟨_, hr, ha.trans hs.a, hb.trans hs.b, (eliminateRows_errorFlag n nrhs k s).trans hs.flag,
      (eliminateRows_swaps nrhs hkn s).trans hs.swaps⟩

/-- **The elimination passes over finished columns**, without pivoting … -/
theorem Unpivoted.eliminateTo_finished (nrhs : ℕ) (b : Mem ℚ) (h : Finished n m a) (hm : m ≤ n)
    (hk : k ≤ m) : ∃ s, eliminateTo n nrhs k (.init a b) = .next s ∧ Untouched a b s := by
  induction k with
  | zero => exact ⟨_, rfl, untouched_init a b⟩
  | succ k ih =>
    obtain ⟨s, hs, hsame⟩ := ih (by omega)
    obtain ⟨s', hs', hsame'⟩ := eliminateColumn_finished nrhs h hm hk hsame
    refine ⟨s', ?_, hsame'⟩
    rw [eliminateTo, forUpRet_succ]
    exact Flow.bind_eq_next.mpr ⟨s, hs, hs'⟩

/-- … and with it. -/
theorem Pivoted.eliminateTo_finished (nrhs : ℕ) (b : Mem ℚ) (h : Finished n m a) (hm : m ≤ n) :
    ∃ s, eliminateTo n nrhs m (.init a b) = .next s ∧ Untouched a b s := by
  obtain ⟨s, hs, hsame⟩ := Unpivoted.eliminateTo_finished nrhs b h hm le_rfl
  refine ⟨s, ?_, hsame⟩
  rw [← hs]
  apply forUpRet_congr (fun _ => Untouched a b) (untouched_init a b)
  · intro i t t' hi ht hstep
    obtain ⟨t₁, ht₁, hsame₁⟩ := Unpivoted.eliminateColumn_finished nrhs h hm hi ht
    rw [hstep] at ht₁
    cases ht₁
    exact hsame₁
  · intro i t hi ht
    have hstay : (searchPivot n i t.a).1 = i := searchPivot_of_max (by omega) fun r hr hir => by
      rw [ht.a, h.zeros r hr i hi hir, abs_zero]
      exact abs_nonneg _
    show Unpivoted.eliminateColumn n nrhs i (pivot n nrhs i t) = _
    rw [pivot_eq_self nrhs hstay]

/-- What the factorisation says about the cells. -/
theorem LUPrefix.finished {σ : Equiv.Perm (Fin n)} {A₀ L : Matrix (Fin n) (Fin n) ℚ}
    {B₀ : Matrix (Fin n) (Fin nrhs) ℚ} (lu : LUPrefix A₀ B₀ k σ L (s.A n) (s.B n nrhs))
    (hk : k ≤ n) (hpivots : ∀ i : Fin n, i.val < k → tol ≤ |s.A n i i|) : Finished n k s.a where
  zeros i hi j hj hji := lu.zeros ⟨i, hi⟩ ⟨j, by omega⟩ hj hji
  pivots i hi := hpivots ⟨i, by omega⟩ hi

/-! ### The second call -/

/-- How a second call, on the matrix that a first one left, goes. -/
structure Repeats (o o' : ℤ × State ℚ) : Prop where
  code : o'.1 = o.1
  a : o'.2.a = o.2.a
  swaps : o'.2.swaps = 0

/-- How a call whose elimination goes through, to state `s`, ends. -/
structure Completes (n : ℕ) (s : State ℚ) (o : ℤ × State ℚ) : Prop where
  code : o.1 = if Passes n s.a (n - 1) then 0 else -1
  a : o.2.a = s.a
  swaps : o.2.swaps = s.swaps

/-- Two completed calls, the second of which found nothing to do. -/
theorem Completes.repeats {s' : State ℚ} {o o' : ℤ × State ℚ} (h : Completes n s o)
    (h' : Completes n s' o') (hsame : Untouched o.2.a b s') : Repeats o o' where
  code := by rw [h'.code, hsame.a, h.a, h.code]
  a := by rw [h'.a, hsame.a]
  swaps := by rw [h'.swaps, hsame.swaps]

namespace Pivoted

theorem completes_of_next (hn : 1 ≤ n) (hnrhs : 1 ≤ nrhs)
    (h : eliminate n nrhs (.init a b) = .next s) : Completes n s (myDgesv n nrhs a b) := by
  unfold myDgesv
  rw [h]
  exact ⟨exitCode_of_tested hn hnrhs (errorFlag_of_eliminateTo h)
    (tested_of_eliminateTo (Nat.sub_le n 1) h), backSubstitute_a n nrhs s,
    backSubstitute_swaps n nrhs s⟩

/-- **A second call of `src/dgesv.c`.** -/
theorem myDgesv_repeats {nrhs' : ℕ} (hn : 1 ≤ n) (hnrhs : 1 ≤ nrhs) (hnrhs' : 1 ≤ nrhs')
    (a b b' : Mem ℚ) :
    Repeats (myDgesv n nrhs a b) (myDgesv n nrhs' (myDgesv n nrhs a b).2.a b') := by
  cases h : eliminate n nrhs (.init a b) with
  | next s =>
    obtain ⟨L, hL⟩ := headInv_of_eliminateTo (Nat.sub_le n 1) h
    obtain ⟨s', hs', hsame⟩ :=
      eliminateTo_finished nrhs' b' (hL.lu.finished (Nat.sub_le n 1) hL.pivots) (Nat.sub_le n 1)
    have hfirst := completes_of_next hn hnrhs h
    rw [← hfirst.a] at hs' hsame
    exact hfirst.repeats (completes_of_next hn hnrhs' hs') hsame
  | ret r s =>
    obtain ⟨rfl, k, L, hk, inv, small⟩ := testInv_of_eliminate_ret h
    have hcall : myDgesv n nrhs a b = (-1, s) := by
      unfold myDgesv
      rw [h]
    rw [hcall]
    obtain ⟨s', hs', hsame⟩ :=
      eliminateTo_finished nrhs' b' (inv.lu.finished k.isLt.le inv.pivots) k.isLt.le
    -- The entry that failed is the largest left in its column, and so is tested again.
    have hstay : (searchPivot n k s'.a).1 = k := searchPivot_of_max k.isLt fun i hi hki => by
      rw [hsame.a]
      exact inv.max ⟨i, hi⟩ (Fin.le_def.mpr hki.le)
    have hret : eliminateColumn n nrhs' k s' = .ret (-1) s' := by
      show Unpivoted.eliminateColumn n nrhs' k (pivot n nrhs' k s') = _
      rw [pivot_eq_self nrhs' hstay]
      exact Unpivoted.eliminateColumn_stuck nrhs' k (by rw [State.A_apply, hsame.a]; exact small)
    have hcall' : myDgesv n nrhs' s.a b' = (-1, s') := by
      unfold myDgesv
      rw [eliminate, eliminateTo, forUpRet_of_ret (by omega) hs' hret]
    rw [hcall']
    exact ⟨rfl, hsame.a, hsame.swaps⟩

end Pivoted

namespace Unpivoted

theorem completes_of_next (hn : 1 ≤ n) (hnrhs : 1 ≤ nrhs)
    (h : eliminate n nrhs (.init a b) = .next s) : Completes n s (myDgesv n nrhs a b) := by
  unfold myDgesv
  rw [h, Flow.bind_next,
    backSubstitute_of_tested hn hnrhs (tested_of_eliminateTo (Nat.sub_le n 1) h)]
  by_cases hlast : Passes n s.a (n - 1)
  · simp only [if_pos hlast]
    exact ⟨(if_pos hlast).symm, Pivoted.backSubstitute_a n nrhs s,
      Pivoted.backSubstitute_swaps n nrhs s⟩
  · simp only [if_neg hlast]
    exact ⟨(if_neg hlast).symm, rfl, rfl⟩

/-- **A second call of `src/task1/dgesv.c`.** -/
theorem myDgesv_repeats {nrhs' : ℕ} (hn : 1 ≤ n) (hnrhs : 1 ≤ nrhs) (hnrhs' : 1 ≤ nrhs')
    (a b b' : Mem ℚ) :
    Repeats (myDgesv n nrhs a b) (myDgesv n nrhs' (myDgesv n nrhs a b).2.a b') := by
  cases h : eliminate n nrhs (.init a b) with
  | next s =>
    obtain ⟨L, hL⟩ := headInv_of_eliminateTo (Nat.sub_le n 1) h
    obtain ⟨s', hs', hsame⟩ := eliminateTo_finished nrhs' b'
      (hL.lu.finished (Nat.sub_le n 1) hL.pivots) (Nat.sub_le n 1) le_rfl
    have hfirst := completes_of_next hn hnrhs h
    rw [← hfirst.a] at hs' hsame
    exact hfirst.repeats (completes_of_next hn hnrhs' hs') hsame
  | ret r s =>
    obtain ⟨rfl, k, L, hk, inv, small⟩ := headInv_of_eliminate_ret h
    have hcall : myDgesv n nrhs a b = (-1, s) := by
      unfold myDgesv
      rw [h, Flow.bind_ret]
    rw [hcall]
    obtain ⟨s', hs', hsame⟩ :=
      eliminateTo_finished nrhs' b' (inv.lu.finished k.isLt.le inv.pivots) k.isLt.le le_rfl
    have hret : eliminateColumn n nrhs' k s' = .ret (-1) s' :=
      eliminateColumn_stuck nrhs' k (by rw [State.A_apply, hsame.a]; exact small)
    have hcall' : myDgesv n nrhs' s.a b' = (-1, s') := by
      unfold myDgesv
      rw [eliminate, eliminateTo, forUpRet_of_ret (by omega) hs' hret, Flow.bind_ret]
    rw [hcall']
    exact ⟨rfl, hsame.a, hsame.swaps⟩

end Unpivoted

/-- **Calling twice.**  In exact arithmetic, a second call of either solver, on the matrix that a
    first one left and with any right-hand sides, returns the same code, leaves that matrix as
    it is and exchanges nothing. -/
theorem myDgesv_again {nrhs' : ℕ} (hn : 1 ≤ n) (hnrhs : 1 ≤ nrhs) (hnrhs' : 1 ≤ nrhs')
    (a b b' : Mem ℚ) :
    Repeats (Pivoted.myDgesv n nrhs a b)
        (Pivoted.myDgesv n nrhs' (Pivoted.myDgesv n nrhs a b).2.a b') ∧
      Repeats (Unpivoted.myDgesv n nrhs a b)
        (Unpivoted.myDgesv n nrhs' (Unpivoted.myDgesv n nrhs a b).2.a b') :=
  ⟨Pivoted.myDgesv_repeats hn hnrhs hnrhs' a b b', Unpivoted.myDgesv_repeats hn hnrhs hnrhs' a b b'⟩

/-- The first call exchanges the rows, the second does not. -/
theorem myDgesv_again_two :
    (Pivoted.myDgesv 2 1 (.ofList [1, 2, 3, 4]) (.ofList [5, 6] : Mem ℚ)).2.swaps = 1 ∧
      (Pivoted.myDgesv 2 2 (Pivoted.myDgesv 2 1 (.ofList [1, 2, 3, 4])
        (.ofList [5, 6] : Mem ℚ)).2.a (.ofList [1, 0, 0, 1])).2.swaps = 0 := by
  have h := (myDgesv_again (by decide) (by decide) (by decide) (.ofList [1, 2, 3, 4])
    (.ofList [5, 6]) (.ofList [1, 0, 0, 1]) : Repeats (Pivoted.myDgesv 2 1 _ _)
      (Pivoted.myDgesv 2 2 _ _) ∧ _)
  exact ⟨by decide +kernel, h.1.swaps⟩

end Dgesv
