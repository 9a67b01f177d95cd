import Dgesv.Columns
import Dgesv.Lib.Reorder

namespace Dgesv

open Loop Matrix Equiv

/-!
# The order of the equations

Listing the equations of a system in another order changes which rows the pivot search
finds and what the exchanges do, but not what is found: as long as the largest entry of
every step occurs in one row only, both runs bring the same row to position `k`.  After `k`
steps the finished rows of the two runs are equal, and the others differ by a permutation.

* `Reordered k τ s t` — the relation between the two runs at the head of iteration `k`;
* `Reordered.step` — an iteration keeps it, or returns in both runs;
* `myDgesv_rowOrder` — the two calls return the same code and the same solution.
-/

namespace Pivoted

variable {n nrhs : ℕ} {a b a' b' : Mem ℚ} {s t : State ℚ} {τ : Perm (Fin n)}

/-- The rows of `t` are those of `s` in the order `τ`, which leaves the first `k` in place. -/
structure Reordered (n nrhs k : ℕ) (τ : Perm (Fin n)) (s t : State ℚ) : Prop where
  fixes : FixesBelow k τ
  a_eq : t.A n = (s.A n).submatrix τ id
  b_eq : t.B n nrhs = (s.B n nrhs).submatrix τ id
  flag : t.errorFlag = s.errorFlag

/-- In the run on `(a, b)`, every step that passes the tolerance test has a single row with
    the largest entry of column `k`. -/
def NoTies (n nrhs : ℕ) (a b : Mem ℚ) : Prop :=
  ∀ k s s', k < n - 1 → eliminateTo n nrhs k (.init a b) = .next s →
    eliminateColumn n nrhs k s = .next s' →
    ∃! i, (k ≤ i ∧ i < n) ∧ ∀ r, k ≤ r → r < n → |s.a (r * n + k)| ≤ |s.a (i * n + k)|

/-! ### One iteration -/

/-- The search of the second run, seen from the first. -/
theorem Reordered.isFirstMax {k : Fin n} (h : Reordered n nrhs k τ s t) :
    IsFirstMax k ((fun i => |s.A n i k|) ∘ τ) (pivotRow k t) := by
  have hmax := searchPivot_isFirstMax k t
  rw [h.a_eq] at hmax
  exact hmax

/-- Both runs test entries of the same size. -/
theorem Reordered.abs_pivot {k : Fin n} (h : Reordered n nrhs k τ s t) :
    |(pivot n nrhs k t).A n k k| = |(pivot n nrhs k s).A n k k| := by
  rw [pivot_A_pivot, pivot_A_pivot, h.a_eq]
  exact (searchPivot_isFirstMax k s).apply_eq h.isFirstMax h.fixes

/-- Exchanges that bring the same row to position `k`. -/
theorem Reordered.pivot {k : Fin n} (h : Reordered n nrhs k τ s t)
    (hsame : τ (pivotRow k t) = pivotRow k s) :
    Reordered n nrhs (k + 1) (Equiv.swap k (pivotRow k s) * τ * Equiv.swap k (pivotRow k t))
      (pivot n nrhs k s) (pivot n nrhs k t) := by
  have hback : ∀ i, Equiv.swap k (pivotRow k s)
      ((Equiv.swap k (pivotRow k s) * τ * Equiv.swap k (pivotRow k t)) i)
      = τ (Equiv.swap k (pivotRow k t) i) := fun i => swap_apply_self _ _ _
  refine ⟨h.fixes.swap_mul_mul_swap (searchPivot_isFirstMax k s).le
    (searchPivot_isFirstMax k t).le hsame, ?_, ?_, ?_⟩
  · ext i j
    rw [pivot_A, pivot_A, h.a_eq]
    simp only [submatrix_apply, hback, id]
  · ext i j
    rw [pivot_B, pivot_B, h.b_eq]
    simp only [submatrix_apply, hback, id]
  · rw [pivot_errorFlag, pivot_errorFlag, h.flag]

/-- Clearing column `k` in both runs. -/
theorem Reordered.eliminateRows {k : Fin n} (h : Reordered n nrhs (k + 1) τ s t)
    (hs : ∀ j, j < k → s.A n k j = 0) (ht : ∀ j, j < k → t.A n k j = 0) :
    Reordered n nrhs (k + 1) τ (eliminateRows n nrhs k s) (eliminateRows n nrhs k t) where
  fixes := h.fixes
  a_eq := by
    rw [eliminateRows_A hs, eliminateRows_A ht, h.a_eq, h.fixes.sub_multipliers_mul]
  b_eq := by
    rw [eliminateRows_B, eliminateRows_B, h.a_eq, h.b_eq, h.fixes.sub_multipliers_mul]
  flag := by
    rw [eliminateRows_errorFlag, eliminateRows_errorFlag, h.flag]

/-- **An iteration** returns in both runs, or falls through in both and keeps the relation. -/
theorem Reordered.step {k : Fin n} (h : Reordered n nrhs k τ s t)
    {L L' : Matrix (Fin n) (Fin n) ℚ} (hs : HeadInv n nrhs a b k L s)
    (ht : HeadInv n nrhs a' b' k L' t)
    (huniq : ∀ s', eliminateColumn n nrhs k s = .next s' →
      ∀ i, k ≤ i → |s.A n i k| = |s.A n (pivotRow k s) k| → i = pivotRow k s) :
    (∃ r s' t', eliminateColumn n nrhs k s = .ret r s' ∧ eliminateColumn n nrhs k t = .ret r t') ∨
    ∃ s' t', eliminateColumn n nrhs k s = .next s' ∧ eliminateColumn n nrhs k t = .next t' ∧
      ∃ τ', Reordered n nrhs (k + 1) τ' s' t' := by
  have habs := h.abs_pivot
  rcases eliminateColumn_cases nrhs k s with ⟨hsmall, hcol⟩ | ⟨hlarge, hcol⟩
  · rcases eliminateColumn_cases nrhs k t with ⟨-, hcol'⟩ | ⟨hlarge', -⟩
    · exact Or.inl ⟨-1, _, _, hcol, hcol'⟩
    · rw [habs] at hlarge'
      exact absurd hsmall (not_lt.mpr hlarge')
  · rcases eliminateColumn_cases nrhs k t with ⟨hsmall', -⟩ | ⟨-, hcol'⟩
    · rw [habs] at hsmall'
      exact absurd hsmall' (not_lt.mpr hlarge)
    · have hsame : τ (pivotRow k t) = pivotRow k s :=
        (searchPivot_isFirstMax k s).reorder h.isFirstMax h.fixes (huniq _ hcol)
      have hzeros := (HeadInv.pivot hs).lu.zeros
      have hzeros' := (HeadInv.pivot ht).lu.zeros
      refine Or.inr ⟨_, _, hcol, hcol', _, (h.pivot hsame).eliminateRows ?_ ?_⟩
      · exact fun j hj => hzeros k j hj hj
      · exact fun j hj => hzeros' k j hj hj

/-! ### The whole call -/

/-- A step without ties, in the terms of the matrices. -/
theorem NoTies.eq_pivotRow (h : NoTies n nrhs a b) {k : Fin n} (hk : k.val < n - 1)
    {s' : State ℚ} (hs : eliminateTo n nrhs k (.init a b) = .next s)
    (hs' : eliminateColumn n nrhs k s = .next s') {i : Fin n} (hi : k ≤ i)
    (habs : |s.A n i k| = |s.A n (pivotRow k s) k|) : i = pivotRow k s := by
  have hmax := searchPivot_isFirstMax k s
  have hlargest : ∀ r, k.val ≤ r → r < n →
      |s.a (r * n + k)| ≤ |s.a ((pivotRow k s).val * n + k)| := fun r hkr hr =>
    hmax.max ⟨r, hr⟩ hkr
  obtain ⟨p, -, hunique⟩ := h k s s' hk hs hs'
  apply Fin.ext
  calc i.val = p := by
        refine hunique i.val ⟨⟨hi, i.isLt⟩, fun r hkr hr => ?_⟩
        rw [← State.A_apply, habs]
        exact hlargest r hkr hr
    _ = (pivotRow k s).val := (hunique _ ⟨⟨hmax.le, (pivotRow k s).isLt⟩, hlargest⟩).symm

/-- **The elimination** returns the same code in both runs, or both reach the back
    substitution with the same rows in the same order. -/
theorem eliminate_reordered (π : Perm (Fin n))
    (ha : a'.toMatrix n n = (a.toMatrix n n).submatrix π id)
    (hb : b'.toMatrix n nrhs = (b.toMatrix n nrhs).submatrix π id) (huniq : NoTies n nrhs a b) :
    (∃ r s t, eliminate n nrhs (.init a b) = .ret r s ∧
      eliminate n nrhs (.init a' b') = .ret r t) ∨
    ∃ s t, eliminate n nrhs (.init a b) = .next s ∧ eliminate n nrhs (.init a' b') = .next t ∧
      Reordered n nrhs (n - 1) 1 s t := by
  have hstart : Reordered n nrhs 0 π (.init a b) (.init a' b') :=
    ⟨fun i hi => absurd hi (Nat.not_lt_zero _), ha, hb, rfl⟩
  -- The second run carries its own factorisation; that of the first follows from its run.
  have hrun : (∃ r s t, eliminate n nrhs (.init a b) = .ret r s ∧
        eliminate n nrhs (.init a' b') = .ret r t) ∨
      ∃ s t, eliminate n nrhs (.init a b) = .next s ∧ eliminate n nrhs (.init a' b') = .next t ∧
        (∃ τ, Reordered n nrhs (n - 1) τ s t) ∧ ∃ L, HeadInv n nrhs a' b' (n - 1) L t := by
    refine forUpRet_lockstep
      (fun k s t => (∃ τ, Reordered n nrhs k τ s t) ∧ ∃ L, HeadInv n nrhs a' b' k L t)
      ⟨⟨π, hstart⟩, 1, headInv_init n nrhs a' b'⟩ ?_
    rintro k s t hk hs ⟨⟨τ, hτ⟩, L', hL'⟩
    have hkn : k < n := by omega
    obtain ⟨L, hL⟩ := headInv_of_eliminateTo hkn.le hs
    rcases Reordered.step (k := ⟨k, hkn⟩) hτ hL hL' fun s' hs' i hi habs =>
      huniq.eq_pivotRow (k := ⟨k, hkn⟩) hk hs hs' hi habs with hret | ⟨s', t', hs', ht', hτ'⟩
    · exact Or.inl hret
    · exact Or.inr ⟨s', t', hs', ht', hτ', HeadInv.eliminateColumn (k := ⟨k, hkn⟩) hL' ht'⟩
  rcases hrun with hret | ⟨s, t, hs, ht, ⟨τ, hτ⟩, -⟩
  · exact Or.inl hret
  · have hone : τ = 1 := hτ.fixes.eq_one (by omega)
    rw [hone] at hτ
    exact Or.inr ⟨s, t, hs, ht, hτ⟩

/-- Once all rows are finished, the two runs agree in every column. -/
theorem Reordered.agree {k : ℕ} (h : Reordered n nrhs k 1 s t) :
    Agree n nrhs nrhs (fun j j' => j < nrhs ∧ j = j') t s where
  a i hi j hj := by
    exact congrFun (congrFun h.a_eq ⟨i, hi⟩) ⟨j, hj⟩
  b j j' hjj i hi := by
    obtain ⟨hj, rfl⟩ := hjj
    exact congrFun (congrFun h.b_eq ⟨i, hi⟩) ⟨j, hj⟩
  flag := h.flag

/-- **The order of the equations does not matter.**  If no step of the run on `(a, b)` has two
    rows to choose from, the call on the reordered system returns the same code; on success it
    leaves the same `a` and the same `b`. -/
theorem myDgesv_rowOrder (hnrhs : 1 ≤ nrhs) (π : Perm (Fin n))
    (ha : a'.toMatrix n n = π.permMatrix ℚ * a.toMatrix n n)
    (hb : b'.toMatrix n nrhs = π.permMatrix ℚ * b.toMatrix n nrhs) (huniq : NoTies n nrhs a b) :
    (myDgesv n nrhs a' b').1 = (myDgesv n nrhs a b).1 ∧
      ((myDgesv n nrhs a b).1 = 0 →
        (∀ c < n * n, (myDgesv n nrhs a' b').2.a c = (myDgesv n nrhs a b).2.a c) ∧
        ∀ c < n * nrhs, (myDgesv n nrhs a' b').2.b c = (myDgesv n nrhs a b).2.b c) := by
  rw [PEquiv.toMatrix_toPEquiv_mul] at ha hb
  rcases eliminate_reordered π ha hb huniq with ⟨r, s, t, hs, ht⟩ | ⟨s, t, hs, ht, h⟩
  · obtain ⟨rfl, -⟩ := testInv_of_eliminate_ret hs
    unfold myDgesv
    rw [hs, ht]
    exact ⟨rfl, fun h0 => absurd h0 (by simp)⟩
  · have hrange : InRange nrhs nrhs fun j j' => j < nrhs ∧ j = j' := by
      rintro j j' ⟨hj, rfl⟩
      exact ⟨hj, hj⟩
    have hback := Agree.backSubstitute hnrhs hnrhs hrange h.agree
    unfold myDgesv
    rw [hs, ht]
    refine ⟨Agree.exitCode_eq hback, fun _ => ⟨fun c hc => Agree.a_eq hback hc, fun c hc => ?_⟩⟩
    obtain ⟨i, hi, j, hj, rfl⟩ := exists_cell_of_lt hc
    exact hback.b j j ⟨hj, rfl⟩ i hi

/-- Two equations, in either order. -/
theorem myDgesv_rowOrder_two :
    (myDgesv 2 1 (.ofList [3, 4, 1, 2]) (.ofList [6, 5] : Mem ℚ)).1
        = (myDgesv 2 1 (.ofList [1, 2, 3, 4]) (.ofList [5, 6] : Mem ℚ)).1 ∧
      ∀ c < 2, (myDgesv 2 1 (.ofList [3, 4, 1, 2]) (.ofList [6, 5] : Mem ℚ)).2.b c
        = (myDgesv 2 1 (.ofList [1, 2, 3, 4]) (.ofList [5, 6] : Mem ℚ)).2.b c := by
  have huniq : NoTies 2 1 (.ofList [1, 2, 3, 4]) (.ofList [5, 6] : Mem ℚ) := by
    intro k s s' hk hs _
    obtain rfl : k = 0 := by omega
    cases hs
    refine ⟨1, ⟨by decide, by decide +kernel⟩, ?_⟩
    rintro i ⟨⟨-, hi⟩, hmax⟩
    by_contra hne
    obtain rfl : i = 0 := by omega
    exact absurd (hmax 1 (by decide) (by decide)) (by decide +kernel)
  have ha : (.ofList [3, 4, 1, 2] : Mem ℚ).toMatrix 2 2
      = (Equiv.swap 0 1 : Perm (Fin 2)).permMatrix ℚ
        * (.ofList [1, 2, 3, 4] : Mem ℚ).toMatrix 2 2 := by decide +kernel
  have hb : (.ofList [6, 5] : Mem ℚ).toMatrix 2 1
      = (Equiv.swap 0 1 : Perm (Fin 2)).permMatrix ℚ
        * (.ofList [5, 6] : Mem ℚ).toMatrix 2 1 := by decide +kernel
  have h := myDgesv_rowOrder le_rfl (Equiv.swap 0 1) ha hb huniq
  exact ⟨h.1, (h.2 (by decide +kernel)).2⟩

end Pivoted

end Dgesv
