import Dgesv.Solution

namespace Dgesv

open Loop

/-!
# One column at a time

A call of `src/dgesv.c` treats every right-hand side by itself: nothing it does to `a`, to
the flag or to one column of `b` depends on another column, or on how many there are.
This is a statement about two runs with different row lengths of `b`.  It is proved over an
arbitrary scalar type by a simulation through every loop; `Agree n w w' C s t` is the
relation, with `C` saying which columns of the two runs are compared.  With `C` empty it
says what depends on `a` alone.

* `Agree.pivot`, `Agree.eliminateRows`, `Agree.backSubstitute` — each loop keeps the relation;
* `myDgesv_rel` — so does the whole call, with equal return codes;
* `myDgesv_column` — many right-hand sides at once are solved as one by one.
-/

variable {K : Type*}

/-- The two runs agree in `a`, in `error_flag`, and in the columns that `C` compares. -/
structure Agree (n w w' : ℕ) (C : ℕ → ℕ → Prop) (s t : State K) : Prop where
  a : ∀ i < n, ∀ j < n, s.a (i * n + j) = t.a (i * n + j)
  b : ∀ j j', C j j' → ∀ i < n, s.b (i * w + j) = t.b (i * w' + j')
  flag : s.errorFlag = t.errorFlag

/-- Only columns that exist are compared. -/
def InRange (w w' : ℕ) (C : ℕ → ℕ → Prop) : Prop := ∀ j j', C j j' → j < w ∧ j' < w'

/-! ### The recurrence of the back substitution, for two arrays -/

section Recurrence

variable [Sub K] [Mul K]

/-- The accumulation for row `i` reads `a` only in that row. -/
theorem accumulate_congr_row {n i : ℕ} {a a' : Mem K} {x : ℕ → K} {t : K}
    (h : ∀ k < n, a (i * n + k) = a' (i * n + k)) :
    accumulate n i n a x t = accumulate n i n a' x t := by
  apply forUp_congr
  intro k t' _ hk
  rw [h k hk]

/-- The recurrence depends on the matrix and on the right-hand side only. -/
theorem Solves.congr [Div K] {n : ℕ} {a a' : Mem K} {y y' x : ℕ → K}
    (ha : ∀ i < n, ∀ j < n, a (i * n + j) = a' (i * n + j)) (hy : ∀ i < n, y i = y' i)
    (h : Solves n a y x) : Solves n a' y' x := by
  intro i hi
  rw [h i hi, accumulate_congr_row (ha i hi), hy i hi, ha i hi i hi]

end Recurrence

namespace Pivoted

variable {n w w' : ℕ} {C : ℕ → ℕ → Prop} {s t : State K}

/-! ### The loops -/

section Elimination

variable [Neg K] [Add K] [Mul K] [Div K] [FloatOps K]

omit [Neg K] [Add K] [Mul K] [Div K] in
/-- The pivot search reads `a` only. -/
theorem searchPivot_congr {k : ℕ} (hk : k < n) {a a' : Mem K}
    (h : ∀ i < n, ∀ j < n, a (i * n + j) = a' (i * n + j)) :
    searchPivot n k a = searchPivot n k a' := by
  unfold searchPivot
  rw [h k hk k hk]
  apply forUp_congr
  intro i p _ hi
  rw [h i hi k hk]

omit [Neg K] [Add K] [Mul K] [Div K] in
/-- Both runs exchange the same rows. -/
theorem Agree.pivot {k : ℕ} (hk : k < n) (hC : InRange w w' C) (h : Agree n w w' C s t) :
    Agree n w w' C (pivot n w k s) (pivot n w' k t) := by
  have hsearch := searchPivot_congr hk h.a
  have hbound := (searchPivot_bounds hk t.a).2
  have hswap : ∀ i < n, Equiv.swap k (searchPivot n k t.a).1 i < n := by
    intro i hi
    rw [Equiv.swap_apply_def]
    split_ifs
    · exact hbound
    · exact hk
    · exact hi
  refine ⟨?_, ?_, ?_⟩
  · intro i hi j hj
    rw [pivot_a n w k s i hj, pivot_a n w' k t i hj, hsearch]
    exact h.a _ (hswap i hi) j hj
  · intro j j' hjj i hi
    rw [pivot_b n w k s i (hC j j' hjj).1, pivot_b n w' k t i (hC j j' hjj).2, hsearch]
    exact h.b j j' hjj _ (hswap i hi)
  · rw [pivot_errorFlag, pivot_errorFlag, h.flag]

omit [FloatOps K] in
/-- Both runs use the same multipliers. -/
theorem Agree.eliminateRows {k : ℕ} (hk : k < n) (hC : InRange w w' C) (h : Agree n w w' C s t) :
    Agree n w w' C (eliminateRows n w k s) (eliminateRows n w' k t) := by
  refine ⟨?_, ?_, ?_⟩
  · intro i hi j hj
    rw [eliminateRows_a w hk s i hj, eliminateRows_a w' hk t i hj, h.a i hi j hj, h.a i hi k hk,
      h.a k hk k hk, h.a k hk j hj]
  · intro j j' hjj i hi
    rw [eliminateRows_b hk s i (hC j j' hjj).1, eliminateRows_b hk t i (hC j j' hjj).2,
      h.b j j' hjj i hi, h.b j j' hjj k hk, h.a i hi k hk, h.a k hk k hk]
  · rw [eliminateRows_errorFlag, eliminateRows_errorFlag, h.flag]

/-- An iteration of the elimination returns in both runs or in neither. -/
theorem Agree.eliminateColumn {k : ℕ} (hk : k < n) (hC : InRange w w' C)
    (h : Agree n w w' C s t) :
    Flow.Rel Eq (Agree n w w' C) (eliminateColumn n w k s) (eliminateColumn n w' k t) := by
  have hpivot := Agree.pivot hk hC h
  unfold Pivoted.eliminateColumn
  simp only [hpivot.a k hk k hk]
  by_cases hsmall : lt (fabs ((Pivoted.pivot n w' k t).a (k * n + k))) tol = true
  · rw [if_pos hsmall, if_pos hsmall]
    exact ⟨rfl, hpivot⟩
  · rw [if_neg hsmall, if_neg hsmall]
    exact Agree.eliminateRows hk hC hpivot

/-- The elimination, as a whole. -/
theorem Agree.eliminate (hC : InRange w w' C) (h : Agree n w w' C s t) :
    Flow.Rel Eq (Agree n w w' C) (eliminate n w s) (eliminate n w' t) := by
  refine forUpRet_rel Eq (Agree n w w' C) h fun k s' t' hk h' => ?_
  exact Agree.eliminateColumn (by omega) hC h'

end Elimination

/-! ### What agreement gives at the end of a call -/

/-- The same code, … -/
theorem Agree.exitCode_eq (h : Agree n w w' C s t) : exitCode s = exitCode t := by
  rw [exitCode, exitCode, h.flag]

/-- … and the same `a`. -/
theorem Agree.a_eq (h : Agree n w w' C s t) {c : ℕ} (hc : c < n * n) : s.a c = t.a c := by
  obtain ⟨i, hi, j, hj, rfl⟩ := exists_cell_of_lt hc
  exact h.a i hi j hj

variable [Sub K] [Mul K] [Div K] [FloatOps K]

/-- The back substitution.  Each column is the one solution of its recurrence, and compared
    columns have the same recurrence. -/
theorem Agree.backSubstitute (hw : 0 < w) (hw' : 0 < w') (hC : InRange w w' C)
    (h : Agree n w w' C s t) :
    Agree n w w' C (backSubstitute n w s) (backSubstitute n w' t) := by
  refine ⟨?_, ?_, ?_⟩
  · rw [backSubstitute_a, backSubstitute_a]
    exact h.a
  · intro j j' hjj
    have hs := backSubstitute_solves (n := n) (hC j j' hjj).1 s
    have ht := backSubstitute_solves (n := n) (hC j j' hjj).2 t
    exact (hs.congr h.a (h.b j j' hjj)).unique ht
  · rw [backSubstitute_errorFlag, backSubstitute_errorFlag, h.flag]
    have hsmall : SmallDiag n s.a ↔ SmallDiag n t.a := by
      unfold SmallDiag
      refine exists_congr fun i => and_congr_right fun hi => ?_
      rw [h.a i hi i hi]
    exact if_congr (and_congr (iff_of_true hw hw') hsmall) rfl rfl

/-! ### The whole call -/

variable [Neg K] [Add K]

/-- **Two calls that agree on entry** return the same code and agree at the end. -/
theorem myDgesv_rel (hw : 0 < w) (hw' : 0 < w') (hC : InRange w w' C) (a b a' b' : Mem K)
    (ha : ∀ i < n, ∀ j < n, a (i * n + j) = a' (i * n + j))
    (hb : ∀ j j', C j j' → ∀ i < n, b (i * w + j) = b' (i * w' + j')) :
    (myDgesv n w a b).1 = (myDgesv n w' a' b').1 ∧
      Agree n w w' C (myDgesv n w a b).2 (myDgesv n w' a' b').2 := by
  have hrel := Agree.eliminate hC (⟨ha, hb, rfl⟩ : Agree n w w' C (.init a b) (.init a' b'))
  unfold myDgesv
  cases hs : eliminate n w (.init a b) with
  | next s =>
    cases ht : eliminate n w' (.init a' b') with
    | next t =>
      rw [hs, ht] at hrel
      have hback := Agree.backSubstitute hw hw' hC hrel
      exact ⟨Agree.exitCode_eq hback, hback⟩
    | ret r t =>
      rw [hs, ht] at hrel
      exact hrel.elim
  | ret r s =>
    cases ht : eliminate n w' (.init a' b') with
    | next t =>
      rw [hs, ht] at hrel
      exact hrel.elim
    | ret r' t =>
      rw [hs, ht] at hrel
      exact hrel

/-- The return code and the final `a` depend on the given matrix only. -/
theorem myDgesv_matrix_only (hw : 0 < w) (hw' : 0 < w') (a b a' b' : Mem K)
    (ha : ∀ c < n * n, a c = a' c) :
    (myDgesv n w a b).1 = (myDgesv n w' a' b').1 ∧
      ∀ c < n * n, (myDgesv n w a b).2.a c = (myDgesv n w' a' b').2.a c := by
  have hcell : ∀ i < n, ∀ j < n, a (i * n + j) = a' (i * n + j) := fun i hi j hj =>
    ha _ (cell_lt hi hj)
  -- No column is compared.
  have hrel := myDgesv_rel (C := fun _ _ => False) hw hw' (fun _ _ h => h.elim) a b a' b' hcell
    fun _ _ h => h.elim
  exact ⟨hrel.1, fun c hc => Agree.a_eq hrel.2 hc⟩

/-- A column of the result depends on the given matrix and on that column only. -/
theorem myDgesv_column_only {j j' : ℕ} (hj : j < w) (hj' : j' < w') (a b a' b' : Mem K)
    (ha : ∀ c < n * n, a c = a' c) (hb : ∀ i < n, b (i * w + j) = b' (i * w' + j')) :
    ∀ i < n, (myDgesv n w a b).2.b (i * w + j) = (myDgesv n w' a' b').2.b (i * w' + j') := by
  have hcell : ∀ i < n, ∀ j < n, a (i * n + j) = a' (i * n + j) := fun i hi j hj =>
    ha _ (cell_lt hi hj)
  have hrange : InRange w w' fun l l' => l = j ∧ l' = j' := by
    rintro l l' ⟨rfl, rfl⟩
    exact ⟨hj, hj'⟩
  have hcol : ∀ l l', l = j ∧ l' = j' → ∀ i < n, b (i * w + l) = b' (i * w' + l') := by
    rintro l l' ⟨rfl, rfl⟩
    exact hb
  have hrel := myDgesv_rel (Nat.zero_lt_of_lt hj) (Nat.zero_lt_of_lt hj') hrange a b a' b' hcell
    hcol
  exact hrel.2.b j j' ⟨rfl, rfl⟩

/-- **Many right-hand sides at once, or one by one.**  A call with `nrhs` right-hand sides
    and a call with column `j` alone return the same code and leave the same `a`, and column
    `j` of the first result is the second result.  So code and final `a` depend on the given
    matrix only, and column `j` of the result on the matrix and on column `j`. -/
theorem myDgesv_column {n nrhs j : ℕ} (hj : j < nrhs) (a b b₁ : Mem K)
    (hb₁ : ∀ i < n, b₁ i = b (i * nrhs + j)) :
    ((myDgesv n nrhs a b).1 = (myDgesv n 1 a b₁).1 ∧
      (∀ c < n * n, (myDgesv n nrhs a b).2.a c = (myDgesv n 1 a b₁).2.a c) ∧
      ∀ i < n, (myDgesv n nrhs a b).2.b (i * nrhs + j) = (myDgesv n 1 a b₁).2.b i) ∧
    ∀ a' b' : Mem K, (∀ c < n * n, a c = a' c) →
      (∀ nrhs', 1 ≤ nrhs' → (myDgesv n nrhs a b).1 = (myDgesv n nrhs' a' b').1 ∧
        ∀ c < n * n, (myDgesv n nrhs a b).2.a c = (myDgesv n nrhs' a' b').2.a c) ∧
      ((∀ i < n, b (i * nrhs + j) = b' (i * nrhs + j)) →
        ∀ i < n, (myDgesv n nrhs a b).2.b (i * nrhs + j)
          = (myDgesv n nrhs a' b').2.b (i * nrhs + j)) := by
  have hnrhs : 0 < nrhs := Nat.zero_lt_of_lt hj
  refine ⟨?_, fun a' b' ha => ⟨?_, ?_⟩⟩
  · obtain ⟨hcode, ha⟩ := myDgesv_matrix_only (n := n) hnrhs Nat.one_pos a b a b₁ fun _ _ => rfl
    -- With one right-hand side, row `i` of `b` is cell `i`.
    have hcell : ∀ i, i * 1 + 0 = i := fun i => by omega
    have hcol := myDgesv_column_only (n := n) hj Nat.one_pos a b a b₁ (fun _ _ => rfl)
      fun i hi => by rw [hcell, hb₁ i hi]
    simp only [hcell] at hcol
    exact ⟨hcode, ha, hcol⟩
  · intro nrhs' hnrhs'
    exact myDgesv_matrix_only hnrhs hnrhs' a b a' b' ha
  · exact myDgesv_column_only hj hj a b a' b' ha

/-- The system of `src/test.c`, and its middle column alone. -/
theorem myDgesv_column_test :
    (myDgesv 3 3 testA testB).1 = (myDgesv 3 1 testA (.ofList [1, 5, 2])).1 ∧
      ∀ i < 3, (myDgesv 3 3 testA testB).2.b (i * 3 + 1)
        = (myDgesv 3 1 testA (.ofList [1, 5, 2])).2.b i := by
  have hcol : ∀ i < 3, (.ofList [1, 5, 2] : Mem ℚ) i = testB (i * 3 + 1) := by decide +kernel
  have h := (myDgesv_column (by decide : 1 < 3) testA testB (.ofList [1, 5, 2]) hcol).1
  exact ⟨h.1, h.2.2⟩

end Pivoted

end Dgesv
