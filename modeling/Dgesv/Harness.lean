import Dgesv.Model.Harness
import Dgesv.Bounds

namespace Dgesv

open Loop

/-!
# What the harness checks

The three functions of `src/main.c` that run over a matrix take their bound from a product of
two `unsigned int`s.  Each of them treats exactly the cells below `mulUnsigned size size`, and
this is the whole matrix iff `size < 65536`.

* `generateMatrix_get`, `duplicateMatrix_get`, `checkResult_eq_one_iff` — the three functions,
  at any size;
* `mulUnsigned_self_iff` — when the product is exact;
* `checksEveryCell_iff` — when the harness treats every cell;
* `main_ok_always_iff` — when its verdict does not depend on the results at all, for arguments
  that are in `int`.
-/

section Functions

variable {K : Type*} [Sub K] [Mul K] [HarnessOps K]

/-! ### The functions, at any size -/

omit [Sub K] [Mul K] in
/-- The cells below the wrapped product are drawn, the others are as allocated. -/
theorem generateMatrix_get (rand : ℕ → ℕ → ℤ) (fresh : ℕ → K) (size seed c : ℕ) :
    generateMatrix rand fresh size seed c
      = if c < mulUnsigned size size then ofInt ((rand seed c).tmod 100) else fresh c := by
  revert c
  refine forUp_inv (fun i (m : Mem K) =>
    ∀ c, m c = if c < i then ofInt ((rand seed c).tmod 100) else fresh c) (Nat.zero_le _) ?_ ?_
  · intro c
    rfl
  · intro i m _ _ hm c
    rw [Mem.set_get, hm c]
    by_cases hc : c = i
    · rw [if_pos hc, if_pos (by omega), hc]
    · rw [if_neg hc]
      exact if_congr (by omega) rfl rfl

omit [Sub K] [Mul K] [HarnessOps K] in
/-- The cells below the wrapped product are copied, the others are as allocated. -/
theorem duplicateMatrix_get (fresh : ℕ → K) (orig : Mem K) (size c : ℕ) :
    duplicateMatrix fresh orig size c
      = if c < mulUnsigned size size then orig c else fresh c := by
  -- The number of bytes does not wrap again.
  have hlt : mulUnsigned size size < 2 ^ 32 := Nat.mod_lt _ (by decide)
  have hbytes : mulUnsigned size size * 8 % 2 ^ 64 = mulUnsigned size size * 8 :=
    Nat.mod_eq_of_lt (by omega)
  show (if (c + 1) * 8 ≤ mulUnsigned size size * 8 % 2 ^ 64 then orig c else fresh c) = _
  rw [hbytes]
  exact if_congr (by omega) rfl rfl

/-- What the loop of `check_result` can do. -/
theorem compareCells_cases (bref b : Mem K) (hi : ℕ) :
    (compareCells bref b hi = .next () ∧ ∀ i < hi, isNearlyEqual (bref i) (b i) = true) ∨
    (compareCells bref b hi = .ret 0 () ∧ ∃ i < hi, isNearlyEqual (bref i) (b i) = false) := by
  induction hi with
  | zero => exact Or.inl ⟨rfl, fun i hi => absurd hi (Nat.not_lt_zero i)⟩
  | succ m ih =>
    rw [compareCells, forUpRet_succ]
    rcases ih with ⟨heq, hall⟩ | ⟨heq, i, hi, hne⟩
    · unfold compareCells at heq
      rw [heq, Flow.bind_next]
      by_cases hm : isNearlyEqual (bref m) (b m) = true
      · refine Or.inl ⟨if_pos hm, fun i hi => ?_⟩
        rcases Nat.lt_succ_iff_lt_or_eq.mp hi with hlt | rfl
        · exact hall i hlt
        · exact hm
      · exact Or.inr ⟨if_neg hm, m, m.lt_succ_self, Bool.eq_false_of_not_eq_true hm⟩
    · unfold compareCells at heq
      rw [heq, Flow.bind_ret]
      exact Or.inr ⟨rfl, i, by omega, hne⟩

/-- The cells below the wrapped product are compared. -/
theorem checkResult_eq_one_iff (bref b : Mem K) (size nrhs : ℕ) :
    checkResult bref b size nrhs = 1 ↔
      ∀ i < mulUnsigned size nrhs, isNearlyEqual (bref i) (b i) = true := by
  unfold checkResult
  rcases compareCells_cases bref b (mulUnsigned size nrhs) with ⟨heq, hall⟩ | ⟨heq, i, hi, hne⟩
  · rw [heq]
    exact iff_of_true rfl hall
  · rw [heq]
    refine iff_of_false (by decide) fun hall => ?_
    rw [hall i hi] at hne
    cases hne

omit [Sub K] [Mul K] [HarnessOps K] in
/-- No other message reads like the good verdict. -/
theorem Message.text_eq_ok_iff (m : Message) : m.text = "Result is ok!\n" ↔ m = .ok := by
  constructor
  · intro h
    cases m with
    | ok => rfl
    | usage => exact absurd h (by decide)
    | wrong => exact absurd h (by decide)
    -- The last two differ in their first letter, whatever the time.
    | lapackeTime ms =>
      have hhead : ("Time taken by Lapacke dgesv: " ++ toString ms ++ " ms\n").toList.head?
          = some 'R' := congrArg (fun t => t.toList.head?) h
      simp at hhead
    | solverTime ms =>
      have hhead : ("Time taken by my dgesv solver: " ++ toString ms ++ " ms\n").toList.head?
          = some 'R' := congrArg (fun t => t.toList.head?) h
      simp at hhead
  · rintro rfl
    rfl

/-- The verdict of `main` is that of `check_result`. -/
theorem main_ok_iff (env : Env K) (prog arg : String) (rest : List String) :
    "Result is ok!\n" ∈ (main env (prog :: arg :: rest)).1.map Message.text ↔
      checkResult (solveBoth env (atoi arg)).bref (solveBoth env (atoi arg)).b
        (toUnsigned (atoi arg)) (toUnsigned (atoi arg)) = 1 := by
  simp only [main, List.mem_map, Message.text_eq_ok_iff, exists_eq_right, List.mem_cons,
    List.not_mem_nil, or_false, reduceCtorEq, false_or]
  split_ifs with h
  · exact iff_of_true rfl h
  · exact iff_of_false (by decide) h

end Functions

/-! ### The product of two sizes -/

theorem toUnsigned_natCast {size : ℕ} (h : size < 2 ^ 32) : toUnsigned size = size := by
  unfold toUnsigned
  omega

/-- The product of a size with itself is exact iff it fits. -/
theorem mulUnsigned_self_iff (size : ℕ) :
    mulUnsigned size size = size * size ↔ size < 65536 := by
  have hpow : 2 ^ 32 = 65536 * 65536 := by norm_num
  rw [mulUnsigned, hpow, Nat.mod_eq_iff_lt (by decide)]
  exact Nat.mul_self_lt_mul_self_iff

/-! ### When every cell is treated -/

section EveryCell

variable (K : Type*) [Sub K] [Mul K] [HarnessOps K]

/-- The harness treats every cell of a `size × size` system. -/
structure ChecksEveryCell (size : ℕ) : Prop where
  generate : ∀ (rand : ℕ → ℕ → ℤ) (fresh : ℕ → K) (seed : ℕ), ∀ c < size * size,
    generateMatrix rand fresh size seed c = ofInt ((rand seed c).tmod 100)
  duplicate : ∀ (fresh : ℕ → K) (orig : Mem K), ∀ c < size * size,
    duplicateMatrix fresh orig size c = orig c
  check : ∀ bref b : Mem K, checkResult bref b size size = 1 ↔
    ∀ i < size * size, isNearlyEqual (bref i) (b i) = true
  verdict : ∀ (env : Env K) (prog arg : String) (rest : List String), atoi arg = size →
    "Result is ok!\n" ∈ (main env (prog :: arg :: rest)).1.map Message.text →
    ∀ i < size * size,
      isNearlyEqual ((solveBoth env size).bref i) ((solveBoth env size).b i) = true

variable {K} {size : ℕ}

/-- Where the product is exact. -/
theorem checksEveryCell_of_lt (h : size < 65536) : ChecksEveryCell K size := by
  have hmul := (mulUnsigned_self_iff size).mpr h
  refine ⟨?_, ?_, ?_, ?_⟩
  · intro rand fresh seed c hc
    rw [generateMatrix_get, hmul, if_pos hc]
  · intro fresh orig c hc
    rw [duplicateMatrix_get, hmul, if_pos hc]
  · intro bref b
    rw [checkResult_eq_one_iff, hmul]
  · intro env prog arg rest harg hok
    rw [main_ok_iff, harg, toUnsigned_natCast (by omega), checkResult_eq_one_iff, hmul] at hok
    exact hok

/-- Where it is not, there is a first cell that `check_result` skips: the two results may
    differ there. -/
theorem lt_of_check {x y x' y' : K} (hyes : isNearlyEqual x y = true)
    (hno : isNearlyEqual x' y' = false)
    (h : ∀ bref b : Mem K, checkResult bref b size size = 1 →
      ∀ i < size * size, isNearlyEqual (bref i) (b i) = true) : size < 65536 := by
  rw [← mulUnsigned_self_iff]
  by_contra hne
  have hlt : mulUnsigned size size < size * size := (Nat.mod_le _ _).lt_of_ne hne
  have hone : checkResult (alignedAlloc 0 fun i => if i < mulUnsigned size size then x else x')
      (alignedAlloc 0 fun i => if i < mulUnsigned size size then y else y') size size = 1 := by
    rw [checkResult_eq_one_iff]
    intro i hi
    simp only [alignedAlloc, if_pos hi, hyes]
  have hskip := h _ _ hone _ hlt
  simp only [alignedAlloc, lt_irrefl, if_false, hno, Bool.false_eq_true] at hskip

/-- **Every cell is treated iff `size < 65536`**, over a scalar type in which some numbers are
    nearly equal and some are not. -/
theorem checksEveryCell_iff (hyes : ∃ x y : K, isNearlyEqual x y = true)
    (hno : ∃ x y : K, isNearlyEqual x y = false) : ChecksEveryCell K size ↔ size < 65536 := by
  obtain ⟨x, y, hyes⟩ := hyes
  obtain ⟨x', y', hno⟩ := hno
  constructor
  · intro h
    exact lt_of_check hyes hno fun bref b => (h.check bref b).mp
  · exact checksEveryCell_of_lt

end EveryCell

/-- The sizes of the benchmark are far below. -/
theorem checksEveryCell_iff_rat : ChecksEveryCell ℚ 1024 ∧ ¬ ChecksEveryCell ℚ 70000 := by
  have hyes : ∃ x y : ℚ, isNearlyEqual x y = true := ⟨1, 1, by decide +kernel⟩
  have hno : ∃ x y : ℚ, isNearlyEqual x y = false := ⟨0, 1, by decide +kernel⟩
  exact ⟨(checksEveryCell_iff hyes hno).mpr (by decide),
    fun h => absurd ((checksEveryCell_iff hyes hno).mp h) (by decide)⟩

/-- At `size = 65536` the product is `0`, and nothing is compared: a result of all ones is
    accepted where the reference is zero. -/
theorem not_checksEveryCell :
    checkResult (alignedAlloc (matrixBytes 65536) fun _ => (0 : ℚ))
        (alignedAlloc (matrixBytes 65536) fun _ => 1) 65536 65536 = 1 ∧
      isNearlyEqual (0 : ℚ) 1 = false ∧ ¬ ChecksEveryCell ℚ 65536 := by
  have hone : checkResult (alignedAlloc (matrixBytes 65536) fun _ => (0 : ℚ))
      (alignedAlloc (matrixBytes 65536) fun _ => 1) 65536 65536 = 1 := rfl
  have hno : isNearlyEqual (0 : ℚ) 1 = false := by decide +kernel
  refine ⟨hone, hno, fun h => ?_⟩
  have haccepted := (h.check _ _).mp hone 0 (by decide)
  rw [alignedAlloc, alignedAlloc, hno] at haccepted
  cases haccepted

/-! ### A verdict on nothing -/

/-- The square of an `unsigned int` wraps to `0` iff its lower half does. -/
theorem mulUnsigned_self_eq_zero_iff (z : ℤ) :
    mulUnsigned (toUnsigned z) (toUnsigned z) = 0 ↔ 65536 ∣ z := by
  have hpow : (2 : ℕ) ^ 32 = 65536 ^ 2 := by norm_num
  unfold mulUnsigned
  rw [← Nat.dvd_iff_mod_eq_zero, ← Nat.pow_two, hpow, Nat.pow_dvd_pow_iff (by decide)]
  unfold toUnsigned
  omega

/-- A run in which the two solvers leave `x` and `y` in every cell. -/
def envApart {K : Type*} (x y : K) : Env K where
  rand _ _ := 0
  fresh _ _ := x
  clock _ := { sec := 0, nsec := 0 }
  lapackeDgesv _ _ a b := (a, { b with get := fun _ => x })
  myDgesv _ _ a b := (a, { b with get := fun _ => y })

/-- **The verdict that means nothing.**  Let the argument of `main` denote an `int`, as `atoi`
    needs it to.  Then `main` prints `Result is ok!` whatever the solvers return, whatever is
    drawn and whatever the memory holds iff that is a multiple of 65536. -/
theorem main_ok_always_iff {K : Type*} [Sub K] [Mul K] [HarnessOps K]
    (hno : ∃ x y : K, isNearlyEqual x y = false) {arg : String} {size : ℤ}
    (harg : int (atoi arg) = some size) (prog : String) (rest : List String) :
    (∀ env : Env K, "Result is ok!\n" ∈ (main env (prog :: arg :: rest)).1.map Message.text) ↔
      65536 ∣ size := by
  rw [← eq_of_int_eq_some harg]
  rw [← mulUnsigned_self_eq_zero_iff]
  constructor
  · intro h
    obtain ⟨x, y, hxy⟩ := hno
    have hok := h (envApart x y)
    rw [main_ok_iff, checkResult_eq_one_iff] at hok
    -- Were there a cell to compare, the first one would tell the results apart.
    by_contra hne
    have hfirst : isNearlyEqual x y = true := hok 0 (Nat.pos_of_ne_zero hne)
    rw [hxy] at hfirst
    cases hfirst
  · intro hzero env
    rw [main_ok_iff, checkResult_eq_one_iff, hzero]
    intro i hi
    exact absurd hi (Nat.not_lt_zero i)

/-- An order that fits the memory of a large machine, and the one above it. -/
theorem main_ok_always_iff_65536 :
    (∀ env : Env ℚ, "Result is ok!\n" ∈ (main env ["dgesv", "65536"]).1.map Message.text) ∧
      ¬ ∀ env : Env ℚ,
        "Result is ok!\n" ∈ (main env ["dgesv", "65537"]).1.map Message.text := by
  have hno : ∃ x y : ℚ, isNearlyEqual x y = false := ⟨0, 1, by decide +kernel⟩
  have hwrap : int (atoi "65536") = some 65536 := by decide
  have hnext : int (atoi "65537") = some 65537 := by decide
  exact ⟨(main_ok_always_iff hno hwrap "dgesv" []).mpr (by decide),
    fun h => absurd ((main_ok_always_iff hno hnext "dgesv" []).mp h) (by decide)⟩

end Dgesv
