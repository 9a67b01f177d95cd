import Dgesv.Bounds
import Dgesv.Integer
import Dgesv.NoPivoting
import Dgesv.Schedule
import Dgesv.Harness

namespace Dgesv

open Loop

/-!
# The whole program

`src/main.c` draws the systems, calls LAPACK and the solver it is linked with, and prints a
verdict.  The harness sees the arrays that the solver leaves, and sees them only if the call is
defined; up to size 46340 it is.

* `Linked` — what it means to be linked with one of the solvers;
* `setup_defined_iff` — the call of `my_dgesv` in `main` is defined up to size 46340;
* `main_accepts` — in exact arithmetic, `main` accepts either solver whenever that does not
  report a failure;
* `main_schedule` — what it prints does not depend on the order of the threads;
* `main_sound` — and what it accepts, from any solver, nearly solves the system.
-/

/-! ### What the program is linked with -/

section Linked

variable {K : Type}

/-- The program is linked with the code `call`: in every call that is defined, `solver` leaves
    the arrays that the code leaves.  What an undefined call does is left open. -/
def Linked (call : ℕ → ℕ → Mem K → Mem K → Option (ℤ × State K))
    (solver : ℤ → ℤ → Mem K → Mem K → Mem K × Mem K) : Prop :=
  ∀ (n nrhs : ℕ) (a b : Mem K) o, call n nrhs a b = some o → solver n nrhs a b = (o.2.a, o.2.b)

/-- A solver that does nothing in an undefined call. -/
def linked (call : ℕ → ℕ → Mem K → Mem K → Option (ℤ × State K)) (n nrhs : ℤ) (a b : Mem K) :
    Mem K × Mem K :=
  match call n.toNat nrhs.toNat a b with
  | some o => (o.2.a, o.2.b)
  | none => (a, b)

theorem linked_linked (call : ℕ → ℕ → Mem K → Mem K → Option (ℤ × State K)) :
    Linked call (linked call) := by
  intro n nrhs a b o ho
  unfold linked
  rw [Int.toNat_natCast, Int.toNat_natCast, ho]

end Linked

/-- What is expected of `LAPACKE_dgesv` on a square system: on a nonsingular matrix, a solution. -/
def SolvesNonsingular (size : ℕ) (solver : ℤ → ℤ → Mem ℚ → Mem ℚ → Mem ℚ × Mem ℚ) : Prop :=
  ∀ a b : Mem ℚ, (a.toMatrix size size).det ≠ 0 →
    a.toMatrix size size * (solver size size a b).2.toMatrix size size = b.toMatrix size size

/-! ### The call of the solver -/

/-- The block of a generated matrix has a cell for every entry. -/
theorem generateMatrix_size {K : Type*} [HarnessOps K] (rand : ℕ → ℕ → ℤ) (fresh : ℕ → K)
    {size : ℕ} (hsize : size * size ≤ 2 ^ 31) (seed : ℕ) :
    (generateMatrix rand fresh size seed).size = size * size := by
  have hbytes : matrixBytes size / 8 = size * size := by
    unfold matrixBytes
    rw [Nat.mul_assoc, Nat.mod_eq_of_lt (by omega), Nat.mul_div_cancel_left _ (by decide)]
  refine forUp_preserves (fun m : Mem K => m.size = size * size) hbytes ?_
  intro i m _ _ hm
  rw [Mem.set_size, hm]

/-- The arrays of `main` are as large as the solver is told. -/
theorem setup_fits {K : Type} [Sub K] [Mul K] [HarnessOps K] (env : Env K) {size : ℕ}
    (hsize : size * size ≤ 2 ^ 31) :
    size * size ≤ (setup env size).a.size ∧ size * size ≤ (setup env size).b.size := by
  have hint : size < 2 ^ 32 := by nlinarith
  simp only [setup, toUnsigned_natCast hint]
  exact ⟨(generateMatrix_size _ _ hsize _).ge, (generateMatrix_size _ _ hsize _).ge⟩

/-- **The call of `my_dgesv` in `main`** is defined if the size is at most 46340, whatever
    numbers are drawn, with `src/dgesv.c` … -/
theorem setup_defined {K : Type} [Neg K] [Add K] [Sub K] [Mul K] [Div K] [HarnessOps K]
    (env : Env K) {size : ℕ} (hsize : size * size ≤ 2 ^ 31) :
    Checked.myDgesv size size (setup env size).a (setup env size).b
      = some (Pivoted.myDgesv size size (setup env size).a (setup env size).b) :=
  Checked.myDgesv_eq_some ⟨hsize, hsize⟩ (setup_fits env hsize).1 (setup_fits env hsize).2

/-- … and with `src/task1/dgesv.c`. -/
theorem setup_defined_unpivoted {K : Type} [Neg K] [Add K] [Sub K] [Mul K] [Div K] [HarnessOps K]
    (env : Env K) {size : ℕ} (hsize : size * size ≤ 2 ^ 31) :
    Checked.Unpivoted.myDgesv size size (setup env size).a (setup env size).b
      = some (Unpivoted.myDgesv size size (setup env size).a (setup env size).b) :=
  Checked.Unpivoted.myDgesv_eq_some ⟨hsize, hsize⟩ (setup_fits env hsize).1
    (setup_fits env hsize).2

/-- The sizes that `setup_defined` is about. -/
theorem square_le_of_le {size : ℕ} (hle : size ≤ 46340) : size * size ≤ 2 ^ 31 := by
  have hcells : size * size ≤ 46340 * 46340 := Nat.mul_self_le_mul_self hle
  omega

/-- A run that draws `1` only, in memory that holds `1.0`. -/
def envOnes (K : Type*) [HarnessOps K] : Env K where
  rand _ _ := 1
  fresh _ _ := ofInt 1
  clock _ := { sec := 0, nsec := 0 }
  lapackeDgesv _ _ a b := (a, b)
  myDgesv _ _ a b := (a, b)

theorem setup_envOnes {K : Type} [HarnessOps K] (size : ℤ) :
    (setup (envOnes K) size).a.Constant (ofInt 1) := by
  intro c
  show generateMatrix _ _ _ _ c = _
  rw [generateMatrix_get]
  split_ifs
  · rfl
  · rfl

/-- **The sizes that `main` can pass to `my_dgesv`.**  The call is defined in every run iff the
    size is at most 46340, if `1.0` passes the tolerance test. -/
theorem setup_defined_iff {K : Type} [Neg K] [Add K] [Sub K] [Mul K] [Div K] [HarnessOps K]
    (hone : lt (fabs (ofInt 1 : K)) tol = false) {size : ℕ} (hsize : 1 ≤ size) :
    (∀ env : Env K, (Checked.myDgesv size size (setup env size).a (setup env size).b).isSome) ↔
      size ≤ 46340 := by
  constructor
  · intro h
    rcases hsize.eq_or_lt with rfl | hlt
    · decide
    · obtain ⟨x, hx, -⟩ := exists_of_bind_isSome (h (envOnes K))
      have hfirst := forUpRetM_isSome_first (by omega) (Option.isSome_of_eq_some hx)
      obtain ⟨hlast, -⟩ :=
        Checked.lt_of_eliminateColumn_isSome hone hlt hsize (setup_envOnes size) hfirst
      have hcells := mul_le_of_last_cell hsize hlast
      by_contra hlarge
      have hsquare : 46341 * 46341 ≤ size * size :=
        Nat.mul_self_le_mul_self (by omega : 46341 ≤ size)
      omega
  · intro hle env
    rw [setup_defined env (square_le_of_le hle)]
    rfl

/-- On both sides of the limit. -/
theorem setup_defined_iff_46340 :
    (∀ env : Env ℚ,
      (Checked.myDgesv 46340 46340 (setup env 46340).a (setup env 46340).b).isSome) ∧
    ¬ ∀ env : Env ℚ,
      (Checked.myDgesv 46341 46341 (setup env 46341).a (setup env 46341).b).isSome := by
  have hone : lt (fabs (ofInt 1 : ℚ)) tol = false := by decide +kernel
  exact ⟨(setup_defined_iff hone (by norm_num)).mpr le_rfl,
    fun h => absurd ((setup_defined_iff hone (by norm_num)).mp h) (by norm_num)⟩

/-! ### Solvers that are accepted -/

/-- A number is nearly equal to itself. -/
theorem isNearlyEqual_self (x : ℚ) : isNearlyEqual x x = true := by
  have hle : |x - x| ≤ 1 / 10 ^ 5 * |x| := by
    rw [sub_self, abs_zero]
    positivity
  exact decide_eq_true hle

/-- A copy stores the same matrix. -/
theorem duplicateMatrix_toMatrix {size : ℕ} (hlt : size < 65536) (fresh : ℕ → ℚ) (orig : Mem ℚ) :
    (duplicateMatrix fresh orig size).toMatrix size size = orig.toMatrix size size := by
  ext i j
  exact (checksEveryCell_of_lt hlt).duplicate fresh orig _ (cell_lt i.isLt j.isLt)

/-- Both systems that `main` sets up are the same. -/
theorem setup_copies {size : ℕ} (hlt : size < 65536) (env : Env ℚ) :
    (setup env size).aref.toMatrix size size = (setup env size).a.toMatrix size size ∧
      (setup env size).bref.toMatrix size size = (setup env size).b.toMatrix size size := by
  simp only [setup, toUnsigned_natCast (by omega : size < 2 ^ 32)]
  exact ⟨duplicateMatrix_toMatrix hlt _ _, duplicateMatrix_toMatrix hlt _ _⟩

/-- **A solution is accepted**, if LAPACK leaves a solution as well. -/
theorem main_ok_of_solution {size : ℕ} (hlt : size < 65536) {env : Env ℚ}
    (href : SolvesNonsingular size env.lapackeDgesv)
    (hdet : ((setup env size).a.toMatrix size size).det ≠ 0)
    (hsol : (setup env size).a.toMatrix size size
        * (env.myDgesv size size (setup env size).a (setup env size).b).2.toMatrix size size
      = (setup env size).b.toMatrix size size)
    {arg : String} (harg : atoi arg = size) (prog : String) (rest : List String) :
    "Result is ok!\n" ∈ (main env (prog :: arg :: rest)).1.map Message.text := by
  obtain ⟨haref, hbref⟩ := setup_copies hlt env
  have hlapack := href (setup env size).aref (setup env size).bref (by rwa [haref])
  rw [haref, hbref] at hlapack
  have hsame := Pivoted.solution_unique hdet hsol hlapack
  rw [main_ok_iff, harg, toUnsigned_natCast (by omega), (checksEveryCell_of_lt hlt).check]
  intro c hc
  obtain ⟨i, hi, j, hj, rfl⟩ := exists_cell_of_lt hc
  have hcell : (solveBoth env size).bref (i * size + j)
      = (solveBoth env size).b (i * size + j) :=
    congrFun (congrFun hsame ⟨i, hi⟩) ⟨j, hj⟩
  rw [hcell]
  exact isNearlyEqual_self _

/-- The entries that `main` draws are integers from `0` to `99`. -/
theorem setup_integer {size : ℕ} (hlt : size < 65536) {env : Env ℚ}
    (hrand : ∀ i, 0 ≤ env.rand 1 i) :
    ∃ A : Matrix (Fin size) (Fin size) ℤ,
      (setup env size).a.toMatrix size size = A.map Int.cast ∧ ∀ i j, 0 ≤ A i j ∧ A i j ≤ 99 := by
  refine ⟨Matrix.of fun i j => (env.rand 1 (i * size + j)).tmod 100, ?_, ?_⟩
  · ext i j
    simp only [setup, toUnsigned_natCast (by omega : size < 2 ^ 32)]
    exact (checksEveryCell_of_lt hlt).generate _ _ _ _ (cell_lt i.isLt j.isLt)
  · intro i j
    have hlast : (env.rand 1 (i * size + j)).tmod 100 < 100 :=
      Int.tmod_lt_of_pos _ (by norm_num)
    exact ⟨Int.tmod_nonneg _ (hrand _), Int.le_of_lt_add_one hlast⟩

/-- On a drawn matrix of order at most `5` the solver only fails if it is singular. -/
theorem setup_accepted {size : ℕ} (hsize : 1 ≤ size) (hsmall : size ≤ 5) {env : Env ℚ}
    (hrand : ∀ i, 0 ≤ env.rand 1 i)
    (hdet : ((setup env size).a.toMatrix size size).det ≠ 0) :
    (Pivoted.myDgesv size size (setup env size).a (setup env size).b).1 = 0 := by
  obtain ⟨A, hA, hrange⟩ := setup_integer (by omega : size < 65536) hrand
  have hout := Pivoted.myDgesv_outcome hsize hsize (setup env size).a (setup env size).b
  refine hout.code.resolve_right fun hfail => ?_
  obtain ⟨k, hk, hlarge⟩ := hout.exists_minor_large hA hdet hfail
  rw [hA] at hlarge
  exact absurd (Pivoted.abs_pivotMinor_le hrange (by omega : k ≤ 4)) (not_le.mpr hlarge)

/-- **The program accepts its solvers.**  In exact arithmetic, for every size up to 46340, and if
    LAPACK solves what can be solved: the call of the solver that `main` is linked with, either
    of the two, is defined, and `main` prints `Result is ok!` whenever it returns `0`; and up to
    order `5`, linked with `src/dgesv.c`, whenever the matrix it has drawn is nonsingular. -/
theorem main_accepts {size : ℕ} (hsize : 1 ≤ size) (hle : size ≤ 46340) (env : Env ℚ)
    (href : SolvesNonsingular size env.lapackeDgesv) {arg : String} (harg : atoi arg = size)
    (prog : String) (rest : List String) :
    (Linked Checked.myDgesv env.myDgesv →
      ∃ o, Checked.myDgesv size size (setup env size).a (setup env size).b = some o ∧
        (o.1 = 0 → "Result is ok!\n" ∈ (main env (prog :: arg :: rest)).1.map Message.text) ∧
        (size ≤ 5 → (∀ i, 0 ≤ env.rand 1 i) → ((setup env size).a.toMatrix size size).det ≠ 0 →
          "Result is ok!\n" ∈ (main env (prog :: arg :: rest)).1.map Message.text)) ∧
    (Linked Checked.Unpivoted.myDgesv env.myDgesv →
      ∃ o, Checked.Unpivoted.myDgesv size size (setup env size).a (setup env size).b = some o ∧
        (o.1 = 0 →
          "Result is ok!\n" ∈ (main env (prog :: arg :: rest)).1.map Message.text)) := by
  have hcells := square_le_of_le hle
  have hlt : size < 65536 := by omega
  constructor
  · intro hlinked
    have hcall := setup_defined env hcells
    have hok : (Pivoted.myDgesv size size (setup env size).a (setup env size).b).1 = 0 →
        "Result is ok!\n" ∈ (main env (prog :: arg :: rest)).1.map Message.text := by
      intro h0
      obtain ⟨hdet, hsol⟩ := (Pivoted.myDgesv_outcome hsize hsize _ _).solution h0
      refine main_ok_of_solution hlt href hdet ?_ harg prog rest
      rw [hlinked _ _ _ _ _ hcall]
      exact hsol
    exact ⟨_, hcall, hok, fun hsmall hrand hdet => hok (setup_accepted hsize hsmall hrand hdet)⟩
  · intro hlinked
    have hcall := setup_defined_unpivoted env hcells
    refine ⟨_, hcall, fun h0 => ?_⟩
    obtain ⟨hdet, hsol⟩ := (Unpivoted.myDgesv_outcome hsize size _ _).solution hsize h0
    refine main_ok_of_solution hlt href hdet ?_ harg prog rest
    rw [hlinked _ _ _ _ _ hcall]
    exact hsol

/-- Cramer's rule for two unknowns, in the place of LAPACK. -/
def cramerTwo (_ _ : ℤ) (a b : Mem ℚ) : Mem ℚ × Mem ℚ :=
  (a, { b with get := fun c =>
    if c < 2 then (a 3 * b c - a 1 * b (c + 2)) / (a 0 * a 3 - a 1 * a 2)
    else (a 0 * b c - a 2 * b (c - 2)) / (a 0 * a 3 - a 1 * a 2) })

theorem solvesNonsingular_cramerTwo : SolvesNonsingular 2 cramerTwo := by
  intro a b hdet
  have hne : a 0 * a 3 - a 1 * a 2 ≠ 0 := by
    rw [Matrix.det_fin_two] at hdet
    exact hdet
  have hfirst : ∀ y z : ℚ, a 0 * ((a 3 * y - a 1 * z) / (a 0 * a 3 - a 1 * a 2))
      + a 1 * ((a 0 * z - a 2 * y) / (a 0 * a 3 - a 1 * a 2)) = y := by
    intro y z
    rw [← mul_div_assoc, ← mul_div_assoc, ← add_div, div_eq_iff hne]
    ring
  have hsecond : ∀ y z : ℚ, a 2 * ((a 3 * y - a 1 * z) / (a 0 * a 3 - a 1 * a 2))
      + a 3 * ((a 0 * z - a 2 * y) / (a 0 * a 3 - a 1 * a 2)) = z := by
    intro y z
    rw [← mul_div_assoc, ← mul_div_assoc, ← add_div, div_eq_iff hne]
    ring
  ext i j
  rw [Matrix.mul_apply, Fin.sum_univ_two]
  fin_cases i <;> fin_cases j
  · exact hfirst _ _
  · exact hfirst _ _
  · exact hsecond _ _
  · exact hsecond _ _

/-- A run that draws `1, 2, 3, 4` and `2, 3, 4, 5`. -/
def envTwo (solver : ℤ → ℤ → Mem ℚ → Mem ℚ → Mem ℚ × Mem ℚ) : Env ℚ where
  rand seed i := seed + i
  fresh _ _ := 0
  clock _ := { sec := 0, nsec := 0 }
  lapackeDgesv := cramerTwo
  myDgesv := solver

/-- The run with `src/dgesv.c`, … -/
def pivotedTwo : Env ℚ := envTwo (linked Checked.myDgesv)

/-- … and with `src/task1/dgesv.c`. -/
def unpivotedTwo : Env ℚ := envTwo (linked Checked.Unpivoted.myDgesv)

/-- Both solvers pass at order two. -/
theorem main_accepts_two :
    "Result is ok!\n" ∈ (main pivotedTwo ["dgesv", "2"]).1.map Message.text ∧
      "Result is ok!\n" ∈ (main unpivotedTwo ["dgesv", "2"]).1.map Message.text := by
  have harg : atoi "2" = (2 : ℕ) := by decide
  have hpivoted := (main_accepts (by decide) (by decide) pivotedTwo
    solvesNonsingular_cramerTwo harg "dgesv" []).1 (linked_linked _)
  have hunpivoted := (main_accepts (by decide) (by decide) unpivotedTwo
    solvesNonsingular_cramerTwo harg "dgesv" []).2 (linked_linked _)
  constructor
  · obtain ⟨o, -, -, hsmall⟩ := hpivoted
    refine hsmall (by decide) ?_ ?_
    · intro i
      exact Int.add_nonneg (by decide) (Int.natCast_nonneg i)
    · rw [Matrix.det_fin_two]
      decide +kernel
  · obtain ⟨o, ho, hok⟩ := hunpivoted
    have hcode : (Checked.Unpivoted.myDgesv 2 2 (setup unpivotedTwo (2 : ℕ)).a
        (setup unpivotedTwo (2 : ℕ)).b).map Prod.fst = some 0 := by decide +kernel
    rw [ho, Option.map_some] at hcode
    exact hok (Option.some.inj hcode)

/-! ### The order of the threads -/

section Threads

variable {K : Type} [Neg K] [Add K] [Sub K] [Mul K] [Div K] [HarnessOps K]

/-- The program is linked with `src/dgesv.c` or `src/dgesv-optimal1.c`, whose threads may run
    in another order in every call.  As in `Linked`, this is about defined calls: on arrays that
    are large enough, at a safe size. -/
def ParallelLinked (solver : ℤ → ℤ → Mem K → Mem K → Mem K × Mem K) : Prop :=
  ∀ (n nrhs : ℕ) (a b : Mem K), Addressable n nrhs → n * n ≤ a.size → n * nrhs ≤ b.size →
    ∃ o, ParallelCall n nrhs a b o ∧ solver n nrhs a b = (o.2.a, o.2.b)

/-- Two such programs leave the same numbers. -/
theorem ParallelLinked.get_eq {f g : ℤ → ℤ → Mem K → Mem K → Mem K × Mem K}
    (hf : ParallelLinked f) (hg : ParallelLinked g) {n nrhs : ℕ} (hlim : Addressable n nrhs)
    {a b : Mem K} (ha : n * n ≤ a.size) (hb : n * nrhs ≤ b.size) :
    (f n nrhs a b).2.get = (g n nrhs a b).2.get := by
  obtain ⟨o, ho, hfo⟩ := hf n nrhs a b hlim ha hb
  obtain ⟨o', ho', hgo⟩ := hg n nrhs a b hlim ha hb
  rw [hfo, hgo]
  exact ho.refines.2.2.trans ho'.refines.2.2.symm

omit [Neg K] [Add K] [Div K] in
/-- The verdict depends on the numbers alone. -/
theorem checkResult_congr (bref : Mem K) {b b' : Mem K} (h : b.get = b'.get) (size nrhs : ℕ) :
    checkResult bref b size nrhs = 1 ↔ checkResult bref b' size nrhs = 1 := by
  rw [checkResult_eq_one_iff, checkResult_eq_one_iff, h]

/-- **The program does not depend on the schedule.**  In any arithmetic, and whether it is called
    without an argument or with a size from 1 to 46340: everything that `main` prints and its
    exit status are the same however OpenMP orders the threads of `my_dgesv`, the times being
    those of the clock. -/
theorem main_schedule {f g : ℤ → ℤ → Mem K → Mem K → Mem K × Mem K} (hf : ParallelLinked f)
    (hg : ParallelLinked g) (env : Env K) {argv : List String}
    (hargv : ∀ arg, argv[1]? = some arg → 1 ≤ atoi arg ∧ atoi arg ≤ 46340) :
    main { env with myDgesv := f } argv = main { env with myDgesv := g } argv := by
  cases argv with
  | nil => rfl
  | cons prog rest =>
    cases rest with
    | nil => rfl
    | cons arg rest =>
      obtain ⟨hpos, hle⟩ := hargv arg rfl
      obtain ⟨size, hsize⟩ := Int.eq_ofNat_of_zero_le (by omega : 0 ≤ atoi arg)
      have hcells := square_le_of_le (by omega : size ≤ 46340)
      have hsame := checkResult_congr
        (env.lapackeDgesv size size (setup env size).aref (setup env size).bref).2
        (hf.get_eq hg ⟨hcells, hcells⟩ (setup_fits env hcells).1 (setup_fits env hcells).2)
        (toUnsigned size) (toUnsigned size)
      rw [← hsize] at hsame
      exact congrArg (fun m => ([.lapackeTime (diffMilli (env.clock 0) (env.clock 1)),
        .solverTime (diffMilli (env.clock 2) (env.clock 3)), m], (0 : ℤ)))
        (if_congr hsame rfl rfl : (if _ then Message.ok else Message.wrong) = _)

end Threads

/-- Two columns, the second of which overtakes the first. -/
def overtakingRun (s : State ℚ) : Option (Interleave.Config (Fin 2) (ColState ℚ) (State ℚ)) :=
  Interleave.exec (colStep 2 2) [0, 1, 1, 0, 1, 1, 1, 1, 0, 0, 1, 0, 0, 0] (fork 2 2 s)

/-- They both come to their end. -/
theorem overtakingRun_eq_some (s : State ℚ) :
    ∃ c, overtakingRun s = some c ∧ ∀ j, c.loc j = .done :=
  ⟨_, rfl, Fin.forall_fin_two.mpr ⟨rfl, rfl⟩⟩

/-- A solver that orders the threads in this way in calls of order two. -/
def overtaking (n nrhs : ℤ) (a b : Mem ℚ) : Mem ℚ × Mem ℚ :=
  if n = 2 ∧ nrhs = 2 then
    match Pivoted.eliminate 2 2 (.init a b) with
    | .next s => (overtakingRun s).elim (a, b) fun c => (c.mem.a, c.mem.b)
    | .ret _ s => (s.a, s.b)
  else linked Checked.myDgesv n nrhs a b

theorem parallelLinked_linked : ParallelLinked (linked (Checked.myDgesv (K := ℚ))) := by
  intro n nrhs a b hlim ha hb
  have hcall := linked_linked _ n nrhs a b _ (Checked.myDgesv_eq_some hlim ha hb)
  exact ⟨_, parallelCall_myDgesv n nrhs a b, hcall⟩

theorem parallelLinked_overtaking : ParallelLinked overtaking := by
  intro n nrhs a b hlim ha hb
  unfold overtaking
  by_cases hsize : (n : ℤ) = 2 ∧ (nrhs : ℤ) = 2
  · obtain rfl : n = 2 := by omega
    obtain rfl : nrhs = 2 := by omega
    rw [if_pos hsize]
    cases h : Pivoted.eliminate 2 2 (.init a b) with
    | next s =>
      obtain ⟨c, hexec, hdone⟩ := overtakingRun_eq_some s
      simp only [hexec, Option.elim_some]
      exact ⟨_, .joined s c h (Interleave.Run.of_exec hexec) (complete_iff.mpr hdone), rfl⟩
    | ret r s => exact ⟨_, .early r s h, rfl⟩
  · rw [if_neg hsize]
    exact parallelLinked_linked n nrhs a b hlim ha hb

/-- The serial order and the other one. -/
theorem main_schedule_two :
    main (envTwo overtaking) ["dgesv", "2"] = main pivotedTwo ["dgesv", "2"] := by
  refine main_schedule parallelLinked_overtaking parallelLinked_linked (envTwo overtaking) ?_
  rintro arg ⟨⟩
  decide

/-! ### What a good verdict means -/

theorem abs_sub_le_of_isNearlyEqual {x y : ℚ} (h : isNearlyEqual x y = true) :
    |y - x| ≤ 1 / 10 ^ 5 * |x| := by
  have hle : |x - y| ≤ 1 / 10 ^ 5 * |x| := of_decide_eq_true h
  rwa [abs_sub_comm] at hle

/-- Entries that are nearly those of a solution leave a small residual. -/
theorem abs_residual_le {n m : ℕ} {A : Matrix (Fin n) (Fin n) ℚ} {X Y B : Matrix (Fin n) (Fin m) ℚ}
    (hX : A * X = B) {j : Fin m} (hY : ∀ k, |Y k j - X k j| ≤ 1 / 10 ^ 5 * |X k j|) (i : Fin n) :
    |(A * Y - B) i j| ≤ 1 / 10 ^ 5 * ∑ k, |A i k| * |X k j| := by
  calc |(A * Y - B) i j|
      = |∑ k, A i k * (Y k j - X k j)| := by
        rw [← hX, ← Matrix.mul_sub, Matrix.mul_apply]
        rfl
    _ ≤ ∑ k, |A i k| * (1 / 10 ^ 5 * |X k j|) := by
        refine (Finset.abs_sum_le_sum_abs _ _).trans (Finset.sum_le_sum fun k _ => ?_)
        rw [abs_mul]
        exact mul_le_mul_of_nonneg_left (hY k) (abs_nonneg _)
    _ = 1 / 10 ^ 5 * ∑ k, |A i k| * |X k j| := by
        rw [Finset.mul_sum]
        exact Finset.sum_congr rfl fun k _ => mul_left_comm _ _ _

/-- **What a good verdict means.**  In exact arithmetic, for every size whose square is an
    `unsigned int` and whatever solver the program is linked with: if `main` prints `Result is
    ok!` on a nonsingular matrix, and LAPACK solves what can be solved, then what the solver has
    left in `b` solves the system up to `10⁻⁵` of the terms of each equation. -/
theorem main_sound {size : ℕ} (hlt : size < 65536) (env : Env ℚ)
    (href : SolvesNonsingular size env.lapackeDgesv)
    (hdet : ((setup env size).a.toMatrix size size).det ≠ 0) {arg : String}
    (harg : atoi arg = size) (prog : String) (rest : List String)
    (hok : "Result is ok!\n" ∈ (main env (prog :: arg :: rest)).1.map Message.text)
    (i j : Fin size) :
    |((setup env size).a.toMatrix size size * (solveBoth env size).b.toMatrix size size
        - (setup env size).b.toMatrix size size) i j|
      ≤ 1 / 10 ^ 5 * ∑ k, |(setup env size).a.toMatrix size size i k|
          * |(solveBoth env size).bref.toMatrix size size k j| := by
  obtain ⟨haref, hbref⟩ := setup_copies hlt env
  have hlapack := href (setup env size).aref (setup env size).bref (by rwa [haref])
  rw [haref, hbref] at hlapack
  have hnear := (checksEveryCell_of_lt hlt).verdict env prog arg rest harg hok
  refine abs_residual_le hlapack (fun k => ?_) i
  exact abs_sub_le_of_isNearlyEqual (hnear _ (cell_lt k.isLt j.isLt))

/-- The residual of the first entry in a run with `src/task1/dgesv.c`. -/
theorem main_sound_two :
    |(Mem.toMatrix 2 2 (setup unpivotedTwo 2).a
        * Mem.toMatrix 2 2 (solveBoth unpivotedTwo 2).b
        - Mem.toMatrix 2 2 (setup unpivotedTwo 2).b) 0 0|
      ≤ 1 / 10 ^ 5 * ∑ k, |Mem.toMatrix 2 2 (setup unpivotedTwo 2).a 0 k|
          * |Mem.toMatrix 2 2 (solveBoth unpivotedTwo 2).bref k 0| := by
  have harg : atoi "2" = (2 : ℕ) := by decide
  have hdet : (Mem.toMatrix 2 2 (setup unpivotedTwo (2 : ℕ)).a).det ≠ 0 := by
    rw [Matrix.det_fin_two]
    decide +kernel
  have hok : "Result is ok!\n" ∈ (main unpivotedTwo ["dgesv", "2"]).1.map Message.text :=
    (main_ok_iff _ "dgesv" "2" []).mpr (by decide +kernel)
  exact main_sound (by decide) _ solvesNonsingular_cramerTwo hdet harg "dgesv" [] hok 0 0

end Dgesv
