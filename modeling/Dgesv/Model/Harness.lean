import Dgesv.Model.Solver

namespace Dgesv

open Loop

/-!
# The test harness

`src/main.c`: it fills two matrices with pseudo-random numbers, copies them, solves the copies
with LAPACK and the originals with `my_dgesv`, and compares the results entry by entry.

The sizes are 32-bit integers, and where the text computes the product of two `unsigned int`s
the product is taken modulo `2³²`; where a `size_t` comes first it is taken modulo `2⁶⁴`.

`Env` holds what comes from outside the file: the C library, LAPACK, the clock, and the
`my_dgesv` the program is linked with, of which the repository has three.  `src/task1/main.c`
differs only in the allocator and in the arity of `check_result`.
-/

/-- The operations on `double` that only `main.c` uses. -/
class HarnessOps (K : Type*) extends FloatOps K where
  /-- The comparison `x <= y`, as the C condition. -/
  le : K → K → Bool
  /-- The literal `1e-5`. -/
  epsilon : K
  /-- Conversion of an `int`. -/
  ofInt : ℤ → K

export HarnessOps (le epsilon ofInt)

/-- Exact rational arithmetic. -/
instance : HarnessOps ℚ where
  le x y := decide (x ≤ y)
  epsilon := 1 / 10 ^ 5
  ofInt z := z

/-- IEEE doubles. -/
instance : HarnessOps Float where
  le x y := decide (x ≤ y)
  epsilon := 1e-5
  ofInt := Float.ofInt

/-- The product of two `unsigned int`s. -/
def mulUnsigned (x y : ℕ) : ℕ := x * y % 2 ^ 32

/-- Conversion of an `int` to `unsigned int`. -/
def toUnsigned (z : ℤ) : ℕ := (z % 2 ^ 32).toNat

/-- `struct timespec`. -/
structure Timespec where
  sec : ℤ
  nsec : ℤ

/-- `long diff_milli(struct timespec *start, struct timespec *end)` of `src/timer.c`. -/
def diffMilli (start stop : Timespec) : ℤ :=
  (stop.sec * 1000 + stop.nsec.tdiv 1000000) - (start.sec * 1000 + start.nsec.tdiv 1000000)

/-- What the harness calls. -/
structure Env (K : Type*) where
  /-- `rand seed i` is what the `i`-th call of `rand()` after `srand(seed)` returns. -/
  rand : ℕ → ℕ → ℤ
  /-- `fresh r` is what the `r`-th block handed out by `aligned_alloc` happens to hold. -/
  fresh : ℕ → ℕ → K
  /-- The `r`-th `timestamp`. -/
  clock : ℕ → Timespec
  /-- `LAPACKE_dgesv(LAPACK_ROW_MAJOR, n, nrhs, a, n, ipiv, b, n)`: what it leaves in `a` and
      `b`. -/
  lapackeDgesv : ℤ → ℤ → Mem K → Mem K → Mem K × Mem K
  /-- `my_dgesv(n, nrhs, a, b)`, likewise. -/
  myDgesv : ℤ → ℤ → Mem K → Mem K → Mem K × Mem K

/-- The `printf` calls. -/
inductive Message where
  | usage
  | lapackeTime (ms : ℤ)
  | solverTime (ms : ℤ)
  | ok
  | wrong
  deriving DecidableEq

/-- What they print. -/
def Message.text : Message → String
  | .usage => "You need to provide a matrix size (e.g. 1024 for use 1024x1024 matrices)\n"
  | .lapackeTime ms => "Time taken by Lapacke dgesv: " ++ toString ms ++ " ms\n"
  | .solverTime ms => "Time taken by my dgesv solver: " ++ toString ms ++ " ms\n"
  | .ok => "Result is ok!\n"
  | .wrong => "Result is wrong!\n"

/-! ### `atoi` -/

/-- `isspace`, in the C locale. -/
def isspace (c : Char) : Bool := c = ' ' || (9 ≤ c.toNat && c.toNat ≤ 13)

/-- The value of the leading decimal digits. -/
def digitsValue (l : List Char) : ℕ :=
  (l.takeWhile Char.isDigit).foldl (fun v c => 10 * v + (c.toNat - '0'.toNat)) 0

/-- `atoi` of the C library, where the value fits in an `int`.  C leaves the call undefined for
    any other argument, and what this gives for it stands for nothing. -/
def atoi (arg : String) : ℤ :=
  match arg.toList.dropWhile isspace with
  | '-' :: l => -digitsValue l
  | '+' :: l => digitsValue l
  | l => digitsValue l

section Functions

variable {K : Type*} [Sub K] [Mul K] [HarnessOps K]

/-! ### The functions of `main.c` -/

/-- `aligned_alloc(32, bytes)`, for `double`s, when it succeeds. -/
def alignedAlloc (bytes : ℕ) (fresh : ℕ → K) : Mem K := { size := bytes / 8, get := fresh }

/-- `sizeof(double) * size * size`, in `size_t`. -/
def matrixBytes (size : ℕ) : ℕ := 8 * size * size % 2 ^ 64

/-- `double *generate_matrix(unsigned int size, unsigned int seed)`. -/
def generateMatrix (rand : ℕ → ℕ → ℤ) (fresh : ℕ → K) (size seed : ℕ) : Mem K :=
  forUp 0 (mulUnsigned size size) (fun i m => m.set i (ofInt ((rand seed i).tmod 100)))
    (alignedAlloc (matrixBytes size) fresh)

/-- `memcpy(dst, src, bytes)`, for `double`s. -/
def memcpy (dst src : Mem K) (bytes : ℕ) : Mem K :=
  { dst with get := fun c => if (c + 1) * 8 ≤ bytes then src c else dst c }

/-- `double *duplicate_matrix(double *orig, unsigned int size)`.  The product of the two
    `unsigned int`s is taken before that with `sizeof(double)`. -/
def duplicateMatrix (fresh : ℕ → K) (orig : Mem K) (size : ℕ) : Mem K :=
  memcpy (alignedAlloc (matrixBytes size) fresh) orig (mulUnsigned size size * 8 % 2 ^ 64)

/-- `int is_nearly_equal(double x, double y)`. -/
def isNearlyEqual (x y : K) : Bool := le (fabs (x - y)) (epsilon * fabs x)

/-- The loop of `check_result`. -/
def compareCells (bref b : Mem K) (hi : ℕ) : Loop.Flow ℕ Unit :=
  forUpRet (fun i _ => if isNearlyEqual (bref i) (b i) then .next () else .ret 0 ()) hi ()

/-- `unsigned int check_result(double *bref, double *b, unsigned int size, unsigned int nrhs)`. -/
def checkResult (bref b : Mem K) (size nrhs : ℕ) : ℕ :=
  match compareCells bref b (mulUnsigned size nrhs) with
  | .ret r _ => r
  | .next _ => 1

/-! ### `main` -/

/-- The arrays of `main`. -/
structure Arrays (K : Type*) where
  a : Mem K
  b : Mem K
  aref : Mem K
  bref : Mem K

/-- The arrays before the two solvers are called. -/
def setup (env : Env K) (size : ℤ) : Arrays K :=
  let a := generateMatrix env.rand (env.fresh 0) (toUnsigned size) 1
  let b := generateMatrix env.rand (env.fresh 1) (toUnsigned size) 2
  { a := a
    b := b
    aref := duplicateMatrix (env.fresh 2) a (toUnsigned size)
    bref := duplicateMatrix (env.fresh 3) b (toUnsigned size) }

/-- The arrays after both calls, with `n = nrhs = size`. -/
def solveBoth (env : Env K) (size : ℤ) : Arrays K :=
  let s := setup env size
  let ref := env.lapackeDgesv size size s.aref s.bref
  let res := env.myDgesv size size s.a s.b
  { a := res.1, b := res.2, aref := ref.1, bref := ref.2 }

/-- `int main(int argc, char *argv[])`: the messages and the exit status. -/
def main (env : Env K) (argv : List String) : List Message × ℤ :=
  match argv with
  | _ :: arg :: _ =>
    let size := atoi arg
    let s := solveBoth env size
    ([.lapackeTime (diffMilli (env.clock 0) (env.clock 1)),
      .solverTime (diffMilli (env.clock 2) (env.clock 3)),
      if checkResult s.bref s.b (toUnsigned size) (toUnsigned size) = 1 then .ok else .wrong], 0)
  | _ => ([.usage], 1)

end Functions

end Dgesv
