import Dgesv.Lib.CheckedLoop
import Dgesv.Model.Solver

namespace Dgesv

open Loop

/-!
# `my_dgesv` with its index arithmetic

Both solvers again, now with what C leaves undefined: every index expression is evaluated
as the text has it, in 32-bit `int`, and every access is checked against the block it goes
to.  A call that overflows, or that leaves a block, has the value `none`.  `Checked` has the
loops that both files share and those of `src/dgesv.c`, `Checked.Unpivoted` the others of
`src/task1/dgesv.c`.

Nothing else can go wrong in a call with `n` and `nrhs` in `int`: the loop variables run
between `-1` and `n` or `nrhs`, so `k + 1`, `n - 1`, `i++` and `i--` stay in range.  Which
cells the back substitution touches does not depend on the order of its columns.
-/

variable {K : Type}

/-! ### Indices and accesses -/

/-- The value `z` of a signed operation; `none` if it overflows. -/
def int (z : ℤ) : Option ℤ := if -2 ^ 31 ≤ z ∧ z < 2 ^ 31 then some z else none

/-- `i * w + j`, product first. -/
def index (i w j : ℤ) : Option ℤ := do
  let p ← int (i * w)
  int (p + j)

namespace Mem

/-- The load `m[c]`. -/
def load (m : Mem K) (c : ℤ) : Option K :=
  if 0 ≤ c ∧ c < m.size then some (m c.toNat) else none

/-- The store `m[c] = v`. -/
def store (m : Mem K) (c : ℤ) (v : K) : Option (Mem K) :=
  if 0 ≤ c ∧ c < m.size then some (m.set c.toNat v) else none

/-- `m[i * w + j]`, as a value. -/
def read (m : Mem K) (i w j : ℕ) : Option K := do
  let c ← index i w j
  m.load c

/-- `m[i * w + j] = v`. -/
def write (m : Mem K) (i w j : ℕ) (v : K) : Option (Mem K) := do
  let c ← index i w j
  m.store c v

end Mem

namespace Checked

variable [Neg K] [Add K] [Sub K] [Mul K] [Div K] [FloatOps K]

/-! ### The elimination -/

/-- The pivot search. -/
def searchPivot (n k : ℕ) (a : Mem K) : Option (ℕ × K) := do
  let d ← a.read k n k
  forUpM (k + 1) n (fun i p => do
    let x ← a.read i n k
    if lt p.2 (fabs x) then do
      let y ← a.read i n k
      return (i, fabs y)
    else return p) (k, fabs d)

/-- Exchange rows `k` and `maxIndex` cell by cell. -/
def swapRows (w k maxIndex : ℕ) (m : Mem K) : Option (Mem K) :=
  forUpM 0 w (fun j m => do
    let tmp ← m.read k w j
    let x ← m.read maxIndex w j
    let m ← m.write k w j x
    m.write maxIndex w j tmp) m

/-- Search and exchange. -/
def pivot (n nrhs k : ℕ) (s : State K) : Option (State K) := do
  let p ← searchPivot n k s.a
  if p.1 ≠ k then do
    let a ← swapRows n k p.1 s.a
    let b ← swapRows nrhs k p.1 s.b
    return { s with a := a, b := b, trace := .swap k p.1 :: s.trace }
  else return s

/-- `for (j = lo; j < hi; j++) m[i * w + j] += t * m[k * w + j];` -/
def addRow (w k i lo hi : ℕ) (t : K) (m : Mem K) : Option (Mem K) :=
  forUpM lo hi (fun j m => do
    let x ← m.read i w j
    let y ← m.read k w j
    m.write i w j (x + t * y)) m

/-- Eliminate column `k` of row `i`. -/
def eliminateRow (n nrhs k i : ℕ) (s : State K) : Option (State K) := do
  let x ← s.a.read i n k
  let d ← s.a.read k n k
  let a ← addRow n k i k n (-x / d) s.a
  let b ← addRow nrhs k i 0 nrhs (-x / d) s.b
  return { s with a := a, b := b, trace := .div d :: s.trace }

/-- Eliminate column `k` below row `k`. -/
def eliminateRows (n nrhs k : ℕ) (s : State K) : Option (State K) :=
  forUpM (k + 1) n (eliminateRow n nrhs k) s

/-- Iteration `k` of the elimination loop. -/
def eliminateColumn (n nrhs k : ℕ) (s : State K) : Option (Flow ℤ (State K)) := do
  let s ← pivot n nrhs k s
  let d ← s.a.read k n k
  if lt (fabs d) tol then return .ret (-1) s
  else do
    let s ← eliminateRows n nrhs k s
    return .next s

/-- `for (k = 0; k < n - 1; k++)`. -/
def eliminate (n nrhs : ℕ) (s : State K) : Option (Flow ℤ (State K)) :=
  forUpRetM (eliminateColumn n nrhs) (n - 1) s

/-! ### The back substitution -/

/-- `for (k = i + 1; k < n; k++) t -= a[i * n + k] * b[k * nrhs + j];` -/
def accumulate (n nrhs i j : ℕ) (s : State K) (t : K) : Option K :=
  forUpM (i + 1) n (fun k t => do
    let x ← s.a.read i n k
    let y ← s.b.read k nrhs j
    return t - x * y) t

/-- Solve row `i` for column `j`. -/
def solveCell (n nrhs j i : ℕ) (s : State K) : Option (State K) := do
  let t ← s.b.read i nrhs j
  let t ← accumulate n nrhs i j s t
  let d ← s.a.read i n i
  let errorFlag := if lt (fabs d) tol then 1 else s.errorFlag
  let d ← s.a.read i n i
  let b ← s.b.write i nrhs j (t / d)
  return { s with
    b := b
    errorFlag := errorFlag
    trace := .store (i * nrhs + j) :: .div d :: s.trace }

/-- `for (i = n - 1; i >= 0; i--)`: solve for column `j`. -/
def solveColumn (n nrhs j : ℕ) (s : State K) : Option (State K) :=
  forDownM (solveCell n nrhs j) n s

/-- `for (j = 0; j < nrhs; j++)`. -/
def backSubstitute (n nrhs : ℕ) (s : State K) : Option (State K) :=
  forUpM 0 nrhs (solveColumn n nrhs) s

/-- `int my_dgesv(int n, int nrhs, double *a, double *b)` of `src/dgesv.c`, where defined. -/
def myDgesv (n nrhs : ℕ) (a b : Mem K) : Option (ℤ × State K) := do
  let x ← eliminate n nrhs (.init a b)
  match x with
  | .ret r s => return (r, s)
  | .next s => do
    let s ← backSubstitute n nrhs s
    return (Pivoted.exitCode s, s)

/-! ### `src/task1/dgesv.c` -/

namespace Unpivoted

/-- Iteration `k` of the elimination loop. -/
def eliminateColumn (n nrhs k : ℕ) (s : State K) : Option (Flow ℤ (State K)) := do
  let d ← s.a.read k n k
  if lt (fabs d) tol then return .ret (-1) s
  else do
    let s ← eliminateRows n nrhs k s
    return .next s

/-- `for (k = 0; k < n - 1; k++)`. -/
def eliminate (n nrhs : ℕ) (s : State K) : Option (Flow ℤ (State K)) :=
  forUpRetM (eliminateColumn n nrhs) (n - 1) s

/-- Solve row `i` for column `j`, or return. -/
def solveCell (n nrhs j i : ℕ) (s : State K) : Option (Flow ℤ (State K)) := do
  let t ← s.b.read i nrhs j
  let t ← accumulate n nrhs i j s t
  let d ← s.a.read i n i
  if lt (fabs d) tol then return .ret (-1) s
  else do
    let d ← s.a.read i n i
    let b ← s.b.write i nrhs j (t / d)
    return .next { s with
      b := b
      trace := .store (i * nrhs + j) :: .div d :: s.trace }

/-- `for (i = n - 1; i >= 0; i--)`: solve for column `j`. -/
def solveColumn (n nrhs j : ℕ) (s : State K) : Option (Flow ℤ (State K)) :=
  forDownRetM (solveCell n nrhs j) n s

/-- `for (j = 0; j < nrhs; j++)`. -/
def backSubstitute (n nrhs : ℕ) (s : State K) : Option (Flow ℤ (State K)) :=
  forUpRetM (solveColumn n nrhs) nrhs s

/-- `int my_dgesv(int n, int nrhs, double *a, double *b)` of `src/task1/dgesv.c`, where
    defined. -/
def myDgesv (n nrhs : ℕ) (a b : Mem K) : Option (ℤ × State K) := do
  let x ← eliminate n nrhs (.init a b)
  let y ← x.bindM (backSubstitute n nrhs)
  match y with
  | .ret r s => return (r, s)
  | .next s => return (0, s)

end Unpivoted

end Checked

end Dgesv
