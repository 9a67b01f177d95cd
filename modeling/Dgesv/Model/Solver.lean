import Dgesv.Model.State

namespace Dgesv

open Loop

/-!
# The two solvers

`my_dgesv` of `src/dgesv.c` (partial pivoting, OpenMP back substitution) and of
`src/task1/dgesv.c` (no pivoting), statement by statement.  `src/dgesv-optimal1.c` is
`src/dgesv.c` with another `schedule` clause on the same parallel loop, so both are the
definition `Pivoted.myDgesv`; its back substitution runs the columns in serial order, and
`Dgesv.Model.Parallel` has the interleaved loop.

The loops the two files share are defined once: the row update `a[i] += t * a[k]`, the
elimination of the rows below the pivot, and the accumulation of `t` in the back
substitution.
-/

variable {K : Type*} [Neg K] [Add K] [Sub K] [Mul K] [Div K] [FloatOps K]

/-! ### Loops shared by both files -/

/-- `for (j = lo; j < hi; j++) m[i * w + j] += t * m[k * w + j];` -/
def addRow (w k i lo hi : ℕ) (t : K) (m : Mem K) : Mem K :=
  forUp lo hi (fun j m => m.set (i * w + j) (m (i * w + j) + t * m (k * w + j))) m

/-- The body of the row loop: eliminate column `k` of row `i`. -/
def eliminateRow (n nrhs k i : ℕ) (s : State K) : State K :=
  let t := -s.a (i * n + k) / s.a (k * n + k)
  { s with
    a := addRow n k i k n t s.a
    b := addRow nrhs k i 0 nrhs t s.b
    trace := .div (s.a (k * n + k)) :: s.trace }

/-- `for (i = k + 1; i < n; i++)`: eliminate column `k` below row `k`. -/
def eliminateRows (n nrhs k : ℕ) (s : State K) : State K :=
  forUp (k + 1) n (eliminateRow n nrhs k) s

/-- `for (k = i + 1; k < hi; k++) t -= a[i * n + k] * b[k * nrhs + j];` with `x k` for
    `b[k * nrhs + j]`. -/
def accumulate (n i hi : ℕ) (a : Mem K) (x : ℕ → K) (t : K) : K :=
  forUp (i + 1) hi (fun k t => t - a (i * n + k) * x k) t

/-! ### `src/dgesv.c` -/

namespace Pivoted

/-- The pivot search: the first row `i ≥ k` of largest `|a[i * n + k]|`, with that value
    (`maxIndex` and `maxVal`). -/
def searchPivot (n k : ℕ) (a : Mem K) : ℕ × K :=
  forUp (k + 1) n (fun i p =>
    if lt p.2 (fabs (a (i * n + k))) then (i, fabs (a (i * n + k))) else p)
    (k, fabs (a (k * n + k)))

/-- `for (j = 0; j < w; j++)`: exchange rows `k` and `maxIndex` cell by cell. -/
def swapRows (w k maxIndex : ℕ) (m : Mem K) : Mem K :=
  forUp 0 w (fun j m =>
    let tmp := m (k * w + j)
    (m.set (k * w + j) (m (maxIndex * w + j))).set (maxIndex * w + j) tmp) m

/-- Search and exchange: what iteration `k` does before its tolerance test. -/
def pivot (n nrhs k : ℕ) (s : State K) : State K :=
  let maxIndex := (searchPivot n k s.a).1
  if maxIndex ≠ k then
    { s with
      a := swapRows n k maxIndex s.a
      b := swapRows nrhs k maxIndex s.b
      trace := .swap k maxIndex :: s.trace }
  else s

/-- Iteration `k` of the elimination loop. -/
def eliminateColumn (n nrhs k : ℕ) (s : State K) : Flow ℤ (State K) :=
  let s := pivot n nrhs k s
  if lt (fabs (s.a (k * n + k))) tol then .ret (-1) s
  else .next (eliminateRows n nrhs k s)

/-- The first `hi` iterations of the elimination loop.  Falling through in state `s` means
    that the head of iteration `hi` is reached, in state `s`. -/
def eliminateTo (n nrhs hi : ℕ) (s : State K) : Flow ℤ (State K) :=
  forUpRet (eliminateColumn n nrhs) hi s

/-- `for (k = 0; k < n - 1; k++)`. -/
def eliminate (n nrhs : ℕ) (s : State K) : Flow ℤ (State K) :=
  eliminateTo n nrhs (n - 1) s

/-- The body of the row loop of the back substitution: solve row `i` for column `j`.  The
    flag is raised before the division, which goes on all the same. -/
def solveCell (n nrhs j i : ℕ) (s : State K) : State K :=
  let t := accumulate n i n s.a (fun k => s.b (k * nrhs + j)) (s.b (i * nrhs + j))
  let d := s.a (i * n + i)
  { s with
    b := s.b.set (i * nrhs + j) (t / d)
    errorFlag := if lt (fabs d) tol then 1 else s.errorFlag
    trace := .store (i * nrhs + j) :: .div d :: s.trace }

/-- `for (i = n - 1; i >= 0; i--)`: solve for column `j`. -/
def solveColumn (n nrhs j : ℕ) (s : State K) : State K :=
  forDown (solveCell n nrhs j) n s

/-- The back substitution, its columns in serial order. -/
def backSubstitute (n nrhs : ℕ) (s : State K) : State K :=
  forUp 0 nrhs (solveColumn n nrhs) s

/-- `if (error_flag) return -1; return 0;` -/
def exitCode (s : State K) : ℤ := if s.errorFlag ≠ 0 then -1 else 0

/-- `int my_dgesv(int n, int nrhs, double *a, double *b)` of `src/dgesv.c`: the return
    code and the final state. -/
def myDgesv (n nrhs : ℕ) (a b : Mem K) : ℤ × State K :=
  match eliminate n nrhs (.init a b) with
  | .ret r s => (r, s)
  | .next s => (exitCode (backSubstitute n nrhs s), backSubstitute n nrhs s)

end Pivoted

/-! ### `src/task1/dgesv.c` -/

namespace Unpivoted

/-- Iteration `k` of the elimination loop. -/
def eliminateColumn (n nrhs k : ℕ) (s : State K) : Flow ℤ (State K) :=
  if lt (fabs (s.a (k * n + k))) tol then .ret (-1) s
  else .next (eliminateRows n nrhs k s)

/-- The first `hi` iterations of the elimination loop. -/
def eliminateTo (n nrhs hi : ℕ) (s : State K) : Flow ℤ (State K) :=
  forUpRet (eliminateColumn n nrhs) hi s

/-- `for (k = 0; k < n - 1; k++)`. -/
def eliminate (n nrhs : ℕ) (s : State K) : Flow ℤ (State K) :=
  eliminateTo n nrhs (n - 1) s

/-- The body of the row loop of the back substitution.  Here a small diagonal entry
    returns before the division. -/
def solveCell (n nrhs j i : ℕ) (s : State K) : Flow ℤ (State K) :=
  let t := accumulate n i n s.a (fun k => s.b (k * nrhs + j)) (s.b (i * nrhs + j))
  let d := s.a (i * n + i)
  if lt (fabs d) tol then .ret (-1) s
  else .next
    { s with
      b := s.b.set (i * nrhs + j) (t / d)
      trace := .store (i * nrhs + j) :: .div d :: s.trace }

/-- `for (i = n - 1; i >= 0; i--)`: solve for column `j`. -/
def solveColumn (n nrhs j : ℕ) (s : State K) : Flow ℤ (State K) :=
  forDownRet (solveCell n nrhs j) n s

/-- `for (j = 0; j < nrhs; j++)`. -/
def backSubstitute (n nrhs : ℕ) (s : State K) : Flow ℤ (State K) :=
  forUpRet (solveColumn n nrhs) nrhs s

/-- `int my_dgesv(int n, int nrhs, double *a, double *b)` of `src/task1/dgesv.c`. -/
def myDgesv (n nrhs : ℕ) (a b : Mem K) : ℤ × State K :=
  match (eliminate n nrhs (.init a b)).bind (backSubstitute n nrhs) with
  | .ret r s => (r, s)
  | .next s => (0, s)

end Unpivoted

end Dgesv
