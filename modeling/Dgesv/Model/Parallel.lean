import Dgesv.Lib.Interleave
import Dgesv.Model.Solver

namespace Dgesv

open Interleave

/-!
# The parallel back substitution

`#pragma omp parallel for private(i, k) … shared(…, error_flag)` on the loop over `j`: every
column `j < nrhs` is one process with private `i`, `k` and `t`, and all columns share `a`,
`b` and `error_flag`.  OpenMP runs every iteration of the loop once; the `schedule` clauses
of `src/dgesv.c` and `src/dgesv-optimal1.c` only choose the thread, so the steps of
different columns may come in any order.

A step is one access to shared memory: the load of `b[i * nrhs + j]`, one update of `t`, the
tolerance test with its atomic write, the division with its store.
-/

variable {K : Type*}

/-- Where the body of the parallel loop stands for one column: which statement comes next,
    with the private variables that are live there. -/
inductive ColState (K : Type*) where
  /-- `double t = b[i * nrhs + j];` -/
  | load (i : ℕ)
  /-- `t -= a[i * n + k] * b[k * nrhs + j];` -/
  | update (i k : ℕ) (t : K)
  /-- `if (fabs(a[i * n + i]) < 1e-10) error_flag = 1;` -/
  | test (i : ℕ) (t : K)
  /-- `b[i * nrhs + j] = t / a[i * n + i];` -/
  | store (i : ℕ) (t : K)
  /-- The column is finished. -/
  | done
  deriving DecidableEq

namespace ColState

/-- The head of `for (i = n - 1; i >= 0; i--)` with the rows below `rows` still to do. -/
def rowLoop : ℕ → ColState K
  | 0 => .done
  | i + 1 => .load i

/-- The head of `for (k = i + 1; k < n; k++)`. -/
def sumLoop (n i k : ℕ) (t : K) : ColState K := if k < n then .update i k t else .test i t

end ColState

variable [Sub K] [Mul K] [Div K] [FloatOps K]

/-- The next step of column `j`. -/
def colStep (n nrhs : ℕ) (j : Fin nrhs) : ColState K → State K → Option (ColState K × State K)
  | .load i, s => some (.sumLoop n i (i + 1) (s.b (i * nrhs + j)), s)
  | .update i k t, s =>
    some (.sumLoop n i (k + 1) (t - s.a (i * n + k) * s.b (k * nrhs + j)), s)
  | .test i t, s =>
    some (.store i t,
      { s with errorFlag := if lt (fabs (s.a (i * n + i))) tol then 1 else s.errorFlag })
  | .store i t, s =>
    some (.rowLoop i,
      { s with
        b := s.b.set (i * nrhs + j) (t / s.a (i * n + i))
        trace := .store (i * nrhs + j) :: .div (s.a (i * n + i)) :: s.trace })
  | .done, _ => none

/-- The parallel loop is entered in state `s`. -/
def fork (n nrhs : ℕ) (s : State K) : Config (Fin nrhs) (ColState K) (State K) :=
  { loc := fun _ => .rowLoop n, mem := s }

variable [Neg K] [Add K]

/-- A call of `my_dgesv` of `src/dgesv.c` or `src/dgesv-optimal1.c` as OpenMP may run it: the
    elimination, and then any complete run of the parallel loop. -/
inductive ParallelCall (n nrhs : ℕ) (a b : Mem K) : ℤ × State K → Prop where
  | early (r : ℤ) (s : State K) (h : Pivoted.eliminate n nrhs (.init a b) = .ret r s) :
      ParallelCall n nrhs a b (r, s)
  | joined (s : State K) (c : Config (Fin nrhs) (ColState K) (State K))
      (h : Pivoted.eliminate n nrhs (.init a b) = .next s)
      (run : Run (colStep n nrhs) (fork n nrhs s) c) (complete : Complete (colStep n nrhs) c) :
      ParallelCall n nrhs a b (Pivoted.exitCode c.mem, c.mem)

end Dgesv
