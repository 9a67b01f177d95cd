import Mathlib.Algebra.Order.Group.Unbundled.Abs
import Mathlib.Data.Rat.Defs
import Mathlib.Algebra.Order.Ring.Rat
import Mathlib.Tactic.Positivity
import Dgesv.Lib.Loop
import Dgesv.Lib.RowMajor

namespace Dgesv

/-!
# Scalars and machine state of the solvers

The solvers are written over `double`.  The model is written once over an arbitrary scalar
type: Lean's own notation classes supply `-`, `+`, `*`, `/`, and `FloatOps` supplies what
else the C text uses.  No law is assumed of any of them, so a statement about an arbitrary
scalar type is also one about IEEE doubles; `ℚ` is the exact-arithmetic instance.

A call works on two caller-owned arrays `a` and `b`, kept here as blocks of cells.  The
state also carries a ghost `trace` of what the call did so far; no statement reads it.
-/

/-- The operations on `double` that have no notation class in Lean. -/
class FloatOps (K : Type*) where
  /-- `fabs` of `math.h`. -/
  fabs : K → K
  /-- The comparison `x < y`, as the C condition. -/
  lt : K → K → Bool
  /-- The literal `1e-10`. -/
  tol : K

export FloatOps (fabs lt tol)

/-- Exact rational arithmetic, with `1e-10` the rational `10⁻¹⁰`. -/
instance : FloatOps ℚ where
  fabs x := |x|
  lt x y := decide (x < y)
  tol := 1 / 10 ^ 10

/-- IEEE doubles. -/
instance : FloatOps Float where
  fabs := Float.abs
  lt x y := decide (x < y)
  tol := 1e-10

@[simp] theorem lt_rat (x y : ℚ) : lt x y = true ↔ x < y := decide_eq_true_iff

theorem tol_rat : (tol : ℚ) = 1 / 10 ^ 10 := rfl

theorem tol_pos : (0 : ℚ) < tol := by rw [tol_rat]; positivity

/-- What a call does besides plain stores, in the order it does it. -/
inductive Event (K : Type*) where
  /-- Iteration `k` of the elimination exchanged rows `k` and `maxIndex`. -/
  | swap (k maxIndex : ℕ)
  /-- A division by `divisor` was executed. -/
  | div (divisor : K)
  /-- Cell `cell` of `b` was overwritten with a solution value. -/
  | store (cell : ℕ)
  deriving DecidableEq

/-- The variables of `my_dgesv` that outlive one loop iteration. -/
structure State (K : Type*) where
  /-- The coefficient array, row-major with row length `n`. -/
  a : Mem K
  /-- The right-hand sides, row-major with row length `nrhs`. -/
  b : Mem K
  /-- `error_flag`; the unpivoted solver has no such variable and leaves it alone. -/
  errorFlag : ℤ
  /-- Ghost: the events so far, latest first. -/
  trace : List (Event K)

variable {K : Type*}

/-- The state on entry to `my_dgesv(n, nrhs, a, b)`. -/
def State.init (a b : Mem K) : State K := { a := a, b := b, errorFlag := 0, trace := [] }

/-- Is this event a row exchange? -/
def Event.isSwap : Event K → Bool
  | .swap _ _ => true
  | _ => false

/-- Number of iterations in which rows were exchanged. -/
def State.swaps (s : State K) : ℕ := s.trace.countP Event.isSwap

end Dgesv
