import Dgesv.Lib.Loop
import Dgesv.Lib.RowMajor
import Dgesv.Lib.LU
import Dgesv.Lib.Minors
import Dgesv.Lib.Dominance
import Dgesv.Lib.Definite
import Dgesv.Lib.Band
import Dgesv.Lib.Reorder
import Dgesv.Lib.Interleave
import Dgesv.Lib.CheckedLoop
import Dgesv.Lib.Rounding
import Dgesv.Lib.RoundedLU
import Dgesv.Model.State
import Dgesv.Model.Solver
import Dgesv.Model.Parallel
import Dgesv.Model.Checked
import Dgesv.Model.Harness
import Dgesv.Cells
import Dgesv.Exchange
import Dgesv.Substitution
import Dgesv.Exact
import Dgesv.Pivoting
import Dgesv.Solution
import Dgesv.Failure
import Dgesv.Columns
import Dgesv.AnyArithmetic
import Dgesv.Locality
import Dgesv.NotANumber
import Dgesv.Schedule
import Dgesv.Threads
import Dgesv.NoPivoting
import Dgesv.Entries
import Dgesv.Agreement
import Dgesv.Integer
import Dgesv.Growth
import Dgesv.Rounded
import Dgesv.Dominant
import Dgesv.Definite
import Dgesv.Repeated
import Dgesv.Scaling
import Dgesv.Banded
import Dgesv.RowOrder
import Dgesv.Bounds
import Dgesv.Harness
import Dgesv.Program
