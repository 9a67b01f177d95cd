import Dgesv.NoPivoting

namespace Dgesv

open Loop Matrix Equiv

/-!
# The entries in the course of the elimination

What the elimination has made of the two arrays when it reaches the head of an iteration is
determined by the given system, without reference to the steps: every entry, of `a` and of `b`,
in a finished row or not, is the ratio of two minors of the given system.

* `Pivoted.eliminateTo_minors` — `src/dgesv.c`, with the rows in the order of partial pivoting;
* `Unpivoted.eliminateTo_bordered` — `src/task1/dgesv.c`, with the rows as they stand.
-/

variable {n nrhs : ℕ} {a b : Mem ℚ} {s : State ℚ}

namespace Pivoted

/-- **Every entry is a ratio of minors.**  At the head of iteration `k`, the entry of `a` in row
    `i` and column `j` is the leading minor of order `min i k`, bordered by row `i` and column
    `j` of the given matrix, over the leading minor itself; the entry of `b` is the same with
    the column of the given right-hand sides.  The rows are those of partial pivoting. -/
theorem eliminateTo_minors {k : ℕ} (hk : k ≤ n)
    (h : eliminateTo n nrhs k (.init a b) = .next s) (i : Fin n) :
    lead (a.toMatrix n n) (pivotOrder (a.toMatrix n n) k) (min i.val k) ≠ 0 ∧
      (∀ j, s.A n i j
        = bordered (a.toMatrix n n) (pivotOrder (a.toMatrix n n) k) (min i.val k)
            (fun r => a.toMatrix n n r j) i
          / lead (a.toMatrix n n) (pivotOrder (a.toMatrix n n) k) (min i.val k)) ∧
      ∀ j, s.B n nrhs i j
        = bordered (a.toMatrix n n) (pivotOrder (a.toMatrix n n) k) (min i.val k)
            (fun r => b.toMatrix n nrhs r j) i
          / lead (a.toMatrix n n) (pivotOrder (a.toMatrix n n) k) (min i.val k) := by
  obtain ⟨L, inv⟩ := headInv_of_eliminateTo hk h
  exact inv.lu.entries (fun l hl => abs_pos.mp (tol_pos.trans_le (inv.pivots l hl))) i

/-- The last entry of the matrix of `src/test.c` after two steps. -/
theorem eliminateTo_minors_test :
    ∃ s, eliminateTo 3 3 2 (.init testA testB) = .next s ∧
      s.A 3 2 2 = bordered (testA.toMatrix 3 3) (pivotOrder (testA.toMatrix 3 3) 2) 2
          (fun r => testA.toMatrix 3 3 r 2) 2
        / lead (testA.toMatrix 3 3) (pivotOrder (testA.toMatrix 3 3) 2) 2 := by
  obtain ⟨s, hs⟩ := Flow.isNext_iff.mp
    (by decide +kernel : (eliminateTo 3 3 2 (.init testA testB)).isNext = true)
  exact ⟨s, hs, (eliminateTo_minors (by decide) hs 2).2.1 2⟩

end Pivoted

namespace Unpivoted

/-- **The same without pivoting.** -/
theorem eliminateTo_bordered {k : ℕ} (hk : k ≤ n)
    (h : eliminateTo n nrhs k (.init a b) = .next s) (i : Fin n) :
    lead (a.toMatrix n n) 1 (min i.val k) ≠ 0 ∧
      (∀ j, s.A n i j
        = bordered (a.toMatrix n n) 1 (min i.val k) (fun r => a.toMatrix n n r j) i
          / lead (a.toMatrix n n) 1 (min i.val k)) ∧
      ∀ j, s.B n nrhs i j
        = bordered (a.toMatrix n n) 1 (min i.val k) (fun r => b.toMatrix n nrhs r j) i
          / lead (a.toMatrix n n) 1 (min i.val k) := by
  obtain ⟨L, inv⟩ := headInv_of_eliminateTo hk h
  exact inv.lu.entries (fun l hl => abs_pos.mp (tol_pos.trans_le (inv.pivots l hl))) i

/-- The same entry without the exchange. -/
theorem eliminateTo_bordered_test :
    ∃ s, eliminateTo 3 3 2 (.init Pivoted.testA Pivoted.testB) = .next s ∧
      s.A 3 2 2 = bordered (Pivoted.testA.toMatrix 3 3) 1 2
          (fun r => Pivoted.testA.toMatrix 3 3 r 2) 2
        / lead (Pivoted.testA.toMatrix 3 3) 1 2 := by
  obtain ⟨s, hs⟩ := Flow.isNext_iff.mp
    (by decide +kernel : (eliminateTo 3 3 2 (.init Pivoted.testA Pivoted.testB)).isNext = true)
  exact ⟨s, hs, (eliminateTo_bordered (by decide) hs 2).2.1 2⟩

end Unpivoted

end Dgesv
