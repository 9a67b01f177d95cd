import Dgesv.Lib.Reorder
import Dgesv.Cells

namespace Dgesv

open Loop Matrix Equiv

/-!
# Search and exchange

What iteration `k` of `src/dgesv.c` does before its tolerance test, on the stored matrices and
over any scalar type: the search finds a row, and the exchange permutes the rows.  Only the
search compares; `searchPivot_firstMax` asks no more of the comparison than that it is the
order of some values `v x`, which is the case in exact and in rounded arithmetic.

* `Pivoted.pivotRow` — the row the search finds;
* `Pivoted.searchPivot_firstMax` — it is the first with a largest entry;
* `Pivoted.pivot_toMatrix_a`, `Pivoted.pivot_toMatrix_b` — the exchange, as a permutation;
* `Pivoted.exchangeOrder` — the order of the rows that a run has come to.
-/

namespace Pivoted

variable {K : Type*} [FloatOps K] {n nrhs : ℕ}

/-! ### One iteration -/

/-- The row found by the pivot search of iteration `k`. -/
def pivotRow (k : Fin n) (s : State K) : Fin n :=
  ⟨(searchPivot n k s.a).1, (searchPivot_bounds k.isLt s.a).2⟩

theorem pivotRow_eq_iff (k : Fin n) (s : State K) :
    pivotRow k s = k ↔ (searchPivot n k s.a).1 = k := by
  rw [Fin.ext_iff]
  rfl

theorem le_pivotRow (k : Fin n) (s : State K) : k ≤ pivotRow k s :=
  (searchPivot_bounds k.isLt s.a).1

/-- The exchange leaves the finished rows in place. -/
theorem fixesBelow_pivotRow (k : Fin n) (s : State K) : FixesBelow k (swap k (pivotRow k s)) := by
  intro i hi
  exact swap_apply_of_ne_of_ne (Fin.ne_of_lt hi)
    (Fin.ne_of_lt (lt_of_lt_of_le hi (le_pivotRow k s)))

/-- The search finds the first row with a largest entry, among those from row `k` down. -/
theorem searchPivot_firstMax {F : Type*} [LinearOrder F] {v : K → F}
    (hlt : ∀ x y : K, lt x y = true ↔ v x < v y) (k : Fin n) (s : State K) :
    IsFirstMax k (fun i => v (fabs (s.a (i * n + k)))) (pivotRow k s) := by
  -- At the head of iteration `i`, the rows `k ≤ r < i` have been compared.
  let I : ℕ → ℕ × K → Prop := fun i q => k ≤ q.1 ∧ q.2 = fabs (s.a (q.1 * n + k)) ∧
    (∀ r, k ≤ r → r < i → v (fabs (s.a (r * n + k))) ≤ v q.2) ∧
    ∀ r, k ≤ r → r < q.1 → v (fabs (s.a (r * n + k))) < v q.2
  have h : I n (searchPivot n k s.a) := by
    refine forUp_inv I k.isLt ⟨le_rfl, rfl, fun r h1 h2 => ?_, fun r h1 h2 => ?_⟩ ?_
    · obtain rfl : r = k := by omega
      exact le_rfl
    · exact absurd h2 (not_lt.mpr h1)
    rintro i q hi hi' ⟨hk, hq, hmax, hfirst⟩
    by_cases hlarger : lt q.2 (fabs (s.a (i * n + k))) = true
    · have hv := (hlt _ _).mp hlarger
      rw [if_pos hlarger]
      refine ⟨by show (k : ℕ) ≤ i; omega, rfl, fun r h1 h2 => ?_, fun r h1 h2 => ?_⟩
      · rcases Nat.lt_succ_iff_lt_or_eq.mp h2 with h2 | rfl
        · exact (hmax r h1 h2).trans hv.le
        · exact le_rfl
      · exact (hmax r h1 h2).trans_lt hv
    · rw [if_neg hlarger]
      refine ⟨hk, hq, fun r h1 h2 => ?_, hfirst⟩
      rcases Nat.lt_succ_iff_lt_or_eq.mp h2 with h2 | rfl
      · exact hmax r h1 h2
      · exact not_lt.mp (mt (hlt _ _).mpr hlarger)
  obtain ⟨hk, hq, hmax, hfirst⟩ := h
  refine ⟨hk, fun i hi => ?_, fun i hi him => ?_⟩
  · exact (hmax i hi i.isLt).trans_eq (congrArg v hq)
  · exact (hfirst i hi him).trans_eq (congrArg v hq)

omit [FloatOps K] in
/-- Exchanging two rows by number is exchanging them by index. -/
theorem swap_val (k m i : Fin n) :
    ((Equiv.swap k m i : Fin n) : ℕ) = Equiv.swap (k : ℕ) m i := by
  simp only [Equiv.swap_apply_def, Fin.ext_iff]
  split_ifs <;> rfl

theorem pivot_toMatrix_a (nrhs : ℕ) (k : Fin n) (s : State K) :
    (pivot n nrhs k s).a.toMatrix n n
      = (s.a.toMatrix n n).submatrix (swap k (pivotRow k s)) id := by
  ext i j
  rw [Mem.toMatrix_apply, pivot_a n nrhs k s i j.isLt, submatrix_apply, Mem.toMatrix_apply,
    swap_val]
  rfl

theorem pivot_toMatrix_b (nrhs : ℕ) (k : Fin n) (s : State K) :
    (pivot n nrhs k s).b.toMatrix n nrhs
      = (s.b.toMatrix n nrhs).submatrix (swap k (pivotRow k s)) id := by
  ext i j
  rw [Mem.toMatrix_apply, pivot_b n nrhs k s i j.isLt, submatrix_apply, Mem.toMatrix_apply,
    swap_val]
  rfl

/-- After the exchange, the tested entry is a largest of what is left of its column. -/
theorem pivot_max {F : Type*} [LinearOrder F] {v : K → F}
    (hlt : ∀ x y : K, lt x y = true ↔ v x < v y) (nrhs : ℕ) (k : Fin n) (s : State K) {i : Fin n}
    (hi : k ≤ i) :
    v (fabs ((pivot n nrhs k s).a (i * n + k)))
      ≤ v (fabs ((pivot n nrhs k s).a (k * n + k))) := by
  have hrow : k ≤ swap k (pivotRow k s) i := by
    rw [swap_apply_def]
    split_ifs
    · exact le_pivotRow k s
    · exact le_rfl
    · exact hi
  have hmax := (searchPivot_firstMax hlt k s).max _ hrow
  rw [pivot_a n nrhs k s i k.isLt, pivot_a n nrhs k s k k.isLt, swap_apply_left]
  rwa [swap_val] at hmax

/-! ### A run -/

section Run

variable [Neg K] [Add K] [Mul K] [Div K]

/-- The order of the rows after the exchanges of the first `k` iterations of a call on
    `(a, b)`: row `i` has become what was given as row `exchangeOrder n nrhs a b k i`. -/
def exchangeOrder (n nrhs : ℕ) (a b : Mem K) : ℕ → Perm (Fin n)
  | 0 => 1
  | k + 1 =>
    if hk : k < n then
      exchangeOrder n nrhs a b k
        * swap ⟨k, hk⟩ (pivotRow ⟨k, hk⟩ (eliminateTo n nrhs k (.init a b)).state)
    else exchangeOrder n nrhs a b k

theorem exchangeOrder_succ {a b : Mem K} (k : Fin n) {s : State K}
    (h : eliminateTo n nrhs k (.init a b) = .next s) :
    exchangeOrder n nrhs a b (k + 1) = exchangeOrder n nrhs a b k * swap k (pivotRow k s) := by
  rw [exchangeOrder, dif_pos k.isLt, h]
  rfl

end Run

end Pivoted

end Dgesv
