import Mathlib.Logic.Equiv.Basic
import Dgesv.Model.Solver

namespace Dgesv

open Loop

/-!
# What the loops do to the cells

One closed form for each loop of the solvers, over an arbitrary scalar type and without
any law of arithmetic: which cells a loop writes, and with what.  Entry `(r, j)` with
`j < w` ranges over all cells of a block of row length `w`, so each closed form is also
the frame condition of its loop.

* `addRow_cell`, `eliminateRows_a`, `eliminateRows_b` — the row updates;
* `swapRows_cell`, `pivot_a`, `pivot_b` — the row exchange;
* `searchPivot_bounds` — the pivot row is one of the rows still to be eliminated.

Every later proof about the elimination goes through these and never unfolds a loop.
-/

variable {K : Type*}

/-! ### The row update -/

section Rows

variable [Neg K] [Add K] [Mul K] [Div K]

omit [Neg K] [Div K] in
/-- `addRow` adds `t` times row `k` to row `i` in the columns `lo ≤ j < hi`, and writes
    nothing else. -/
theorem addRow_cell {w k i lo hi : ℕ} (hik : i ≠ k) (hhi : hi ≤ w) (t : K) (m : Mem K)
    (r : ℕ) {j : ℕ} (hj : j < w) :
    addRow w k i lo hi t m (r * w + j)
      = if r = i ∧ lo ≤ j ∧ j < hi then m (i * w + j) + t * m (k * w + j)
        else m (r * w + j) := by
  -- At the head of iteration `c`, the columns `lo ≤ j < c` of row `i` are done.
  let I : ℕ → Mem K → Prop := fun c m' => ∀ r j, j < w → m' (r * w + j)
    = if r = i ∧ lo ≤ j ∧ j < c then m (i * w + j) + t * m (k * w + j) else m (r * w + j)
  rcases Nat.lt_or_ge hi lo with hlt | hle
  · rw [addRow, forUp_of_le (Nat.le_of_lt hlt), if_neg (by omega)]
  refine forUp_inv I hle (fun r j hj => by rw [if_neg (by omega)]) ?_ r j hj
  intro c m' hc hc' ih r j hj
  have hcw : c < w := by omega
  show m'.set (i * w + c) (m' (i * w + c) + t * m' (k * w + c)) (r * w + j) = _
  rw [Mem.set_cell hcw hj, ih i c hcw, ih k c hcw, ih r j hj]
  rw [if_neg (by omega : ¬ (i = i ∧ lo ≤ c ∧ c < c)), if_neg (by omega : ¬ (k = i ∧ _ ∧ _))]
  by_cases h : r = i ∧ j = c
  · obtain ⟨rfl, rfl⟩ := h
    rw [if_pos ⟨rfl, rfl⟩, if_pos ⟨rfl, hc, Nat.lt_succ_self _⟩]
  · rw [if_neg h]
    refine if_congr ⟨fun h' => ⟨h'.1, h'.2.1, by omega⟩, fun h' => ⟨h'.1, h'.2.1, ?_⟩⟩ rfl rfl
    have : j ≠ c := fun hjc => h ⟨h'.1, hjc⟩
    omega

/-- What the elimination of column `k` leaves in `a`: row `k`, the rows above it and the
    columns before `k` are untouched. -/
theorem eliminateRows_a {n k : ℕ} (nrhs : ℕ) (hk : k < n) (s : State K) (r : ℕ) {j : ℕ}
    (hj : j < n) :
    (eliminateRows n nrhs k s).a (r * n + j)
      = if k < r ∧ r < n ∧ k ≤ j then
          s.a (r * n + j) + -s.a (r * n + k) / s.a (k * n + k) * s.a (k * n + j)
        else s.a (r * n + j) := by
  -- At the head of iteration `c`, the rows `k < r < c` are done.
  let I : ℕ → State K → Prop := fun c s' => ∀ r j, j < n → s'.a (r * n + j)
    = if k < r ∧ r < c ∧ k ≤ j then
        s.a (r * n + j) + -s.a (r * n + k) / s.a (k * n + k) * s.a (k * n + j)
      else s.a (r * n + j)
  refine forUp_inv I (by omega : k + 1 ≤ n) (fun r j _ => by rw [if_neg (by omega)]) ?_ r j hj
  intro c s' hc hc' ih r j hj
  -- Row `c` and row `k` are still as they were when iteration `c` reads them.
  have hrow : ∀ j < n, s'.a (c * n + j) = s.a (c * n + j) := fun j hj => by
    rw [ih c j hj, if_neg (by omega)]
  have hpiv : ∀ j < n, s'.a (k * n + j) = s.a (k * n + j) := fun j hj => by
    rw [ih k j hj, if_neg (by omega)]
  show addRow n k c k n (-s'.a (c * n + k) / s'.a (k * n + k)) s'.a (r * n + j) = _
  rw [addRow_cell (by omega) le_rfl _ _ r hj, hrow k hk, hpiv k hk, hrow j hj, hpiv j hj,
    ih r j hj]
  by_cases h : r = c ∧ k ≤ j
  · obtain ⟨rfl, hkj⟩ := h
    rw [if_pos ⟨rfl, hkj, hj⟩, if_pos ⟨hc, by omega, hkj⟩]
  · rw [if_neg (by rintro ⟨h1, h2, -⟩; exact h ⟨h1, h2⟩)]
    refine if_congr ⟨fun h' => ⟨h'.1, by omega, h'.2.2⟩, fun h' => ⟨h'.1, ?_, h'.2.2⟩⟩ rfl rfl
    have : r ≠ c := fun hrc => h ⟨hrc, h'.2.2⟩
    omega

/-- What the elimination of column `k` leaves in `b`: the same row operations, on whole
    rows. -/
theorem eliminateRows_b {n k nrhs : ℕ} (hk : k < n) (s : State K) (r : ℕ) {j : ℕ}
    (hj : j < nrhs) :
    (eliminateRows n nrhs k s).b (r * nrhs + j)
      = if k < r ∧ r < n then
          s.b (r * nrhs + j) + -s.a (r * n + k) / s.a (k * n + k) * s.b (k * nrhs + j)
        else s.b (r * nrhs + j) := by
  -- The multipliers come from `a`, so the invariant carries what is left of column `k`.
  let I : ℕ → State K → Prop := fun c s' =>
    (∀ r, c ≤ r ∨ r = k → s'.a (r * n + k) = s.a (r * n + k)) ∧
    ∀ r j, j < nrhs → s'.b (r * nrhs + j)
      = if k < r ∧ r < c then
          s.b (r * nrhs + j) + -s.a (r * n + k) / s.a (k * n + k) * s.b (k * nrhs + j)
        else s.b (r * nrhs + j)
  refine (forUp_inv I (by omega : k + 1 ≤ n) ⟨fun _ _ => rfl, fun r j _ => ?_⟩ ?_).2 r j hj
  · rw [if_neg (by omega)]
  rintro c s' hc hc' ⟨iha, ihb⟩
  refine ⟨fun r hr => ?_, fun r j hj => ?_⟩
  · show addRow n k c k n (-s'.a (c * n + k) / s'.a (k * n + k)) s'.a (r * n + k) = _
    rw [addRow_cell (by omega) le_rfl _ _ r hk, if_neg (by omega)]
    exact iha r (by omega)
  · show addRow nrhs k c 0 nrhs (-s'.a (c * n + k) / s'.a (k * n + k)) s'.b (r * nrhs + j) = _
    rw [addRow_cell (by omega) le_rfl _ _ r hj, iha c (Or.inl le_rfl), iha k (Or.inr rfl),
      ihb c j hj, ihb k j hj, ihb r j hj, if_neg (by omega : ¬ (k < c ∧ c < c)),
      if_neg (by omega : ¬ (k < k ∧ _))]
    by_cases h : r = c
    · subst h
      rw [if_pos ⟨rfl, Nat.zero_le j, hj⟩, if_pos ⟨hc, Nat.lt_succ_self r⟩]
    · rw [if_neg (by rintro ⟨h1, -⟩; exact h h1)]
      exact if_congr (by omega) rfl rfl

/-- The elimination of a column leaves `error_flag` alone. -/
theorem eliminateRows_errorFlag (n nrhs k : ℕ) (s : State K) :
    (eliminateRows n nrhs k s).errorFlag = s.errorFlag :=
  forUp_preserves (fun s' : State K => s'.errorFlag = s.errorFlag) rfl fun _ _ _ _ h => h

/-- The elimination of a column records divisions by its pivot, and nothing else. -/
theorem eliminateRows_trace {n k : ℕ} (nrhs : ℕ) (hk : k < n) (s : State K) :
    ∃ c, (eliminateRows n nrhs k s).trace
      = List.replicate c (.div (s.a (k * n + k))) ++ s.trace := by
  -- The pivot itself is never written, so every iteration divides by the same value.
  let I : State K → Prop := fun s' => s'.a (k * n + k) = s.a (k * n + k) ∧
    ∃ c, s'.trace = List.replicate c (.div (s.a (k * n + k))) ++ s.trace
  refine (forUp_preserves I ⟨rfl, 0, rfl⟩ ?_).2
  rintro i s' hi - ⟨hpiv, c, hc⟩
  refine ⟨?_, c + 1, ?_⟩
  · show addRow n k i k n (-s'.a (i * n + k) / s'.a (k * n + k)) s'.a (k * n + k) = _
    rw [addRow_cell (by omega) le_rfl _ _ k hk, if_neg (by omega), hpiv]
  · show Event.div (s'.a (k * n + k)) :: s'.trace = _
    rw [hpiv, hc, List.replicate_succ, List.cons_append]

/-- The same, event by event. -/
theorem eliminateRows_mem_trace {n nrhs k : ℕ} (hk : k < n) {s : State K} {e : Event K}
    (he : e ∈ (eliminateRows n nrhs k s).trace) : e = .div (s.a (k * n + k)) ∨ e ∈ s.trace := by
  obtain ⟨c, htrace⟩ := eliminateRows_trace nrhs hk s
  rw [htrace, List.mem_append, List.mem_replicate] at he
  exact he.imp_left And.right

/-- The elimination of a column exchanges nothing. -/
theorem eliminateRows_swaps {n k : ℕ} (nrhs : ℕ) (hk : k < n) (s : State K) :
    (eliminateRows n nrhs k s).swaps = s.swaps := by
  obtain ⟨c, htrace⟩ := eliminateRows_trace nrhs hk s
  rw [State.swaps, State.swaps, htrace, List.countP_append, List.countP_replicate]
  simp [Event.isSwap]

end Rows

/-! ### The row exchange -/

namespace Pivoted

/-- `swapRows` exchanges rows `k` and `q`. -/
theorem swapRows_cell (w k q : ℕ) (m : Mem K) (r : ℕ) {j : ℕ} (hj : j < w) :
    swapRows w k q m (r * w + j) = m (Equiv.swap k q r * w + j) := by
  -- At the head of iteration `c`, the columns before `c` are exchanged.
  let I : ℕ → Mem K → Prop := fun c m' => ∀ r j, j < w →
    m' (r * w + j) = if j < c then m (Equiv.swap k q r * w + j) else m (r * w + j)
  suffices h : I w (swapRows w k q m) by rw [h r j hj, if_pos hj]
  refine forUp_inv I (Nat.zero_le w) (fun r j _ => by rw [if_neg (by omega)]) ?_
  intro c m' _ hc ih r j hj
  show (m'.set (k * w + c) (m' (q * w + c))).set (q * w + c) (m' (k * w + c)) (r * w + j) = _
  rw [Mem.set_cell hc hj, Mem.set_cell hc hj, ih k c hc, ih q c hc, ih r j hj,
    if_neg (lt_irrefl c), if_neg (lt_irrefl c)]
  by_cases hjc : j = c
  · subst hjc
    by_cases hrq : r = q
    · rw [if_pos ⟨hrq, rfl⟩, if_pos (Nat.lt_succ_self j), hrq, Equiv.swap_apply_right]
    · rw [if_neg (fun h => hrq h.1), if_pos (Nat.lt_succ_self j)]
      by_cases hrk : r = k
      · rw [if_pos ⟨hrk, rfl⟩, hrk, Equiv.swap_apply_left]
      · rw [if_neg (fun h => hrk h.1), if_neg (lt_irrefl j),
          Equiv.swap_apply_of_ne_of_ne hrk hrq]
  · rw [if_neg (fun h => hjc h.2), if_neg (fun h => hjc h.2)]
    exact if_congr (by omega) rfl rfl

variable [FloatOps K]

/-- The pivot row is one of the rows still to be eliminated. -/
theorem searchPivot_bounds {n k : ℕ} (hk : k < n) (a : Mem K) :
    k ≤ (searchPivot n k a).1 ∧ (searchPivot n k a).1 < n := by
  refine forUp_preserves (fun p : ℕ × K => k ≤ p.1 ∧ p.1 < n) ⟨le_rfl, hk⟩ ?_
  intro i p hi hi' hp
  show k ≤ (if _ then _ else _ : ℕ × K).1 ∧ (if _ then _ else _ : ℕ × K).1 < n
  split
  · exact ⟨by show k ≤ i; omega, hi'⟩
  · exact hp

/-- What search and exchange leave in `a`.  Exchanging a row with itself changes nothing,
    so the test `maxIndex != k` does not show. -/
theorem pivot_a (n nrhs k : ℕ) (s : State K) (r : ℕ) {j : ℕ} (hj : j < n) :
    (pivot n nrhs k s).a (r * n + j)
      = s.a (Equiv.swap k (searchPivot n k s.a).1 r * n + j) := by
  rw [pivot]
  split
  · exact swapRows_cell n k _ s.a r hj
  · rename_i h
    rw [not_not.mp h, Equiv.swap_self, Equiv.refl_apply]

/-- What search and exchange leave in `b`: the same row exchange. -/
theorem pivot_b (n nrhs k : ℕ) (s : State K) (r : ℕ) {j : ℕ} (hj : j < nrhs) :
    (pivot n nrhs k s).b (r * nrhs + j)
      = s.b (Equiv.swap k (searchPivot n k s.a).1 r * nrhs + j) := by
  rw [pivot]
  split
  · exact swapRows_cell nrhs k _ s.b r hj
  · rename_i h
    rw [not_not.mp h, Equiv.swap_self, Equiv.refl_apply]

/-- Nothing happens if the search stays at row `k`. -/
theorem pivot_eq_self {n k : ℕ} (nrhs : ℕ) {s : State K} (h : (searchPivot n k s.a).1 = k) :
    pivot n nrhs k s = s := by
  rw [pivot, if_neg (not_not.mpr h)]

theorem pivot_errorFlag (n nrhs k : ℕ) (s : State K) :
    (pivot n nrhs k s).errorFlag = s.errorFlag := by
  rw [pivot]
  split <;> rfl

/-- Search and exchange count as a swap iff the search leaves row `k`. -/
theorem pivot_swaps (n nrhs k : ℕ) (s : State K) :
    (pivot n nrhs k s).swaps
      = if (searchPivot n k s.a).1 = k then s.swaps else s.swaps + 1 := by
  rw [pivot]
  by_cases h : (searchPivot n k s.a).1 = k
  · rw [if_neg (not_not.mpr h), if_pos h]
  · rw [if_pos h, if_neg h]
    exact List.countP_cons_of_pos rfl

/-- Search and exchange divide by nothing. -/
theorem pivot_mem_trace (n nrhs k : ℕ) (s : State K) (d : K) :
    Event.div d ∈ (pivot n nrhs k s).trace ↔ Event.div d ∈ s.trace := by
  rw [pivot]
  by_cases h : (searchPivot n k s.a).1 = k <;> simp [h]

end Pivoted

end Dgesv
