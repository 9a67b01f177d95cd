import Mathlib.Data.Matrix.Basic
import Mathlib.Tactic.Ring
import Mathlib.Tactic.Linarith

namespace Dgesv

/-!
# Row-major storage

A block of memory maps cell numbers to contents.  A matrix of row length `w` is stored in
it row by row: entry `(i, j)` lives in cell `i * w + j`.

* `Mem K`, `Mem.set` — an allocated block of cells and the store `m[c] = v`.  Two blocks
  hold the same contents when their `get` functions are equal.
* `cell_inj` — distinct entries live in distinct cells, so rows, and the columns of a
  strided access, are disjoint.
* `Mem.get_ext` — the entries with `j < w` are all the cells there are.
* `Mem.toMatrix r w m`, `Mem.leading w k m` — the `r × w` matrix stored in `m`, and its
  leading `k × k` block.
-/

variable {K : Type*}

/-! ### Cells -/

/-- The row of a cell, … -/
theorem cell_div (i : ℕ) {w j : ℕ} (hj : j < w) : (i * w + j) / w = i := by
  rw [Nat.mul_comm, Nat.mul_add_div (by omega), Nat.div_eq_of_lt hj, Nat.add_zero]

/-- … and its column. -/
theorem cell_mod (i : ℕ) {w j : ℕ} (hj : j < w) : (i * w + j) % w = j := by
  rw [Nat.mul_comm, Nat.mul_add_mod, Nat.mod_eq_of_lt hj]

/-- Distinct entries live in distinct cells. -/
theorem cell_inj {w i j i' j' : ℕ} (hj : j < w) (hj' : j' < w) :
    i * w + j = i' * w + j' ↔ i = i' ∧ j = j' := by
  constructor
  · intro h
    constructor
    · rw [← cell_div i hj, h, cell_div i' hj']
    · rw [← cell_mod i hj, h, cell_mod i' hj']
  · rintro ⟨rfl, rfl⟩
    rfl

/-- Every cell is an entry, if rows are not empty. -/
theorem exists_cell {w : ℕ} (hw : 0 < w) (c : ℕ) : ∃ i j, j < w ∧ c = i * w + j :=
  ⟨c / w, c % w, Nat.mod_lt c hw, by rw [Nat.mul_comm, Nat.div_add_mod]⟩

/-- The entries of the first `r` rows are the first `r * w` cells, … -/
theorem cell_lt {r w i j : ℕ} (hi : i < r) (hj : j < w) : i * w + j < r * w := by
  have := Nat.mul_le_mul_right w (Nat.succ_le_of_lt hi)
  rw [Nat.succ_mul] at this
  omega

/-- … and the other way round. -/
theorem exists_cell_of_lt {r w c : ℕ} (hc : c < r * w) : ∃ i < r, ∃ j < w, c = i * w + j := by
  have hw : 0 < w := Nat.pos_of_mul_pos_left (Nat.zero_lt_of_lt hc)
  obtain ⟨i, j, hj, rfl⟩ := exists_cell hw c
  have hi : i < r := by
    by_contra hge
    have := Nat.mul_le_mul_right w (not_lt.mp hge)
    omega
  exact ⟨i, hi, j, hj, rfl⟩

/-! ### Memory -/

/-- A block of memory cells, as `malloc` hands it out. -/
structure Mem (K : Type*) where
  /-- The number of cells allocated. -/
  size : ℕ
  /-- The contents of a cell. -/
  get : ℕ → K

namespace Mem

instance : CoeFun (Mem K) fun _ => ℕ → K := ⟨Mem.get⟩

/-- The store `m[c] = v`. -/
def set (m : Mem K) (c : ℕ) (v : K) : Mem K :=
  { m with get := fun c' => if c' = c then v else m c' }

/-- The block whose cells hold the listed values (and `0` past the end of the list). -/
def ofList [Zero K] (l : List K) : Mem K := { size := l.length, get := fun c => l.getD c 0 }

theorem set_get (m : Mem K) (c c' : ℕ) (v : K) :
    m.set c v c' = if c' = c then v else m c' := rfl

@[simp] theorem set_size (m : Mem K) (c : ℕ) (v : K) : (m.set c v).size = m.size := rfl

/-- Storing what is there. -/
theorem set_self (m : Mem K) (c : ℕ) : m.set c (m c) = m := by
  have hget : (fun c' => if c' = c then m c else m c') = m.get := by
    funext c'
    by_cases h : c' = c
    · rw [if_pos h, h]
    · rw [if_neg h]
  unfold set
  rw [hget]

/-- Reading an entry after writing another one, or the same. -/
theorem set_cell {w i j i' j' : ℕ} (hj : j < w) (hj' : j' < w) (m : Mem K) (v : K) :
    m.set (i * w + j) v (i' * w + j') = if i' = i ∧ j' = j then v else m (i' * w + j') := by
  rw [set_get]
  simp only [cell_inj hj' hj]

/-- Two blocks with equal entries hold the same contents. -/
theorem get_ext {w : ℕ} {m m' : Mem K} (hw : 0 < w)
    (h : ∀ i j, j < w → m (i * w + j) = m' (i * w + j)) : m.get = m'.get := by
  funext c
  obtain ⟨i, j, hj, rfl⟩ := exists_cell hw c
  exact h i j hj

/-- The `r × w` matrix stored in `m`. -/
def toMatrix (r w : ℕ) (m : Mem K) : Matrix (Fin r) (Fin w) K :=
  Matrix.of fun i j => m (i * w + j)

@[simp] theorem toMatrix_apply (r w : ℕ) (m : Mem K) (i : Fin r) (j : Fin w) :
    m.toMatrix r w i j = m (i * w + j) := rfl

/-- The leading `k × k` block of a matrix stored with row length `w`. -/
def leading (w k : ℕ) (m : Mem K) : Matrix (Fin k) (Fin k) K :=
  Matrix.of fun i j => m (i * w + j)

end Mem

end Dgesv
