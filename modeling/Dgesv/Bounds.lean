import Dgesv.Model.Checked
import Dgesv.Cells

namespace Dgesv

open Loop

/-!
# The safe sizes

`n * n ≤ 2³¹` and `n * nrhs ≤ 2³¹` are exactly the sizes for which no call of `src/dgesv.c`
overflows an index or leaves its arrays.

* `Checked.myDgesv_eq_some` — at such sizes the checked call is defined, and is the plain one;
  `Checked.Unpivoted.myDgesv_eq_some` — so is that of `src/task1/dgesv.c`;
* `Checked.addressable_of_isSome` — beyond them, a call on a matrix of equal entries is not:
  it survives its first tolerance test, and clears the last row;
* `Checked.myDgesv_isSome_iff` — both together.
-/

variable {K : Type}

/-! ### Indices and accesses -/

theorem int_natCast {c : ℕ} (h : c < 2 ^ 31) : int c = some (c : ℤ) := by
  unfold int
  rw [if_pos]
  omega

/-- A signed operation that does not overflow has its value. -/
theorem eq_of_int_eq_some {z w : ℤ} (h : int z = some w) : z = w := by
  unfold int at h
  split_ifs at h
  exact Option.some.inj h

theorem lt_of_int_natCast_isSome {c : ℕ} (h : (int c).isSome) : c < 2 ^ 31 := by
  unfold int at h
  split_ifs at h with hc
  · omega
  · simp at h

/-- Product and sum of the index `i * w + j`. -/
theorem index_natCast (i w j : ℕ) :
    index i w j = (int (i * w : ℕ)).bind fun p => int (p + j) := by
  rw [Nat.cast_mul]
  rfl

/-- Index arithmetic inside an `r × w` array of at most `2³¹` cells. -/
theorem index_eq_some {r w i j : ℕ} (hi : i < r) (hj : j < w) (hlim : r * w ≤ 2 ^ 31) :
    index i w j = some ((i * w + j : ℕ) : ℤ) := by
  have hcell : i * w + j < 2 ^ 31 := Nat.lt_of_lt_of_le (cell_lt hi hj) hlim
  rw [index_natCast, int_natCast (by omega), Option.bind_some, ← Nat.cast_add, int_natCast hcell]

/-- An index that does not overflow. -/
theorem lt_of_index_isSome {i w j : ℕ} (h : (index i w j).isSome) : i * w + j < 2 ^ 31 := by
  obtain ⟨c, hc⟩ := Option.isSome_iff_exists.mp h
  rw [index_natCast] at hc
  obtain ⟨p, hp, hpc⟩ := Option.bind_eq_some_iff.mp hc
  have hmul := lt_of_int_natCast_isSome (Option.isSome_of_eq_some hp)
  rw [int_natCast hmul, Option.some_inj] at hp
  rw [← hp, ← Nat.cast_add] at hpc
  exact lt_of_int_natCast_isSome (Option.isSome_of_eq_some hpc)

namespace Mem

variable {r w i j : ℕ} {m : Mem K}

theorem read_eq_some (hm : r * w ≤ m.size) (hlim : r * w ≤ 2 ^ 31) (hi : i < r) (hj : j < w) :
    m.read i w j = some (m (i * w + j)) := by
  have hin : i * w + j < m.size := (cell_lt hi hj).trans_le hm
  simp only [read, index_eq_some hi hj hlim, load, Option.bind_eq_bind, Option.bind_some,
    Int.toNat_natCast]
  apply if_pos
  omega

theorem write_eq_some (hm : r * w ≤ m.size) (hlim : r * w ≤ 2 ^ 31) (hi : i < r) (hj : j < w)
    (v : K) : m.write i w j v = some (m.set (i * w + j) v) := by
  have hin : i * w + j < m.size := (cell_lt hi hj).trans_le hm
  simp only [write, index_eq_some hi hj hlim, store, Option.bind_eq_bind, Option.bind_some,
    Int.toNat_natCast]
  apply if_pos
  omega

/-- Only cells with an index are written. -/
theorem lt_of_write_isSome {v : K} (h : (m.write i w j v).isSome) : i * w + j < 2 ^ 31 := by
  unfold write at h
  obtain ⟨c, hc, -⟩ := exists_of_bind_isSome h
  exact lt_of_index_isSome (Option.isSome_of_eq_some hc)

/-- Every cell holds `v`. -/
def Constant (v : K) (m : Mem K) : Prop := ∀ c, m c = v

theorem Constant.read {v x : K} (hm : m.Constant v) (h : m.read i w j = some x) : x = v := by
  unfold Mem.read at h
  obtain ⟨c, -, hc⟩ := Option.bind_eq_some_iff.mp h
  unfold load at hc
  split_ifs at hc
  cases hc
  exact hm _

theorem Constant.write {v : K} {m' : Mem K} (hm : m.Constant v)
    (h : m.write i w j v = some m') : m'.Constant v := by
  unfold Mem.write at h
  obtain ⟨c, -, hc⟩ := Option.bind_eq_some_iff.mp h
  unfold store at hc
  split_ifs at hc
  cases hc
  intro c'
  rw [set_get]
  split_ifs
  · rfl
  · exact hm c'

end Mem

/-! ### Defined calls -/

/-- Every cell of both arrays has an `int` for its number. -/
structure Addressable (n nrhs : ℕ) : Prop where
  a : n * n ≤ 2 ^ 31
  b : n * nrhs ≤ 2 ^ 31

/-- The arrays are as large as the caller promised, or larger. -/
structure State.Fits (n nrhs : ℕ) (s : State K) : Prop where
  a : n * n ≤ s.a.size
  b : n * nrhs ≤ s.b.size

namespace Checked

variable [Neg K] [Add K] [Sub K] [Mul K] [Div K] [FloatOps K]
variable {n nrhs r w k i j hi q : ℕ} {m : Mem K} {s : State K}

omit [Neg K] [Add K] [Sub K] [Mul K] [Div K] in
theorem searchPivot_eq_some (hlim : n * n ≤ 2 ^ 31) (hm : n * n ≤ m.size) (hk : k < n) :
    searchPivot n k m = some (Pivoted.searchPivot n k m) := by
  have hread : ∀ i < n, m.read i n k = some (m (i * n + k)) := fun i hi =>
    Mem.read_eq_some hm hlim hi hk
  rw [searchPivot, hread k hk]
  refine (forUpM_eq_some (fun _ => True) trivial fun i p _ hi _ => ⟨?_, trivial⟩).1
  rw [hread i hi]
  by_cases hlt : lt p.2 (fabs (m (i * n + k))) = true
  · simp [hlt]
  · simp [hlt]

omit [Neg K] [Add K] [Sub K] [Mul K] [Div K] [FloatOps K] in
theorem swapRows_eq_some (hlim : r * w ≤ 2 ^ 31) (hm : r * w ≤ m.size) (hk : k < r) (hq : q < r) :
    swapRows w k q m = some (Pivoted.swapRows w k q m) ∧
      r * w ≤ (Pivoted.swapRows w k q m).size := by
  refine forUpM_eq_some (fun m : Mem K => r * w ≤ m.size) hm fun j m' _ hj hm' => ⟨?_, hm'⟩
  have hset : r * w ≤ (m'.set (k * w + j) (m' (q * w + j))).size := by rwa [Mem.set_size]
  rw [Mem.read_eq_some hm' hlim hk hj, some_bind, Mem.read_eq_some hm' hlim hq hj, some_bind,
    Mem.write_eq_some hm' hlim hk hj, some_bind, Mem.write_eq_some hset hlim hq hj]

omit [Neg K] [Sub K] [Div K] [FloatOps K] in
theorem addRow_eq_some (hlim : r * w ≤ 2 ^ 31) (hm : r * w ≤ m.size) (hk : k < r) (hi' : i < r)
    (hhi : hi ≤ w) (lo : ℕ) (t : K) :
    addRow w k i lo hi t m = some (Dgesv.addRow w k i lo hi t m) ∧
      r * w ≤ (Dgesv.addRow w k i lo hi t m).size := by
  refine forUpM_eq_some (fun m : Mem K => r * w ≤ m.size) hm fun j m' _ hj hm' => ⟨?_, hm'⟩
  have hjw : j < w := by omega
  rw [Mem.read_eq_some hm' hlim hi' hjw, some_bind, Mem.read_eq_some hm' hlim hk hjw, some_bind,
    Mem.write_eq_some hm' hlim hi' hjw]

omit [Neg K] [Add K] [Sub K] [Mul K] [Div K] in
theorem pivot_eq_some (h : Addressable n nrhs) (hs : s.Fits n nrhs) (hk : k < n) :
    pivot n nrhs k s = some (Pivoted.pivot n nrhs k s) ∧
      (Pivoted.pivot n nrhs k s).Fits n nrhs := by
  have hq := (Pivoted.searchPivot_bounds hk s.a).2
  obtain ⟨ha, hasize⟩ := swapRows_eq_some h.a hs.a hk hq
  obtain ⟨hb, hbsize⟩ := swapRows_eq_some h.b hs.b hk hq
  rw [pivot, searchPivot_eq_some h.a hs.a hk, Pivoted.pivot]
  by_cases hne : (Pivoted.searchPivot n k s.a).1 ≠ k
  · simp only [some_bind, if_pos hne, ha, hb]
    exact ⟨rfl, hasize, hbsize⟩
  · simp only [some_bind, if_neg hne]
    exact ⟨rfl, hs⟩

omit [Sub K] [FloatOps K] in
theorem eliminateRow_eq_some (h : Addressable n nrhs) (hs : s.Fits n nrhs) (hk : k < n)
    (hi : i < n) :
    eliminateRow n nrhs k i s = some (Dgesv.eliminateRow n nrhs k i s) ∧
      (Dgesv.eliminateRow n nrhs k i s).Fits n nrhs := by
  obtain ⟨ha, hasize⟩ := addRow_eq_some h.a hs.a hk hi le_rfl k
    (-s.a (i * n + k) / s.a (k * n + k))
  obtain ⟨hb, hbsize⟩ := addRow_eq_some h.b hs.b hk hi le_rfl 0
    (-s.a (i * n + k) / s.a (k * n + k))
  rw [eliminateRow, Mem.read_eq_some hs.a h.a hi hk, some_bind,
    Mem.read_eq_some hs.a h.a hk hk, some_bind, ha, some_bind, hb, some_bind]
  exact ⟨rfl, hasize, hbsize⟩

omit [Sub K] [FloatOps K] in
theorem eliminateRows_eq_some (h : Addressable n nrhs) (hs : s.Fits n nrhs) (hk : k < n) :
    eliminateRows n nrhs k s = some (Dgesv.eliminateRows n nrhs k s) ∧
      (Dgesv.eliminateRows n nrhs k s).Fits n nrhs :=
  forUpM_eq_some (State.Fits n nrhs) hs fun _ _ _ hi hs' => eliminateRow_eq_some h hs' hk hi

omit [Sub K] in
/-- The test and the row loop: all of an iteration in `src/task1/dgesv.c`, … -/
theorem Unpivoted.eliminateColumn_eq_some (h : Addressable n nrhs) (hs : s.Fits n nrhs)
    (hk : k < n) :
    Unpivoted.eliminateColumn n nrhs k s = some (Dgesv.Unpivoted.eliminateColumn n nrhs k s) ∧
      ∀ s', Dgesv.Unpivoted.eliminateColumn n nrhs k s = .next s' → s'.Fits n nrhs := by
  obtain ⟨hrows, hs'⟩ := eliminateRows_eq_some h hs hk
  rw [Unpivoted.eliminateColumn, Mem.read_eq_some hs.a h.a hk hk, some_bind,
    Dgesv.Unpivoted.eliminateColumn]
  by_cases hsmall : lt (fabs (s.a (k * n + k))) tol = true
  · simp only [if_pos hsmall]
    exact ⟨rfl, fun s' hs' => by cases hs'⟩
  · simp only [if_neg hsmall, hrows, some_bind]
    refine ⟨rfl, fun t ht => ?_⟩
    cases ht
    exact hs'

omit [Sub K] in
/-- … and what follows the exchange in `src/dgesv.c`. -/
theorem eliminateColumn_eq_some (h : Addressable n nrhs) (hs : s.Fits n nrhs) (hk : k < n) :
    eliminateColumn n nrhs k s = some (Pivoted.eliminateColumn n nrhs k s) ∧
      ∀ s', Pivoted.eliminateColumn n nrhs k s = .next s' → s'.Fits n nrhs := by
  obtain ⟨hpivot, hs'⟩ := pivot_eq_some h hs hk
  show (pivot n nrhs k s >>= Unpivoted.eliminateColumn n nrhs k) = _ ∧ _
  rw [hpivot, some_bind]
  exact Unpivoted.eliminateColumn_eq_some h hs' hk

omit [Sub K] in
theorem eliminate_eq_some (h : Addressable n nrhs) (hs : s.Fits n nrhs) :
    eliminate n nrhs s = some (Pivoted.eliminate n nrhs s) ∧
      ∀ s', Pivoted.eliminate n nrhs s = .next s' → s'.Fits n nrhs :=
  forUpRetM_eq_some (State.Fits n nrhs) hs fun _ _ hk hs' =>
    eliminateColumn_eq_some h hs' (by omega)

omit [Neg K] [Add K] [Div K] [FloatOps K] in
theorem accumulate_eq_some (h : Addressable n nrhs) (hs : s.Fits n nrhs) (hi : i < n)
    (hj : j < nrhs) (t : K) :
    accumulate n nrhs i j s t
      = some (Dgesv.accumulate n i n s.a (fun k => s.b (k * nrhs + j)) t) := by
  refine (forUpM_eq_some (fun _ => True) trivial fun k t' _ hk _ => ⟨?_, trivial⟩).1
  rw [Mem.read_eq_some hs.a h.a hi hk, some_bind, Mem.read_eq_some hs.b h.b hk hj, some_bind]
  rfl

omit [Neg K] [Add K] in
theorem solveCell_eq_some (h : Addressable n nrhs) (hs : s.Fits n nrhs) (hi : i < n)
    (hj : j < nrhs) :
    solveCell n nrhs j i s = some (Pivoted.solveCell n nrhs j i s) ∧
      (Pivoted.solveCell n nrhs j i s).Fits n nrhs := by
  refine ⟨?_, hs.a, hs.b⟩
  rw [solveCell, Mem.read_eq_some hs.b h.b hi hj, some_bind, accumulate_eq_some h hs hi hj,
    some_bind, Mem.read_eq_some hs.a h.a hi hi, some_bind, some_bind,
    Mem.write_eq_some hs.b h.b hi hj, some_bind]
  rfl

omit [Neg K] [Add K] in
theorem backSubstitute_eq_some (h : Addressable n nrhs) (hs : s.Fits n nrhs) :
    backSubstitute n nrhs s = some (Pivoted.backSubstitute n nrhs s) ∧
      (Pivoted.backSubstitute n nrhs s).Fits n nrhs :=
  forUpM_eq_some (State.Fits n nrhs) hs fun _ _ _ hj hs' =>
    forDownM_eq_some (State.Fits n nrhs) hs' fun _ _ hi hs'' => solveCell_eq_some h hs'' hi hj

/-- **Refinement.**  Where every cell has an `int` for its number, a call on arrays that are
    large enough is defined, and is the call of the plain model. -/
theorem myDgesv_eq_some (h : Addressable n nrhs) {a b : Mem K} (ha : n * n ≤ a.size)
    (hb : n * nrhs ≤ b.size) : myDgesv n nrhs a b = some (Pivoted.myDgesv n nrhs a b) := by
  have hinit : (State.init a b).Fits n nrhs := ⟨ha, hb⟩
  obtain ⟨heq, hnext⟩ := eliminate_eq_some h hinit
  rw [myDgesv, heq, some_bind, Pivoted.myDgesv]
  cases hx : Pivoted.eliminate n nrhs (.init a b) with
  | ret r s => rfl
  | next s =>
    simp only [(backSubstitute_eq_some h (hnext s hx)).1, some_bind]
    rfl

/-! ### `src/task1/dgesv.c` -/

namespace Unpivoted

omit [Sub K] in
theorem eliminate_eq_some (h : Addressable n nrhs) (hs : s.Fits n nrhs) :
    eliminate n nrhs s = some (Dgesv.Unpivoted.eliminate n nrhs s) ∧
      ∀ s', Dgesv.Unpivoted.eliminate n nrhs s = .next s' → s'.Fits n nrhs :=
  forUpRetM_eq_some (State.Fits n nrhs) hs fun _ _ hk hs' =>
    eliminateColumn_eq_some h hs' (by omega)

omit [Neg K] [Add K] in
theorem solveCell_eq_some (h : Addressable n nrhs) (hs : s.Fits n nrhs) (hi : i < n)
    (hj : j < nrhs) :
    solveCell n nrhs j i s = some (Dgesv.Unpivoted.solveCell n nrhs j i s) ∧
      ∀ s', Dgesv.Unpivoted.solveCell n nrhs j i s = .next s' → s'.Fits n nrhs := by
  rw [solveCell, Mem.read_eq_some hs.b h.b hi hj, some_bind, accumulate_eq_some h hs hi hj,
    some_bind, Mem.read_eq_some hs.a h.a hi hi, some_bind, Dgesv.Unpivoted.solveCell]
  by_cases hsmall : lt (fabs (s.a (i * n + i))) tol = true
  · simp only [if_pos hsmall]
    exact ⟨rfl, fun s' hs' => by cases hs'⟩
  · simp only [if_neg hsmall, some_bind, Mem.write_eq_some hs.b h.b hi hj]
    refine ⟨rfl, fun s' hs' => ?_⟩
    cases hs'
    exact ⟨hs.a, hs.b⟩

omit [Neg K] [Add K] in
theorem backSubstitute_eq_some (h : Addressable n nrhs) (hs : s.Fits n nrhs) :
    backSubstitute n nrhs s = some (Dgesv.Unpivoted.backSubstitute n nrhs s) :=
  (forUpRetM_eq_some (State.Fits n nrhs) hs fun _ _ hj hs' =>
    forDownRetM_eq_some (State.Fits n nrhs) hs' fun _ _ hi hs'' =>
      solveCell_eq_some h hs'' hi hj).1

/-- **Refinement**, for the solver without pivoting. -/
theorem myDgesv_eq_some (h : Addressable n nrhs) {a b : Mem K} (ha : n * n ≤ a.size)
    (hb : n * nrhs ≤ b.size) : myDgesv n nrhs a b = some (Dgesv.Unpivoted.myDgesv n nrhs a b) := by
  have hinit : (State.init a b).Fits n nrhs := ⟨ha, hb⟩
  obtain ⟨heq, hnext⟩ := eliminate_eq_some h hinit
  rw [myDgesv, heq, some_bind, Dgesv.Unpivoted.myDgesv]
  cases hx : Dgesv.Unpivoted.eliminate n nrhs (.init a b) with
  | ret r s => rfl
  | next s =>
    rw [Flow.bindM, backSubstitute_eq_some h (hnext s hx), some_bind, Flow.bind_next]
    cases Dgesv.Unpivoted.backSubstitute n nrhs s with
    | ret r t => rfl
    | next t => rfl

end Unpivoted

/-! ### The limit is reached -/

omit [Neg K] [Add K] [Sub K] [Mul K] [Div K] [FloatOps K] in
/-- Exchanging rows of equal entries. -/
theorem swapRows_constant {v : K} {m' : Mem K} (hm : m.Constant v)
    (h : swapRows w k q m = some m') : m'.Constant v := by
  refine forUpM_inv (Mem.Constant v) hm (fun j t t' ht hbody => ?_) h
  obtain ⟨tmp, htmp, hbody⟩ := Option.bind_eq_some_iff.mp hbody
  obtain ⟨x, hx, hbody⟩ := Option.bind_eq_some_iff.mp hbody
  obtain ⟨t₁, ht₁, hbody⟩ := Option.bind_eq_some_iff.mp hbody
  rw [ht.read hx] at ht₁
  rw [ht.read htmp] at hbody
  exact (ht.write ht₁).write hbody

omit [Neg K] [Add K] [Sub K] [Mul K] [Div K] in
/-- Whatever the search finds. -/
theorem pivot_constant {v : K} {s' : State K} (hs : s.a.Constant v)
    (h : pivot n nrhs k s = some s') : s'.a.Constant v := by
  unfold pivot at h
  obtain ⟨p, -, h⟩ := Option.bind_eq_some_iff.mp h
  split_ifs at h
  · obtain ⟨a, ha, h⟩ := Option.bind_eq_some_iff.mp h
    obtain ⟨b, -, h⟩ := Option.bind_eq_some_iff.mp h
    cases h
    exact swapRows_constant hs ha
  · cases h
    exact hs

omit [Neg K] [Sub K] [Div K] [FloatOps K] in
/-- A defined row update had an index for its last cell. -/
theorem lt_of_addRow_isSome {t : K} (hw : 0 < w) (h : (addRow w k i 0 w t m).isSome) :
    i * w + (w - 1) < 2 ^ 31 := by
  obtain ⟨m', hbody⟩ := forUpM_isSome_iteration h (Nat.zero_le (w - 1)) (by omega)
  obtain ⟨x, -, hbody⟩ := exists_of_bind_isSome hbody
  obtain ⟨y, -, hbody⟩ := exists_of_bind_isSome hbody
  exact Mem.lt_of_write_isSome hbody

omit [Sub K] in
/-- If the first iteration is defined on equal entries that pass the test, the last row was
    cleared. -/
theorem lt_of_eliminateColumn_isSome {v : K} (hv : lt (fabs v) tol = false) (hn : 2 ≤ n)
    (hnrhs : 1 ≤ nrhs) (hs : s.a.Constant v) (h : (eliminateColumn n nrhs 0 s).isSome) :
    (n - 1) * n + (n - 1) < 2 ^ 31 ∧ (n - 1) * nrhs + (nrhs - 1) < 2 ^ 31 := by
  obtain ⟨s', hs', h⟩ := exists_of_bind_isSome h
  obtain ⟨d, hd, h⟩ := exists_of_bind_isSome h
  rw [(pivot_constant hs hs').read hd, hv, if_neg Bool.false_ne_true] at h
  obtain ⟨s'', hrows, -⟩ := exists_of_bind_isSome h
  -- The row loop got to its last row, in whatever state.
  obtain ⟨t, hrow⟩ := forUpM_isSome_iteration (Option.isSome_of_eq_some hrows)
    (by omega : 0 + 1 ≤ n - 1) (by omega)
  obtain ⟨x, -, hrow⟩ := exists_of_bind_isSome hrow
  obtain ⟨d', -, hrow⟩ := exists_of_bind_isSome hrow
  obtain ⟨a, ha, hrow⟩ := exists_of_bind_isSome hrow
  obtain ⟨b, hb, -⟩ := exists_of_bind_isSome hrow
  exact ⟨lt_of_addRow_isSome (by omega) (Option.isSome_of_eq_some ha),
    lt_of_addRow_isSome hnrhs (Option.isSome_of_eq_some hb)⟩

end Checked

/-- The last cell decides. -/
theorem mul_le_of_last_cell {r w : ℕ} (hr : 1 ≤ r) (h : (r - 1) * w + (w - 1) < 2 ^ 31) :
    r * w ≤ 2 ^ 31 := by
  obtain ⟨r, rfl⟩ := Nat.exists_eq_add_of_le' hr
  rw [Nat.add_sub_cancel] at h
  rw [Nat.succ_mul]
  omega

namespace Checked

variable [Neg K] [Add K] [Sub K] [Mul K] [Div K] [FloatOps K] {n nrhs : ℕ}

/-- **Beyond the limit** some call is undefined. -/
theorem addressable_of_isSome {v : K} (hv : lt (fabs v) tol = false) (hn : 1 ≤ n)
    (hnrhs : 1 ≤ nrhs) (hint : nrhs < 2 ^ 31)
    (h : ∀ a b : Mem K, a.size = n * n → b.size = n * nrhs → (myDgesv n nrhs a b).isSome) :
    Addressable n nrhs := by
  rcases hn.eq_or_lt with rfl | hn
  · exact ⟨by decide, by omega⟩
  · have hcall := h ⟨n * n, fun _ => v⟩ ⟨n * nrhs, fun _ => v⟩ rfl rfl
    obtain ⟨x, hx, -⟩ := exists_of_bind_isSome hcall
    have hfirst := forUpRetM_isSome_first (by omega) (Option.isSome_of_eq_some hx)
    obtain ⟨ha, hb⟩ := lt_of_eliminateColumn_isSome hv hn hnrhs (fun _ => rfl) hfirst
    exact ⟨mul_le_of_last_cell (by omega) ha, mul_le_of_last_cell (by omega) hb⟩

/-- **The safe sizes.**  Over a scalar type with a value that passes the tolerance test (`1.0`
    for `double`): the calls on arrays of `n * n` and `n * nrhs` cells are all defined iff
    neither product exceeds `2³¹`. -/
theorem myDgesv_isSome_iff (hv : ∃ v : K, lt (fabs v) tol = false) (hn : 1 ≤ n)
    (hnrhs : 1 ≤ nrhs) (hint : n < 2 ^ 31 ∧ nrhs < 2 ^ 31) :
    (∀ a b : Mem K, a.size = n * n → b.size = n * nrhs → (myDgesv n nrhs a b).isSome) ↔
      n * n ≤ 2 ^ 31 ∧ n * nrhs ≤ 2 ^ 31 := by
  obtain ⟨v, hv⟩ := hv
  constructor
  · intro h
    have hlim := addressable_of_isSome hv hn hnrhs hint.2 h
    exact ⟨hlim.a, hlim.b⟩
  · rintro ⟨hlima, hlimb⟩ a b ha hb
    rw [myDgesv_eq_some ⟨hlima, hlimb⟩ ha.ge hb.ge]
    rfl

/-- For the square systems of `main`, the last safe size is 46340. -/
theorem myDgesv_isSome_iff_square :
    (∀ a b : Mem ℚ, a.size = 46340 * 46340 → b.size = 46340 * 46340 →
      (myDgesv 46340 46340 a b).isSome) ∧
    ¬ ∀ a b : Mem ℚ, a.size = 46341 * 46341 → b.size = 46341 * 46341 →
      (myDgesv 46341 46341 a b).isSome := by
  have hv : ∃ v : ℚ, lt (fabs v) tol = false := ⟨1, by decide +kernel⟩
  constructor
  · exact (myDgesv_isSome_iff hv (by norm_num) (by norm_num) (by norm_num)).mpr (by norm_num)
  · intro h
    have hlim := (myDgesv_isSome_iff hv (by norm_num) (by norm_num) (by norm_num)).mp h
    norm_num at hlim

end Checked

end Dgesv
