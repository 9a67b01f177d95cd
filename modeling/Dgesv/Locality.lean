import Dgesv.AnyArithmetic
import Dgesv.Bounds

namespace Dgesv

open Loop

/-!
# The memory of a call

A call of either solver is about the first `n * n` cells of `a` and the first `n * nrhs` cells of
`b`.  It reads no others, so what lies beyond them has no influence; and it writes no others, so
what lies beyond them is there afterwards.  At the sizes of `Addressable`, where the index
arithmetic of C gives the cells of the model, this holds in any arithmetic.

* `Mem.Keeps`, `KeepsRest` — what is not written;
* `LocalCall` — a call that is defined and about its arrays only;
* `myDgesv_local` — both solvers.
-/

/-! ### Writes -/

/-- Nothing was written from cell `N` on. -/
structure Mem.Keeps {K : Type*} (N : ℕ) (m m' : Mem K) : Prop where
  size : m'.size = m.size
  rest : ∀ c, N ≤ c → m' c = m c

theorem Mem.keeps_self {K : Type*} (N : ℕ) (m : Mem K) : m.Keeps N m := ⟨rfl, fun _ _ => rfl⟩

/-- A store before cell `N`. -/
theorem Mem.Keeps.set {K : Type*} {N c : ℕ} {m m' : Mem K} (h : m.Keeps N m') (hc : c < N) (v : K) :
    m.Keeps N (m'.set c v) where
  size := h.size
  rest c' hc' := by
    rw [Mem.set_get, if_neg (by omega)]
    exact h.rest c' hc'

variable {K : Type} {n nrhs k : ℕ} {a b : Mem K} {s : State K}

/-- A call on `(a, b)` has written nothing that is not its own. -/
structure KeepsRest (n nrhs : ℕ) (a b : Mem K) (s : State K) : Prop where
  a : a.Keeps (n * n) s.a
  b : b.Keeps (n * nrhs) s.b

theorem keepsRest_init (n nrhs : ℕ) (a b : Mem K) : KeepsRest n nrhs a b (.init a b) :=
  ⟨a.keeps_self _, b.keeps_self _⟩

/-- The exchange of two rows. -/
theorem Pivoted.swapRows_keeps {r w q : ℕ} {m m' : Mem K} (hk : k < r) (hq : q < r)
    (h : m.Keeps (r * w) m') : m.Keeps (r * w) (swapRows w k q m') := by
  refine forUp_preserves (fun t => m.Keeps (r * w) t) h ?_
  intro j t _ hj ht
  exact (ht.set (cell_lt hk hj) _).set (cell_lt hq hj) _

theorem Pivoted.pivot_keeps [FloatOps K] (hk : k < n) (h : KeepsRest n nrhs a b s) :
    KeepsRest n nrhs a b (pivot n nrhs k s) := by
  have hq := (searchPivot_bounds hk s.a).2
  unfold pivot
  dsimp only
  split
  · exact ⟨swapRows_keeps hk hq h.a, swapRows_keeps hk hq h.b⟩
  · exact h

/-- The update of a row. -/
theorem addRow_keeps [Add K] [Mul K] {r w i lo hi : ℕ} {m m' : Mem K} (hi' : i < r) (hhi : hi ≤ w)
    (t : K) (h : m.Keeps (r * w) m') : m.Keeps (r * w) (addRow w k i lo hi t m') := by
  refine forUp_preserves (fun t => m.Keeps (r * w) t) h ?_
  intro j m₁ _ hj hm₁
  exact hm₁.set (cell_lt hi' (hj.trans_le hhi)) _

variable [Neg K] [Add K] [Sub K] [Mul K] [Div K] [FloatOps K]

omit [Sub K] [FloatOps K] in
theorem eliminateRows_keeps (h : KeepsRest n nrhs a b s) :
    KeepsRest n nrhs a b (eliminateRows n nrhs k s) := by
  refine forUp_preserves (KeepsRest n nrhs a b) h ?_
  intro i t _ hi ht
  exact ⟨addRow_keeps hi le_rfl _ ht.a, addRow_keeps hi le_rfl _ ht.b⟩

omit [Sub K] in
/-- An iteration of the elimination, whether it falls through or returns. -/
theorem Unpivoted.eliminateColumn_keeps (h : KeepsRest n nrhs a b s) :
    KeepsRest n nrhs a b (eliminateColumn n nrhs k s).state := by
  unfold eliminateColumn
  split
  · exact h
  · exact eliminateRows_keeps h

omit [Sub K] in
theorem Pivoted.eliminateColumn_keeps (hk : k < n) (h : KeepsRest n nrhs a b s) :
    KeepsRest n nrhs a b (eliminateColumn n nrhs k s).state :=
  Unpivoted.eliminateColumn_keeps (pivot_keeps hk h)

omit [Neg K] [Add K] in
/-- A row of the back substitution. -/
theorem Pivoted.solveCell_keeps {i j : ℕ} (hi : i < n) (hj : j < nrhs)
    (h : KeepsRest n nrhs a b s) : KeepsRest n nrhs a b (solveCell n nrhs j i s) :=
  ⟨h.a, h.b.set (cell_lt hi hj) _⟩

omit [Neg K] [Add K] in
theorem Unpivoted.solveCell_keeps {i j : ℕ} (hi : i < n) (hj : j < nrhs)
    (h : KeepsRest n nrhs a b s) : KeepsRest n nrhs a b (solveCell n nrhs j i s).state := by
  unfold solveCell
  dsimp only
  split
  · exact h
  · exact ⟨h.a, h.b.set (cell_lt hi hj) _⟩

/-- **No call writes beyond its arrays**, however it ends: `src/dgesv.c` … -/
theorem Pivoted.keepsRest_of_call (n nrhs : ℕ) (a b : Mem K) :
    KeepsRest n nrhs a b (myDgesv n nrhs a b).2 := by
  have helim : KeepsRest n nrhs a b (eliminate n nrhs (.init a b)).state :=
    forUpRet_preserves _ (keepsRest_init n nrhs a b) fun k t hk ht =>
      eliminateColumn_keeps (by omega) ht
  unfold myDgesv
  cases hx : eliminate n nrhs (.init a b) with
  | next s =>
    rw [hx] at helim
    refine forUp_preserves (KeepsRest n nrhs a b) helim fun j t _ hj ht => ?_
    exact forDown_inv (fun _ => KeepsRest n nrhs a b) ht fun i t' hi ht' =>
      solveCell_keeps hi hj ht'
  | ret r s =>
    rw [hx] at helim
    exact helim

/-- … and `src/task1/dgesv.c`. -/
theorem Unpivoted.keepsRest_of_call (n nrhs : ℕ) (a b : Mem K) :
    KeepsRest n nrhs a b (myDgesv n nrhs a b).2 := by
  have helim : KeepsRest n nrhs a b (eliminate n nrhs (.init a b)).state :=
    forUpRet_preserves _ (keepsRest_init n nrhs a b) fun k t _ ht => eliminateColumn_keeps ht
  unfold myDgesv
  cases hx : eliminate n nrhs (.init a b) with
  | next s =>
    rw [hx] at helim
    have hback : KeepsRest n nrhs a b (backSubstitute n nrhs s).state :=
      forUpRet_preserves _ helim fun j t hj ht =>
        forDownRet_preserves _ ht fun i t' hi ht' => solveCell_keeps hi hj ht'
    rw [Flow.bind_next]
    cases hy : backSubstitute n nrhs s with
    | next t =>
      rw [hy] at hback
      exact hback
    | ret r t =>
      rw [hy] at hback
      exact hback
  | ret r s =>
    rw [hx] at helim
    exact helim

/-! ### Reads and writes -/

/-- Two calls that were given the same numbers. -/
structure SameCall (n nrhs : ℕ) (o o' : ℤ × State K) : Prop where
  code : o.1 = o'.1
  a : ∀ c < n * n, o.2.a c = o'.2.a c
  b : ∀ c < n * nrhs, o.2.b c = o'.2.b c

omit [Neg K] [Add K] [Sub K] [Mul K] [Div K] [FloatOps K] in
/-- Agreement in every column is agreement in every cell. -/
theorem SameCall.of_agree {o o' : ℤ × State K} (hcode : o.1 = o'.1)
    (h : Agree n nrhs nrhs (fun j j' => j < nrhs ∧ j' = j) o.2 o'.2) : SameCall n nrhs o o' where
  code := hcode
  a c hc := by
    obtain ⟨i, hi, j, hj, rfl⟩ := exists_cell_of_lt hc
    exact h.a i hi j hj
  b c hc := by
    obtain ⟨i, hi, j, hj, rfl⟩ := exists_cell_of_lt hc
    exact h.b j j ⟨hj, rfl⟩ i hi

/-- A call on arrays that are large enough is defined; it changes no cell beyond them, and not
    their sizes; and it neither returns nor leaves anything else if what lies beyond them is
    changed. -/
def LocalCall (n nrhs : ℕ) (call : Mem K → Mem K → Option (ℤ × State K)) : Prop :=
  ∀ a b : Mem K, n * n ≤ a.size → n * nrhs ≤ b.size →
    ∃ o, call a b = some o ∧ KeepsRest n nrhs a b o.2 ∧
      ∀ a' b' : Mem K, n * n ≤ a'.size → n * nrhs ≤ b'.size →
        (∀ c < n * n, a c = a' c) → (∀ c < n * nrhs, b c = b' c) →
        ∃ o', call a' b' = some o' ∧ SameCall n nrhs o o'

/-- **A call is about its arrays only.**  In any arithmetic and for both solvers, if every cell
    of the arrays has an `int` for its number: a call is defined, however it ends it has changed
    nothing but the first `n * n` and `n * nrhs` cells, and it depends on nothing else. -/
theorem myDgesv_local (hn : 1 ≤ n) (hnrhs : 1 ≤ nrhs) (hlim : Addressable n nrhs) :
    LocalCall n nrhs (Checked.myDgesv (K := K) n nrhs) ∧
      LocalCall n nrhs (Checked.Unpivoted.myDgesv (K := K) n nrhs) := by
  have hrange : InRange nrhs nrhs fun j j' => j < nrhs ∧ j' = j := by
    rintro j j' ⟨hj, rfl⟩
    exact ⟨hj, hj⟩
  -- Cells are entries, and every column is compared with itself.
  have ha' : ∀ {a a' : Mem K}, (∀ c < n * n, a c = a' c) →
      ∀ i < n, ∀ j < n, a (i * n + j) = a' (i * n + j) := fun ha i hi j hj => ha _ (cell_lt hi hj)
  have hb' : ∀ {b b' : Mem K}, (∀ c < n * nrhs, b c = b' c) →
      ∀ j j', j < nrhs ∧ j' = j → ∀ i < n, b (i * nrhs + j) = b' (i * nrhs + j') := by
    rintro b b' hb j j' ⟨hj, rfl⟩ i hi
    exact hb _ (cell_lt hi hj)
  constructor
  · intro a b hasize hbsize
    refine ⟨_, Checked.myDgesv_eq_some hlim hasize hbsize,
      Pivoted.keepsRest_of_call n nrhs a b, ?_⟩
    intro a' b' hasize' hbsize' ha hb
    obtain ⟨hcode, hagree⟩ :=
      Pivoted.myDgesv_rel hnrhs hnrhs hrange a b a' b' (ha' ha) (hb' hb)
    exact ⟨_, Checked.myDgesv_eq_some hlim hasize' hbsize', .of_agree hcode hagree⟩
  · intro a b hasize hbsize
    refine ⟨_, Checked.Unpivoted.myDgesv_eq_some hlim hasize hbsize,
      Unpivoted.keepsRest_of_call n nrhs a b, ?_⟩
    intro a' b' hasize' hbsize' ha hb
    obtain ⟨hcode, hagree⟩ :=
      Unpivoted.myDgesv_rel hn hnrhs hnrhs hrange a b a' b' (ha' ha) (hb' hb)
    exact ⟨_, Checked.Unpivoted.myDgesv_eq_some hlim hasize' hbsize', .of_agree hcode hagree⟩

/-- A cell beyond each array: what it holds stays, and has no influence. -/
theorem myDgesv_local_two :
    ∃ o o', Checked.myDgesv 2 1 (.ofList [1, 2, 3, 4, 99]) (.ofList [5, 6, 98] : Mem ℚ) = some o ∧
      Checked.myDgesv 2 1 (.ofList [1, 2, 3, 4]) (.ofList [5, 6] : Mem ℚ) = some o' ∧
      o.2.a 4 = 99 ∧ o.2.b 2 = 98 ∧ o.2.b 1 = o'.2.b 1 := by
  have h := (myDgesv_local (K := ℚ) (n := 2) (by decide) (by decide : 1 ≤ 1)
    ⟨by decide, by decide⟩).1
  obtain ⟨o, ho, hkeeps, hsame⟩ := h (.ofList [1, 2, 3, 4, 99]) (.ofList [5, 6, 98]) (by decide)
    (by decide)
  obtain ⟨o', ho', hcall⟩ := hsame (.ofList [1, 2, 3, 4]) (.ofList [5, 6]) (by decide) (by decide)
    (by decide +kernel) (by decide +kernel)
  exact ⟨o, o', ho, ho', hkeeps.a.rest 4 (by decide), hkeeps.b.rest 2 (by decide),
    hcall.b 1 (by decide)⟩

end Dgesv
