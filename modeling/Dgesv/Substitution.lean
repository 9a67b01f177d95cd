import Dgesv.Cells

namespace Dgesv

open Loop

/-!
# The back substitution

The loop overwrites right-hand sides with solution values while it still reads the ones
already overwritten.  Its result is characterised without reference to the order of the
stores: `Solves n a y x` says that every `x i` is computed by the loop body from the
*final* values of `x` below it.  The recurrence has one solution (`Solves.unique`), so any
two executions that reach it agree, over any scalar type.

* `backSubstitute_solves` — each column ends in the solution of its recurrence;
* `backSubstitute_errorFlag` — the flag says whether some diagonal entry is small;
* `backSubstitute_mem_trace` — the divisions it executes;
* `Unpivoted.backSubstitute_eq` — without small diagonal entries, the loop of
  `src/task1/dgesv.c` does exactly what the loop of `src/dgesv.c` does.
-/

variable {K : Type*} [Sub K] [Mul K] [Div K]

/-! ### The recurrence -/

/-- `x` solves the recurrence that the back substitution computes from the right-hand
    side `y`. -/
def Solves (n : ℕ) (a : Mem K) (y x : ℕ → K) : Prop :=
  ∀ i < n, x i = accumulate n i n a x (y i) / a (i * n + i)

omit [Div K] in
/-- The accumulation for row `i` reads `x` only below row `i`. -/
theorem accumulate_congr {n i hi : ℕ} {a : Mem K} {x x' : ℕ → K} {t : K}
    (h : ∀ k, i < k → k < hi → x k = x' k) :
    accumulate n i hi a x t = accumulate n i hi a x' t :=
  forUp_congr fun k t' h1 h2 => by rw [h k h1 h2]

/-- The recurrence determines its solution. -/
theorem Solves.unique {n : ℕ} {a : Mem K} {y x x' : ℕ → K} (h : Solves n a y x)
    (h' : Solves n a y x') : ∀ i < n, x i = x' i := by
  -- Downward: row `n - 1 - d` only needs the rows below it.
  have hdown : ∀ d, ∀ i < n, n ≤ i + d → x i = x' i := by
    intro d
    induction d with
    | zero => intro i hi hd; omega
    | succ d ih =>
      intro i hi hd
      rw [h i hi, h' i hi, accumulate_congr fun k h1 h2 => ih k h2 (by omega)]
  exact fun i hi => hdown n i hi (by omega)

/-! ### One column -/

variable [FloatOps K]

/-- Some diagonal entry fails the tolerance test. -/
def SmallDiag (n : ℕ) (a : Mem K) : Prop := ∃ i < n, lt (fabs (a (i * n + i))) tol = true

instance (n : ℕ) (a : Mem K) : Decidable (SmallDiag n a) :=
  inferInstanceAs (Decidable (∃ i < n, _))

namespace Pivoted

/-- Where the loop over the rows of column `j`, started in `s`, stands once the rows
    `≥ m` are solved. -/
structure SolvedFrom (n nrhs j m : ℕ) (s s' : State K) : Prop where
  a_eq : s'.a = s.a
  /-- No other column is written. -/
  others : ∀ r j', j' < nrhs → j' ≠ j → s'.b (r * nrhs + j') = s.b (r * nrhs + j')
  /-- The rows above `m`, and those past the end, still hold the right-hand side. -/
  todo : ∀ r, r < m ∨ n ≤ r → s'.b (r * nrhs + j) = s.b (r * nrhs + j)
  done : ∀ i, m ≤ i → i < n → s'.b (i * nrhs + j)
    = accumulate n i n s.a (fun k => s'.b (k * nrhs + j)) (s.b (i * nrhs + j)) / s.a (i * n + i)

/-- Solving row `i` extends the solved part by one row. -/
theorem SolvedFrom.solveCell {n nrhs j i : ℕ} (hj : j < nrhs) (hi : i < n) {s s' : State K}
    (h : SolvedFrom n nrhs j (i + 1) s s') :
    SolvedFrom n nrhs j i s (solveCell n nrhs j i s') := by
  -- The store hits row `i` of column `j` and nothing else.
  have hb : ∀ r j', j' < nrhs → (Pivoted.solveCell n nrhs j i s').b (r * nrhs + j')
      = if r = i ∧ j' = j then
          accumulate n i n s'.a (fun k => s'.b (k * nrhs + j)) (s'.b (i * nrhs + j))
            / s'.a (i * n + i)
        else s'.b (r * nrhs + j') := fun r j' hj' => Mem.set_cell hj hj' _ _
  have hbelow : ∀ k, i < k → (Pivoted.solveCell n nrhs j i s').b (k * nrhs + j)
      = s'.b (k * nrhs + j) := fun k hk => by rw [hb k j hj, if_neg (by omega)]
  refine ⟨h.a_eq, fun r j' hj' hne => ?_, fun r hr => ?_, fun r hr hrn => ?_⟩
  · rw [hb r j' hj', if_neg (fun h' => hne h'.2), h.others r j' hj' hne]
  · rw [hb r j hj, if_neg (by omega), h.todo r (by omega)]
  · rcases Nat.eq_or_lt_of_le hr with rfl | hlt
    · rw [hb i j hj, if_pos ⟨rfl, rfl⟩, h.a_eq, h.todo i (by omega),
        accumulate_congr fun k hk _ => (hbelow k hk).symm]
    · rw [hbelow r hlt, h.done r hlt hrn, accumulate_congr fun k hk _ => (hbelow k (by omega)).symm]

/-- The loop over the rows solves the whole column. -/
theorem solveColumn_solvedFrom {n nrhs j : ℕ} (hj : j < nrhs) (s : State K) :
    SolvedFrom n nrhs j 0 s (solveColumn n nrhs j s) := by
  refine forDown_inv (SolvedFrom n nrhs j · s) ?_ fun i s' hi h => h.solveCell hj hi
  exact ⟨rfl, fun _ _ _ _ => rfl, fun _ _ => rfl, fun i h1 h2 => by omega⟩

/-- The flag after one column. -/
theorem solveColumn_errorFlag (n nrhs j : ℕ) (s : State K) :
    (solveColumn n nrhs j s).errorFlag = if SmallDiag n s.a then 1 else s.errorFlag := by
  let I : ℕ → State K → Prop := fun m s' => s'.a = s.a ∧
    s'.errorFlag = if ∃ i < n, m ≤ i ∧ lt (fabs (s.a (i * n + i))) tol = true then 1
      else s.errorFlag
  suffices h : I 0 (solveColumn n nrhs j s) by
    rw [h.2]
    exact if_congr ⟨fun ⟨i, hi, _, h⟩ => ⟨i, hi, h⟩, fun ⟨i, hi, h⟩ => ⟨i, hi, Nat.zero_le i, h⟩⟩
      rfl rfl
  refine forDown_inv I ⟨rfl, by rw [if_neg]; rintro ⟨i, h1, h2, -⟩; omega⟩ ?_
  rintro i s' hi ⟨ha, hf⟩
  refine ⟨ha, ?_⟩
  show (if lt (fabs (s'.a (i * n + i))) tol = true then 1 else s'.errorFlag) = _
  rw [ha, hf]
  by_cases hs : lt (fabs (s.a (i * n + i))) tol = true
  · rw [if_pos hs, if_pos ⟨i, hi, le_rfl, hs⟩]
  · rw [if_neg hs]
    refine if_congr ⟨fun ⟨k, h1, h2, h3⟩ => ⟨k, h1, by omega, h3⟩, ?_⟩ rfl rfl
    rintro ⟨k, h1, h2, h3⟩
    have : k ≠ i := fun hki => hs (hki ▸ h3)
    exact ⟨k, h1, by omega, h3⟩

/-- What one column adds to the trace: its divisions are by the diagonal entries. -/
theorem solveColumn_mem_trace (n nrhs j : ℕ) (s : State K) (d : K) :
    Event.div d ∈ (solveColumn n nrhs j s).trace
      ↔ Event.div d ∈ s.trace ∨ ∃ i < n, d = s.a (i * n + i) := by
  let I : ℕ → State K → Prop := fun m s' => s'.a = s.a ∧
    (Event.div d ∈ s'.trace ↔ Event.div d ∈ s.trace ∨ ∃ i < n, m ≤ i ∧ d = s.a (i * n + i))
  suffices h : I 0 (solveColumn n nrhs j s) by
    rw [h.2]
    simp
  refine forDown_inv I ⟨rfl, ⟨Or.inl, ?_⟩⟩ ?_
  · rintro (h | ⟨i, h1, h2, -⟩)
    · exact h
    · omega
  rintro i s' hi ⟨ha, ht⟩
  refine ⟨ha, ?_⟩
  show Event.div d ∈ Event.store (i * nrhs + j) :: Event.div (s'.a (i * n + i)) :: s'.trace ↔ _
  rw [List.mem_cons, List.mem_cons, ht, ha]
  simp only [reduceCtorEq, false_or, Event.div.injEq]
  constructor
  · rintro (h | h | ⟨k, h1, h2, h3⟩)
    · exact Or.inr ⟨i, hi, le_rfl, h⟩
    · exact Or.inl h
    · exact Or.inr ⟨k, h1, by omega, h3⟩
  · rintro (h | ⟨k, h1, h2, h3⟩)
    · exact Or.inr (Or.inl h)
    · rcases Nat.eq_or_lt_of_le h2 with rfl | hlt
      · exact Or.inl h3
      · exact Or.inr (Or.inr ⟨k, h1, hlt, h3⟩)

/-! ### All columns -/

/-- The back substitution leaves `a` alone. -/
theorem backSubstitute_a (n nrhs : ℕ) (s : State K) : (backSubstitute n nrhs s).a = s.a :=
  forUp_preserves (fun s' : State K => s'.a = s.a) rfl fun _ s' _ hj h =>
    (solveColumn_solvedFrom hj s').a_eq.trans h

/-- Each column ends in the solution of its recurrence. -/
theorem backSubstitute_solves {n nrhs j : ℕ} (hj : j < nrhs) (s : State K) :
    Solves n s.a (fun i => s.b (i * nrhs + j))
      (fun i => (backSubstitute n nrhs s).b (i * nrhs + j)) := by
  -- Columns before `c` are solved, the others untouched.
  let I : ℕ → State K → Prop := fun c s' => s'.a = s.a ∧ ∀ j < nrhs,
    if j < c then Solves n s.a (fun i => s.b (i * nrhs + j)) (fun i => s'.b (i * nrhs + j))
    else ∀ i, s'.b (i * nrhs + j) = s.b (i * nrhs + j)
  suffices h : I nrhs (backSubstitute n nrhs s) by
    have hcol := h.2 j hj
    rwa [if_pos hj] at hcol
  refine forUp_inv I (Nat.zero_le nrhs) ⟨rfl, fun j _ => ?_⟩ ?_
  · rw [if_neg (by omega)]
    exact fun _ => rfl
  rintro c s' - hc ⟨ha, ih⟩
  have hcol := solveColumn_solvedFrom (n := n) hc s'
  refine ⟨hcol.a_eq.trans ha, fun j hj => ?_⟩
  by_cases hjc : j = c
  · subst hjc
    have hrhs := ih j hj
    rw [if_neg (lt_irrefl j)] at hrhs
    rw [if_pos (Nat.lt_succ_self j)]
    intro i hi
    show (solveColumn n nrhs j s').b (i * nrhs + j) = _
    rw [hcol.done i (Nat.zero_le i) hi, ha, hrhs i]
  · have hsame : ∀ i, (solveColumn n nrhs c s').b (i * nrhs + j) = s'.b (i * nrhs + j) :=
      fun i => hcol.others i j hj hjc
    have hold := ih j hj
    by_cases hlt : j < c
    · rw [if_pos (by omega)]
      rw [if_pos hlt] at hold
      simpa only [hsame] using hold
    · rw [if_neg (by omega)]
      rw [if_neg hlt] at hold
      exact fun i => (hsame i).trans (hold i)

/-- The flag says whether some diagonal entry is small, as soon as there is a column. -/
theorem backSubstitute_errorFlag (n nrhs : ℕ) (s : State K) :
    (backSubstitute n nrhs s).errorFlag
      = if 0 < nrhs ∧ SmallDiag n s.a then 1 else s.errorFlag := by
  let I : ℕ → State K → Prop := fun c s' => s'.a = s.a ∧
    s'.errorFlag = if 0 < c ∧ SmallDiag n s.a then 1 else s.errorFlag
  suffices h : I nrhs (backSubstitute n nrhs s) from h.2
  refine forUp_inv I (Nat.zero_le nrhs) ⟨rfl, by rw [if_neg (by simp)]⟩ ?_
  rintro c s' - hc ⟨ha, hf⟩
  refine ⟨(solveColumn_solvedFrom hc s').a_eq.trans ha, ?_⟩
  rw [solveColumn_errorFlag, ha, hf]
  by_cases hs : SmallDiag n s.a <;> simp [hs]

/-- The back substitution exchanges nothing. -/
theorem backSubstitute_swaps (n nrhs : ℕ) (s : State K) :
    (backSubstitute n nrhs s).swaps = s.swaps := by
  refine forUp_preserves (fun s' : State K => s'.swaps = s.swaps) rfl fun j s' _ _ h => ?_
  refine forDown_inv (fun (_ : ℕ) (t : State K) => t.swaps = s.swaps) h fun i t _ ht => ?_
  rw [← ht]
  rfl

/-- The divisions of the back substitution are by the diagonal entries. -/
theorem backSubstitute_mem_trace (n nrhs : ℕ) (s : State K) (d : K) :
    Event.div d ∈ (backSubstitute n nrhs s).trace
      ↔ Event.div d ∈ s.trace ∨ 0 < nrhs ∧ ∃ i < n, d = s.a (i * n + i) := by
  let I : ℕ → State K → Prop := fun c s' => s'.a = s.a ∧
    (Event.div d ∈ s'.trace ↔ Event.div d ∈ s.trace ∨ 0 < c ∧ ∃ i < n, d = s.a (i * n + i))
  suffices h : I nrhs (backSubstitute n nrhs s) from h.2
  refine forUp_inv I (Nat.zero_le nrhs) ⟨rfl, by simp⟩ ?_
  rintro c s' - hc ⟨ha, ht⟩
  refine ⟨(solveColumn_solvedFrom hc s').a_eq.trans ha, ?_⟩
  rw [solveColumn_mem_trace, ht, ha]
  constructor
  · rintro ((h | ⟨-, h⟩) | h)
    · exact Or.inl h
    · exact Or.inr ⟨Nat.succ_pos c, h⟩
    · exact Or.inr ⟨Nat.succ_pos c, h⟩
  · rintro (h | ⟨-, h⟩)
    · exact Or.inl (Or.inl h)
    · exact Or.inr h

end Pivoted

/-! ### The loop of `src/task1/dgesv.c` -/

namespace Unpivoted

/-- A row whose diagonal entry passes the test is solved as in `src/dgesv.c`. -/
theorem solveCell_eq {n i : ℕ} (nrhs j : ℕ) {s : State K}
    (h : ¬ lt (fabs (s.a (i * n + i))) tol = true) :
    solveCell n nrhs j i s = .next (Pivoted.solveCell n nrhs j i s) := by
  simp only [solveCell, Pivoted.solveCell, if_neg h]

/-- **No small diagonal entry**: the loop runs to its end and does what the loop of
    `src/dgesv.c` does. -/
theorem backSubstitute_eq {n : ℕ} (nrhs : ℕ) {s : State K} (h : ¬ SmallDiag n s.a) :
    backSubstitute n nrhs s = .next (Pivoted.backSubstitute n nrhs s) := by
  refine forUpRet_eq_next (fun s' : State K => s'.a = s.a) rfl fun j s' hj ha => ⟨?_, ?_⟩
  · refine forDownRet_eq_next (fun s' : State K => s'.a = s.a) ha fun i t hi ht => ⟨?_, ht⟩
    exact solveCell_eq nrhs j fun hs => h ⟨i, hi, ht ▸ hs⟩
  · exact (Pivoted.solveColumn_solvedFrom hj s').a_eq.trans ha

/-- **Last diagonal entry small**: the very first iteration returns, before any store. -/
theorem backSubstitute_of_last_small {n nrhs : ℕ} (hn : 0 < n) (hnrhs : 0 < nrhs) {s : State K}
    (h : lt (fabs (s.a ((n - 1) * n + (n - 1)))) tol = true) :
    backSubstitute n nrhs s = .ret (-1) s := by
  obtain ⟨m, rfl⟩ : ∃ m, n = m + 1 := ⟨n - 1, by omega⟩
  have hcol : solveColumn (m + 1) nrhs 0 s = .ret (-1) s := by
    rw [solveColumn, forDownRet_succ, solveCell]
    rw [Nat.add_sub_cancel] at h
    rw [if_pos h, Flow.bind_ret]
  -- A loop whose iteration `0` returns never gets any further.
  have hret : ∀ c, forUpRet (solveColumn (m + 1) nrhs) (c + 1) s = .ret (-1) s := by
    intro c
    induction c with
    | zero => rw [forUpRet_succ, forUpRet_zero, Flow.bind_next, hcol]
    | succ c ih => rw [forUpRet_succ, ih, Flow.bind_ret]
  obtain ⟨c, rfl⟩ : ∃ c, nrhs = c + 1 := ⟨nrhs - 1, by omega⟩
  exact hret c

end Unpivoted

end Dgesv
