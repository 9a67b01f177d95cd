import Dgesv.Model.Parallel
import Dgesv.Substitution

namespace Dgesv

open Relation Interleave Loop

/-!
# The schedule does not matter

Whatever the order in which the columns of the parallel back substitution take their steps,
it ends with the `b` and the `error_flag` of the serial loop.  No law of arithmetic is used.

For `b`, column `j` only sees its own private variables, `a`, which no step writes, and the
cells `i * nrhs + j`, which no other column writes (`columnViews`).  The serial loop is one
of the schedules (`run_serial`), so the cells of all complete runs are those of the serial
loop.

The flag is shared and written by several columns, but only ever set to `1`.  It is `1` once
some column has tested a small diagonal entry (`FlagInv`); in the end every column has
tested them all.

`ParallelCall.refines` carries this over to a whole call, so that every result about
`Pivoted.myDgesv` is one about the parallel program.
-/

variable {K : Type*} [Sub K] [Mul K] [Div K] [FloatOps K] {n nrhs : ℕ}

/-! ### What a column sees -/

/-- One step of a column, on what it sees: its private variables, `a`, and its own cells
    `x i` for `b[i * nrhs + j]`. -/
def viewStep (n : ℕ) : ColState K × Mem K × (ℕ → K) → Option (ColState K × Mem K × (ℕ → K))
  | (.load i, a, x) => some (.sumLoop n i (i + 1) (x i), a, x)
  | (.update i k t, a, x) => some (.sumLoop n i (k + 1) (t - a (i * n + k) * x k), a, x)
  | (.test i t, a, x) => some (.store i t, a, x)
  | (.store i t, a, x) => some (.rowLoop i, a, Function.update x i (t / a (i * n + i)))
  | (.done, _, _) => none

/-- No column disturbs another. -/
def columnViews (n nrhs : ℕ) :
    Views (colStep (K := K) n nrhs) (ColState K × Mem K × (ℕ → K)) where
  view j p s := (p, s.a, fun i => s.b (i * nrhs + j))
  next _ := viewStep n
  own := by
    intro j p s
    cases p with
    | load i => rfl
    | update i k t => rfl
    | test i t => rfl
    | store i t =>
      -- The store is seen in row `i` and nowhere else.
      have hcol : Function.update (fun r => s.b (r * nrhs + j)) i (t / s.a (i * n + i))
          = fun r => s.b.set (i * nrhs + j) (t / s.a (i * n + i)) (r * nrhs + j) := by
        funext r
        rw [Mem.set_cell j.isLt j.isLt, Function.update_apply]
        exact if_congr (by simp) rfl rfl
      show some _ = some _
      rw [hcol]
    | done => rfl
  other := by
    intro j j' p s p' s' q hne hstep
    cases p with
    | load i => cases hstep; rfl
    | update i k t => cases hstep; rfl
    | test i t => cases hstep; rfl
    | store i t =>
      cases hstep
      have hcol : (fun r => s.b.set (i * nrhs + j) (t / s.a (i * n + i)) (r * nrhs + j'))
          = fun r => s.b (r * nrhs + j') := by
        funext r
        rw [Mem.set_cell j.isLt j'.isLt, if_neg]
        exact fun hc => hne (Fin.ext hc.2.symm)
      show (q, s.a, _) = (q, s.a, _)
      rw [hcol]
    | done => cases hstep

/-! ### The serial schedule -/

/-- One row of one column. -/
theorem alone_solveCell {i : ℕ} (hi : i < n) (j : Fin nrhs) (s : State K) :
    ReflTransGen (Alone (colStep n nrhs) j) (.load i, s)
      (.rowLoop i, Pivoted.solveCell n nrhs j i s) := by
  let x : ℕ → K := fun k => s.b (k * nrhs + j)
  -- The `k` loop: at its head, `t` is what has been accumulated so far.
  let I : ℕ → K → Prop := fun k t =>
    ReflTransGen (Alone (colStep n nrhs) j) (.load i, s) (.sumLoop n i k t, s)
  have hsum : I n (accumulate n i n s.a x (x i)) := by
    refine forUp_inv I hi (.single rfl) ?_
    intro k t _ hk hrun
    refine hrun.tail ?_
    show colStep n nrhs j (.sumLoop n i k t) s = _
    rw [ColState.sumLoop, if_pos hk]
    rfl
  have htest : ColState.sumLoop n i n (accumulate n i n s.a x (x i))
      = .test i (accumulate n i n s.a x (x i)) := if_neg (lt_irrefl n)
  have hsum' : ReflTransGen (Alone (colStep n nrhs) j) (.load i, s)
      (.test i (accumulate n i n s.a x (x i)), s) := htest ▸ hsum
  exact (hsum'.tail rfl).tail rfl

/-- One column, row by row. -/
theorem alone_solveColumn (j : Fin nrhs) (s : State K) :
    ReflTransGen (Alone (colStep n nrhs) j) (.rowLoop n, s)
      (.done, Pivoted.solveColumn n nrhs j s) := by
  refine forDown_inv (fun i s' => ReflTransGen (Alone (colStep n nrhs) j) (.rowLoop n, s)
    (.rowLoop i, s')) .refl ?_
  intro i s' hi hrun
  exact hrun.trans (alone_solveCell hi j s')

/-- **The serial loop is one of the schedules**, and a complete one. -/
theorem run_serial (n nrhs : ℕ) (s : State K) :
    Run (colStep n nrhs) (fork n nrhs s)
      ⟨fun _ => .done, Pivoted.backSubstitute n nrhs s⟩ :=
  Run.serial (fun _ => ColState.rowLoop n) (fun _ => ColState.done)
    (Pivoted.solveColumn n nrhs) (fun j s' => alone_solveColumn j s') s

/-! ### The shared flag -/

namespace ColState

/-- The column has tested the diagonal entry of row `r`. -/
def Tested : ColState K → ℕ → Prop
  | .load i, r => i < r
  | .update i _ _, r => i < r
  | .test i _, r => i < r
  | .store i _, r => i ≤ r
  | .done, _ => True

/-- The row a column is at is one of the matrix. -/
def InRange (n : ℕ) : ColState K → Prop
  | .load i => i < n
  | .update i _ _ => i < n
  | .test i _ => i < n
  | .store i _ => i < n
  | .done => True

/-- The column has tested a small diagonal entry of `a`. -/
def Raised (n : ℕ) (a : Mem K) (p : ColState K) : Prop :=
  ∃ r < n, p.Tested r ∧ lt (fabs (a (r * n + r))) tol = true

/-- The next step of the column tests a small diagonal entry of `a`. -/
def Raising (n : ℕ) (a : Mem K) : ColState K → Prop
  | .test i _ => lt (fabs (a (i * n + i))) tol = true
  | _ => False

instance (n : ℕ) (a : Mem K) : (p : ColState K) → Decidable (p.Raising n a)
  | .test i _ => inferInstanceAs (Decidable (lt (fabs (a (i * n + i))) tol = true))
  | .load _ => inferInstanceAs (Decidable False)
  | .update _ _ _ => inferInstanceAs (Decidable False)
  | .store _ _ => inferInstanceAs (Decidable False)
  | .done => inferInstanceAs (Decidable False)

omit [Sub K] [Mul K] [Div K] [FloatOps K] in
theorem tested_sumLoop (i k : ℕ) (t : K) (r : ℕ) : (sumLoop n i k t).Tested r ↔ i < r := by
  unfold sumLoop
  split_ifs <;> exact Iff.rfl

omit [Sub K] [Mul K] [Div K] [FloatOps K] in
theorem tested_rowLoop (i r : ℕ) : (rowLoop i : ColState K).Tested r ↔ i ≤ r := by
  cases i with
  | zero => exact iff_of_true trivial (Nat.zero_le r)
  | succ i => exact Iff.rfl

omit [Sub K] [Mul K] [Div K] [FloatOps K] in
theorem inRange_sumLoop (i k : ℕ) (t : K) : (sumLoop n i k t).InRange n ↔ i < n := by
  unfold sumLoop
  split_ifs <;> exact Iff.rfl

omit [Sub K] [Mul K] [Div K] [FloatOps K] in
theorem inRange_rowLoop {i : ℕ} (hi : i ≤ n) : (rowLoop i : ColState K).InRange n := by
  cases i with
  | zero => trivial
  | succ i => exact hi

omit [Sub K] [Mul K] [Div K] in
/-- A step that is no test leaves it at that. -/
theorem raised_of_tested {a : Mem K} {p p' : ColState K} (h : ∀ r, p'.Tested r ↔ p.Tested r)
    (hquiet : ¬ p.Raising n a) : p'.Raised n a ↔ p.Raised n a ∨ p.Raising n a := by
  rw [or_iff_left hquiet]
  unfold Raised
  simp only [h]

end ColState

open ColState

/-- A step raises the flag iff it tests a small entry, and remembers that it did. -/
theorem colStep_flag {j : Fin nrhs} {p p' : ColState K} {s s' : State K} (hp : p.InRange n)
    (h : colStep n nrhs j p s = some (p', s')) :
    s'.a = s.a ∧ p'.InRange n ∧
      s'.errorFlag = (if p.Raising n s.a then 1 else s.errorFlag) ∧
      (p'.Raised n s.a ↔ p.Raised n s.a ∨ p.Raising n s.a) := by
  cases p with
  | load i =>
    cases h
    refine ⟨rfl, (inRange_sumLoop _ _ _).mpr hp, (if_neg id).symm, ?_⟩
    exact raised_of_tested (tested_sumLoop _ _ _) id
  | update i k t =>
    cases h
    refine ⟨rfl, (inRange_sumLoop _ _ _).mpr hp, (if_neg id).symm, ?_⟩
    exact raised_of_tested (tested_sumLoop _ _ _) id
  | test i t =>
    cases h
    refine ⟨rfl, hp, rfl, ?_⟩
    simp only [Raised, Raising, Tested]
    constructor
    · rintro ⟨r, hr, hir, hsmall⟩
      rcases Nat.eq_or_lt_of_le hir with rfl | hlt
      · exact Or.inr hsmall
      · exact Or.inl ⟨r, hr, hlt, hsmall⟩
    · rintro (⟨r, hr, hir, hsmall⟩ | hsmall)
      · exact ⟨r, hr, hir.le, hsmall⟩
      · exact ⟨i, hp, le_rfl, hsmall⟩
  | store i t =>
    cases h
    refine ⟨rfl, inRange_rowLoop (Nat.le_of_lt hp), (if_neg id).symm, ?_⟩
    exact raised_of_tested (tested_rowLoop i) id
  | done => cases h

/-- In a run from state `s`, the flag says whether some column has tested a small entry. -/
structure FlagInv (n nrhs : ℕ) (s : State K) (c : Config (Fin nrhs) (ColState K) (State K)) :
    Prop where
  a_eq : c.mem.a = s.a
  inRange : ∀ j, (c.loc j).InRange n
  raised : (∃ j, (c.loc j).Raised n s.a) → c.mem.errorFlag = 1
  calm : (¬ ∃ j, (c.loc j).Raised n s.a) → c.mem.errorFlag = s.errorFlag

omit [Sub K] [Mul K] [Div K] in
/-- On entry. -/
theorem flagInv_fork (n nrhs : ℕ) (s : State K) : FlagInv n nrhs s (fork n nrhs s) where
  a_eq := rfl
  inRange j := inRange_rowLoop le_rfl
  raised h := by
    obtain ⟨j, r, hr, htested, -⟩ := h
    have hge : n ≤ r := (tested_rowLoop n r).mp htested
    omega
  calm _ := rfl

/-- Every step keeps it. -/
theorem FlagInv.step {s : State K} {c : Config (Fin nrhs) (ColState K) (State K)}
    (inv : FlagInv n nrhs s c) {j : Fin nrhs} {p : ColState K} {s' : State K}
    (h : colStep n nrhs j (c.loc j) c.mem = some (p, s')) :
    FlagInv n nrhs s ⟨Function.update c.loc j p, s'⟩ := by
  obtain ⟨ha, hrange, hflag, hraised⟩ := colStep_flag (inv.inRange j) h
  rw [inv.a_eq] at ha hflag hraised
  -- Some column has tested a small entry now iff one had before, or the step did.
  have hany : (∃ l, (Function.update c.loc j p l).Raised n s.a)
      ↔ (∃ l, (c.loc l).Raised n s.a) ∨ (c.loc j).Raising n s.a := by
    constructor
    · rintro ⟨l, hl⟩
      by_cases hlj : l = j
      · subst hlj
        rw [Function.update_self, hraised] at hl
        exact hl.imp_left fun h => ⟨l, h⟩
      · rw [Function.update_of_ne hlj] at hl
        exact Or.inl ⟨l, hl⟩
    · rintro (⟨l, hl⟩ | hnow)
      · by_cases hlj : l = j
        · subst hlj
          exact ⟨l, by rw [Function.update_self, hraised]; exact Or.inl hl⟩
        · exact ⟨l, by rw [Function.update_of_ne hlj]; exact hl⟩
      · exact ⟨j, by rw [Function.update_self, hraised]; exact Or.inr hnow⟩
  refine ⟨ha, ?_, ?_, ?_⟩
  · intro l
    show (Function.update c.loc j p l).InRange n
    by_cases hlj : l = j
    · subst hlj
      rw [Function.update_self]
      exact hrange
    · rw [Function.update_of_ne hlj]
      exact inv.inRange l
  · intro hex
    show s'.errorFlag = 1
    rw [hflag]
    by_cases hnow : (c.loc j).Raising n s.a
    · rw [if_pos hnow]
    · rw [if_neg hnow]
      exact inv.raised ((hany.mp hex).resolve_right hnow)
  · intro hno
    show s'.errorFlag = s.errorFlag
    rw [hflag, if_neg fun hnow => hno (hany.mpr (Or.inr hnow))]
    exact inv.calm fun hex => hno (hany.mpr (Or.inl hex))

/-- A configuration is complete iff every column is finished. -/
theorem complete_iff {c : Config (Fin nrhs) (ColState K) (State K)} :
    Complete (colStep n nrhs) c ↔ ∀ j, c.loc j = .done := by
  constructor
  · intro h j
    have hj := h j
    cases hp : c.loc j with
    | done => rfl
    | load i => rw [hp] at hj; cases hj
    | update i k t => rw [hp] at hj; cases hj
    | test i t => rw [hp] at hj; cases hj
    | store i t => rw [hp] at hj; cases hj
  · intro h j
    rw [h j]
    rfl

/-- In the end every column has tested every row. -/
theorem FlagInv.errorFlag_eq {s : State K} {c : Config (Fin nrhs) (ColState K) (State K)}
    (inv : FlagInv n nrhs s c) (hc : Complete (colStep n nrhs) c) :
    c.mem.errorFlag = (Pivoted.backSubstitute n nrhs s).errorFlag := by
  have hdone := complete_iff.mp hc
  rw [Pivoted.backSubstitute_errorFlag]
  by_cases h : 0 < nrhs ∧ SmallDiag n s.a
  · rw [if_pos h]
    obtain ⟨hpos, r, hr, hsmall⟩ := h
    apply inv.raised
    refine ⟨⟨0, hpos⟩, r, hr, ?_, hsmall⟩
    rw [hdone]
    trivial
  · rw [if_neg h]
    apply inv.calm
    rintro ⟨j, r, hr, -, hsmall⟩
    exact h ⟨Nat.zero_lt_of_lt j.isLt, r, hr, hsmall⟩

/-! ### The result -/

/-- The memory at the end of a complete run. -/
theorem mem_of_complete {s : State K} {c : Config (Fin nrhs) (ColState K) (State K)}
    (hrun : Run (colStep n nrhs) (fork n nrhs s) c) (hc : Complete (colStep n nrhs) c) :
    c.mem.a = s.a ∧
      c.mem.b.get = (Pivoted.backSubstitute n nrhs s).b.get ∧
      c.mem.errorFlag = (Pivoted.backSubstitute n nrhs s).errorFlag := by
  have inv : FlagInv n nrhs s c :=
    Run.inv (FlagInv n nrhs s) (flagInv_fork n nrhs s) (fun _ _ _ _ h hs => h.step hs) hrun
  refine ⟨inv.a_eq, ?_, inv.errorFlag_eq hc⟩
  rcases Nat.eq_zero_or_pos nrhs with rfl | hpos
  · -- Without columns there are no steps.
    rcases hrun.cases_head with rfl | ⟨_, ⟨j, _⟩, _⟩
    · rfl
    · exact j.elim0
  · apply Mem.get_ext hpos
    intro i j hj
    have hview := (columnViews n nrhs).complete_unique hrun hc (run_serial n nrhs s)
      (complete_iff.mpr fun _ => rfl) ⟨j, hj⟩
    have hcells : (fun r => c.mem.b (r * nrhs + j))
        = fun r => (Pivoted.backSubstitute n nrhs s).b (r * nrhs + j) :=
      congrArg (fun v => v.2.2) hview
    exact congrFun hcells i

/-- **Schedule independence.**  Every complete run of the parallel back substitution, in
    whatever order its columns take their steps, leaves the `b` and the `error_flag` of the
    serial loop, and so leads to the same return code. -/
theorem backSubstitute_schedule (s : State K) {c : Config (Fin nrhs) (ColState K) (State K)}
    (hrun : Run (colStep n nrhs) (fork n nrhs s) c) (hc : Complete (colStep n nrhs) c) :
    c.mem.a = s.a ∧
      c.mem.b.get = (Pivoted.backSubstitute n nrhs s).b.get ∧
      c.mem.errorFlag = (Pivoted.backSubstitute n nrhs s).errorFlag ∧
      Pivoted.exitCode c.mem = Pivoted.exitCode (Pivoted.backSubstitute n nrhs s) := by
  obtain ⟨ha, hb, hflag⟩ := mem_of_complete hrun hc
  refine ⟨ha, hb, hflag, ?_⟩
  rw [Pivoted.exitCode, Pivoted.exitCode, hflag]

/-- Two columns of the system with rows `(2, 4)` and `(0, 5)`, the second of them overtaking
    the first. -/
theorem backSubstitute_schedule_two :
    ∃ c,
      Run (colStep 2 2)
        (fork 2 2 (.init (.ofList [2, 4, 0, 5] : Mem ℚ) (.ofList [6, 8, 5, 10]))) c ∧
      Complete (colStep 2 2) c ∧
      c.mem.b.get
        = (Pivoted.backSubstitute 2 2
            (.init (.ofList [2, 4, 0, 5]) (.ofList [6, 8, 5, 10]))).b.get := by
  let s : State ℚ := .init (.ofList [2, 4, 0, 5]) (.ofList [6, 8, 5, 10])
  let run := exec (colStep 2 2) [0, 1, 1, 0, 1, 1, 1, 1, 0, 0, 1, 0, 0, 0] (fork 2 2 s)
  have hsome : run.isSome = true := by decide +kernel
  have hfinal : run.map (fun c => (c.loc 0, c.loc 1)) = some (.done, .done) := by decide +kernel
  obtain ⟨c, hexec⟩ := Option.isSome_iff_exists.mp hsome
  rw [hexec, Option.map_some] at hfinal
  have hdone : Complete (colStep 2 2) c := by
    rw [complete_iff, Fin.forall_fin_two]
    exact Prod.ext_iff.mp (Option.some.inj hfinal)
  have hrun := Run.of_exec hexec
  exact ⟨c, hrun, hdone, (backSubstitute_schedule s hrun hdone).2.1⟩

/-! ### The whole call -/

variable [Neg K] [Add K]

/-- **The parallel call refines the serial one**: it can only return what `myDgesv` returns
    and leave what `myDgesv` leaves. -/
theorem ParallelCall.refines {a b : Mem K} {o : ℤ × State K} (h : ParallelCall n nrhs a b o) :
    o.1 = (Pivoted.myDgesv n nrhs a b).1 ∧ o.2.a = (Pivoted.myDgesv n nrhs a b).2.a ∧
      o.2.b.get = (Pivoted.myDgesv n nrhs a b).2.b.get := by
  unfold Pivoted.myDgesv
  cases h with
  | early r s h =>
    rw [h]
    exact ⟨rfl, rfl, rfl⟩
  | joined s c h run complete =>
    obtain ⟨ha, hb, hflag⟩ := mem_of_complete run complete
    rw [h]
    refine ⟨?_, ?_, hb⟩
    · show Pivoted.exitCode c.mem = Pivoted.exitCode _
      rw [Pivoted.exitCode, Pivoted.exitCode, hflag]
    · show c.mem.a = (Pivoted.backSubstitute n nrhs s).a
      rw [ha, Pivoted.backSubstitute_a]

/-- The serial call is one of the parallel ones. -/
theorem parallelCall_myDgesv (n nrhs : ℕ) (a b : Mem K) :
    ParallelCall n nrhs a b (Pivoted.myDgesv n nrhs a b) := by
  unfold Pivoted.myDgesv
  cases h : Pivoted.eliminate n nrhs (.init a b) with
  | ret r s => exact .early r s h
  | next s =>
    exact .joined s ⟨fun _ => .done, Pivoted.backSubstitute n nrhs s⟩ h (run_serial n nrhs s)
      (complete_iff.mpr fun _ => rfl)

end Dgesv
