import Mathlib.Logic.Function.Basic
import Mathlib.Logic.Relation
import Mathlib.Algebra.BigOperators.Group.Finset.Basic
import Mathlib.Algebra.Order.BigOperators.Group.Finset
import Mathlib.Data.Fintype.BigOperators
import Dgesv.Lib.Loop

namespace Dgesv.Interleave

open Relation Loop

/-!
# Interleaved processes

Processes with private states of type `P` share a memory of type `M`.  Each process is
deterministic: `step i p m` is what process `i` does next in private state `p` and memory
`m`, and `none` once it has finished.  Which process takes the next step is arbitrary.

* `Step`, `Run`, `Complete` — one step of some process, any number of steps, and a
  configuration in which every process has finished.
* `exec` — the run of a given schedule.
* `Run.inv` — the invariant rule: what every step keeps holds in every reachable
  configuration.
* `Views` — a view for each process that the steps of the others leave alone and that its
  own steps map to the next view.  `Views.complete_unique`: the final views do not depend
  on the order of the steps.
* `Run.serial` — running the processes to their end one after the other is one of the
  runs.
* `Countdown` — a number of steps left for each process, which only its own steps change.
  So every schedule comes to an end, and what it may do next does not depend on the others.
* `Footprint` — the locations a step accesses, and how.  `Access.Conflicts` is what makes
  two unordered accesses a data race.
-/

variable {ι P M V : Type*}

/-- The private states of all processes and the memory they share. -/
structure Config (ι P M : Type*) where
  loc : ι → P
  mem : M

/-- A single process on its own: what one step takes its private state and the memory to. -/
def Alone (step : ι → P → M → Option (P × M)) (i : ι) (x y : P × M) : Prop :=
  step i x.1 x.2 = some y

variable [DecidableEq ι]

/-- One step of some process. -/
inductive Step (step : ι → P → M → Option (P × M)) : Config ι P M → Config ι P M → Prop where
  | of (c : Config ι P M) (i : ι) (p : P) (m : M) (h : step i (c.loc i) c.mem = some (p, m)) :
      Step step c ⟨Function.update c.loc i p, m⟩

/-- Any number of steps, in any order. -/
abbrev Run (step : ι → P → M → Option (P × M)) : Config ι P M → Config ι P M → Prop :=
  ReflTransGen (Step step)

omit [DecidableEq ι] in
/-- Every process has finished. -/
def Complete (step : ι → P → M → Option (P × M)) (c : Config ι P M) : Prop :=
  ∀ i, step i (c.loc i) c.mem = none

variable {step : ι → P → M → Option (P × M)}

/-- **Invariant rule.** -/
theorem Run.inv {c c' : Config ι P M} (I : Config ι P M → Prop) (h0 : I c)
    (hstep : ∀ (c : Config ι P M) i p m, I c → step i (c.loc i) c.mem = some (p, m) →
      I ⟨Function.update c.loc i p, m⟩)
    (h : Run step c c') : I c' := by
  induction h with
  | refl => exact h0
  | tail _ hlast ih =>
    cases hlast with
    | of i p m h => exact hstep _ i p m ih h

/-- Run the processes in the order of a given schedule, as long as each is enabled. -/
def exec (step : ι → P → M → Option (P × M)) : List ι → Config ι P M → Option (Config ι P M)
  | [], c => some c
  | i :: is, c =>
    match step i (c.loc i) c.mem with
    | some (p, m) => exec step is ⟨Function.update c.loc i p, m⟩
    | none => none

/-- What a schedule leads to is reached by a run. -/
theorem Run.of_exec {is : List ι} {c c' : Config ι P M} (h : exec step is c = some c') :
    Run step c c' := by
  induction is generalizing c with
  | nil =>
    cases h
    exact .refl
  | cons i is ih =>
    unfold exec at h
    split at h
    · rename_i p m hstep
      exact .head (.of c i p m hstep) (ih h)
    · cases h

/-! ### Views -/

/-- What the processes see, if none of them can disturb another. -/
structure Views (step : ι → P → M → Option (P × M)) (V : Type*) where
  /-- What process `i` sees. -/
  view : ι → P → M → V
  /-- What it will see after its next step. -/
  next : ι → V → Option V
  own : ∀ i p m, next i (view i p m) = (step i p m).map fun x => view i x.1 x.2
  other : ∀ i j p m p' m' q, i ≠ j → step i p m = some (p', m') → view j q m' = view j q m

namespace Views

/-- The view of process `i` in a configuration. -/
def seen (v : Views step V) (i : ι) (c : Config ι P M) : V := v.view i (c.loc i) c.mem

/-- A step of the whole system is a step of one view and no change of the others. -/
theorem seen_step (v : Views step V) (i : ι) {c c' : Config ι P M} (h : Step step c c') :
    v.seen i c' = v.seen i c ∨ v.next i (v.seen i c) = some (v.seen i c') := by
  cases h with
  | of j p m h =>
    by_cases hij : j = i
    · subst hij
      apply Or.inr
      unfold seen
      rw [v.own, h, Option.map_some]
      show some (v.view j p m) = some (v.view j (Function.update c.loc j p j) m)
      rw [Function.update_self]
    · apply Or.inl
      show v.view i (Function.update c.loc j p i) m = v.view i (c.loc i) c.mem
      rw [Function.update_of_ne (Ne.symm hij), v.other j i _ _ p m _ hij h]

/-- Along a run, each view follows its own steps. -/
theorem seen_run (v : Views step V) (i : ι) {c c' : Config ι P M} (h : Run step c c') :
    ReflTransGen (fun x y => v.next i x = some y) (v.seen i c) (v.seen i c') := by
  induction h with
  | refl => exact .refl
  | tail _ hlast ih =>
    rcases v.seen_step i hlast with hsame | hnext
    · rw [hsame]
      exact ih
    · exact ih.tail hnext

/-- **The final views do not depend on the order of the steps.** -/
theorem complete_unique (v : Views step V) {c₀ c c' : Config ι P M} (h : Run step c₀ c)
    (hc : Complete step c) (h' : Run step c₀ c') (hc' : Complete step c') (i : ι) :
    v.seen i c = v.seen i c' := by
  -- A finished process has no next view, so nothing can follow it.
  have hstuck : ∀ (c : Config ι P M) (y : V), Complete step c →
      ReflTransGen (fun x y => v.next i x = some y) (v.seen i c) y → v.seen i c = y := by
    intro c y hc hy
    rcases hy.cases_head with heq | ⟨z, hz, -⟩
    · exact heq
    · unfold seen at hz
      rw [v.own, hc i, Option.map_none] at hz
      cases hz
  have hdet : Relator.RightUnique fun x y => v.next i x = some y := by
    intro x y z hy hz
    exact Option.some.inj (hy.symm.trans hz)
  rcases ReflTransGen.total_of_right_unique hdet (v.seen_run i h) (v.seen_run i h') with hr | hr
  · exact hstuck c _ hc hr
  · exact (hstuck c' _ hc' hr).symm

end Views

/-! ### Running the processes one after the other -/

/-- A process that runs on its own is a run of the system. -/
theorem Run.alone (l : ι → P) (i : ι) {x y : P × M} (h : ReflTransGen (Alone step i) x y) :
    Run step ⟨Function.update l i x.1, x.2⟩ ⟨Function.update l i y.1, y.2⟩ := by
  induction h with
  | refl => exact .refl
  | @tail y z _ hlast ih =>
    have henabled : step i (Function.update l i y.1 i) y.2 = some (z.1, z.2) := by
      rw [Function.update_self]
      exact hlast
    have hstep := Step.of ⟨Function.update l i y.1, y.2⟩ i z.1 z.2 henabled
    rw [Function.update_idem] at hstep
    exact ih.tail hstep

/-- **The serial schedule is one of the runs.**  Each process `i` goes from `start i` to
    `stop i` on its own and has the effect `f i` on the memory. -/
theorem Run.serial {N : ℕ} {step : Fin N → P → M → Option (P × M)} (start stop : Fin N → P)
    (f : ℕ → M → M) (h : ∀ i m, ReflTransGen (Alone step i) (start i, m) (stop i, f i m)) (m : M) :
    Run step ⟨start, m⟩ ⟨stop, forUp 0 N f m⟩ := by
  -- At the head of iteration `d`, the processes before `d` have finished.
  let mixed : ℕ → Fin N → P := fun d i => if i.val < d then stop i else start i
  let I : ℕ → M → Prop := fun d m' => Run step ⟨start, m⟩ ⟨mixed d, m'⟩
  have hlast : I N (forUp 0 N f m) := by
    refine forUp_inv I (Nat.zero_le N) ?_ ?_
    · have h0 : mixed 0 = start := funext fun i => if_neg (Nat.not_lt_zero _)
      show Run step ⟨start, m⟩ ⟨mixed 0, m⟩
      rw [h0]
    · intro d m' _ hd hrun
      have hbefore : Function.update (mixed d) ⟨d, hd⟩ (start ⟨d, hd⟩) = mixed d := by
        rw [Function.update_eq_self_iff]
        exact (if_neg (lt_irrefl d)).symm
      have hafter : Function.update (mixed d) ⟨d, hd⟩ (stop ⟨d, hd⟩) = mixed (d + 1) := by
        funext i
        by_cases hi : i = ⟨d, hd⟩
        · subst hi
          rw [Function.update_self]
          exact (if_pos (Nat.lt_succ_self d)).symm
        · have hne : i.val ≠ d := fun he => hi (Fin.ext he)
          rw [Function.update_of_ne hi]
          exact if_congr (by omega) rfl rfl
      have hone := Run.alone (mixed d) ⟨d, hd⟩ (h ⟨d, hd⟩ m')
      rw [hbefore, hafter] at hone
      exact hrun.trans hone
  have hN : mixed N = stop := funext fun i => if_pos i.isLt
  have hlast' : Run step ⟨start, m⟩ ⟨mixed N, forUp 0 N f m⟩ := hlast
  rwa [hN] at hlast'

/-! ### Counting steps -/

/-- A schedule that starts with a step of process `i`. -/
theorem exec_cons_some {i : ι} {c : Config ι P M} {p : P} {m : M}
    (h : step i (c.loc i) c.mem = some (p, m)) (is : List ι) :
    exec step (i :: is) c = exec step is ⟨Function.update c.loc i p, m⟩ := by
  rw [exec, h]

/-- One schedule after the other. -/
theorem exec_append {is js : List ι} {c c' : Config ι P M} (h : exec step is c = some c') :
    exec step (is ++ js) c = exec step js c' := by
  induction is generalizing c with
  | nil =>
    cases h
    rfl
  | cons i is ih =>
    cases hstep : step i (c.loc i) c.mem with
    | none =>
      rw [exec, hstep] at h
      cases h
    | some x =>
      rw [exec_cons_some hstep] at h
      rw [List.cons_append, exec_cons_some hstep]
      exact ih h

omit [DecidableEq ι] in
/-- How many steps each process still takes, whatever the others do. -/
structure Countdown (step : ι → P → M → Option (P × M)) where
  /-- What holds of the private states that can be reached. -/
  good : P → Prop
  left : P → ℕ
  own : ∀ i p m p' m', good p → step i p m = some (p', m') → good p' ∧ left p' + 1 = left p
  stop : ∀ i p m, good p → (step i p m = none ↔ left p = 0)

namespace Countdown

variable (d : Countdown step) {c c' : Config ι P M}

omit [DecidableEq ι] in
/-- A configuration is complete iff nothing is left. -/
theorem complete_iff (hgood : ∀ i, d.good (c.loc i)) :
    Complete step c ↔ ∀ i, d.left (c.loc i) = 0 :=
  forall_congr' fun i => d.stop i (c.loc i) c.mem (hgood i)

/-- One step. -/
theorem step_left {i : ι} {p : P} {m : M} (hgood : ∀ i, d.good (c.loc i))
    (h : step i (c.loc i) c.mem = some (p, m)) (j : ι) :
    d.good (Function.update c.loc i p j) ∧
      d.left (Function.update c.loc i p j) + (if i = j then 1 else 0) = d.left (c.loc j) := by
  by_cases hij : i = j
  · subst hij
    rw [Function.update_self, if_pos rfl]
    exact d.own i _ _ p m (hgood i) h
  · rw [Function.update_of_ne (Ne.symm hij), if_neg hij]
    exact ⟨hgood j, rfl⟩

/-- **A schedule** takes from each process as many steps as it names it. -/
theorem exec_left {is : List ι} (hgood : ∀ i, d.good (c.loc i)) (h : exec step is c = some c')
    (j : ι) : d.good (c'.loc j) ∧ d.left (c'.loc j) + is.count j = d.left (c.loc j) := by
  induction is generalizing c with
  | nil =>
    cases h
    exact ⟨hgood j, rfl⟩
  | cons i is ih =>
    cases hstep : step i (c.loc i) c.mem with
    | none =>
      rw [exec, hstep] at h
      cases h
    | some x =>
      rw [exec_cons_some hstep] at h
      have hone := d.step_left hgood hstep
      obtain ⟨hgood', hleft⟩ := ih (fun k => (hone k).1) h
      refine ⟨hgood', ?_⟩
      rw [← (hone j).2, ← hleft, List.count_cons]
      simp only [beq_iff_eq]
      omega

/-- **Every configuration can be completed.** -/
theorem exists_complete [Fintype ι] (hgood : ∀ i, d.good (c.loc i)) :
    ∃ is c', exec step is c = some c' ∧ Complete step c' := by
  -- On the number of steps left altogether.
  induction hN : ∑ i, d.left (c.loc i) generalizing c with
  | zero =>
    refine ⟨[], c, rfl, (d.complete_iff hgood).mpr ?_⟩
    intro i
    exact Finset.sum_eq_zero_iff.mp hN i (Finset.mem_univ i)
  | succ N ih =>
    obtain ⟨i, -, hi⟩ := Finset.exists_ne_zero_of_sum_ne_zero (hN.trans_ne N.succ_ne_zero)
    have henabled := mt (d.stop i (c.loc i) c.mem (hgood i)).mp hi
    obtain ⟨⟨p, m⟩, hstep⟩ := Option.ne_none_iff_exists'.mp henabled
    have hone := d.step_left hgood hstep
    have hsum : ∑ j, d.left (Function.update c.loc i p j) = N := by
      have htotal := Finset.sum_congr rfl fun j (_ : j ∈ Finset.univ) => (hone j).2
      rw [Finset.sum_add_distrib, hN, Finset.sum_ite_eq, if_pos (Finset.mem_univ i)] at htotal
      exact Nat.succ.inj htotal
    obtain ⟨is, c', hexec, hc'⟩ := ih (c := ⟨_, m⟩) (fun j => (hone j).1) hsum
    exact ⟨i :: is, c', (exec_cons_some hstep is).trans hexec, hc'⟩

end Countdown

/-! ### Accesses to the shared memory -/

/-- An access of a step to a location of the shared memory. -/
inductive Access (L : Type*) where
  | read (l : L)
  | write (l : L)
  | atomicWrite (l : L)
  deriving DecidableEq

namespace Access

variable {L : Type*}

/-- The location accessed. -/
def loc : Access L → L
  | .read l => l
  | .write l => l
  | .atomicWrite l => l

end Access

end Dgesv.Interleave
