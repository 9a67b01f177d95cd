import Mathlib.Data.Nat.Basic
import Mathlib.Tactic.Common

namespace Dgesv.Loop

/-!
# Counted loops with early return

The two C loop shapes `for (i = lo; i < hi; i++)` and `for (i = n - 1; i >= 0; i--)`
over an arbitrary state type, each in a plain form and in a form whose body may
`return` from the enclosing function.

* `Flow ρ σ` — what a statement does: fall through with a new state, or return the
  value `r : ρ` and leave the state as it is at that point.
* `forUp`, `forDown` — loops that always run to their end.
* `forUpRet`, `forDownRet` — loops whose body may return.

Each loop comes with its unfolding lemmas and with one invariant rule; the invariant is
indexed by the loop variable, so the rule reads as "what holds at the head of iteration
`i`".
-/

variable {ρ σ τ : Type*}

/-! ### Loops that run to their end -/

/-- `for (i = lo; i < lo + cnt; i++) s = body i s`. -/
def iterUp (body : ℕ → σ → σ) (lo : ℕ) : ℕ → σ → σ
  | 0, s => s
  | cnt + 1, s => body (lo + cnt) (iterUp body lo cnt s)

/-- `for (i = lo; i < hi; i++) s = body i s`. -/
def forUp (lo hi : ℕ) (body : ℕ → σ → σ) (s : σ) : σ := iterUp body lo (hi - lo) s

/-- `for (i = n - 1; i >= 0; i--) s = body i s`. -/
def forDown (body : ℕ → σ → σ) : ℕ → σ → σ
  | 0, s => s
  | i + 1, s => forDown body i (body i s)

/-- The loop does nothing on an empty range. -/
@[simp] theorem forUp_of_le {lo hi : ℕ} (h : hi ≤ lo) (body : ℕ → σ → σ) (s : σ) :
    forUp lo hi body s = s := by
  simp [forUp, iterUp, Nat.sub_eq_zero_of_le h]

/-- Peel off the last iteration. -/
theorem forUp_succ {lo hi : ℕ} (h : lo ≤ hi) (body : ℕ → σ → σ) (s : σ) :
    forUp lo (hi + 1) body s = body hi (forUp lo hi body s) := by
  obtain ⟨c, rfl⟩ := Nat.exists_eq_add_of_le h
  simp [forUp, iterUp, Nat.add_assoc]

@[simp] theorem forDown_zero (body : ℕ → σ → σ) (s : σ) : forDown body 0 s = s := rfl

@[simp] theorem forDown_succ (body : ℕ → σ → σ) (i : ℕ) (s : σ) :
    forDown body (i + 1) s = forDown body i (body i s) := rfl

/-- **Invariant rule for `forUp`.**  `I i s` is what holds at the head of iteration `i`. -/
theorem forUp_inv {lo hi : ℕ} {body : ℕ → σ → σ} {s : σ} (I : ℕ → σ → Prop) (hle : lo ≤ hi)
    (h0 : I lo s) (hstep : ∀ i s', lo ≤ i → i < hi → I i s' → I (i + 1) (body i s')) :
    I hi (forUp lo hi body s) := by
  induction hi, hle using Nat.le_induction with
  | base => rwa [forUp_of_le le_rfl]
  | succ m hm ih =>
    rw [forUp_succ hm]
    exact hstep m _ hm m.lt_succ_self (ih fun i s' h1 h2 => hstep i s' h1 (by omega))

/-- **Frame rule for `forUp`.**  A property that no iteration destroys survives the loop. -/
theorem forUp_preserves {lo hi : ℕ} {body : ℕ → σ → σ} {s : σ} (I : σ → Prop)
    (h0 : I s) (hstep : ∀ i s', lo ≤ i → i < hi → I s' → I (body i s')) :
    I (forUp lo hi body s) := by
  rcases Nat.lt_or_ge hi lo with h | h
  · rwa [forUp_of_le (Nat.le_of_lt h)]
  · exact forUp_inv (fun _ => I) h h0 hstep

/-- **Simulation rule for `forUp`.**  Two loops over one range whose bodies keep their
    states related end in related states. -/
theorem forUp_rel {lo hi : ℕ} {body : ℕ → σ → σ} {body' : ℕ → τ → τ} {s : σ} {t : τ}
    (R : σ → τ → Prop) (h0 : R s t)
    (hstep : ∀ i s' t', lo ≤ i → i < hi → R s' t' → R (body i s') (body' i t')) :
    R (forUp lo hi body s) (forUp lo hi body' t) := by
  rcases Nat.lt_or_ge hi lo with h | h
  · rwa [forUp_of_le (Nat.le_of_lt h), forUp_of_le (Nat.le_of_lt h)]
  · induction hi, h using Nat.le_induction with
    | base => rwa [forUp_of_le le_rfl, forUp_of_le le_rfl]
    | succ m hm ih =>
      rw [forUp_succ hm, forUp_succ hm]
      exact hstep m _ _ hm m.lt_succ_self (ih fun i s' t' h1 h2 => hstep i s' t' h1 (by omega))

/-- Loops whose bodies agree on the range are equal. -/
theorem forUp_congr {lo hi : ℕ} {body body' : ℕ → σ → σ} {s : σ}
    (h : ∀ i s', lo ≤ i → i < hi → body i s' = body' i s') :
    forUp lo hi body s = forUp lo hi body' s :=
  forUp_rel Eq rfl fun i s' _ h1 h2 he => by rw [← he]; exact h i s' h1 h2

/-- **Invariant rule for `forDown`.**  `I i s` is what holds once the iterations `≥ i`
    are done. -/
theorem forDown_inv {n : ℕ} {body : ℕ → σ → σ} {s : σ} (I : ℕ → σ → Prop)
    (h0 : I n s) (hstep : ∀ i s', i < n → I (i + 1) s' → I i (body i s')) :
    I 0 (forDown body n s) := by
  induction n generalizing s with
  | zero => exact h0
  | succ m ih =>
    exact ih (hstep m s m.lt_succ_self h0) fun i s' hi => hstep i s' (by omega)

/-! ### Loops whose body may return -/

/-- What a statement of the function body does. -/
inductive Flow (ρ σ : Type*) where
  /-- Control falls through to the next statement, in state `s`. -/
  | next (s : σ)
  /-- The function returns `r`, leaving state `s`. -/
  | ret (r : ρ) (s : σ)

/-- Does control fall through? -/
def Flow.isNext : Flow ρ σ → Bool
  | .next _ => true
  | .ret _ _ => false

theorem Flow.isNext_iff {x : Flow ρ σ} : x.isNext = true ↔ ∃ s, x = .next s := by
  cases x <;> simp [Flow.isNext]

/-- The state a statement leaves. -/
def Flow.state : Flow ρ σ → σ
  | .next s => s
  | .ret _ s => s

/-- Sequencing: the continuation runs only if control falls through. -/
def Flow.bind : Flow ρ σ → (σ → Flow ρ σ) → Flow ρ σ
  | .next s, f => f s
  | .ret r s, _ => .ret r s

@[simp] theorem Flow.bind_next (s : σ) (f : σ → Flow ρ σ) : (Flow.next s).bind f = f s := rfl

@[simp] theorem Flow.bind_ret (r : ρ) (s : σ) (f : σ → Flow ρ σ) :
    (Flow.ret r s).bind f = .ret r s := rfl

/-- A sequence falls through iff both statements do. -/
theorem Flow.bind_eq_next {x : Flow ρ σ} {f : σ → Flow ρ σ} {s' : σ} :
    x.bind f = .next s' ↔ ∃ s, x = .next s ∧ f s = .next s' := by
  cases x <;> simp

/-- A sequence returns iff its first statement does, or falls through and the second does. -/
theorem Flow.bind_eq_ret {x : Flow ρ σ} {f : σ → Flow ρ σ} {r : ρ} {s' : σ} :
    x.bind f = .ret r s' ↔ x = .ret r s' ∨ ∃ s, x = .next s ∧ f s = .ret r s' := by
  cases x <;> simp

/-- `for (i = 0; i < hi; i++) body`, where `body` may return. -/
def forUpRet (body : ℕ → σ → Flow ρ σ) : ℕ → σ → Flow ρ σ
  | 0, s => .next s
  | hi + 1, s => (forUpRet body hi s).bind (body hi)

/-- `for (i = n - 1; i >= 0; i--) body`, where `body` may return. -/
def forDownRet (body : ℕ → σ → Flow ρ σ) : ℕ → σ → Flow ρ σ
  | 0, s => .next s
  | i + 1, s => (body i s).bind (forDownRet body i)

@[simp] theorem forUpRet_zero (body : ℕ → σ → Flow ρ σ) (s : σ) :
    forUpRet body 0 s = .next s := rfl

@[simp] theorem forUpRet_succ (body : ℕ → σ → Flow ρ σ) (hi : ℕ) (s : σ) :
    forUpRet body (hi + 1) s = (forUpRet body hi s).bind (body hi) := rfl

@[simp] theorem forDownRet_zero (body : ℕ → σ → Flow ρ σ) (s : σ) :
    forDownRet body 0 s = .next s := rfl

@[simp] theorem forDownRet_succ (body : ℕ → σ → Flow ρ σ) (i : ℕ) (s : σ) :
    forDownRet body (i + 1) s = (body i s).bind (forDownRet body i) := rfl

/-- **Invariant rule for `forUpRet`.**  If the head of iteration `hi` is reached, the
    invariant holds there. -/
theorem forUpRet_inv {body : ℕ → σ → Flow ρ σ} {hi : ℕ} {s s' : σ} (I : ℕ → σ → Prop)
    (h0 : I 0 s) (hstep : ∀ i t t', i < hi → I i t → body i t = .next t' → I (i + 1) t')
    (h : forUpRet body hi s = .next s') : I hi s' := by
  induction hi generalizing s' with
  | zero =>
    cases h
    exact h0
  | succ m ih =>
    obtain ⟨t, ht, ht'⟩ := Flow.bind_eq_next.mp h
    exact hstep m t s' m.lt_succ_self (ih (fun i t t' hi => hstep i t t' (by omega)) ht) ht'

/-- Loops whose bodies agree where the invariant holds are equal. -/
theorem forUpRet_congr {body body' : ℕ → σ → Flow ρ σ} {hi : ℕ} {s : σ} (I : ℕ → σ → Prop)
    (h0 : I 0 s) (hstep : ∀ i t t', i < hi → I i t → body i t = .next t' → I (i + 1) t')
    (heq : ∀ i t, i < hi → I i t → body' i t = body i t) :
    forUpRet body' hi s = forUpRet body hi s := by
  induction hi with
  | zero => rfl
  | succ m ih =>
    have hprev := ih (fun i t t' hi => hstep i t t' (by omega)) fun i t hi => heq i t (by omega)
    show (forUpRet body' m s).bind (body' m) = (forUpRet body m s).bind (body m)
    rw [hprev]
    cases hm : forUpRet body m s with
    | next t =>
      have ht := forUpRet_inv I h0 (fun i t t' hi => hstep i t t' (by omega)) hm
      exact heq m t m.lt_succ_self ht
    | ret r t => rfl

/-- A loop that returned did so in some iteration whose head was reached. -/
theorem forUpRet_eq_ret {body : ℕ → σ → Flow ρ σ} {hi : ℕ} {s s' : σ} {r : ρ}
    (h : forUpRet body hi s = .ret r s') :
    ∃ k t, k < hi ∧ forUpRet body k s = .next t ∧ body k t = .ret r s' := by
  induction hi with
  | zero => cases h
  | succ m ih =>
    rcases Flow.bind_eq_ret.mp h with h | ⟨t, ht, hr⟩
    · obtain ⟨k, t, hk, hrun, hr⟩ := ih h
      exact ⟨k, t, by omega, hrun, hr⟩
    · exact ⟨m, t, m.lt_succ_self, ht, hr⟩

/-- An iteration that returns ends the loop. -/
theorem forUpRet_of_ret {body : ℕ → σ → Flow ρ σ} {k hi : ℕ} {s t s' : σ} {r : ρ} (hk : k < hi)
    (hrun : forUpRet body k s = .next t) (hret : body k t = .ret r s') :
    forUpRet body hi s = .ret r s' := by
  induction hi, hk using Nat.le_induction with
  | base => rw [forUpRet_succ, hrun, Flow.bind_next, hret]
  | succ m hm ih => rw [forUpRet_succ, ih, Flow.bind_ret]

/-- **Frame rule for `forUpRet`.**  What no iteration destroys holds of the state that the loop
    leaves, whether it falls through or returns. -/
theorem forUpRet_preserves {body : ℕ → σ → Flow ρ σ} {hi : ℕ} {s : σ} (I : σ → Prop) (h0 : I s)
    (hstep : ∀ i t, i < hi → I t → I (body i t).state) : I (forUpRet body hi s).state := by
  induction hi with
  | zero => exact h0
  | succ m ih =>
    have hm := ih fun i t hi => hstep i t (by omega)
    rw [forUpRet_succ]
    cases hx : forUpRet body m s with
    | next t =>
      rw [hx] at hm
      exact hstep m t m.lt_succ_self hm
    | ret r t =>
      rw [hx] at hm
      exact hm

/-- **Frame rule for `forDownRet`.** -/
theorem forDownRet_preserves {body : ℕ → σ → Flow ρ σ} {n : ℕ} {s : σ} (I : σ → Prop) (h0 : I s)
    (hstep : ∀ i t, i < n → I t → I (body i t).state) : I (forDownRet body n s).state := by
  induction n generalizing s with
  | zero => exact h0
  | succ m ih =>
    have hm := hstep m s m.lt_succ_self h0
    rw [forDownRet_succ]
    cases hx : body m s with
    | next t =>
      rw [hx] at hm
      exact ih hm fun i t hi => hstep i t (by omega)
    | ret r t =>
      rw [hx] at hm
      exact hm

/-- **Simulation of two flows**: they fall through together or return together, with
    related values and states. -/
def Flow.Rel {ρ' : Type*} (Q : ρ → ρ' → Prop) (R : σ → τ → Prop) : Flow ρ σ → Flow ρ' τ → Prop
  | .next s, .next t => R s t
  | .ret r s, .ret r' t => Q r r' ∧ R s t
  | _, _ => False

/-- What two related statements can do. -/
theorem Flow.Rel.cases {ρ' : Type*} {Q : ρ → ρ' → Prop} {R : σ → τ → Prop} {x : Flow ρ σ}
    {y : Flow ρ' τ} (h : Flow.Rel Q R x y) :
    (∃ s t, x = .next s ∧ y = .next t ∧ R s t) ∨
    ∃ r r' s t, x = .ret r s ∧ y = .ret r' t ∧ Q r r' ∧ R s t := by
  cases x with
  | next s =>
    cases y with
    | next t => exact Or.inl ⟨s, t, rfl, rfl, h⟩
    | ret r t => exact h.elim
  | ret r s =>
    cases y with
    | next t => exact h.elim
    | ret r' t => exact Or.inr ⟨r, r', s, t, rfl, rfl, h⟩

/-- Related statements, one after the other. -/
theorem Flow.Rel.bind {ρ' : Type*} {Q : ρ → ρ' → Prop} {R : σ → τ → Prop} {x : Flow ρ σ}
    {y : Flow ρ' τ} {f : σ → Flow ρ σ} {g : τ → Flow ρ' τ} (h : Flow.Rel Q R x y)
    (hfg : ∀ s t, x = .next s → R s t → Flow.Rel Q R (f s) (g t)) :
    Flow.Rel Q R (x.bind f) (y.bind g) := by
  rcases h.cases with ⟨s, t, rfl, rfl, hR⟩ | ⟨r, r', s, t, rfl, rfl, hret⟩
  · exact hfg s t rfl hR
  · exact hret

/-- **Simulation rule for `forUpRet`.** -/
theorem forUpRet_rel {ρ' : Type*} {body : ℕ → σ → Flow ρ σ} {body' : ℕ → τ → Flow ρ' τ} {hi : ℕ}
    {s : σ} {t : τ} (Q : ρ → ρ' → Prop) (R : σ → τ → Prop) (h0 : R s t)
    (hstep : ∀ i s' t', i < hi → R s' t' → Flow.Rel Q R (body i s') (body' i t')) :
    Flow.Rel Q R (forUpRet body hi s) (forUpRet body' hi t) := by
  induction hi with
  | zero => exact h0
  | succ m ih =>
    have ih' := ih fun i s' t' hi => hstep i s' t' (by omega)
    rw [forUpRet_succ, forUpRet_succ]
    cases hs : forUpRet body m s with
    | next s₁ =>
      cases ht : forUpRet body' m t with
      | next t₁ =>
        rw [hs, ht] at ih'
        exact hstep m s₁ t₁ m.lt_succ_self ih'
      | ret r t₁ =>
        rw [hs, ht] at ih'
        exact ih'.elim
    | ret r s₁ =>
      cases ht : forUpRet body' m t with
      | next t₁ =>
        rw [hs, ht] at ih'
        exact ih'.elim
      | ret r' t₁ =>
        rw [hs, ht] at ih'
        exact ih'

/-- **Lockstep rule for `forUpRet`.**  As the simulation rule, with a relation indexed by the
    loop variable, at heads that the first loop reaches; a common return need not leave
    related states. -/
theorem forUpRet_lockstep {body : ℕ → σ → Flow ρ σ} {body' : ℕ → τ → Flow ρ τ} {hi : ℕ}
    {s : σ} {t : τ} (R : ℕ → σ → τ → Prop) (h0 : R 0 s t)
    (hstep : ∀ i s' t', i < hi → forUpRet body i s = .next s' → R i s' t' →
      (∃ r s'' t'', body i s' = .ret r s'' ∧ body' i t' = .ret r t'') ∨
      ∃ s'' t'', body i s' = .next s'' ∧ body' i t' = .next t'' ∧ R (i + 1) s'' t'') :
    (∃ r s' t', forUpRet body hi s = .ret r s' ∧ forUpRet body' hi t = .ret r t') ∨
    ∃ s' t', forUpRet body hi s = .next s' ∧ forUpRet body' hi t = .next t' ∧ R hi s' t' := by
  induction hi with
  | zero => exact Or.inr ⟨s, t, rfl, rfl, h0⟩
  | succ m ih =>
    rcases ih fun i s' t' hi => hstep i s' t' (by omega) with
      ⟨r, s₁, t₁, hs, ht⟩ | ⟨s₁, t₁, hs, ht, hR⟩
    · exact Or.inl ⟨r, s₁, t₁, by rw [forUpRet_succ, hs, Flow.bind_ret],
        by rw [forUpRet_succ, ht, Flow.bind_ret]⟩
    · rw [forUpRet_succ, forUpRet_succ, hs, ht, Flow.bind_next, Flow.bind_next]
      exact hstep m s₁ t₁ m.lt_succ_self hs hR

/-- A downward loop none of whose iterations returns is the plain loop. -/
theorem forDownRet_eq_next {body : ℕ → σ → Flow ρ σ} {body' : ℕ → σ → σ} {n : ℕ} {s : σ}
    (I : σ → Prop) (h0 : I s)
    (hstep : ∀ i t, i < n → I t → body i t = .next (body' i t) ∧ I (body' i t)) :
    forDownRet body n s = .next (forDown body' n s) := by
  induction n generalizing s with
  | zero => rfl
  | succ m ih =>
    obtain ⟨hb, hI⟩ := hstep m s m.lt_succ_self h0
    rw [forDownRet_succ, hb, Flow.bind_next, forDown_succ]
    exact ih hI fun i t hi => hstep i t (by omega)

/-- An upward loop none of whose iterations returns is the plain loop. -/
theorem forUpRet_eq_next {body : ℕ → σ → Flow ρ σ} {body' : ℕ → σ → σ} {hi : ℕ} {s : σ}
    (I : σ → Prop) (h0 : I s)
    (hstep : ∀ i t, i < hi → I t → body i t = .next (body' i t) ∧ I (body' i t)) :
    forUpRet body hi s = .next (forUp 0 hi body' s) := by
  have hI : ∀ m ≤ hi, I (forUp 0 m body' s) := fun m hm =>
    forUp_preserves I h0 fun i t _ hi ht => (hstep i t (by omega) ht).2
  induction hi with
  | zero => rfl
  | succ m ih =>
    rw [forUpRet_succ, forUp_succ (Nat.zero_le m),
      ih (fun i t hi => hstep i t (by omega)) (fun k hk => hI k (by omega)), Flow.bind_next]
    exact (hstep m _ m.lt_succ_self (hI m (by omega))).1

end Dgesv.Loop
