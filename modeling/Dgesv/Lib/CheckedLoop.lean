import Dgesv.Lib.Loop

namespace Dgesv.Loop

/-!
# Counted loops with undefined iterations

The loops of `Dgesv.Lib.Loop` over statements that may have no defined result: `none` is
what the language leaves undefined, and a loop is defined iff all the iterations it executes
are.

* `forUpM`, `forDownM`, `forUpRetM`, `forDownRetM` — the loops;
* `forUpM_eq_some` and so on — if every iteration is defined where the invariant holds, the
  loop is, and it is the loop of the plain bodies;
* `forUpM_inv` — what every defined iteration keeps;
* `forUpM_isSome_iteration`, `forUpRetM_isSome_first` — a defined loop had defined iterations.
-/

variable {ρ σ : Type*}

/-- A defined statement, then `f`.  The proof is not `rfl`, so that rewriting with it leaves
    a trace in the proof term and the kernel has no reason to evaluate `f x`. -/
theorem some_bind {α β : Type} (x : α) (f : α → Option β) : (some x >>= f) = f x := by
  cases h : f x <;> exact h

/-- A defined sequence has two defined parts. -/
theorem exists_of_bind_isSome {α β : Type} {x : Option α} {f : α → Option β}
    (h : (x >>= f).isSome) : ∃ y, x = some y ∧ (f y).isSome := by
  cases x with
  | none => cases h
  | some y => exact ⟨y, rfl, h⟩

/-! ### Loops that run to their end -/

/-- `for (i = lo; i < lo + cnt; i++) body`. -/
def iterUpM (body : ℕ → σ → Option σ) (lo : ℕ) : ℕ → σ → Option σ
  | 0, s => some s
  | cnt + 1, s => (iterUpM body lo cnt s).bind (body (lo + cnt))

/-- `for (i = lo; i < hi; i++) body`. -/
def forUpM (lo hi : ℕ) (body : ℕ → σ → Option σ) (s : σ) : Option σ := iterUpM body lo (hi - lo) s

/-- `for (i = n - 1; i >= 0; i--) body`. -/
def forDownM (body : ℕ → σ → Option σ) : ℕ → σ → Option σ
  | 0, s => some s
  | i + 1, s => (body i s).bind (forDownM body i)

/-- The loop does nothing on an empty range. -/
theorem forUpM_of_le {lo hi : ℕ} (h : hi ≤ lo) (body : ℕ → σ → Option σ) (s : σ) :
    forUpM lo hi body s = some s := by
  simp [forUpM, iterUpM, Nat.sub_eq_zero_of_le h]

/-- Peel off the last iteration. -/
theorem forUpM_succ {lo hi : ℕ} (h : lo ≤ hi) (body : ℕ → σ → Option σ) (s : σ) :
    forUpM lo (hi + 1) body s = (forUpM lo hi body s).bind (body hi) := by
  obtain ⟨c, rfl⟩ := Nat.exists_eq_add_of_le h
  simp [forUpM, iterUpM, Nat.add_assoc]

/-- **Refinement rule for `forUpM`.** -/
theorem forUpM_eq_some {lo hi : ℕ} {body : ℕ → σ → Option σ} {body' : ℕ → σ → σ} {s : σ}
    (I : σ → Prop) (h0 : I s)
    (hstep : ∀ i t, lo ≤ i → i < hi → I t → body i t = some (body' i t) ∧ I (body' i t)) :
    forUpM lo hi body s = some (forUp lo hi body' s) ∧ I (forUp lo hi body' s) := by
  rcases Nat.lt_or_ge hi lo with h | h
  · rw [forUpM_of_le (Nat.le_of_lt h), forUp_of_le (Nat.le_of_lt h)]
    exact ⟨rfl, h0⟩
  · induction hi, h using Nat.le_induction with
    | base =>
      rw [forUpM_of_le le_rfl, forUp_of_le le_rfl]
      exact ⟨rfl, h0⟩
    | succ m hm ih =>
      obtain ⟨heq, hI⟩ := ih fun i t h1 h2 => hstep i t h1 (by omega)
      rw [forUpM_succ hm, forUp_succ hm, heq]
      exact hstep m _ hm m.lt_succ_self hI

/-- **Refinement rule for `forDownM`.** -/
theorem forDownM_eq_some {n : ℕ} {body : ℕ → σ → Option σ} {body' : ℕ → σ → σ} {s : σ}
    (I : σ → Prop) (h0 : I s)
    (hstep : ∀ i t, i < n → I t → body i t = some (body' i t) ∧ I (body' i t)) :
    forDownM body n s = some (forDown body' n s) ∧ I (forDown body' n s) := by
  induction n generalizing s with
  | zero => exact ⟨rfl, h0⟩
  | succ m ih =>
    obtain ⟨heq, hI⟩ := hstep m s m.lt_succ_self h0
    rw [forDownM, heq, forDown_succ]
    exact ih hI fun i t hi => hstep i t (by omega)

/-- **Invariant rule for `forUpM`.**  A property that no defined iteration destroys survives
    a defined loop. -/
theorem forUpM_inv {lo hi : ℕ} {body : ℕ → σ → Option σ} {s s' : σ} (I : σ → Prop) (h0 : I s)
    (hstep : ∀ i t t', I t → body i t = some t' → I t') (h : forUpM lo hi body s = some s') :
    I s' := by
  rcases Nat.lt_or_ge hi lo with hlt | hle
  · rw [forUpM_of_le (Nat.le_of_lt hlt)] at h
    cases h
    exact h0
  · induction hi, hle using Nat.le_induction generalizing s' with
    | base =>
      rw [forUpM_of_le le_rfl] at h
      cases h
      exact h0
    | succ m hm ih =>
      rw [forUpM_succ hm] at h
      obtain ⟨t, ht, ht'⟩ := Option.bind_eq_some_iff.mp h
      exact hstep m t s' (ih ht) ht'

/-- Every iteration of a defined loop was defined, in the state it was executed in. -/
theorem forUpM_isSome_iteration {lo hi : ℕ} {body : ℕ → σ → Option σ} {s : σ}
    (h : (forUpM lo hi body s).isSome) {i : ℕ} (hlo : lo ≤ i) (hi' : i < hi) :
    ∃ t, (body i t).isSome := by
  have hle : lo ≤ hi := by omega
  induction hi, hle using Nat.le_induction with
  | base => omega
  | succ m hm ih =>
    obtain ⟨s', hs'⟩ := Option.isSome_iff_exists.mp h
    rw [forUpM_succ hm] at hs'
    obtain ⟨t, ht, ht'⟩ := Option.bind_eq_some_iff.mp hs'
    rcases Nat.lt_succ_iff_lt_or_eq.mp hi' with hlt | rfl
    · exact ih (Option.isSome_of_eq_some ht) hlt
    · exact ⟨t, Option.isSome_of_eq_some ht'⟩

/-! ### Loops whose body may return -/

/-- Sequencing, where the continuation may be undefined. -/
def Flow.bindM : Flow ρ σ → (σ → Option (Flow ρ σ)) → Option (Flow ρ σ)
  | .next s, f => f s
  | .ret r s, _ => some (.ret r s)

/-- `for (i = 0; i < hi; i++) body`, where `body` may return. -/
def forUpRetM (body : ℕ → σ → Option (Flow ρ σ)) : ℕ → σ → Option (Flow ρ σ)
  | 0, s => some (.next s)
  | hi + 1, s => (forUpRetM body hi s).bind fun x => x.bindM (body hi)

/-- `for (i = n - 1; i >= 0; i--) body`, where `body` may return. -/
def forDownRetM (body : ℕ → σ → Option (Flow ρ σ)) : ℕ → σ → Option (Flow ρ σ)
  | 0, s => some (.next s)
  | i + 1, s => (body i s).bind fun x => x.bindM (forDownRetM body i)

/-- **Refinement rule for `forUpRetM`.** -/
theorem forUpRetM_eq_some {hi : ℕ} {body : ℕ → σ → Option (Flow ρ σ)}
    {body' : ℕ → σ → Flow ρ σ} {s : σ} (I : σ → Prop) (h0 : I s)
    (hstep : ∀ i t, i < hi → I t →
      body i t = some (body' i t) ∧ ∀ t', body' i t = .next t' → I t') :
    forUpRetM body hi s = some (forUpRet body' hi s) ∧
      ∀ s', forUpRet body' hi s = .next s' → I s' := by
  induction hi with
  | zero =>
    refine ⟨rfl, fun s' hs' => ?_⟩
    cases hs'
    exact h0
  | succ m ih =>
    obtain ⟨heq, hI⟩ := ih fun i t hi => hstep i t (by omega)
    rw [forUpRetM, heq, forUpRet_succ]
    cases hm : forUpRet body' m s with
    | next t => exact hstep m t m.lt_succ_self (hI t hm)
    | ret r t => exact ⟨rfl, fun s' hs' => by cases hs'⟩

/-- **Refinement rule for `forDownRetM`.** -/
theorem forDownRetM_eq_some {n : ℕ} {body : ℕ → σ → Option (Flow ρ σ)}
    {body' : ℕ → σ → Flow ρ σ} {s : σ} (I : σ → Prop) (h0 : I s)
    (hstep : ∀ i t, i < n → I t →
      body i t = some (body' i t) ∧ ∀ t', body' i t = .next t' → I t') :
    forDownRetM body n s = some (forDownRet body' n s) ∧
      ∀ s', forDownRet body' n s = .next s' → I s' := by
  induction n generalizing s with
  | zero =>
    refine ⟨rfl, fun s' hs' => ?_⟩
    cases hs'
    exact h0
  | succ m ih =>
    obtain ⟨heq, hI⟩ := hstep m s m.lt_succ_self h0
    rw [forDownRetM, heq, forDownRet_succ]
    cases hm : body' m s with
    | next t => exact ih (hI t hm) fun i t hi => hstep i t (by omega)
    | ret r t => exact ⟨rfl, fun s' hs' => by cases hs'⟩

/-- The first iteration of a defined loop was defined. -/
theorem forUpRetM_isSome_first {hi : ℕ} {body : ℕ → σ → Option (Flow ρ σ)} {s : σ} (hhi : 0 < hi)
    (h : (forUpRetM body hi s).isSome) : (body 0 s).isSome := by
  induction hi, hhi using Nat.le_induction with
  | base => exact h
  | succ m hm ih =>
    obtain ⟨x, hx⟩ := Option.isSome_iff_exists.mp h
    obtain ⟨y, hy, -⟩ := Option.bind_eq_some_iff.mp hx
    exact ih (Option.isSome_of_eq_some hy)

end Dgesv.Loop
