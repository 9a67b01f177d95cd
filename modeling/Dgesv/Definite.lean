import Dgesv.Lib.Definite
import Dgesv.NoPivoting

namespace Dgesv

open Loop Matrix

/-!
# Positive definite matrices

A symmetric matrix whose eigenvalues are all at or above the tolerance needs no exchanges: every
block that is left is of the same kind, so its first diagonal entry passes the test, and none of
its entries is larger than the largest of the given diagonal.

* `Unpivoted.eliminateTo_definite` — every head is reached, with the invariant;
* `Unpivoted.myDgesv_definite` — what that means for a call of `src/task1/dgesv.c`.
-/

namespace Unpivoted

variable {n nrhs : ℕ} {a b : Mem ℚ} {c : ℚ} {s : State ℚ}

/-- At the head of iteration `k` of a run on a positive definite matrix with no diagonal entry
    above `c`. -/
structure DefiniteInv (n nrhs : ℕ) (a b : Mem ℚ) (c : ℚ) (k : ℕ) (s : State ℚ) : Prop where
  head : ∃ L, HeadInv n nrhs a b k L s
  definite : Definite k tol (s.A n)
  le : ∀ i j, |s.A n i j| ≤ c

/-- On entry. -/
theorem definiteInv_init (hdef : Definite 0 tol (a.toMatrix n n))
    (hdiag : ∀ i, a.toMatrix n n i i ≤ c) : DefiniteInv n nrhs a b c 0 (.init a b) where
  head := ⟨1, headInv_init n nrhs a b⟩
  definite := hdef
  le i j := by
    have htwo := hdef.two_mul_abs_le tol_pos.le (Nat.zero_le i) (Nat.zero_le j)
    show |a.toMatrix n n i j| ≤ c
    linarith [hdiag i, hdiag j]

/-- **An iteration falls through**, and keeps the invariant. -/
theorem DefiniteInv.eliminateColumn {k : ℕ} (hk : k < n) (inv : DefiniteInv n nrhs a b c k s) :
    ∃ s', eliminateColumn n nrhs k s = .next s' ∧ DefiniteInv n nrhs a b c (k + 1) s' := by
  obtain ⟨L, hL⟩ := inv.head
  have hdiag : tol ≤ s.A n ⟨k, hk⟩ ⟨k, hk⟩ := inv.definite.le_diag (i := ⟨k, hk⟩) le_rfl
  have htol : tol ≤ |s.A n ⟨k, hk⟩ ⟨k, hk⟩| := hdiag.trans (le_abs_self _)
  have hpiv : s.A n ⟨k, hk⟩ ⟨k, hk⟩ ≠ 0 := (tol_pos.trans_le hdiag).ne'
  rcases eliminateColumn_cases nrhs ⟨k, hk⟩ s with ⟨hsmall, -⟩ | ⟨-, hr⟩
  · exact absurd htol (not_le.mpr hsmall)
  · refine ⟨_, hr, ⟨_, HeadInv.eliminateRows (k := ⟨k, hk⟩) hL htol⟩, ?_, ?_⟩
    · rw [eliminateRows_A (k := ⟨k, hk⟩) fun j hj => hL.lu.zeros _ j hj hj]
      exact Definite.eliminate (k := ⟨k, hk⟩) inv.definite tol_pos.le hpiv
    · rw [eliminateRows_A (k := ⟨k, hk⟩) fun j hj => hL.lu.zeros _ j hj hj]
      exact Definite.abs_eliminate_le (k := ⟨k, hk⟩) inv.definite tol_pos.le hpiv
        (fun i j hj hji => hL.lu.zeros i j hj hji) inv.le

/-- **Every head is reached.** -/
theorem eliminateTo_definite (nrhs : ℕ) (b : Mem ℚ) (hdef : Definite 0 tol (a.toMatrix n n))
    (hdiag : ∀ i, a.toMatrix n n i i ≤ c) {k : ℕ} (hk : k ≤ n) :
    ∃ s, eliminateTo n nrhs k (.init a b) = .next s ∧ DefiniteInv n nrhs a b c k s := by
  induction k with
  | zero => exact ⟨_, rfl, definiteInv_init hdef hdiag⟩
  | succ k ih =>
    obtain ⟨s, hs, inv⟩ := ih (by omega)
    obtain ⟨s', hs', inv'⟩ := inv.eliminateColumn (by omega)
    refine ⟨s', ?_, inv'⟩
    rw [eliminateTo, forUpRet_succ]
    exact Flow.bind_eq_next.mpr ⟨s, hs, hs'⟩

/-- **Positive definite matrices.**  On a symmetric matrix whose form is at least the tolerance
    times the square of the length, the solver without pivoting returns `0`; what is left at
    every head of its elimination is again such a matrix, and no entry of `a` exceeds the
    largest diagonal entry given. -/
theorem myDgesv_definite (hn : 1 ≤ n) (nrhs : ℕ) (a b : Mem ℚ)
    (hsymm : (a.toMatrix n n).IsSymm)
    (hform : ∀ x, tol * (x ⬝ᵥ x) ≤ x ⬝ᵥ a.toMatrix n n *ᵥ x) :
    (myDgesv n nrhs a b).1 = 0 ∧
      ∀ k ≤ n - 1, ∃ s, eliminateTo n nrhs k (.init a b) = .next s ∧ Definite k tol (s.A n) ∧
        ∀ c, (∀ i, a.toMatrix n n i i ≤ c) → ∀ i j, |s.A n i j| ≤ c := by
  have hdef : Definite 0 tol (a.toMatrix n n) :=
    ⟨fun i j _ _ => hsymm.apply j i, fun x _ => hform x⟩
  have hmax : ∀ i, a.toMatrix n n i i ≤ ∑ l, |a.toMatrix n n l l| := fun i =>
    (le_abs_self _).trans (Finset.single_le_sum (f := fun l => |a.toMatrix n n l l|)
      (fun l _ => abs_nonneg _) (Finset.mem_univ i))
  constructor
  · obtain ⟨s, hs, inv⟩ := eliminateTo_definite nrhs b hdef hmax (Nat.sub_le n 1)
    obtain ⟨L, hL⟩ := inv.head
    have hk : (⟨n - 1, by omega⟩ : Fin n).val + 1 = n := by show n - 1 + 1 = n; omega
    have hlast := inv.definite.le_diag (i := ⟨n - 1, by omega⟩) le_rfl
    rw [myDgesv, eliminate, hs, Flow.bind_next]
    rcases HeadInv.backSubstitute_cases hk hL with ⟨-, hsmall, -⟩ | ⟨-, hback⟩
    · exact absurd (hlast.trans (le_abs_self _)) (not_le.mpr hsmall)
    · rw [hback]
  · intro k hk
    obtain ⟨s, hs, inv⟩ := eliminateTo_definite nrhs b hdef hmax (by omega : k ≤ n)
    refine ⟨s, hs, inv.definite, fun c hc => ?_⟩
    obtain ⟨s', hs', inv'⟩ := eliminateTo_definite nrhs b hdef hc (by omega : k ≤ n)
    rw [hs] at hs'
    cases hs'
    exact inv'.le

/-- The matrix with rows `(2, 3)` and `(3, 5)`. -/
theorem myDgesv_definite_two :
    (myDgesv 2 1 (.ofList [2, 3, 3, 5]) (.ofList [1, 1] : Mem ℚ)).1 = 0 := by
  refine (myDgesv_definite (by decide) 1 _ _ (by decide +kernel) fun x => ?_).1
  have hlength : x ⬝ᵥ x = x 0 * x 0 + x 1 * x 1 := Fin.sum_univ_two _
  have hvalue : x ⬝ᵥ Mem.toMatrix 2 2 (.ofList [2, 3, 3, 5] : Mem ℚ) *ᵥ x
      = x 0 * (2 * x 0 + 3 * x 1) + x 1 * (3 * x 0 + 5 * x 1) := by
    simp [dotProduct, mulVec, Fin.sum_univ_two, Mem.ofList]
  rw [hlength, hvalue, tol_rat]
  nlinarith [sq_nonneg (x 0), sq_nonneg (x 1), sq_nonneg (4 * x 0 + 6 * x 1)]

end Unpivoted

end Dgesv
