import Dgesv.Lib.Dominance
import Dgesv.NoPivoting

namespace Dgesv

open Loop Matrix

/-!
# Column diagonally dominant matrices

On a matrix whose columns are diagonally dominant there is nothing to exchange: the diagonal
entry is the largest of its column, the search compares with `>` and so keeps it even if
another is as large, and elimination passes dominance on to the next block.  The two solvers
then run the same elimination, state by state.

* `Pivoted.eliminateTo_eq_of_dominant` — the two eliminations are equal;
* `myDgesv_dominant` — what that means for the two calls;
* `eliminateTo_dominant_growth` — and the entries hardly grow.
-/

variable {n nrhs : ℕ} {a b : Mem ℚ} {s : State ℚ}

namespace Pivoted

/-- On a dominant block the search stays at row `k`. -/
theorem searchPivot_of_dominant {k : Fin n} (h : Dominant k (s.A n)) :
    (searchPivot n k s.a).1 = k :=
  searchPivot_of_max k.isLt fun i hi hki => h.abs_le (i := ⟨i, hi⟩) (Fin.le_def.mpr hki.le)

/-- At the head of iteration `k` of a run without pivoting on a dominant matrix. -/
structure DominantInv (n nrhs : ℕ) (a b : Mem ℚ) (k : ℕ) (s : State ℚ) : Prop where
  head : ∃ L, Unpivoted.HeadInv n nrhs a b k L s
  dominant : Dominant k (s.A n)
  swaps : s.swaps = 0

/-- An iteration that falls through keeps the invariant. -/
theorem DominantInv.step {k : ℕ} (hk : k < n) (inv : DominantInv n nrhs a b k s) {s' : State ℚ}
    (h : Unpivoted.eliminateColumn n nrhs k s = .next s') :
    DominantInv n nrhs a b (k + 1) s' := by
  obtain ⟨L, hL⟩ := inv.head
  rcases Unpivoted.eliminateColumn_cases nrhs ⟨k, hk⟩ s with ⟨-, hr⟩ | ⟨htol, hr⟩
  · rw [hr] at h
    cases h
  · rw [hr] at h
    cases h
    have hpiv : s.A n ⟨k, hk⟩ ⟨k, hk⟩ ≠ 0 := abs_pos.mp (tol_pos.trans_le htol)
    refine ⟨⟨_, Unpivoted.HeadInv.eliminateRows (k := ⟨k, hk⟩) hL htol⟩, ?_, ?_⟩
    · rw [eliminateRows_A (k := ⟨k, hk⟩) fun j hj => hL.lu.zeros _ j hj hj]
      exact Dominant.eliminate (k := ⟨k, hk⟩) inv.dominant hpiv
    · rw [eliminateRows_swaps nrhs hk, inv.swaps]

/-- On entry. -/
theorem dominantInv_init (hdom : Dominant 0 (a.toMatrix n n)) :
    DominantInv n nrhs a b 0 (.init a b) where
  head := ⟨1, Unpivoted.headInv_init n nrhs a b⟩
  dominant := hdom
  swaps := rfl

/-- An iteration of the elimination has nothing to exchange. -/
theorem eliminateColumn_of_dominant {k : ℕ} (hk : k < n) (inv : DominantInv n nrhs a b k s) :
    eliminateColumn n nrhs k s = Unpivoted.eliminateColumn n nrhs k s := by
  have hstay := searchPivot_of_dominant (k := ⟨k, hk⟩) inv.dominant
  show Unpivoted.eliminateColumn n nrhs k (pivot n nrhs k s) = _
  rw [pivot_eq_self nrhs hstay]

/-- **The eliminations are equal** at every head … -/
theorem eliminateTo_eq_of_dominant (nrhs : ℕ) (b : Mem ℚ) (hdom : Dominant 0 (a.toMatrix n n))
    {k : ℕ} (hk : k ≤ n - 1) :
    eliminateTo n nrhs k (.init a b) = Unpivoted.eliminateTo n nrhs k (.init a b) := by
  apply forUpRet_congr (DominantInv n nrhs a b) (dominantInv_init hdom)
  · intro i t t' hi inv ht
    exact inv.step (by omega) ht
  · intro i t hi inv
    exact eliminateColumn_of_dominant (by omega) inv

/-- … and at the end. -/
theorem eliminate_eq_of_dominant (nrhs : ℕ) (b : Mem ℚ) (hdom : Dominant 0 (a.toMatrix n n)) :
    eliminate n nrhs (.init a b) = Unpivoted.eliminate n nrhs (.init a b) :=
  eliminateTo_eq_of_dominant nrhs b hdom le_rfl

/-- The invariant holds at every head that is reached. -/
theorem dominantInv_of_eliminateTo (hdom : Dominant 0 (a.toMatrix n n)) {k : ℕ} (hk : k ≤ n - 1)
    (h : Unpivoted.eliminateTo n nrhs k (.init a b) = .next s) : DominantInv n nrhs a b k s := by
  refine forUpRet_inv (DominantInv n nrhs a b) (dominantInv_init hdom) ?_ h
  intro i t t' hi inv ht
  exact inv.step (by omega) ht

/-- A failed elimination has exchanged nothing either. -/
theorem swaps_of_eliminate_ret (hdom : Dominant 0 (a.toMatrix n n)) {r : ℤ}
    (h : Unpivoted.eliminate n nrhs (.init a b) = .ret r s) : s.swaps = 0 := by
  obtain ⟨k, t, hk, ht, hr⟩ := forUpRet_eq_ret h
  have hkn : k < n := by omega
  have inv := dominantInv_of_eliminateTo hdom hk.le ht
  -- The return of a failed test leaves the state as it was at the head.
  rcases Unpivoted.eliminateColumn_cases nrhs ⟨k, hkn⟩ t with ⟨-, hc⟩ | ⟨-, hc⟩
  · rw [hc] at hr
    cases hr
    exact inv.swaps
  · rw [hc] at hr
    cases hr

end Pivoted

/-- The two calls, after a completed elimination. -/
theorem myDgesv_of_eliminate_eq (hn : 1 ≤ n)
    (hp : Pivoted.eliminate n nrhs (.init a b) = .next s)
    (hu : Unpivoted.eliminate n nrhs (.init a b) = .next s) :
    (Pivoted.myDgesv n nrhs a b).1 = (Unpivoted.myDgesv n nrhs a b).1 ∧
      (Pivoted.myDgesv n nrhs a b).2.a = (Unpivoted.myDgesv n nrhs a b).2.a ∧
      ((Pivoted.myDgesv n nrhs a b).1 = 0 →
        (Pivoted.myDgesv n nrhs a b).2.b = (Unpivoted.myDgesv n nrhs a b).2.b) := by
  obtain ⟨L, inv⟩ := Unpivoted.headInv_of_eliminateTo (Nat.sub_le n 1) hu
  obtain ⟨L', inv'⟩ := Pivoted.headInv_of_eliminateTo (Nat.sub_le n 1) hp
  have hflag := Pivoted.backSubstitute_errorFlag n nrhs s
  rw [inv'.flag] at hflag
  have hk : (⟨n - 1, by omega⟩ : Fin n).val + 1 = n := by show n - 1 + 1 = n; omega
  have hpcall : Pivoted.myDgesv n nrhs a b
      = (Pivoted.exitCode (Pivoted.backSubstitute n nrhs s), Pivoted.backSubstitute n nrhs s) := by
    rw [Pivoted.myDgesv, hp]
  rw [hpcall, Unpivoted.myDgesv, hu, Flow.bind_next]
  rcases Unpivoted.HeadInv.backSubstitute_cases hk inv with ⟨hpos, small, hback⟩ | ⟨large, hback⟩
  · -- One call raises the flag and goes on, the other returns; neither writes `a`.
    have hsmall : SmallDiag n s.a := smallDiag_iff.mpr ⟨_, small⟩
    rw [if_pos ⟨hpos, hsmall⟩] at hflag
    rw [hback, Pivoted.exitCode, hflag]
    exact ⟨rfl, Pivoted.backSubstitute_a n nrhs s, fun h0 => absurd h0 (by simp)⟩
  · have hlarge : ¬ (0 < nrhs ∧ SmallDiag n s.a) := by
      rintro ⟨hpos, hsmall⟩
      obtain ⟨i, hi⟩ := smallDiag_iff.mp hsmall
      exact absurd hi (not_lt.mpr (forall_of_last hk inv.pivots (large hpos) i))
    rw [if_neg hlarge] at hflag
    rw [hback, Pivoted.exitCode, hflag]
    exact ⟨rfl, rfl, fun _ => rfl⟩

/-- **Column diagonally dominant matrices.**  `src/dgesv.c` exchanges no row, and the two
    solvers return the same code and leave the same `a` and, if they return `0`, the same
    `b`. -/
theorem myDgesv_dominant (hn : 1 ≤ n) (nrhs : ℕ) (a b : Mem ℚ)
    (hdom : ∀ j : Fin n, ∑ i with i ≠ j, |a.toMatrix n n i j| ≤ |a.toMatrix n n j j|) :
    (Pivoted.myDgesv n nrhs a b).2.swaps = 0 ∧
      (Pivoted.myDgesv n nrhs a b).1 = (Unpivoted.myDgesv n nrhs a b).1 ∧
      (Pivoted.myDgesv n nrhs a b).2.a = (Unpivoted.myDgesv n nrhs a b).2.a ∧
      ((Pivoted.myDgesv n nrhs a b).1 = 0 →
        (Pivoted.myDgesv n nrhs a b).2.b = (Unpivoted.myDgesv n nrhs a b).2.b) := by
  have hdom' : Dominant 0 (a.toMatrix n n) := by
    intro j _
    simpa using hdom j
  have heq := Pivoted.eliminate_eq_of_dominant nrhs b hdom'
  cases hu : Unpivoted.eliminate n nrhs (.init a b) with
  | next s =>
    rw [hu] at heq
    have hswaps := (Pivoted.dominantInv_of_eliminateTo hdom' le_rfl hu).swaps
    refine ⟨?_, myDgesv_of_eliminate_eq hn heq hu⟩
    rw [Pivoted.myDgesv, heq]
    show (Pivoted.backSubstitute n nrhs s).swaps = 0
    rw [Pivoted.backSubstitute_swaps, hswaps]
  | ret r s =>
    rw [hu] at heq
    have hswaps := Pivoted.swaps_of_eliminate_ret hdom' hu
    rw [Pivoted.myDgesv, heq, Unpivoted.myDgesv, hu]
    exact ⟨hswaps, rfl, rfl, fun _ => rfl⟩

/-- The matrix with rows `(2, 1)` and `(-2, 1)` is dominant with equality in both columns. -/
theorem myDgesv_dominant_two :
    (Pivoted.myDgesv 2 1 (.ofList [2, 1, -2, 1]) (.ofList [3, 5] : Mem ℚ)).2.swaps = 0 ∧
      (Pivoted.myDgesv 2 1 (.ofList [2, 1, -2, 1]) (.ofList [3, 5] : Mem ℚ)).1 = 0 ∧
      (Pivoted.myDgesv 2 1 (.ofList [2, 1, -2, 1]) (.ofList [3, 5] : Mem ℚ)).2.b
        = (Unpivoted.myDgesv 2 1 (.ofList [2, 1, -2, 1]) (.ofList [3, 5] : Mem ℚ)).2.b := by
  have h0 : (Pivoted.myDgesv 2 1 (.ofList [2, 1, -2, 1]) (.ofList [3, 5] : Mem ℚ)).1 = 0 := by
    decide +kernel
  have hdom : ∀ j : Fin 2, ∑ i with i ≠ j, |Mem.toMatrix 2 2 (.ofList [2, 1, -2, 1] : Mem ℚ) i j|
      ≤ |Mem.toMatrix 2 2 (.ofList [2, 1, -2, 1] : Mem ℚ) j j| := by
    decide +kernel
  have h := myDgesv_dominant (by decide) 1 _ (.ofList [3, 5]) hdom
  exact ⟨h.1, h0, h.2.2.2 h0⟩

/-! ### Growth -/

/-- The bounds of both arrays at the head of iteration `k`. -/
theorem tailBound_of_eliminateTo (hdom : Dominant 0 (a.toMatrix n n)) {k : ℕ} (hk : k ≤ n - 1)
    (h : Unpivoted.eliminateTo n nrhs k (.init a b) = .next s) :
    TailBound k (tailSum 0 (a.toMatrix n n)) (s.A n) ∧
      TailBound k (tailSum 0 (b.toMatrix n nrhs)) (s.B n nrhs) := by
  let I : ℕ → State ℚ → Prop := fun k s => Pivoted.DominantInv n nrhs a b k s ∧
    TailBound k (tailSum 0 (a.toMatrix n n)) (s.A n) ∧
    TailBound k (tailSum 0 (b.toMatrix n nrhs)) (s.B n nrhs)
  suffices hI : I k s from hI.2
  refine forUpRet_inv I ⟨Pivoted.dominantInv_init hdom, .init fun _ => le_rfl,
    .init fun _ => le_rfl⟩ ?_ h
  rintro i t t' hi ⟨inv, hA, hB⟩ ht
  have hin : i < n := by omega
  refine ⟨inv.step hin ht, ?_⟩
  obtain ⟨L, hL⟩ := inv.head
  rcases Unpivoted.eliminateColumn_cases nrhs ⟨i, hin⟩ t with ⟨-, hr⟩ | ⟨htol, hr⟩
  · rw [hr] at ht
    cases ht
  · rw [hr] at ht
    cases ht
    have hpiv : t.A n ⟨i, hin⟩ ⟨i, hin⟩ ≠ 0 := abs_pos.mp (tol_pos.trans_le htol)
    rw [eliminateRows_A (k := ⟨i, hin⟩) fun j hj => hL.lu.zeros _ j hj hj,
      eliminateRows_B (k := ⟨i, hin⟩)]
    exact ⟨hA.eliminate (k := ⟨i, hin⟩) inv.dominant hpiv,
      hB.eliminate (k := ⟨i, hin⟩) inv.dominant hpiv⟩

/-- **Growth on dominant matrices.**  At every head that is reached, by either solver, no entry
    of `a` exceeds twice the diagonal entry given for its column, and no entry of `b` exceeds
    the sum of the sizes given for its column, however many steps were made. -/
theorem eliminateTo_dominant_growth (a b : Mem ℚ)
    (hdom : ∀ j : Fin n, ∑ i with i ≠ j, |a.toMatrix n n i j| ≤ |a.toMatrix n n j j|) {k : ℕ}
    (hk : k ≤ n - 1)
    (h : Pivoted.eliminateTo n nrhs k (.init a b) = .next s ∨
      Unpivoted.eliminateTo n nrhs k (.init a b) = .next s) :
    (∀ i j, |s.A n i j| ≤ 2 * |a.toMatrix n n j j|) ∧
      ∀ i j, |s.B n nrhs i j| ≤ ∑ r, |b.toMatrix n nrhs r j| := by
  have hdom' : Dominant 0 (a.toMatrix n n) := by
    intro j _
    simpa using hdom j
  have hrun : Unpivoted.eliminateTo n nrhs k (.init a b) = .next s := by
    rcases h with h | h
    · rwa [Pivoted.eliminateTo_eq_of_dominant nrhs b hdom' hk] at h
    · exact h
  obtain ⟨hA, hB⟩ := tailBound_of_eliminateTo hdom' hk hrun
  constructor
  · intro i j
    have hsum : tailSum 0 (a.toMatrix n n) j
        = |a.toMatrix n n j j| + ∑ i with i ≠ j, |a.toMatrix n n i j| := by
      simp only [tailSum, Nat.zero_le, Finset.filter_true]
      rw [← Finset.add_sum_erase Finset.univ _ (Finset.mem_univ j), Finset.filter_ne']
    have hle : |s.A n i j| ≤ tailSum 0 (a.toMatrix n n) j := hA.le i j
    linarith [hdom j]
  · intro i j
    simpa [tailSum] using hB.le i j

/-- Dominant with equality in both columns; the last entry doubles. -/
theorem eliminateTo_dominant_growth_two :
    ∃ s, Pivoted.eliminateTo 2 1 1
        (.init (.ofList [2, 1, -2, 1]) (.ofList [3, 5] : Mem ℚ)) = .next s ∧
      ∀ i j, |s.A 2 i j| ≤ 2 * |Mem.toMatrix 2 2 (.ofList [2, 1, -2, 1] : Mem ℚ) j j| := by
  obtain ⟨s, hs⟩ := Flow.isNext_iff.mp (by decide +kernel :
    (Pivoted.eliminateTo 2 1 1
      (.init (.ofList [2, 1, -2, 1]) (.ofList [3, 5] : Mem ℚ))).isNext = true)
  exact ⟨s, hs, (eliminateTo_dominant_growth _ _ (by decide +kernel) (by decide) (Or.inl hs)).1⟩

end Dgesv
