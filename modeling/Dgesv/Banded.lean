import Dgesv.Lib.Band
import Dgesv.NoPivoting

namespace Dgesv

open Loop Matrix

/-!
# Band matrices

What the two solvers do to the zeros of a band matrix: `src/task1/dgesv.c` keeps all of them, and
`src/dgesv.c` fills in at most `p` more diagonals above the band, as many as there are below it.

* `Unpivoted.banded_of_eliminateTo`, `Pivoted.fillIn_of_eliminateTo` — at every head of the
  elimination;
* `myDgesv_banded` — at the end of a call, however it ends.
-/

variable {n nrhs p q : ℕ} {a b : Mem ℚ} {s : State ℚ}

namespace Unpivoted

/-- **The band is kept** at every head that is reached. -/
theorem banded_of_eliminateTo (hband : Banded p q (a.toMatrix n n)) {k : ℕ} (hk : k ≤ n)
    (h : eliminateTo n nrhs k (.init a b) = .next s) :
    (∃ L, HeadInv n nrhs a b k L s) ∧ Banded p q (s.A n) := by
  let I : ℕ → State ℚ → Prop := fun k s =>
    (∃ L, HeadInv n nrhs a b k L s) ∧ Banded p q (s.A n)
  refine forUpRet_inv I ⟨⟨1, headInv_init n nrhs a b⟩, hband⟩ ?_ h
  rintro i t t' hi ⟨⟨L, hL⟩, hA⟩ ht
  have hin : i < n := by omega
  rcases eliminateColumn_cases nrhs ⟨i, hin⟩ t with ⟨-, hr⟩ | ⟨htol, hr⟩
  · rw [hr] at ht
    cases ht
  · rw [hr] at ht
    cases ht
    refine ⟨⟨_, HeadInv.eliminateRows (k := ⟨i, hin⟩) hL htol⟩, ?_⟩
    rw [eliminateRows_A (k := ⟨i, hin⟩) fun j hj => hL.lu.zeros _ j hj hj]
    exact hA.eliminate (k := ⟨i, hin⟩) fun r j hj hjr => hL.lu.zeros r j hj hjr

/-- What a call leaves in `a`. -/
theorem banded_of_call (hband : Banded p q (a.toMatrix n n)) (hn : 1 ≤ n) :
    Banded p q ((myDgesv n nrhs a b).2.A n) := by
  unfold myDgesv
  cases h : eliminate n nrhs (.init a b) with
  | next s =>
    obtain ⟨⟨L, hL⟩, hA⟩ := banded_of_eliminateTo hband (Nat.sub_le n 1) h
    have hk : (⟨n - 1, by omega⟩ : Fin n).val + 1 = n := by show n - 1 + 1 = n; omega
    rw [Flow.bind_next]
    rcases HeadInv.backSubstitute_cases hk hL with ⟨-, -, hback⟩ | ⟨-, hback⟩
    · rw [hback]
      exact hA
    · rw [hback]
      show Banded p q ((Pivoted.backSubstitute n nrhs s).a.toMatrix n n)
      rw [Pivoted.backSubstitute_a]
      exact hA
  | ret r s =>
    obtain ⟨k, t, hk, ht, hr⟩ := forUpRet_eq_ret h
    have hkn : k < n := by omega
    have hA := (banded_of_eliminateTo hband hkn.le ht).2
    -- A failed test leaves the matrix of the head.
    rcases eliminateColumn_cases nrhs ⟨k, hkn⟩ t with ⟨-, hc⟩ | ⟨-, hc⟩
    · rw [hc] at hr
      cases hr
      exact hA
    · rw [hc] at hr
      cases hr

end Unpivoted

namespace Pivoted

/-- Search and exchange reach at most `p` rows down. -/
theorem fillIn_pivot {k : Fin n} {L : Matrix (Fin n) (Fin n) ℚ} (inv : HeadInv n nrhs a b k L s)
    (hA : FillIn p q k k (s.A n)) : FillIn p q k (k + 1) ((pivot n nrhs k s).A n) := by
  have hmax := searchPivot_isFirstMax k s
  rw [pivot_A]
  exact hA.swap (fun i j hj hji => inv.lu.zeros i j hj hji) hmax.le (hA.firstMax_le hmax)

/-- **The band grows by at most `p` diagonals**: at every head that is reached. -/
theorem fillIn_of_eliminateTo (hband : Banded p q (a.toMatrix n n)) {k : ℕ} (hk : k ≤ n)
    (h : eliminateTo n nrhs k (.init a b) = .next s) :
    (∃ L, HeadInv n nrhs a b k L s) ∧ FillIn p q k k (s.A n) := by
  let I : ℕ → State ℚ → Prop := fun k s =>
    (∃ L, HeadInv n nrhs a b k L s) ∧ FillIn p q k k (s.A n)
  refine forUpRet_inv I ⟨⟨1, headInv_init n nrhs a b⟩, FillIn.init hband⟩ ?_ h
  rintro i t t' hi ⟨⟨L, hL⟩, hA⟩ ht
  have hin : i < n := by omega
  have inv := HeadInv.pivot (k := ⟨i, hin⟩) hL
  have hA' := fillIn_pivot (k := ⟨i, hin⟩) hL hA
  rcases eliminateColumn_cases nrhs ⟨i, hin⟩ t with ⟨-, hr⟩ | ⟨htol, hr⟩
  · rw [hr] at ht
    cases ht
  · rw [hr] at ht
    cases ht
    refine ⟨⟨_, inv.eliminateRows htol⟩, ?_⟩
    rw [eliminateRows_A (k := ⟨i, hin⟩) fun j hj => inv.lu.zeros _ j hj hj]
    exact hA'.eliminate (k := ⟨i, hin⟩) fun r j hj hjr => inv.lu.zeros r j hj hjr

/-- What a call leaves in `a`. -/
theorem banded_of_call (hband : Banded p q (a.toMatrix n n)) :
    Banded p (p + q) ((myDgesv n nrhs a b).2.A n) := by
  unfold myDgesv
  cases h : eliminate n nrhs (.init a b) with
  | next s =>
    have hA := (fillIn_of_eliminateTo hband (Nat.sub_le n 1) h).2
    show Banded p (p + q) ((backSubstitute n nrhs s).a.toMatrix n n)
    rw [backSubstitute_a]
    exact hA.banded
  | ret r s =>
    obtain ⟨k, t, hk, ht, hr⟩ := forUpRet_eq_ret h
    have hkn : k < n := by omega
    obtain ⟨⟨L, hL⟩, hA⟩ := fillIn_of_eliminateTo hband hkn.le ht
    -- A failed test comes after the exchange.
    rcases eliminateColumn_cases nrhs ⟨k, hkn⟩ t with ⟨-, hc⟩ | ⟨-, hc⟩
    · rw [hc] at hr
      cases hr
      exact (fillIn_pivot (k := ⟨k, hkn⟩) hL hA).banded
    · rw [hc] at hr
      cases hr

end Pivoted

/-- **Band matrices.**  In exact arithmetic, and however the call ends: on a matrix with `p`
    diagonals below the main one and `q` above it, `src/task1/dgesv.c` leaves such a matrix in
    `a`, and `src/dgesv.c` one with `p` diagonals below the main one and `p + q` above it. -/
theorem myDgesv_banded (hn : 1 ≤ n) (nrhs : ℕ) (a b : Mem ℚ)
    (hband : Banded p q (a.toMatrix n n)) :
    Banded p q ((Unpivoted.myDgesv n nrhs a b).2.A n) ∧
      Banded p (p + q) ((Pivoted.myDgesv n nrhs a b).2.A n) :=
  ⟨Unpivoted.banded_of_call hband hn, Pivoted.banded_of_call hband⟩

/-- A tridiagonal matrix of order three: with exchanges, the corner above is filled in. -/
theorem myDgesv_banded_three :
    Banded 1 1 ((Unpivoted.myDgesv 3 1 (.ofList [1, 1, 0, 2, 1, 1, 0, 2, 1])
        (.ofList [1, 1, 1] : Mem ℚ)).2.A 3) ∧
      (Pivoted.myDgesv 3 1 (.ofList [1, 1, 0, 2, 1, 1, 0, 2, 1])
        (.ofList [1, 1, 1] : Mem ℚ)).2.a 2 = 1 := by
  have hzeros : ∀ i j : Fin 3, j.val + 1 < i ∨ i.val + 1 < j →
      (.ofList [1, 1, 0, 2, 1, 1, 0, 2, 1] : Mem ℚ) (i * 3 + j) = 0 := by decide +kernel
  have hband : Banded 1 1 (Mem.toMatrix 3 3 (.ofList [1, 1, 0, 2, 1, 1, 0, 2, 1] : Mem ℚ)) :=
    ⟨fun i j h => hzeros i j (Or.inl h), fun i j h => hzeros i j (Or.inr h)⟩
  exact ⟨(myDgesv_banded (by decide) 1 _ _ hband).1, by decide +kernel⟩

end Dgesv
