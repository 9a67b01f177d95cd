import Dgesv.Pivoting

namespace Dgesv

open Loop Matrix

/-!
# Growth of the entries

A pivot that is the largest of its column makes every multiplier at most `1` in size, so a
step of the elimination at most doubles the largest entry, of `a` and of `b`.  After `k`
steps the entries have grown by a factor of at most `2 ^ k`.

The bound is attained.  In `growthMatrix n`, with ones on the diagonal and in the last
column and `-1` below the diagonal, all candidates of a step are of equal size; the search
compares with `>` and keeps the row it started with.  So nothing is exchanged, every
multiplier is `-1`, and each step doubles what it reaches of the last column.

* `headBound_of_eliminateTo` — the bound holds at every head that is reached;
* `eliminateTo_growthMatrix` — the run on `growthMatrix n`, entry by entry.
-/

/-- The largest absolute value of an entry (`0` if there is none). -/
def maxAbs {r w : ℕ} (A : Matrix (Fin r) (Fin w) ℚ) : ℚ :=
  Finset.univ.fold max 0 fun p : Fin r × Fin w => |A p.1 p.2|

theorem abs_le_maxAbs {r w : ℕ} (A : Matrix (Fin r) (Fin w) ℚ) (i : Fin r) (j : Fin w) :
    |A i j| ≤ maxAbs A := by
  unfold maxAbs
  rw [Finset.le_fold_max]
  exact Or.inr ⟨(i, j), Finset.mem_univ _, le_rfl⟩

theorem maxAbs_nonneg {r w : ℕ} (A : Matrix (Fin r) (Fin w) ℚ) : 0 ≤ maxAbs A := by
  unfold maxAbs
  rw [Finset.le_fold_max]
  exact Or.inl le_rfl

theorem maxAbs_le {r w : ℕ} {A : Matrix (Fin r) (Fin w) ℚ} {c : ℚ} (hc : 0 ≤ c)
    (hA : ∀ i j, |A i j| ≤ c) : maxAbs A ≤ c := by
  unfold maxAbs
  rw [Finset.fold_max_le]
  exact ⟨hc, fun p _ => hA p.1 p.2⟩

namespace Pivoted

variable {n nrhs : ℕ} {a b : Mem ℚ} {s : State ℚ}

/-! ### The bound -/

/-- The entries after `k` steps of a call on `(a, b)`. -/
structure HeadBound (n nrhs : ℕ) (a b : Mem ℚ) (k : ℕ) (s : State ℚ) : Prop where
  a_le : ∀ i j, |s.A n i j| ≤ 2 ^ k * maxAbs (a.toMatrix n n)
  b_le : ∀ i j, |s.B n nrhs i j| ≤ 2 ^ k * maxAbs (b.toMatrix n nrhs)

/-- An exchange of rows does not change the bound. -/
theorem HeadBound.pivot {k : Fin n} (h : HeadBound n nrhs a b k s) :
    HeadBound n nrhs a b k (pivot n nrhs k s) where
  a_le i j := by
    rw [pivot_A]
    exact h.a_le _ j
  b_le i j := by
    rw [pivot_B]
    exact h.b_le _ j

/-- An elimination step with a largest pivot at most doubles it. -/
theorem HeadBound.eliminateRows {k : Fin n} (h : HeadBound n nrhs a b k s)
    (hzeros : ∀ j, j < k → s.A n k j = 0) (hmax : ∀ i, k ≤ i → |s.A n i k| ≤ |s.A n k k|) :
    HeadBound n nrhs a b (k + 1) (eliminateRows n nrhs k s) where
  a_le i j := by
    rw [eliminateRows_A hzeros, pow_succ', mul_assoc]
    exact LUPrefix.abs_sub_multipliers_mul_le hmax h.a_le i j
  b_le i j := by
    rw [eliminateRows_B, pow_succ', mul_assoc]
    exact LUPrefix.abs_sub_multipliers_mul_le hmax h.b_le i j

/-- **The bound holds at every head that is reached.** -/
theorem headBound_of_eliminateTo {k : ℕ} (hk : k ≤ n)
    (h : eliminateTo n nrhs k (.init a b) = .next s) : HeadBound n nrhs a b k s := by
  -- That the tested entry is largest comes from the invariant of the elimination.
  let I : ℕ → State ℚ → Prop := fun k s =>
    (∃ L, HeadInv n nrhs a b k L s) ∧ HeadBound n nrhs a b k s
  suffices hI : I k s from hI.2
  refine forUpRet_inv I ⟨⟨1, headInv_init n nrhs a b⟩, ⟨?_, ?_⟩⟩ ?_ h
  · intro i j
    rw [pow_zero, one_mul]
    exact abs_le_maxAbs _ i j
  · intro i j
    rw [pow_zero, one_mul]
    exact abs_le_maxAbs _ i j
  · rintro i t t' hi ⟨⟨L, hL⟩, hbound⟩ ht
    have hin : i < n := by omega
    have htest := HeadInv.pivot (k := ⟨i, hin⟩) hL
    rcases eliminateColumn_cases nrhs ⟨i, hin⟩ t with ⟨-, hr⟩ | ⟨htol, hr⟩
    · rw [hr] at ht
      cases ht
    · rw [hr] at ht
      cases ht
      refine ⟨⟨_, htest.eliminateRows htol⟩, ?_⟩
      exact (HeadBound.pivot (k := ⟨i, hin⟩) hbound).eliminateRows
        (fun j hj => htest.lu.zeros _ j hj hj) htest.max

/-! ### A family that attains it -/

/-- Ones on the diagonal and in the last column, `-1` below the diagonal. -/
def growthMatrix (n : ℕ) : Mem ℚ where
  size := n * n
  get c :=
    if c % n + 1 = n then 1 else if c / n = c % n then 1 else if c % n < c / n then -1 else 0

/-- Its entries after `k` steps. -/
def growthAfter (n k i j : ℕ) : ℚ :=
  if j + 1 = n then 2 ^ min i k else if i = j then 1 else if j < i ∧ k ≤ j then -1 else 0

theorem growthMatrix_cell (i : ℕ) {j : ℕ} (hj : j < n) :
    growthMatrix n (i * n + j) = growthAfter n 0 i j := by
  unfold growthMatrix growthAfter
  simp only [cell_div i hj, cell_mod i hj, Nat.min_zero, pow_zero, Nat.zero_le, and_true]

/-- The pivot of step `k` is `1`, … -/
theorem growthAfter_self {k : ℕ} (hk : k + 1 < n) : growthAfter n k k k = 1 := by
  rw [growthAfter, if_neg (by omega), if_pos rfl]

/-- … and what is to be cleared below it is `-1`. -/
theorem growthAfter_below {k i : ℕ} (hk : k + 1 < n) (hi : k < i) : growthAfter n k i k = -1 := by
  rw [growthAfter, if_neg (by omega), if_neg (by omega), if_pos ⟨hi, le_rfl⟩]

/-- All candidates of step `k` are of equal size, and the search stays at row `k`. -/
theorem searchPivot_growthMatrix {k : ℕ} (hk : k + 1 < n)
    (h : ∀ i < n, ∀ j < n, s.a (i * n + j) = growthAfter n k i j) :
    (searchPivot n k s.a).1 = k := by
  have hk' : k < n := by omega
  refine searchPivot_of_max hk' fun i hi hki => ?_
  rw [h k hk' k hk', h i hi k hk', growthAfter_self hk, growthAfter_below hk hki, abs_neg]

/-- The elimination of step `k`: row `k` is added to every row below it. -/
theorem eliminateRows_growthMatrix (nrhs : ℕ) {k : ℕ} (hk : k + 1 < n)
    (h : ∀ i < n, ∀ j < n, s.a (i * n + j) = growthAfter n k i j) :
    ∀ i < n, ∀ j < n, (eliminateRows n nrhs k s).a (i * n + j) = growthAfter n (k + 1) i j := by
  intro i hi j hj
  have hk' : k < n := by omega
  rw [eliminateRows_a nrhs hk' s i hj, h i hi j hj, h i hi k hk', h k hk' k hk', h k hk' j hj,
    growthAfter_self hk]
  by_cases hki : k < i
  · rw [growthAfter_below hk hki]
    by_cases hlast : j + 1 = n
    · -- In the last column, both rows hold `2 ^ k`.
      rw [if_pos ⟨hki, hi, by omega⟩, growthAfter, growthAfter, growthAfter, if_pos hlast,
        if_pos hlast, if_pos hlast, min_eq_right hki.le, min_self, min_eq_right hki]
      ring
    · simp only [growthAfter, if_neg hlast]
      rcases lt_trichotomy j k with hjk | rfl | hjk
      · rw [if_neg (by omega : ¬ (k < i ∧ i < n ∧ k ≤ j)), if_neg (by omega : ¬ (j < i ∧ k ≤ j)),
          if_neg (by omega : ¬ (j < i ∧ k + 1 ≤ j))]
      · rw [if_pos ⟨hki, hi, le_rfl⟩, if_neg (by omega), if_pos ⟨hki, le_rfl⟩, if_pos rfl,
          if_neg (by omega)]
        norm_num
      · -- Row `k` has zeros between the diagonal and the last column.
        rw [if_pos ⟨hki, hi, hjk.le⟩, if_neg (by omega : ¬ k = j),
          if_neg (by omega : ¬ (j < k ∧ _)), mul_zero, add_zero]
        exact if_congr Iff.rfl rfl (if_congr (by omega) rfl rfl)
  · rw [if_neg (by omega), growthAfter, growthAfter, min_eq_left (by omega), min_eq_left (by omega)]
    exact if_congr Iff.rfl rfl (if_congr Iff.rfl rfl (if_congr (by omega) rfl rfl))

/-- **The run on `growthMatrix n`**, whatever the right-hand sides. -/
theorem eliminateTo_growthMatrix (nrhs : ℕ) (b : Mem ℚ) {k : ℕ} (hk : k < n) :
    ∃ s, eliminateTo n nrhs k (.init (growthMatrix n) b) = .next s ∧
      ∀ i < n, ∀ j < n, s.a (i * n + j) = growthAfter n k i j := by
  refine eliminateTo_entries (fun i _ j hj => growthMatrix_cell i hj) ?_ hk
  intro k s hk hentries
  have hk' : k < n := by omega
  rw [pivot_eq_self nrhs (searchPivot_growthMatrix hk hentries)]
  refine ⟨?_, eliminateRows_growthMatrix nrhs hk hentries⟩
  rw [hentries k hk' k hk', growthAfter_self hk, tol_rat]
  norm_num

/-- The largest entry of `growthMatrix n` is `1`. -/
theorem maxAbs_growthMatrix (hn : 1 ≤ n) : maxAbs ((growthMatrix n).toMatrix n n) = 1 := by
  have hentry : ∀ i j : Fin n, (growthMatrix n).toMatrix n n i j = growthAfter n 0 i j :=
    fun i j => growthMatrix_cell i j.isLt
  apply le_antisymm
  · refine maxAbs_le zero_le_one fun i j => ?_
    rw [hentry, growthAfter]
    split_ifs <;> norm_num
  · have h := abs_le_maxAbs ((growthMatrix n).toMatrix n n) ⟨n - 1, by omega⟩ ⟨n - 1, by omega⟩
    rw [hentry, growthAfter, if_pos (by show n - 1 + 1 = n; omega), Nat.min_zero, pow_zero,
      abs_one] at h
    exact h

/-! ### The result -/

/-- **Element growth.**  At the head of every iteration `k` that is reached, no entry of `a`
    exceeds `2 ^ k` times the largest entry given, and no entry of `b` either.  For every
    `n` there is a matrix for which the elimination completes with an entry of `a` that has
    grown by exactly `2 ^ (n - 1)`. -/
theorem eliminate_growth :
    (∀ (n nrhs : ℕ) (a b : Mem ℚ) (k : ℕ) (s : State ℚ), 1 ≤ n → k ≤ n - 1 →
      eliminateTo n nrhs k (.init a b) = .next s →
      (∀ i j, |s.A n i j| ≤ 2 ^ k * maxAbs (a.toMatrix n n)) ∧
      ∀ i j, |s.B n nrhs i j| ≤ 2 ^ k * maxAbs (b.toMatrix n nrhs)) ∧
    ∀ n, 1 ≤ n → ∃ a : Mem ℚ, 0 < maxAbs (a.toMatrix n n) ∧ ∀ (nrhs : ℕ) (b : Mem ℚ),
      ∃ s, eliminate n nrhs (.init a b) = .next s ∧
        ∃ i j, |s.A n i j| = 2 ^ (n - 1) * maxAbs (a.toMatrix n n) := by
  constructor
  · intro n nrhs a b k s hn hk h
    have hbound := headBound_of_eliminateTo (by omega : k ≤ n) h
    exact ⟨hbound.a_le, hbound.b_le⟩
  · intro n hn
    refine ⟨growthMatrix n, by rw [maxAbs_growthMatrix hn]; exact one_pos, ?_⟩
    intro nrhs b
    have hlast : n - 1 < n := by omega
    obtain ⟨s, hs, hentries⟩ := eliminateTo_growthMatrix nrhs b hlast
    refine ⟨s, hs, ⟨n - 1, hlast⟩, ⟨n - 1, hlast⟩, ?_⟩
    rw [maxAbs_growthMatrix hn, mul_one]
    show |s.a ((n - 1) * n + (n - 1))| = 2 ^ (n - 1)
    rw [hentries _ hlast _ hlast, growthAfter, if_pos (by omega), min_self, abs_pow, abs_two]

/-- The bound, for the run on `growthMatrix 3`. -/
theorem eliminate_growth_three :
    ∃ s, eliminateTo 3 1 2 (.init (growthMatrix 3) (.ofList [1, 1, 1])) = .next s ∧
      ∀ i j, |s.A 3 i j| ≤ 2 ^ 2 * maxAbs ((growthMatrix 3).toMatrix 3 3) := by
  obtain ⟨s, hs, -⟩ := eliminateTo_growthMatrix 1 (.ofList [1, 1, 1]) (by decide : 2 < 3)
  exact ⟨s, hs, (eliminate_growth.1 3 1 _ _ 2 s (by decide) (by decide) hs).1⟩

end Pivoted

end Dgesv
