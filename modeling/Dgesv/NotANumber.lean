import Dgesv.AnyArithmetic

namespace Dgesv

open Loop

/-!
# Not-a-number

Neither solver looks for a NaN, and no comparison with one is ever true: a NaN never wins the
pivot search, and it passes every tolerance test.  So a NaN in the input does not make a call
fail.  It is not lost either: each step of the elimination hands it on to the rows and columns
that are left, and the back substitution from the last row to all others.

* `HasNaN K` — the values that behave as IEEE 754 lets a NaN behave;
* `eliminateRows_nan_a`, `eliminateRows_nan_b` — the step of the elimination;
* `Solves.nan` — the back substitution;
* `myDgesv_nan_first` — a NaN in the first cell of `a` makes both calls return `0`.
-/

/-- Values that an operation never gets rid of, and that compare with nothing. -/
class HasNaN (K : Type*) [Neg K] [Add K] [Sub K] [Mul K] [Div K] [FloatOps K] where
  IsNaN : K → Prop
  neg {x : K} : IsNaN x → IsNaN (-x)
  add {x y : K} : IsNaN x ∨ IsNaN y → IsNaN (x + y)
  sub {x y : K} : IsNaN x ∨ IsNaN y → IsNaN (x - y)
  mul {x y : K} : IsNaN x ∨ IsNaN y → IsNaN (x * y)
  div {x y : K} : IsNaN x ∨ IsNaN y → IsNaN (x / y)
  fabs {x : K} : IsNaN x → IsNaN (fabs x)
  lt {x y : K} : IsNaN x ∨ IsNaN y → FloatOps.lt x y = false

open HasNaN (IsNaN)

variable {K : Type*} [Neg K] [Add K] [Sub K] [Mul K] [Div K] [FloatOps K] [HasNaN K]
variable {n nrhs : ℕ} {a b : Mem K} {s s' : State K}

/-- A NaN on the diagonal passes its test. -/
theorem Passes.of_nan {i : ℕ} (h : IsNaN (a (i * n + i))) : Passes n a i :=
  HasNaN.lt (Or.inl (HasNaN.fabs h))

/-! ### The elimination -/

/-- Some entry that is left after `k` steps is a NaN. -/
def NaNLeft (n k : ℕ) (a : Mem K) : Prop :=
  ∃ i j, k ≤ i ∧ i < n ∧ k ≤ j ∧ j < n ∧ IsNaN (a (i * n + j))

/-- Whatever goes into the new entry `(i, j)`, a NaN among it shows. -/
theorem eliminateRows_a_nan {k i j : ℕ} (hk : k < n) (hki : k < i) (hi : i < n) (hkj : k ≤ j)
    (hj : j < n)
    (h : IsNaN (s.a (i * n + j)) ∨ IsNaN (s.a (i * n + k)) ∨ IsNaN (s.a (k * n + k)) ∨
      IsNaN (s.a (k * n + j))) :
    IsNaN ((eliminateRows n nrhs k s).a (i * n + j)) := by
  rw [eliminateRows_a nrhs hk s i hj, if_pos ⟨hki, hi, hkj⟩]
  rcases h with h | h | h | h
  · exact HasNaN.add (Or.inl h)
  · exact HasNaN.add (Or.inr (HasNaN.mul (Or.inl (HasNaN.div (Or.inl (HasNaN.neg h))))))
  · exact HasNaN.add (Or.inr (HasNaN.mul (Or.inl (HasNaN.div (Or.inr h)))))
  · exact HasNaN.add (Or.inr (HasNaN.mul (Or.inr h)))

/-- **A step keeps a NaN** among the entries that are left. -/
theorem NaNLeft.eliminateRows {k : ℕ} (hk : k + 1 < n) (h : NaNLeft n k s.a) :
    NaNLeft n (k + 1) (eliminateRows n nrhs k s).a := by
  obtain ⟨i, j, hki, hi, hkj, hj, hnan⟩ := h
  have hkn : k < n := by omega
  rcases Nat.eq_or_lt_of_le hki with rfl | hlti
  · rcases Nat.eq_or_lt_of_le hkj with rfl | hltj
    · -- The pivot: every multiplier is a NaN.
      exact ⟨k + 1, k + 1, le_rfl, hk, le_rfl, hk, eliminateRows_a_nan hkn (by omega) hk (by omega)
        hk (Or.inr (Or.inr (Or.inl hnan)))⟩
    · exact ⟨k + 1, j, le_rfl, hk, hltj, hj, eliminateRows_a_nan hkn (by omega) hk hkj hj
        (Or.inr (Or.inr (Or.inr hnan)))⟩
  · rcases Nat.eq_or_lt_of_le hkj with rfl | hltj
    · -- Below the pivot: the multiplier of row `i` is a NaN.
      exact ⟨i, k + 1, hlti, hi, le_rfl, hk, eliminateRows_a_nan hkn hlti hi (by omega) hk
        (Or.inr (Or.inl hnan))⟩
    · exact ⟨i, j, hlti, hi, hltj, hj, eliminateRows_a_nan hkn hlti hi hkj hj (Or.inl hnan)⟩

/-- A right-hand side that is left after `k` steps has a NaN in column `j`. -/
def NaNLeftB (n nrhs j k : ℕ) (b : Mem K) : Prop := ∃ i, k ≤ i ∧ i < n ∧ IsNaN (b (i * nrhs + j))

/-- The same step on `b`. -/
theorem NaNLeftB.eliminateRows {j k : ℕ} (hj : j < nrhs) (hk : k + 1 < n)
    (h : NaNLeftB n nrhs j k s.b) : NaNLeftB n nrhs j (k + 1) (eliminateRows n nrhs k s).b := by
  obtain ⟨i, hki, hi, hnan⟩ := h
  have hkn : k < n := by omega
  rcases Nat.eq_or_lt_of_le hki with rfl | hlt
  · refine ⟨k + 1, le_rfl, hk, ?_⟩
    rw [eliminateRows_b hkn s _ hj, if_pos ⟨Nat.lt_succ_self k, hk⟩]
    exact HasNaN.add (Or.inr (HasNaN.mul (Or.inr hnan)))
  · refine ⟨i, hlt, hi, ?_⟩
    rw [eliminateRows_b hkn s _ hj, if_pos ⟨hlt, hi⟩]
    exact HasNaN.add (Or.inl hnan)

/-! ### Search and exchange -/

namespace Pivoted

omit [HasNaN K] [Neg K] [Add K] [Sub K] [Mul K] [Div K] in
/-- The exchange moves rows that are left among themselves. -/
theorem exists_swap_row {k i : ℕ} (hk : k < n) (hki : k ≤ i) (hi : i < n) (a : Mem K) :
    ∃ r, k ≤ r ∧ r < n ∧ Equiv.swap k (searchPivot n k a).1 r = i := by
  have hbounds := searchPivot_bounds hk a
  refine ⟨Equiv.swap k (searchPivot n k a).1 i, ?_, ?_, Equiv.swap_apply_self _ _ _⟩
  · rw [Equiv.swap_apply_def]
    split_ifs <;> omega
  · rw [Equiv.swap_apply_def]
    split_ifs <;> omega

theorem nanLeft_pivot {k : ℕ} (hk : k < n) (h : NaNLeft n k s.a) :
    NaNLeft n k (pivot n nrhs k s).a := by
  obtain ⟨i, j, hki, hi, hkj, hj, hnan⟩ := h
  obtain ⟨r, hkr, hr, hswap⟩ := exists_swap_row hk hki hi s.a
  refine ⟨r, j, hkr, hr, hkj, hj, ?_⟩
  rw [pivot_a n nrhs k s r hj, hswap]
  exact hnan

theorem nanLeftB_pivot {j k : ℕ} (hj : j < nrhs) (hk : k < n) (h : NaNLeftB n nrhs j k s.b) :
    NaNLeftB n nrhs j k (pivot n nrhs k s).b := by
  obtain ⟨i, hki, hi, hnan⟩ := h
  obtain ⟨r, hkr, hr, hswap⟩ := exists_swap_row hk hki hi s.a
  refine ⟨r, hkr, hr, ?_⟩
  rw [pivot_b n nrhs k s r hj, hswap]
  exact hnan

/-- A NaN at the pivot position stays there. -/
theorem searchPivot_nan {k : ℕ} (h : IsNaN (a (k * n + k))) :
    (searchPivot n k a).1 = k := by
  refine (forUp_preserves (fun p : ℕ × K => p.1 = k ∧ IsNaN p.2) ⟨rfl, HasNaN.fabs h⟩ ?_).1
  rintro i p - - ⟨hp, hnan⟩
  rw [HasNaN.lt (Or.inl hnan), if_neg Bool.false_ne_true]
  exact ⟨hp, hnan⟩

end Pivoted

/-! ### The back substitution -/

/-- A solution value that is a NaN makes the accumulation one, for every row before it. -/
theorem accumulate_nan {i k hi : ℕ} (hik : i < k) (hk : k < hi) {x : ℕ → K} (h : IsNaN (x k))
    (t : K) : IsNaN (accumulate n i hi a x t) := by
  refine forUp_inv (fun c t' => k < c → IsNaN t') (by omega : i + 1 ≤ hi) ?_ ?_ hk
  · intro hlt
    omega
  · intro c t' _ _ ih hlt
    rcases Nat.lt_succ_iff_lt_or_eq.mp hlt with hlt | rfl
    · exact HasNaN.sub (Or.inl (ih hlt))
    · exact HasNaN.sub (Or.inr (HasNaN.mul (Or.inr h)))

/-- **A NaN in the last equation** is handed on to every solution value. -/
theorem Solves.nan {y x : ℕ → K} (hn : 1 ≤ n) (h : Solves n a y x)
    (hlast : IsNaN (a ((n - 1) * n + (n - 1))) ∨ IsNaN (y (n - 1))) :
    ∀ i < n, IsNaN (x i) := by
  have hx : IsNaN (x (n - 1)) := by
    rw [h (n - 1) (by omega), accumulate, forUp_of_le (by omega)]
    exact HasNaN.div hlast.symm
  intro i hi
  rcases Nat.lt_or_ge i (n - 1) with hlt | hge
  · rw [h i hi]
    exact HasNaN.div (Or.inl (accumulate_nan hlt (by omega) hx _))
  · rwa [show i = n - 1 by omega]

/-! ### The calls -/

/-- Something that is left after `k` steps and reaches column `j` is a NaN. -/
def NaNReaches (n nrhs j k : ℕ) (s : State K) : Prop :=
  NaNLeft n k s.a ∨ NaNLeftB n nrhs j k s.b

theorem NaNReaches.eliminateRows {j k : ℕ} (hj : j < nrhs) (hk : k + 1 < n)
    (h : NaNReaches n nrhs j k s) : NaNReaches n nrhs j (k + 1) (eliminateRows n nrhs k s) :=
  h.imp (·.eliminateRows hk) (·.eliminateRows hj hk)

/-- When a single row is left, it is in the last equation. -/
theorem NaNReaches.last {j : ℕ} (h : NaNReaches n nrhs j (n - 1) s) :
    IsNaN (s.a ((n - 1) * n + (n - 1))) ∨ IsNaN (s.b ((n - 1) * nrhs + j)) := by
  rcases h with ⟨i, l, hi, hin, hl, hln, hnan⟩ | ⟨i, hi, hin, hnan⟩
  · rw [show i = n - 1 by omega, show l = n - 1 by omega] at hnan
    exact Or.inl hnan
  · rw [show i = n - 1 by omega] at hnan
    exact Or.inr hnan

/-- **No NaN is lost.**  If the matrix has a NaN anywhere, or column `j` of the right-hand sides
    has one, and a call returns `0`, then every entry of column `j` of the result is a NaN,
    for either solver. -/
theorem myDgesv_nan_visible (hn : 1 ≤ n) {j : ℕ} (hj : j < nrhs) (a b : Mem K)
    (h : (∃ i < n, ∃ l < n, IsNaN (a (i * n + l))) ∨ ∃ i < n, IsNaN (b (i * nrhs + j))) :
    ((Pivoted.myDgesv n nrhs a b).1 = 0 →
      ∀ i < n, IsNaN ((Pivoted.myDgesv n nrhs a b).2.b (i * nrhs + j))) ∧
    ((Unpivoted.myDgesv n nrhs a b).1 = 0 →
      ∀ i < n, IsNaN ((Unpivoted.myDgesv n nrhs a b).2.b (i * nrhs + j))) := by
  have hnrhs : 1 ≤ nrhs := Nat.one_le_of_lt hj
  have hstart : NaNReaches n nrhs j 0 (.init a b) := by
    refine h.imp ?_ ?_
    · rintro ⟨i, hi, l, hl, hnan⟩
      exact ⟨i, l, Nat.zero_le i, hi, Nat.zero_le l, hl, hnan⟩
    · rintro ⟨i, hi, hnan⟩
      exact ⟨i, Nat.zero_le i, hi, hnan⟩
  have hsolve : ∀ s : State K, NaNReaches n nrhs j (n - 1) s →
      ∀ i < n, IsNaN ((Pivoted.backSubstitute n nrhs s).b (i * nrhs + j)) := fun s hs =>
    (Pivoted.backSubstitute_solves hj s).nan hn hs.last
  constructor
  · intro h0
    obtain ⟨s, hs, -, hfinal⟩ := Pivoted.exists_of_code_zero hn hnrhs h0
    rw [hfinal]
    refine hsolve s (Pivoted.inv_of_eliminateTo (NaNReaches n nrhs j) hstart ?_ ?_ le_rfl hs)
    · intro k t hk ht
      exact ht.imp (Pivoted.nanLeft_pivot (by omega)) (Pivoted.nanLeftB_pivot hj (by omega))
    · intro k t hk ht
      exact ht.eliminateRows hj hk
  · intro h0
    obtain ⟨s, hs, -, hfinal⟩ := Unpivoted.exists_of_code_zero hn hnrhs h0
    rw [hfinal]
    refine hsolve s (Unpivoted.inv_of_eliminateTo (NaNReaches n nrhs j) hstart ?_ le_rfl hs)
    intro k t hk ht
    exact ht.eliminateRows hj hk

/-! ### A NaN in the first cell -/

/-- Both eliminations run to their end, and do the same: the pivot of each step is a NaN, which
    the search keeps and the test accepts. -/
theorem eliminateTo_nan_first (nrhs : ℕ) (b : Mem K) (h : IsNaN (a 0)) {k : ℕ} (hk : k ≤ n - 1) :
    ∃ s, Pivoted.eliminateTo n nrhs k (.init a b) = .next s ∧
      Unpivoted.eliminateTo n nrhs k (.init a b) = .next s ∧ IsNaN (s.a (k * n + k)) := by
  induction k with
  | zero =>
    refine ⟨.init a b, rfl, rfl, ?_⟩
    show IsNaN (a (0 * n + 0))
    rwa [Nat.zero_mul]
  | succ k ih =>
    obtain ⟨s, hp, hu, hnan⟩ := ih (by omega)
    have hpass : ¬ lt (fabs (s.a (k * n + k))) tol = true := passes_iff.mp (Passes.of_nan hnan)
    have hcol : Unpivoted.eliminateColumn n nrhs k s = .next (eliminateRows n nrhs k s) :=
      if_neg hpass
    refine ⟨eliminateRows n nrhs k s, ?_, ?_, ?_⟩
    · refine Flow.bind_eq_next.mpr ⟨s, hp, ?_⟩
      unfold Pivoted.eliminateColumn
      rw [Pivoted.pivot_eq_self nrhs (Pivoted.searchPivot_nan hnan)]
      exact hcol
    · exact Flow.bind_eq_next.mpr ⟨s, hu, hcol⟩
    · exact eliminateRows_a_nan (by omega) (Nat.lt_succ_self k) (by omega) (by omega) (by omega)
        (Or.inr (Or.inr (Or.inl hnan)))

/-- **A NaN in the first cell of `a`** is reported as a success: both calls return `0`, end in
    the same state, and leave nothing but NaNs in `b`. -/
theorem myDgesv_nan_first (hn : 1 ≤ n) (hnrhs : 1 ≤ nrhs) (a b : Mem K) (h : IsNaN (a 0)) :
    (Pivoted.myDgesv n nrhs a b).1 = 0 ∧
      Unpivoted.myDgesv n nrhs a b = Pivoted.myDgesv n nrhs a b ∧
      ∀ c < n * nrhs, IsNaN ((Pivoted.myDgesv n nrhs a b).2.b c) := by
  obtain ⟨s, hp, hu, hnan⟩ := eliminateTo_nan_first nrhs b h (le_refl (n - 1))
  have htested := Pivoted.tested_of_eliminateTo (Nat.sub_le n 1) hp
  have hlast : Passes n s.a (n - 1) := Passes.of_nan hnan
  have hcode := Pivoted.exitCode_of_tested hn hnrhs (Pivoted.errorFlag_of_eliminateTo hp) htested
  rw [if_pos hlast] at hcode
  have hpivoted : Pivoted.myDgesv n nrhs a b = (0, Pivoted.backSubstitute n nrhs s) := by
    rw [Pivoted.myDgesv, show Pivoted.eliminate n nrhs (.init a b) = .next s from hp]
    show (Pivoted.exitCode _, _) = _
    rw [hcode]
  rw [hpivoted]
  refine ⟨rfl, ?_, ?_⟩
  · rw [Unpivoted.myDgesv, show Unpivoted.eliminate n nrhs (.init a b) = .next s from hu,
      Flow.bind_next, Unpivoted.backSubstitute_of_tested hn hnrhs htested, if_pos hlast]
  · intro c hc
    obtain ⟨i, hi, j, hj, rfl⟩ := exists_cell_of_lt hc
    exact (Pivoted.backSubstitute_solves hj s).nan hn (Or.inl hnan) i hi

/-! ### Rational numbers with a NaN -/

/-- The rational numbers and one value that is none. -/
inductive Num where
  | nan
  | num (q : ℚ)
  deriving DecidableEq

namespace Num

/-- Apply an operation to two numbers. -/
def lift (f : ℚ → ℚ → Num) : Num → Num → Num
  | num x, num y => f x y
  | _, _ => nan

instance : Zero Num := ⟨num 0⟩
instance : Neg Num := ⟨lift (fun _ y => num (-y)) (num 0)⟩
instance : Add Num := ⟨lift fun x y => num (x + y)⟩
instance : Sub Num := ⟨lift fun x y => num (x - y)⟩
instance : Mul Num := ⟨lift fun x y => num (x * y)⟩
instance : Div Num := ⟨lift fun x y => if y = 0 then nan else num (x / y)⟩

instance : FloatOps Num where
  fabs := lift (fun _ y => num |y|) (num 0)
  lt
    | num x, num y => decide (x < y)
    | _, _ => false
  tol := num (1 / 10 ^ 10)

theorem lift_nan {f : ℚ → ℚ → Num} {x y : Num} (h : x = nan ∨ y = nan) : lift f x y = nan := by
  rcases h with rfl | rfl
  · rfl
  · cases x <;> rfl

instance : HasNaN Num where
  IsNaN x := x = nan
  neg h := lift_nan (Or.inr h)
  add := lift_nan
  sub := lift_nan
  mul := lift_nan
  div := lift_nan
  fabs h := lift_nan (Or.inr h)
  lt {x y} h := by
    rcases h with rfl | rfl
    · rfl
    · cases x <;> rfl

end Num

/-- The rows `(2, 1)` and `(nan, 3)`. -/
def nanInside : Mem Num := .ofList [.num 2, .num 1, .nan, .num 3]

/-- The rows `(nan, 0)` and `(0, 0)`. -/
def nanFirst : Mem Num := .ofList [.nan, .num 0, .num 0, .num 0]

/-- A right-hand side. -/
def numOnes : Mem Num := .ofList [.num 1, .num 1]

/-- The call succeeds, and both results are NaN. -/
theorem myDgesv_nan_visible_two : (Pivoted.myDgesv 2 1 nanInside numOnes).1 = 0 ∧
    ∀ i < 2, (Pivoted.myDgesv 2 1 nanInside numOnes).2.b (i * 1 + 0) = .nan := by
  have h0 : (Pivoted.myDgesv 2 1 nanInside numOnes).1 = 0 := by decide +kernel
  exact ⟨h0, (myDgesv_nan_visible (by decide) (by decide : 0 < 1) _ _
    (Or.inl ⟨1, by decide, 0, by decide, rfl⟩)).1 h0⟩

/-- So it does on a matrix that is singular but for its NaN. -/
theorem myDgesv_nan_first_two : (Pivoted.myDgesv 2 1 nanFirst numOnes).1 = 0 ∧
    ∀ c < 2, (Pivoted.myDgesv 2 1 nanFirst numOnes).2.b c = .nan := by
  obtain ⟨h0, -, hb⟩ := myDgesv_nan_first (by decide : 1 ≤ 2) (by decide : 1 ≤ 1) nanFirst
    numOnes rfl
  exact ⟨h0, hb⟩

end Dgesv
