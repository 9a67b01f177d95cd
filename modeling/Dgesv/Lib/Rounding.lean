import Mathlib.Algebra.Order.Round
import Mathlib.Data.Int.Log
import Mathlib.Data.Rat.Floor
import Mathlib.Tactic.Ring
import Mathlib.Tactic.Linarith
import Mathlib.Tactic.Positivity
import Mathlib.Tactic.FieldSimp

namespace Dgesv

/-!
# Rounded arithmetic

The standard model of floating-point arithmetic: every operation returns its exact result,
rounded with a relative error of at most `u`.  Overflow, underflow and the special values are
outside the model.

* `Rounding` — a rounding function with its unit roundoff; `Rounding.nearest p` is rounding to
  `p` binary digits;
* `Fl R` — numbers with the rounded operations;
* `Rounding.Near d c` — `c` is what `d` rounding errors can make of a factor `1`.  Such factors
  can be multiplied, inverted and weakened, so an error analysis only counts them;
* `Rounding.gamma d` — how far from `1` such a factor can be;
* `Rounding.stretch` — by how much one rounding can enlarge a number.
-/

/-- A rounding function. -/
structure Rounding where
  rnd : ℚ → ℚ
  /-- The unit roundoff. -/
  u : ℚ
  u_nonneg : 0 ≤ u
  u_lt_one : u < 1
  error : ∀ x, |rnd x - x| ≤ u * |x|

/-- Rational numbers with rounded operations. -/
structure Fl (R : Rounding) where
  val : ℚ
  deriving DecidableEq

namespace Fl

variable {R : Rounding}

instance : Zero (Fl R) := ⟨⟨0⟩⟩
/-- A change of sign is exact. -/
instance : Neg (Fl R) := ⟨fun x => ⟨-x.val⟩⟩
instance : Add (Fl R) := ⟨fun x y => ⟨R.rnd (x.val + y.val)⟩⟩
instance : Sub (Fl R) := ⟨fun x y => ⟨R.rnd (x.val - y.val)⟩⟩
instance : Mul (Fl R) := ⟨fun x y => ⟨R.rnd (x.val * y.val)⟩⟩
instance : Div (Fl R) := ⟨fun x y => ⟨R.rnd (x.val / y.val)⟩⟩

@[simp] theorem neg_val (x : Fl R) : (-x).val = -x.val := rfl
@[simp] theorem add_val (x y : Fl R) : (x + y).val = R.rnd (x.val + y.val) := rfl
@[simp] theorem sub_val (x y : Fl R) : (x - y).val = R.rnd (x.val - y.val) := rfl
@[simp] theorem mul_val (x y : Fl R) : (x * y).val = R.rnd (x.val * y.val) := rfl
@[simp] theorem div_val (x y : Fl R) : (x / y).val = R.rnd (x.val / y.val) := rfl

end Fl

namespace Rounding

variable (R : Rounding)

/-! ### Counting rounding errors -/

/-- What `d` rounding errors can make of a factor `1`. -/
def Near (d : ℕ) (c : ℚ) : Prop := (1 - R.u) ^ d ≤ c ∧ c * (1 - R.u) ^ d ≤ 1

/-- How far from `1` it can be. -/
def gamma (d : ℕ) : ℚ := ((1 - R.u) ^ d)⁻¹ - 1

variable {R} {d d' : ℕ} {c c' : ℚ}

theorem base_pos : 0 < 1 - R.u := sub_pos.mpr R.u_lt_one

theorem base_le_one : 1 - R.u ≤ 1 := sub_le_self 1 R.u_nonneg

theorem base_pow_pos (d : ℕ) : 0 < (1 - R.u) ^ d := pow_pos base_pos d

theorem base_pow_le_one (d : ℕ) : (1 - R.u) ^ d ≤ 1 := pow_le_one₀ base_pos.le base_le_one

namespace Near

theorem one (d : ℕ) : R.Near d 1 := by
  unfold Near
  rw [one_mul]
  exact ⟨base_pow_le_one d, base_pow_le_one d⟩

theorem pos (h : R.Near d c) : 0 < c := (base_pow_pos d).trans_le h.1

/-- More errors than there are. -/
theorem mono (h : R.Near d c) (hd : d ≤ d') : R.Near d' c := by
  have hle : (1 - R.u) ^ d' ≤ (1 - R.u) ^ d :=
    pow_le_pow_of_le_one base_pos.le base_le_one hd
  refine ⟨hle.trans h.1, ?_⟩
  calc c * (1 - R.u) ^ d' ≤ c * (1 - R.u) ^ d := mul_le_mul_of_nonneg_left hle h.pos.le
    _ ≤ 1 := h.2

/-- Errors accumulate. -/
theorem mul (h : R.Near d c) (h' : R.Near d' c') : R.Near (d + d') (c * c') := by
  constructor
  · rw [pow_add]
    exact mul_le_mul h.1 h'.1 (base_pow_pos d').le h.pos.le
  · calc c * c' * (1 - R.u) ^ (d + d')
        = (c * (1 - R.u) ^ d) * (c' * (1 - R.u) ^ d') := by rw [pow_add]; ring
      _ ≤ 1 * 1 := mul_le_mul h.2 h'.2 (mul_nonneg h'.pos.le (base_pow_pos d').le) zero_le_one
      _ = 1 := one_mul 1

/-- The error on the other side of an equation. -/
theorem inv (h : R.Near d c) : R.Near d c⁻¹ := by
  have hc := h.pos
  constructor
  · rw [le_inv_comm₀ (base_pow_pos d) hc, ← one_div, le_div_iff₀ (base_pow_pos d)]
    exact h.2
  · rw [inv_mul_le_iff₀ hc, mul_one]
    exact h.1

theorem le_inv_pow (h : R.Near d c) : c ≤ ((1 - R.u) ^ d)⁻¹ := by
  rw [← one_div, le_div_iff₀ (base_pow_pos d)]
  exact h.2

/-- Two factors with different numbers of errors. -/
theorem abs_sub_le (h : R.Near d c) (h' : R.Near d' c') :
    |c - c'| ≤ R.gamma d + R.gamma d' := by
  have hlow : ∀ {e : ℕ} {x : ℚ}, R.Near e x → 1 - R.gamma e ≤ x := by
    intro e x hx
    -- `2 - 1 / y ≤ y`, since `0 ≤ (1 - y)²`.
    have hsq : 2 - ((1 - R.u) ^ e)⁻¹ ≤ (1 - R.u) ^ e := by
      rw [sub_le_iff_le_add, ← sub_nonneg]
      have hne := (base_pow_pos (R := R) e).ne'
      have heq : (1 - R.u) ^ e + ((1 - R.u) ^ e)⁻¹ - 2
          = (1 - (1 - R.u) ^ e) ^ 2 * ((1 - R.u) ^ e)⁻¹ := by
        field_simp
        ring
      rw [heq]
      exact mul_nonneg (sq_nonneg _) (inv_nonneg.mpr (base_pow_pos e).le)
    unfold gamma
    linarith [hx.1]
  have hhigh : ∀ {e : ℕ} {x : ℚ}, R.Near e x → x ≤ 1 + R.gamma e := by
    intro e x hx
    unfold gamma
    linarith [hx.le_inv_pow]
  rw [abs_le]
  constructor
  · linarith [hlow h, hhigh h']
  · linarith [hhigh h, hlow h']

theorem abs_sub_one_le (h : R.Near d c) : |c - 1| ≤ R.gamma d := by
  have hsub := h.abs_sub_le (Near.one (R := R) 0)
  simpa [gamma] using hsub

end Near

theorem gamma_nonneg (d : ℕ) : 0 ≤ R.gamma d :=
  (abs_nonneg _).trans (Near.one (R := R) d).abs_sub_one_le

/-- **A rounding is one error.** -/
theorem exists_near (R : Rounding) (x : ℚ) : ∃ c, R.Near 1 c ∧ R.rnd x = x * c := by
  have herr := abs_le.mp (R.error x)
  by_cases hx : x = 0
  · subst hx
    rw [abs_zero, mul_zero] at herr
    refine ⟨1, Near.one 1, ?_⟩
    linarith
  · refine ⟨R.rnd x / x, ?_, (mul_div_cancel₀ _ hx).symm⟩
    have hpos : 0 < |x| := abs_pos.mpr hx
    have hdist : |R.rnd x / x - 1| ≤ R.u := by
      rw [div_sub_one hx, abs_div, div_le_iff₀ hpos]
      exact R.error x
    obtain ⟨hlow, hhigh⟩ := abs_le.mp hdist
    unfold Near
    rw [pow_one]
    constructor
    · linarith
    · calc R.rnd x / x * (1 - R.u) ≤ (1 + R.u) * (1 - R.u) :=
            mul_le_mul_of_nonneg_right (by linarith) base_pos.le
        _ ≤ 1 := by linarith [mul_nonneg R.u_nonneg R.u_nonneg]

/-- The factor by which one rounding can enlarge a number. -/
def stretch (R : Rounding) : ℚ := (1 - R.u)⁻¹

theorem one_le_stretch (R : Rounding) : 1 ≤ R.stretch :=
  (one_le_inv₀ base_pos).mpr base_le_one

theorem stretch_nonneg (R : Rounding) : 0 ≤ R.stretch := zero_le_one.trans R.one_le_stretch

/-- The factor by which adding a multiple `t * y` can enlarge a number, if `t` is at most `1`
    in size, up to a rounding. -/
def growth (R : Rounding) : ℚ := R.stretch * (1 + R.stretch ^ 2)

theorem one_le_growth (R : Rounding) : 1 ≤ R.growth := by
  have h := R.one_le_stretch
  unfold growth
  calc (1 : ℚ) = 1 * 1 := (one_mul 1).symm
    _ ≤ R.stretch * (1 + R.stretch ^ 2) := by
      refine mul_le_mul h ?_ zero_le_one R.stretch_nonneg
      exact le_add_of_nonneg_right (sq_nonneg _)

theorem abs_rnd_le (R : Rounding) (x : ℚ) : |R.rnd x| ≤ R.stretch * |x| := by
  obtain ⟨c, hc, hrnd⟩ := R.exists_near x
  have hle := hc.le_inv_pow
  rw [pow_one] at hle
  rw [hrnd, abs_mul, abs_of_pos hc.pos, mul_comm]
  exact mul_le_mul_of_nonneg_right hle (abs_nonneg x)

end Rounding

namespace Fl

variable {R : Rounding}

/-- A quotient of a number by one at least as large. -/
theorem abs_div_le {x y : Fl R} (h : |x.val| ≤ |y.val|) : |(x / y).val| ≤ R.stretch := by
  rw [div_val]
  refine (R.abs_rnd_le _).trans (mul_le_of_le_one_right R.stretch_nonneg ?_)
  rw [abs_div]
  exact div_le_one_of_le₀ h (abs_nonneg _)

/-- Adding a multiple, if both terms are bounded by `c`. -/
theorem abs_add_mul_le {x t y : Fl R} {c : ℚ} (hx : |x.val| ≤ c) (ht : |t.val| ≤ R.stretch)
    (hy : |y.val| ≤ c) :
    |(x + t * y).val| ≤ R.growth * c := by
  have hc : 0 ≤ c := (abs_nonneg _).trans hx
  have hs := R.stretch_nonneg
  have hmul : |(t * y).val| ≤ R.stretch ^ 2 * c := by
    rw [mul_val]
    calc |R.rnd (t.val * y.val)| ≤ R.stretch * (|t.val| * |y.val|) := by
          rw [← abs_mul]
          exact R.abs_rnd_le _
      _ ≤ R.stretch * (R.stretch * c) := by gcongr
      _ = R.stretch ^ 2 * c := by ring
  rw [add_val]
  calc |R.rnd (x.val + (t * y).val)| ≤ R.stretch * (|x.val| + |(t * y).val|) :=
        (R.abs_rnd_le _).trans (mul_le_mul_of_nonneg_left (abs_add_le _ _) hs)
    _ ≤ R.stretch * (c + R.stretch ^ 2 * c) := by gcongr
    _ = R.growth * c := by
        unfold Rounding.growth
        ring

end Fl

/-! ### Operations read backwards

Each equation gives an operand of a computation in terms of its result; the factors are the
rounding errors. -/

namespace Fl

variable {R : Rounding}

/-- `x` from `x + t * y`. -/
theorem exists_add_mul (x t y : Fl R) : ∃ c e, R.Near 1 c ∧ R.Near 1 e ∧
    x.val = (x + t * y).val * e + -t.val * y.val * c := by
  obtain ⟨c, hc, hmul⟩ := R.exists_near (t.val * y.val)
  obtain ⟨e, he, hadd⟩ := R.exists_near (x.val + R.rnd (t.val * y.val))
  refine ⟨c, e⁻¹, hc, he.inv, ?_⟩
  rw [add_val, mul_val, hadd, mul_inv_cancel_right₀ he.pos.ne', hmul]
  ring

/-- `x` from `x - y * z`. -/
theorem exists_sub_mul (x y z : Fl R) : ∃ c e, R.Near 1 c ∧ R.Near 1 e ∧
    x.val = (x - y * z).val * e + y.val * z.val * c := by
  obtain ⟨c, hc, hmul⟩ := R.exists_near (y.val * z.val)
  obtain ⟨e, he, hsub⟩ := R.exists_near (x.val - R.rnd (y.val * z.val))
  refine ⟨c, e⁻¹, hc, he.inv, ?_⟩
  rw [sub_val, mul_val, hsub, mul_inv_cancel_right₀ he.pos.ne', hmul]
  ring

/-- `x` from `x / y`. -/
theorem exists_div (x : Fl R) {y : Fl R} (hy : y.val ≠ 0) : ∃ c, R.Near 1 c ∧
    x.val = (x / y).val * y.val * c := by
  obtain ⟨c, hc, hdiv⟩ := R.exists_near (x.val / y.val)
  refine ⟨c⁻¹, hc.inv, ?_⟩
  rw [div_val, hdiv, mul_right_comm, mul_inv_cancel_right₀ hc.pos.ne', div_mul_cancel₀ _ hy]

end Fl

namespace Rounding

/-! ### Rounding to a number of digits -/

/-- The weight of the last of `p` binary digits of `x`. -/
def ulp (p : ℕ) (x : ℚ) : ℚ := 2 ^ (Int.log 2 |x| - p + 1)

/-- Rounding to the nearest number of `p` binary digits, ties upwards,
    with exponents of any size. -/
def nearest (p : ℕ) (hp : 0 < p) : Rounding where
  rnd x := round (x / ulp p x) * ulp p x
  u := 2⁻¹ ^ p
  u_nonneg := by positivity
  u_lt_one := pow_lt_one₀ (by norm_num) (by norm_num) hp.ne'
  error := by
    intro x
    have hulp : 0 < ulp p x := zpow_pos two_pos _
    by_cases hx : x = 0
    · simp [hx]
    · -- Half a unit of the last digit, and the first digit is below `|x|`.
      have hlog : (2 : ℚ) ^ Int.log 2 |x| ≤ |x| :=
        Int.zpow_log_le_self (by norm_num) (abs_pos.mpr hx)
      have hhalf : ulp p x / 2 = 2⁻¹ ^ p * 2 ^ Int.log 2 |x| := by
        unfold ulp
        rw [zpow_add₀ two_ne_zero, zpow_sub₀ two_ne_zero, zpow_one, zpow_natCast, inv_pow]
        field_simp
      have hround := abs_sub_round (x / ulp p x)
      calc |round (x / ulp p x) * ulp p x - x|
          = |x / ulp p x - round (x / ulp p x)| * ulp p x := by
            rw [abs_sub_comm, ← abs_of_pos hulp, ← abs_mul, abs_of_pos hulp, sub_mul,
              div_mul_cancel₀ _ hulp.ne']
        _ ≤ 1 / 2 * ulp p x := mul_le_mul_of_nonneg_right hround hulp.le
        _ = 2⁻¹ ^ p * 2 ^ Int.log 2 |x| := by rw [← hhalf]; ring
        _ ≤ 2⁻¹ ^ p * |x| := mul_le_mul_of_nonneg_left hlog (by positivity)

/-- The 53 binary digits of `double`. -/
def double : Rounding := nearest 53 (by decide)

end Rounding

end Dgesv
