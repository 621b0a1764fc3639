import Mathlib.Algebra.BigOperators.Group.List.Basic
import Mathlib.Algebra.Order.Group.Unbundled.Abs
import Mathlib.Tactic.Linarith
import Mathlib.Tactic.Ring

/-!
# Rounding half up

Fees, shares and splits are fractions of an integer amount, rounded to the nearest
integer with halves upwards.  The rounded value is within half a unit of the exact one,
it follows the amount upwards, and a part of the amount never moves by more than the
amount does.

## Main definitions

* `roundHalfUp n d` — `n / d` rounded to the nearest integer, halves upwards.
* `abs_mul_roundHalfUp_sub_le`, `abs_sum_roundHalfUp_sub_le` — how far it is off, once and
  summed over a list.
* `roundHalfUp_mono`, `roundHalfUp_part_mono`, `roundHalfUp_part_bounds` — how it follows the
  amount.
-/

namespace Lib

/-- `n / d` rounded to the nearest integer, halves upwards. -/
def roundHalfUp (n d : ℤ) : ℤ := (2 * n + d) / (2 * d)

/-- Rounding half up, by quotient and remainder. -/
theorem roundHalfUp_eq (n : ℤ) {d : ℤ} (hd : 0 < d) :
    roundHalfUp n d = n / d + if d ≤ 2 * (n % d) then 1 else 0 := by
  have hn := Int.mul_ediv_add_emod n d
  have h0 := Int.emod_nonneg n hd.ne'
  have hlt := Int.emod_lt_of_pos n hd
  have hsplit : 2 * n + d = n / d * (2 * d) + (2 * (n % d) + d) := by linarith
  rw [roundHalfUp, Int.ediv_eq_iff_of_pos (by omega), hsplit]
  split <;> constructor <;> linarith

/-- A whole number stays as it is. -/
theorem roundHalfUp_mul_left (k : ℤ) {d : ℤ} (hd : 0 < d) : roundHalfUp (d * k) d = k := by
  rw [roundHalfUp_eq _ hd, Int.mul_emod_right, Int.mul_ediv_cancel_left _ hd.ne',
    if_neg (by omega), add_zero]

theorem roundHalfUp_zero {d : ℤ} (hd : 0 < d) : roundHalfUp 0 d = 0 := by
  simpa using roundHalfUp_mul_left 0 hd

/-- Whole units pass through. -/
theorem roundHalfUp_add_mul (n k : ℤ) {d : ℤ} (hd : 0 < d) :
    roundHalfUp (n + k * d) d = roundHalfUp n d + k := by
  have hsplit : 2 * (n + k * d) + d = 2 * n + d + k * (2 * d) := by ring
  rw [roundHalfUp, roundHalfUp, hsplit, Int.add_mul_ediv_right _ _ (by omega)]

/-! ## Accuracy -/

/-- **Within half a unit** of the exact value. -/
theorem abs_mul_roundHalfUp_sub_le (n : ℤ) {d : ℤ} (hd : 0 < d) :
    2 * |d * roundHalfUp n d - n| ≤ d := by
  have hle := Int.mul_ediv_self_le (x := 2 * n + d) (k := 2 * d) (by omega)
  have hlt := Int.lt_mul_ediv_self_add (x := 2 * n + d) (k := 2 * d) (by omega)
  have hmul : 2 * d * ((2 * n + d) / (2 * d)) = 2 * (d * roundHalfUp n d) := by
    rw [roundHalfUp, mul_assoc]
  rw [hmul] at hle hlt
  have habs : |d * roundHalfUp n d - n| ≤ d / 2 := by
    rw [abs_le]
    constructor <;> omega
  omega

/-- Half a unit for every value that is rounded. -/
theorem abs_sum_roundHalfUp_sub_le (l : List ℤ) {d : ℤ} (hd : 0 < d) :
    2 * |d * (l.map fun n => roundHalfUp n d).sum - l.sum| ≤ d * l.length := by
  induction l with
  | nil => simp
  | cons n l ih =>
      have hn := abs_mul_roundHalfUp_sub_le n hd
      have hsplit : d * ((n :: l).map fun n => roundHalfUp n d).sum - (n :: l).sum =
          (d * roundHalfUp n d - n) + (d * (l.map fun n => roundHalfUp n d).sum - l.sum) := by
        rw [List.map_cons, List.sum_cons, List.sum_cons]
        ring
      have htri := abs_add_le (d * roundHalfUp n d - n)
        (d * (l.map fun n => roundHalfUp n d).sum - l.sum)
      rw [hsplit, List.length_cons]
      push_cast
      linarith

/-! ## Monotonicity -/

theorem roundHalfUp_mono {m n d : ℤ} (hd : 0 < d) (h : m ≤ n) :
    roundHalfUp m d ≤ roundHalfUp n d :=
  Int.ediv_le_ediv (by omega) (by omega)

section Part
variable {w d : ℤ} (hd : 0 < d) (hw : 0 ≤ w ∧ w ≤ d)
include hd hw

/-- **A part of the amount** grows with it, by no more than the amount does. -/
theorem roundHalfUp_part_mono {g g' : ℤ} (h : g ≤ g') :
    roundHalfUp (g * w) d ≤ roundHalfUp (g' * w) d ∧
      roundHalfUp (g' * w) d - roundHalfUp (g * w) d ≤ g' - g := by
  constructor
  · exact roundHalfUp_mono hd (mul_le_mul_of_nonneg_right h hw.1)
  · have hle : g' * w ≤ g * w + (g' - g) * d := by
      have hmul := mul_le_mul_of_nonneg_left hw.2 (sub_nonneg.mpr h)
      linarith
    have hround := roundHalfUp_mono hd hle
    rw [roundHalfUp_add_mul _ _ hd] at hround
    omega

/-- A part of the amount lies between nothing and all of it. -/
theorem roundHalfUp_part_bounds {g : ℤ} (hg : 0 ≤ g) :
    0 ≤ roundHalfUp (g * w) d ∧ roundHalfUp (g * w) d ≤ g := by
  have hmono := roundHalfUp_part_mono hd hw hg
  rw [zero_mul, roundHalfUp_zero hd] at hmono
  omega

end Part

end Lib
