import YeBlock.Lib.Rounding
import Mathlib.Data.Rat.Cast.Order
import Mathlib.Tactic.FieldSimp
import Mathlib.Tactic.Positivity

/-!
# An amount that flows down a line of stages

Every stage passes on a share of what reaches it, in parts of `d`, and keeps the rest,
rounded half up; after a number of levels the last stage reached keeps everything.  An
error made above a stage is scaled by the shares on its way down, so it never grows, and
every stage adds half a unit.

## Main definitions

* `cascade d levels amount shares` — what the stages keep.
* `reaching d x shares k` — the exact amount that reaches stage `k`.
* `abs_cascade_sub_le` — how far the kept amounts are off the exact ones.
-/

namespace Lib

/-- What the stages of a line keep, when stage `i` passes on `shares[i]` parts of `d` and
no stage after `levels` others passes on anything. -/
def cascade (d : ℤ) : ℕ → ℤ → List ℤ → List ℤ
  | _, _, [] => []
  | 0, amount, _ :: shares => amount :: List.replicate shares.length 0
  | levels + 1, amount, s :: shares =>
    roundHalfUp (amount * (d - s)) d ::
      cascade d levels (amount - roundHalfUp (amount * (d - s)) d) shares

section Cascade
variable {d : ℤ} (hd : 0 < d)

@[simp] theorem length_cascade (d : ℤ) (levels : ℕ) (amount : ℤ) (shares : List ℤ) :
    (cascade d levels amount shares).length = shares.length := by
  induction shares generalizing levels amount with
  | nil => simp [cascade]
  | cons s shares ih => cases levels <;> simp [cascade, ih]

include hd

/-- Nothing flows from nothing. -/
theorem cascade_zero (levels : ℕ) (shares : List ℤ) :
    cascade d levels 0 shares = List.replicate shares.length 0 := by
  induction shares generalizing levels with
  | nil => simp [cascade]
  | cons s shares ih =>
      cases levels with
      | zero => rfl
      | succ levels =>
          rw [cascade, zero_mul, roundHalfUp_zero hd, sub_zero, ih, List.length_cons,
            List.replicate_succ]

/-- A stage that passes nothing on keeps everything. -/
theorem cascade_of_last (levels : ℕ) (amount : ℤ) {s : ℤ} (shares : List ℤ)
    (h : levels = 0 ∨ s = 0) :
    cascade d levels amount (s :: shares) = amount :: List.replicate shares.length 0 := by
  cases levels with
  | zero => rfl
  | succ levels =>
      have hs : s = 0 := h.resolve_left (Nat.succ_ne_zero levels)
      rw [cascade, hs, sub_zero, mul_comm, roundHalfUp_mul_left _ hd, sub_self,
        cascade_zero hd]

end Cascade

/-! ## The exact amounts -/

/-- The exact amount that reaches stage `k`. -/
def reaching (d : ℤ) (x : ℚ) (shares : List ℤ) (k : ℕ) : ℚ := x * (shares.take k).prod / d ^ k

@[simp] theorem reaching_zero (d : ℤ) (x : ℚ) (shares : List ℤ) : reaching d x shares 0 = x := by
  simp [reaching]

theorem reaching_cons (d : ℤ) (x : ℚ) (s : ℤ) (shares : List ℤ) (k : ℕ) :
    reaching d x (s :: shares) (k + 1) = reaching d (x * s / d) shares k := by
  rw [reaching, reaching, List.take_succ_cons, List.prod_cons]
  push_cast
  ring

/-- What stage `k` keeps of the exact amount that reaches it: the last one all of it. -/
def keeping (d : ℤ) (levels : ℕ) (x : ℚ) (shares : List ℤ) (k : ℕ) (s : ℤ) : ℚ :=
  if k = levels then reaching d x shares k else reaching d x shares k * (d - s) / d

theorem keeping_zero (d : ℤ) (levels : ℕ) (x : ℚ) (shares : List ℤ) (s : ℤ) :
    keeping d (levels + 1) x shares 0 s = x * (d - s) / d := by
  rw [keeping, if_neg (Nat.succ_ne_zero levels).symm, reaching_zero]

theorem keeping_cons (d : ℤ) (levels : ℕ) (x : ℚ) (s s' : ℤ) (shares : List ℤ) (k : ℕ) :
    keeping d (levels + 1) x (s :: shares) (k + 1) s' =
      keeping d levels (x * s / d) shares k s' := by
  simp only [keeping, reaching_cons, Nat.add_right_cancel_iff]

/-! ## Accuracy -/

section Accuracy
variable {d : ℤ} (hd : 0 < d)
include hd

theorem abs_roundHalfUp_sub_div_le (n : ℤ) : |(roundHalfUp n d : ℚ) - n / d| ≤ 1 / 2 := by
  have hdQ : (0 : ℚ) < d := by exact_mod_cast hd
  have hle : 2 * |(d : ℚ) * roundHalfUp n d - n| ≤ d := by
    exact_mod_cast abs_mul_roundHalfUp_sub_le n hd
  have hscale : (d : ℚ) * roundHalfUp n d - n = d * (roundHalfUp n d - n / d) := by
    field_simp
  rw [hscale, abs_mul, abs_of_pos hdQ] at hle
  refine le_of_mul_le_mul_left ?_ hdQ
  linarith

/-- A share of an amount is off by no more than the amount. -/
theorem abs_share_sub_le {s : ℤ} (hs : 0 ≤ s ∧ s ≤ d) {y x e : ℚ} (h : |y - x| ≤ e) :
    |y * s / d - x * s / d| ≤ e := by
  have hdQ : (0 : ℚ) < d := by exact_mod_cast hd
  have hfactor : y * s / d - x * s / d = (y - x) * (s / d) := by ring
  have hs0 : (0 : ℚ) ≤ s / d := div_nonneg (by exact_mod_cast hs.1) hdQ.le
  have hs1 : (s : ℚ) / d ≤ 1 := (div_le_one hdQ).mpr (by exact_mod_cast hs.2)
  rw [hfactor, abs_mul, abs_of_nonneg hs0]
  exact (mul_le_of_le_one_right (abs_nonneg _) hs1).trans h

/-- One stage: what it keeps and what it passes on are both off by half a unit more than
what reaches it. -/
theorem abs_stage_sub_le {s : ℤ} (hs : 0 ≤ s ∧ s ≤ d) {amount : ℤ} {x e : ℚ}
    (h : |(amount : ℚ) - x| ≤ e) :
    |(roundHalfUp (amount * (d - s)) d : ℚ) - x * (d - s) / d| ≤ e + 1 / 2 ∧
      |((amount - roundHalfUp (amount * (d - s)) d : ℤ) : ℚ) - x * s / d| ≤ e + 1 / 2 := by
  have hround := abs_roundHalfUp_sub_div_le hd (amount * (d - s))
  push_cast at hround ⊢
  constructor
  · have hkept := abs_share_sub_le hd (s := d - s) (by omega) h
    push_cast at hkept
    have htri := abs_sub_le (roundHalfUp (amount * (d - s)) d : ℚ) (amount * (d - s) / d)
      (x * (d - s) / d)
    linarith
  · have hpassed := abs_share_sub_le hd hs h
    have hsplit : (amount : ℚ) - amount * (d - s) / d = amount * s / d := by
      have hne : (d : ℚ) ≠ 0 := by exact_mod_cast hd.ne'
      field_simp
      ring
    have hsum : (amount : ℚ) - roundHalfUp (amount * (d - s)) d - x * s / d =
        -(roundHalfUp (amount * (d - s)) d - amount * (d - s) / d) +
          (amount * s / d - x * s / d) := by
      rw [← hsplit]
      ring
    rw [hsum]
    have htri := abs_add_le (-((roundHalfUp (amount * (d - s)) d : ℚ) - amount * (d - s) / d))
      (amount * s / d - x * s / d)
    rw [abs_neg] at htri
    linarith

/-- **Half a unit for every stage**: what stage `k` keeps is off the exact amount by `k + 1`
half units, and by what the amount at the top was off.  Stages beyond the last level keep
nothing. -/
theorem abs_cascade_sub_le {shares : List ℤ} (hs : ∀ s ∈ shares, 0 ≤ s ∧ s ≤ d) (levels : ℕ)
    (amount : ℤ) (x e : ℚ) (h : |(amount : ℚ) - x| ≤ e) (k : ℕ) (s part : ℤ)
    (hk : shares[k]? = some s) (hpart : (cascade d levels amount shares)[k]? = some part) :
    (k ≤ levels → |(part : ℚ) - keeping d levels x shares k s| ≤ e + (k + 1) / 2) ∧
      (levels < k → part = 0) := by
  induction shares generalizing levels amount x e k with
  | nil => cases hk
  | cons s₀ shares ih =>
      have hhead := hs s₀ List.mem_cons_self
      have htail : ∀ s ∈ shares, 0 ≤ s ∧ s ≤ d := fun s hmem =>
        hs s (List.mem_cons_of_mem s₀ hmem)
      cases k with
      | zero =>
          refine ⟨fun _ => ?_, fun hlt => absurd hlt (Nat.not_lt_zero levels)⟩
          obtain rfl : s₀ = s := by simpa using hk
          cases levels with
          | zero =>
              obtain rfl : amount = part := by simpa [cascade] using hpart
              rw [keeping, if_pos rfl, reaching_zero]
              push_cast
              linarith
          | succ levels =>
              obtain rfl : _ = part := by simpa [cascade] using hpart
              rw [keeping_zero]
              push_cast
              simpa using (abs_stage_sub_le hd hhead h).1
      | succ k =>
          cases levels with
          | zero =>
              refine ⟨fun hle => absurd hle (Nat.not_succ_le_zero k), fun _ => ?_⟩
              rw [cascade, List.getElem?_cons_succ] at hpart
              exact List.eq_of_mem_replicate (List.mem_of_getElem? hpart)
          | succ levels =>
              rw [List.getElem?_cons_succ] at hk
              rw [cascade, List.getElem?_cons_succ] at hpart
              have hrest := ih htail levels _ _ _ (abs_stage_sub_le hd hhead h).2 k hk hpart
              rw [keeping_cons]
              refine ⟨fun hle => ?_, fun hlt => hrest.2 (by omega)⟩
              have hbound := hrest.1 (by omega)
              push_cast
              linarith

end Accuracy
end Lib
