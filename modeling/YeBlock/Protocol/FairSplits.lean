import YeBlock.Lib.Quota
import YeBlock.Protocol.LargestRemainder

/-!
# What `largest_remainder` guarantees

Every settlement divides its amount by this routine.  For weights of positive total it
returns parts that sum to the amount, each of them the exact share rounded down or up,
in the order of the weights; and no other division into integers deviates less from the
exact shares.

## Main definitions

* `QuotaSplit` — an integer division that stays within quota.
* `largestRemainder_quotaSplit` — the routine returns one, for every amount.
* `largestRemainder_fairest` — and the fairest.
-/

namespace YeBlock

open Lib Lib.Apportion

/-- A division of `gross` into integer parts that stays within quota. -/
structure QuotaSplit (gross : ℤ) (weightsBps parts : List ℤ) : Prop where
  length_eq : parts.length = weightsBps.length
  sum_eq : parts.sum = gross
  floor_or_ceil : ∀ (i : ℕ) (w x : ℤ), weightsBps[i]? = some w → parts[i]? = some x →
    x = ⌊exactShare gross weightsBps w⌋ ∨ x = ⌈exactShare gross weightsBps w⌉
  exact_of_integer : ∀ (i : ℕ) (w x k : ℤ), weightsBps[i]? = some w → parts[i]? = some x →
    exactShare gross weightsBps w = k → x = k
  zero_of_weightless : ∀ (i : ℕ) (x : ℤ), weightsBps[i]? = some 0 → parts[i]? = some x → x = 0
  heavier_no_less : 0 ≤ gross → ∀ (i j : ℕ) (v w x y : ℤ), weightsBps[i]? = some v →
    weightsBps[j]? = some w → parts[i]? = some x → parts[j]? = some y → v < w → x ≤ y
  equal_by_one : ∀ (i j : ℕ) (w x y : ℤ), weightsBps[i]? = some w → weightsBps[j]? = some w →
    parts[i]? = some x → parts[j]? = some y → i < j → y ≤ x ∧ x ≤ y + 1

/-- The apportionment stays within quota. -/
theorem quotaSplit_shares (gross : ℤ) {weightsBps : List ℤ} (hW : 0 < weightsBps.sum) :
    QuotaSplit gross weightsBps (shares gross weightsBps) := by
  have hpart : ∀ (i : ℕ) (w x : ℤ), weightsBps[i]? = some w →
      (shares gross weightsBps)[i]? = some x → x = partAt gross weightsBps i w := by
    intro i w x hw hx
    rw [getElem?_shares gross hw, Option.some.injEq] at hx
    exact hx.symm
  constructor
  case length_eq => exact length_shares gross weightsBps
  case sum_eq => exact sum_shares gross hW
  case floor_or_ceil =>
    intro i w x hw hx
    rw [hpart i w x hw hx]
    exact partAt_eq_floor_or_ceil gross hW hw
  case exact_of_integer =>
    intro i w x k hw hx hk
    rw [hpart i w x hw hx]
    exact partAt_eq_of_exactShare hW hw hk
  case zero_of_weightless =>
    intro i x hw hx
    rw [hpart i 0 x hw hx]
    exact partAt_zero hW hw
  case heavier_no_less =>
    intro hgross i j v w x y hv hw hx hy hlt
    rw [hpart i v x hv hx, hpart j w y hw hy]
    exact partAt_le_of_weight_lt hW hgross hv hw hlt
  case equal_by_one =>
    intro i j w x y hv hw hx hy hij
    rw [hpart i w x hv hx, hpart j w y hw hy]
    exact partAt_of_weight_eq hv hw hij

/-- **Exact and within quota**: for every amount, also a negative one, and all weights of
positive total, the routine raises nothing, and its parts sum to the amount, are exact
shares rounded down or up, and follow the order of the weights. -/
theorem largestRemainder_quotaSplit (gross : ℤ) {weightsBps : List ℤ}
    (hW : 0 < weightsBps.sum) :
    ∃ parts, largestRemainder gross weightsBps = .ok parts ∧
      QuotaSplit gross weightsBps parts :=
  ⟨_, largestRemainder_eq gross hW, quotaSplit_shares gross hW⟩

/-- A debt divided by weights of which one is negative and one zero. -/
theorem largestRemainder_quotaSplit_debt :
    ∃ parts, largestRemainder (-100) [5, -1, 0, 3] = .ok parts ∧
      QuotaSplit (-100) [5, -1, 0, 3] parts :=
  largestRemainder_quotaSplit (-100) (by decide)

/-- **The fairest integer split**: no integers of the same number and sum deviate less, in
total, from the exact shares. -/
theorem largestRemainder_fairest (gross : ℤ) {weightsBps : List ℤ} (hW : 0 < weightsBps.sum) :
    ∃ parts, largestRemainder gross weightsBps = .ok parts ∧
      (parts.length = weightsBps.length ∧ parts.sum = gross) ∧
      ∀ others : List ℤ, others.length = weightsBps.length → others.sum = gross →
        deviation gross weightsBps parts ≤ deviation gross weightsBps others :=
  ⟨_, largestRemainder_eq gross hW, ⟨length_shares gross weightsBps, sum_shares gross hW⟩,
    fun _ hlen hsum => deviation_shares_le gross hW hlen hsum⟩

theorem largestRemainder_fairest_debt :
    ∃ parts, largestRemainder (-100) [5, -1, 0, 3] = .ok parts ∧
      (parts.length = [5, -1, 0, 3].length ∧ parts.sum = -100) ∧
      ∀ others : List ℤ, others.length = [5, -1, 0, 3].length → others.sum = -100 →
        deviation (-100) [5, -1, 0, 3] parts ≤ deviation (-100) [5, -1, 0, 3] others :=
  largestRemainder_fairest (-100) (by decide)

end YeBlock
