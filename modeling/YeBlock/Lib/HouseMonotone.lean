import YeBlock.Lib.Quota
import Mathlib.Data.List.Perm.Subperm

/-!
# When more is divided, nobody receives less

Largest-remainder apportionment has no such law in general: with three weights a unit
more can take a unit away from an entry, because its remainder falls behind the others'.
Two kinds of weights are safe.  A division in two is a rounding, which follows the amount
upwards in both parts.  Among equal weights all remainders are equal, so the leftover
units go to the first entries, and every part is a rounded quotient that grows with the
amount.

## Main definitions

* `Apportion.HouseMonotone ws` — a larger amount divided by `ws` gives nobody less.
* `Apportion.houseMonotone_of_length_le_two` — at most two weights, none negative.
* `Apportion.getElem?_shares_replicate`, `Apportion.houseMonotone_replicate` — equal weights.
-/

namespace Lib

namespace Apportion

/-- A larger amount divided by these weights gives no entry less. -/
def HouseMonotone (ws : List ℤ) : Prop :=
  ∀ gross gross', gross ≤ gross' → List.Forall₂ (· ≤ ·) (shares gross ws) (shares gross' ws)

-- a unit more takes one from the last entry
example : shares 10 [6, 6, 2] = [4, 4, 2] ∧ shares 11 [6, 6, 2] = [5, 5, 1] := by decide

/-! ## At most two weights -/

theorem houseMonotone_singleton {w : ℤ} (hw : 0 < w) : HouseMonotone [w] := by
  intro gross gross' h
  rw [shares_singleton _ hw, shares_singleton _ hw]
  exact .cons h .nil

theorem houseMonotone_pair {v w : ℤ} (hv : 0 ≤ v) (hw : 0 ≤ w) (hW : 0 < v + w) :
    HouseMonotone [v, w] := by
  intro gross gross' h
  have hpair : ∀ g, shares g [v, w] =
      [roundHalfUp (g * v) (v + w), g - roundHalfUp (g * v) (v + w)] := by
    intro g
    have hshares := shares_pair g v hW
    rwa [add_sub_cancel_left] at hshares
  have hmono := roundHalfUp_part_mono hW ⟨hv, le_add_of_nonneg_right hw⟩ h
  rw [hpair, hpair]
  exact .cons hmono.1 (.cons (by omega) .nil)

/-- **At most two weights**, none of them negative. -/
theorem houseMonotone_of_length_le_two {ws : List ℤ} (hlen : ws.length ≤ 2) (hW : 0 < ws.sum)
    (hnonneg : ∀ w ∈ ws, 0 ≤ w) : HouseMonotone ws := by
  match ws, hlen with
  | [], _ => exact absurd hW (lt_irrefl 0)
  | [w], _ => exact houseMonotone_singleton (by simpa using hW)
  | [v, w], _ =>
      exact houseMonotone_pair (hnonneg v (by simp)) (hnonneg w (by simp)) (by simpa using hW)

/-! ## Equal weights -/

section Equal
variable {ws : List ℤ} {w : ℤ}

/-- Among equal weights the first entries win. -/
theorem mem_winners_of_equal (gross : ℤ) (hW : 0 < ws.sum) (hequal : ∀ v ∈ ws, v = w) {i : ℕ}
    (hi : i < ws.length) : i ∈ winners gross ws ↔ (i : ℤ) < leftover gross ws := by
  have hweight : ∀ j, j < ws.length → ws[j]? = some w := by
    intro j hj
    rw [List.getElem?_eq_getElem hj, hequal _ (List.getElem_mem hj)]
  have hlt : ∀ j ∈ winners gross ws, j < ws.length := fun j hj =>
    lt_length_of_mem_ranking gross ws (List.mem_of_mem_take hj)
  have hfirst : ∀ j k, j ∈ winners gross ws → k < ws.length → k ∉ winners gross ws → j < k := by
    intro j k hj hk hlose
    have hahead := ahead_of_mem_winners (hweight j (hlt j hj)) (hweight k hk) hj hlose
    omega
  rw [← length_winners gross hW, Nat.cast_lt]
  constructor
  · intro hwin
    -- everybody up to `i` wins
    have hsub : List.range (i + 1) ⊆ winners gross ws := by
      intro j hj
      by_contra hlose
      rw [List.mem_range] at hj
      have hij := hfirst i j hwin (by omega) hlose
      omega
    have hle := (List.subperm_of_subset List.nodup_range hsub).length_le
    rw [List.length_range] at hle
    omega
  · intro hcount
    by_contra hlose
    -- nobody from `i` on wins
    have hsub : winners gross ws ⊆ List.range i := fun j hj =>
      List.mem_range.mpr (hfirst j i hj hi hlose)
    have hle := (List.subperm_of_subset (nodup_winners gross ws) hsub).length_le
    rw [List.length_range] at hle
    omega

/-- **Equal parts**: the quotient, and one more for the first entries. -/
theorem getElem?_shares_replicate (gross : ℤ) {n i : ℕ} (hi : i < n) :
    (shares gross (List.replicate n 1))[i]? =
      some (gross / n + if (i : ℤ) < gross % n then 1 else 0) := by
  have hsum : (List.replicate n (1 : ℤ)).sum = n := by simp
  have hn : (0 : ℤ) < n := by exact_mod_cast Nat.zero_lt_of_lt hi
  have hleft : leftover gross (List.replicate n 1) = gross % n := by
    have hmul := sum_mul_leftover gross (List.replicate n 1)
    simp only [hsum, List.map_replicate, mul_one, List.sum_replicate, nsmul_eq_mul] at hmul
    exact mul_left_cancel₀ hn.ne' hmul
  have hwins := mem_winners_of_equal gross (hsum ▸ hn)
    (fun v hv => List.eq_of_mem_replicate hv) (by rwa [List.length_replicate])
  have hw : (List.replicate n (1 : ℤ))[i]? = some 1 := by simp [hi]
  rw [getElem?_shares gross hw, partAt, hsum, mul_one]
  simp only [hwins, hleft]

/-- **Equal weights.** -/
theorem houseMonotone_replicate (n : ℕ) : HouseMonotone (List.replicate n 1) := by
  intro gross gross' h
  rw [List.forall₂_iff_get]
  refine ⟨by simp, fun i hi hi' => ?_⟩
  have hin : i < n := by simpa using hi
  have hn : (0 : ℤ) < n := by exact_mod_cast Nat.zero_lt_of_lt hin
  have hget := getElem?_shares_replicate gross hin
  have hget' := getElem?_shares_replicate gross' hin
  rw [List.getElem?_eq_getElem hi, Option.some.injEq] at hget
  rw [List.getElem?_eq_getElem hi', Option.some.injEq] at hget'
  rw [List.get_eq_getElem, List.get_eq_getElem, hget, hget']
  have hdiv := Int.mul_ediv_add_emod gross n
  have hdiv' := Int.mul_ediv_add_emod gross' n
  rcases (Int.ediv_le_ediv hn h).lt_or_eq with hlt | heq
  · split <;> split <;> omega
  · rw [heq] at hdiv ⊢
    split <;> split <;> omega

end Equal
end Apportion
end Lib
