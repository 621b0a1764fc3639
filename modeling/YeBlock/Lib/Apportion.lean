import YeBlock.Lib.Lists
import YeBlock.Lib.Rounding
import Mathlib.Algebra.BigOperators.Ring.List
import Mathlib.Algebra.Order.BigOperators.Group.List
import Mathlib.Tactic.Linarith
import Mathlib.Tactic.Ring

/-!
# Largest-remainder apportionment over the integers

An integer amount is divided in proportion to integer weights of positive total.
Every entry first receives its exact share rounded down; the units left over go,
one each, to the entries of largest remainder, earlier entries first.

Amounts and weights may be negative: division rounds down and remainders are
non-negative, so the number of leftover units always lies between zero and the
number of entries.  That bound is what makes the division exact and total.

## Main definitions

* `Apportion.floors`, `Apportion.leftover`, `Apportion.winners` — the rounded-down
  shares, the units left over, and the entries that receive one.
* `Apportion.shares` — the apportionment.
* `Apportion.sum_shares` — nothing is lost.
* `Apportion.shares_pair` — a two-way division is `roundHalfUp`.
-/

namespace Lib

namespace Apportion

variable (gross : ℤ) (ws : List ℤ)

/-- The exact shares, rounded down. -/
def floors : List ℤ := ws.map fun w => gross * w / ws.sum

/-- The remainders of the exact shares, with their positions. -/
def remainders : List (ℤ × ℕ) := ws.zipIdx.map fun e => (gross * e.1 % ws.sum, e.2)

/-- What the rounded-down shares leave over. -/
def leftover : ℤ := gross - (floors gross ws).sum

/-- The positions in the order of preference: larger remainder first, then earlier. -/
def ranking : List ℕ :=
  (sortBy (fun t => toLex (-t.1, t.2)) (remainders gross ws)).map Prod.snd

/-- The positions that receive a leftover unit. -/
def winners : List ℕ := (ranking gross ws).take (leftover gross ws).toNat

/-- The apportionment: the rounded-down shares and the leftover units. -/
def shares : List ℤ := bump (floors gross ws) (winners gross ws)

@[simp] theorem length_floors : (floors gross ws).length = ws.length := by simp [floors]

@[simp] theorem length_shares : (shares gross ws).length = ws.length := by simp [shares]

/-! ## The leftover units -/

/-- Division with remainder, summed over the weights. -/
theorem mul_sum_div_add_sum_mod (g d : ℤ) (ws : List ℤ) :
    d * (ws.map fun w => g * w / d).sum + (ws.map fun w => g * w % d).sum = g * ws.sum := by
  induction ws with
  | nil => simp
  | cons w ws ih =>
      simp only [List.map_cons, List.sum_cons]
      have hw := Int.mul_ediv_add_emod (g * w) d
      linarith

theorem sum_mod_nonneg {d : ℤ} (hd : 0 < d) (g : ℤ) (ws : List ℤ) :
    0 ≤ (ws.map fun w => g * w % d).sum := by
  apply List.sum_nonneg
  intro x hx
  obtain ⟨w, _, rfl⟩ := List.mem_map.mp hx
  exact Int.emod_nonneg _ hd.ne'

theorem sum_mod_le {d : ℤ} (hd : 0 < d) (g : ℤ) (ws : List ℤ) :
    (ws.map fun w => g * w % d).sum ≤ ws.length * (d - 1) := by
  induction ws with
  | nil => simp
  | cons w ws ih =>
      have hw := Int.emod_lt_of_pos (g * w) hd
      simp only [List.map_cons, List.sum_cons, List.length_cons]
      push_cast
      linarith

/-- The leftover units are the remainders, measured in whole shares. -/
theorem sum_mul_leftover :
    ws.sum * leftover gross ws = (ws.map fun w => gross * w % ws.sum).sum := by
  have h := mul_sum_div_add_sum_mod gross ws.sum ws
  simp only [leftover, floors]
  linarith

variable {ws}

theorem leftover_nonneg (hW : 0 < ws.sum) : 0 ≤ leftover gross ws := by
  have h := sum_mod_nonneg hW gross ws
  rw [← sum_mul_leftover] at h
  exact nonneg_of_mul_nonneg_right h hW

/-- There are fewer leftover units than entries. -/
theorem leftover_lt_length (hW : 0 < ws.sum) : leftover gross ws < ws.length := by
  have hle := sum_mod_le hW gross ws
  rw [← sum_mul_leftover] at hle
  have hne : ws ≠ [] := by
    rintro rfl
    simp at hW
  have hlen : (0 : ℤ) < ws.length := by exact_mod_cast List.length_pos_of_ne_nil hne
  refine lt_of_mul_lt_mul_left (a := ws.sum) ?_ hW.le
  calc ws.sum * leftover gross ws ≤ ws.length * (ws.sum - 1) := hle
    _ < ws.sum * ws.length := by linarith

/-! ## The ranking -/

variable (ws)

theorem map_snd_remainders : (remainders gross ws).map Prod.snd = List.range ws.length := by
  rw [remainders, List.map_map, List.range_eq_range', ← List.zipIdx_map_snd 0 ws]
  rfl

theorem perm_ranking : (ranking gross ws).Perm (List.range ws.length) := by
  rw [← map_snd_remainders gross ws]
  exact (perm_sortBy _ _).map Prod.snd

@[simp] theorem length_ranking : (ranking gross ws).length = ws.length := by
  simpa using (perm_ranking gross ws).length_eq

theorem lt_length_of_mem_ranking {i : ℕ} (hi : i ∈ ranking gross ws) : i < ws.length :=
  List.mem_range.mp ((perm_ranking gross ws).mem_iff.mp hi)

variable {ws}

theorem length_winners (hW : 0 < ws.sum) :
    ((winners gross ws).length : ℤ) = leftover gross ws := by
  have h0 := leftover_nonneg gross hW
  have hlt := leftover_lt_length gross hW
  rw [winners, List.length_take, length_ranking]
  omega

/-! ## The apportionment -/

/-- **Nothing is lost**: the parts sum to the amount. -/
theorem sum_shares (hW : 0 < ws.sum) : (shares gross ws).sum = gross := by
  have hin : ∀ i ∈ winners gross ws, i < (floors gross ws).length := by
    intro i hi
    rw [length_floors]
    exact lt_length_of_mem_ranking gross ws (List.mem_of_mem_take hi)
  rw [shares, sum_bump _ _ hin, length_winners gross hW, leftover]
  ring

/-- No part is below its exact share rounded down. -/
theorem floor_le_getElem_shares {i : ℕ} (h : i < ws.length) (hi : i < (shares gross ws).length) :
    gross * ws[i] / ws.sum ≤ (shares gross ws)[i] := by
  simp [shares, getElem_bump, floors]

/-- Non-negative weights divide a non-negative amount into non-negative parts. -/
theorem shares_nonneg (hW : 0 < ws.sum) (hg : 0 ≤ gross) (hw : ∀ w ∈ ws, 0 ≤ w) :
    ∀ x ∈ shares gross ws, 0 ≤ x := by
  intro x hx
  obtain ⟨i, hi, rfl⟩ := List.mem_iff_getElem.mp hx
  have hi' : i < ws.length := by simpa using hi
  calc (0 : ℤ) ≤ gross * ws[i] / ws.sum :=
        Int.ediv_nonneg (mul_nonneg hg (hw _ (List.getElem_mem hi'))) hW.le
    _ ≤ (shares gross ws)[i] := floor_le_getElem_shares gross hi' hi

/-- A single entry receives everything. -/
theorem shares_singleton {w : ℤ} (hw : 0 < w) : shares gross [w] = [gross] := by
  have hW : 0 < [w].sum := by simpa using hw
  have hsum := sum_shares gross hW
  obtain ⟨x, hx⟩ := List.length_eq_one_iff.mp (length_shares gross [w])
  rw [hx, List.sum_singleton] at hsum
  rw [hx, hsum]

/-- An amount that is a multiple of the total weight is divided exactly. -/
theorem shares_sum_mul (hW : 0 < ws.sum) (c : ℤ) :
    shares (ws.sum * c) ws = ws.map fun w => c * w := by
  have hfloors : floors (ws.sum * c) ws = ws.map fun w => c * w := by
    refine List.map_congr_left fun w _ => ?_
    rw [mul_assoc, Int.mul_ediv_cancel_left _ hW.ne']
  have hleft : leftover (ws.sum * c) ws = 0 := by
    rw [leftover, hfloors, List.sum_map_mul_left, List.map_id', mul_comm, sub_self]
  rw [shares, winners, hleft, hfloors]
  exact bump_nil _

/-! ## Two entries -/

/-- Quotient and remainder of the complement `g * d - n`. -/
private theorem ediv_emod_compl (g n : ℤ) {d : ℤ} (hd : 0 < d) :
    (n % d = 0 ∧ (g * d - n) / d = g - n / d ∧ (g * d - n) % d = 0) ∨
      (0 < n % d ∧ (g * d - n) / d = g - n / d - 1 ∧ (g * d - n) % d = d - n % d) := by
  have hn := Int.mul_ediv_add_emod n d
  have h0 := Int.emod_nonneg n hd.ne'
  have hlt := Int.emod_lt_of_pos n hd
  rcases h0.eq_or_lt with hr | hr
  · refine .inl ⟨hr.symm, (Int.ediv_emod_unique hd).mpr ⟨?_, le_rfl, hd⟩⟩
    linarith
  · refine .inr ⟨hr, (Int.ediv_emod_unique hd).mpr ⟨?_, by omega, by omega⟩⟩
    linarith

/-- The two-way ranking compares the two remainders. -/
private theorem ranking_pair (g w d : ℤ) :
    ranking g [w, d - w] =
      if (g * d - g * w) % d ≤ g * w % d then [0, 1] else [1, 0] := by
  have hsum : [w, d - w].sum = d := by simp
  have hcompl : g * (d - w) = g * d - g * w := by ring
  have hkey : (toLex (-(g * w % d), (0 : ℕ)) ≤ toLex (-((g * d - g * w) % d), 1)) ↔
      (g * d - g * w) % d ≤ g * w % d := by
    rw [Prod.Lex.toLex_le_toLex]
    omega
  simp only [ranking, remainders, hsum, hcompl, sortBy, List.zipIdx, List.map_cons, List.map_nil,
    List.insertionSort, List.foldr, List.orderedInsert, hkey, zero_add]
  split <;> rfl

/-- **A two-way division rounds half up**: the first entry gets its exact share
rounded to the nearest integer, the second the rest. -/
theorem shares_pair (g w : ℤ) {d : ℤ} (hd : 0 < d) :
    shares g [w, d - w] = [roundHalfUp (g * w) d, g - roundHalfUp (g * w) d] := by
  have hsum : [w, d - w].sum = d := by simp
  have hcompl : g * (d - w) = g * d - g * w := by ring
  have hfloors : floors g [w, d - w] = [g * w / d, (g * d - g * w) / d] := by
    simp [floors, hsum, hcompl]
  rw [shares, winners, leftover, hfloors, ranking_pair, roundHalfUp_eq _ hd]
  rcases ediv_emod_compl g (g * w) hd with ⟨hr, hq', hr'⟩ | ⟨hr, hq', hr'⟩
  · simp [hq', hr, hd.not_ge]
  · have hone : g - (g * w / d + (g - g * w / d - 1)) = 1 := by ring
    have hiff : d - g * w % d ≤ g * w % d ↔ d ≤ 2 * (g * w % d) := by omega
    simp only [hq', hr', List.sum_cons, List.sum_nil, add_zero, hone, hiff]
    split
    · simp [bump, List.mapIdx, List.mapIdx.go]
      ring
    · simp [bump, List.mapIdx, List.mapIdx.go]
end Apportion
end Lib
