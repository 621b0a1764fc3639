import YeBlock.Lib.Dict
import YeBlock.Lib.Quota
import Mathlib.Algebra.BigOperators.Ring.Finset
import Mathlib.Algebra.Order.BigOperators.Group.Finset
import Mathlib.Data.Int.Cast.Lemmas

/-!
# How far integer divisions are from exact ones

A largest-remainder division hands every entry its exact share rounded down or up.  The
units that are handed out go to the largest remainders, which are no smaller than the
average, so in total the parts are off by at most half a unit for each entry.

Payments are compared as lists of entries: two lists of payments are as far apart as the
totals they give, summed over the keys of a set.  Distances add up over concatenations, so
the error of a computation that divides again and again is the sum of the errors of its
divisions.

## Main definitions

* `Apportion.two_mul_deviation_le` — the error of one division, in shares.
* `Apportion.sum_abs_shares_sub_le` — the same over the rationals, for shares of another amount.
* `spread keys es es'` — how far two lists of payments are apart.
* `spread_map_le`, `spread_flatMap_le` — distances add up.
-/

namespace Lib

/-! ## One division -/

/-- Of two lists the one with the larger elements has the larger average. -/
theorem length_mul_sum_le {xs ys : List ℤ} (h : ∀ x ∈ xs, ∀ y ∈ ys, y ≤ x) :
    xs.length * ys.sum ≤ ys.length * xs.sum := by
  induction xs with
  | nil => simp
  | cons x xs ih =>
      have hrest := ih fun x' hx' => h x' (List.mem_cons_of_mem x hx')
      have hhead := List.sum_le_card_nsmul ys x (h x List.mem_cons_self)
      rw [nsmul_eq_mul] at hhead
      rw [List.length_cons, List.sum_cons]
      push_cast
      linarith

namespace Apportion

variable (gross : ℤ) {ws : List ℤ}

/-- An entry of remainder `r` is off by `r`, and by the rest of a share if it is a winner. -/
private def errorOf (gross : ℤ) (ws : List ℤ) (t : ℤ × ℕ) : ℤ :=
  if t.2 ∈ winners gross ws then ws.sum - t.1 else t.1

/-- The error of a part. -/
private theorem abs_partAt_sub (hW : 0 < ws.sum) (i : ℕ) (w : ℤ) :
    |ws.sum * partAt gross ws i w - gross * w| =
      errorOf gross ws (gross * w % ws.sum, i) := by
  have hdiv := Int.mul_ediv_add_emod (gross * w) ws.sum
  have h0 := Int.emod_nonneg (gross * w) hW.ne'
  have hlt := Int.emod_lt_of_pos (gross * w) hW
  rw [partAt, errorOf]
  split
  · rw [abs_of_nonneg] <;> linarith
  · rw [abs_of_nonpos] <;> linarith

/-- The error in total, read off the ranking. -/
private theorem deviation_eq_sum_errorOf (hW : 0 < ws.sum) :
    deviation gross ws (shares gross ws) = ((ranked gross ws).map (errorOf gross ws)).sum := by
  have hlist : List.zipWith (fun w x => |ws.sum * x - gross * w|) ws (shares gross ws) =
      (remainders gross ws).map (errorOf gross ws) := by
    apply List.ext_getElem
    · simp [remainders]
    · intro i hi _
      have hlt : i < ws.length := by
        rw [List.length_zipWith, length_shares, min_self] at hi
        exact hi
      have hpart := getElem?_shares gross (List.getElem?_eq_getElem hlt)
      rw [List.getElem?_eq_getElem (by simpa using hlt), Option.some.injEq] at hpart
      simp only [List.getElem_zipWith, hpart, abs_partAt_sub gross hW, remainders,
        List.getElem_map, List.getElem_zipIdx, zero_add]
  rw [deviation, hlist, ranked, ((perm_sortBy _ _).map (errorOf gross ws)).sum_eq]

private theorem sum_errorOf_granted (l : List (ℤ × ℕ)) (h : ∀ t ∈ l, t.2 ∈ winners gross ws) :
    (l.map (errorOf gross ws)).sum = l.length * ws.sum - (l.map Prod.fst).sum := by
  induction l with
  | nil => simp
  | cons t l ih =>
      have hrest := ih fun u hu => h u (List.mem_cons_of_mem t hu)
      have hhead : errorOf gross ws t = ws.sum - t.1 := if_pos (h t List.mem_cons_self)
      simp only [List.map_cons, List.sum_cons, List.length_cons, hrest, hhead]
      push_cast
      ring

private theorem mem_winners_of_mem_granted {t : ℤ × ℕ} (ht : t ∈ granted gross ws) :
    t.2 ∈ winners gross ws := by
  rw [winners_eq]
  exact List.mem_map_of_mem ht

/-- An entry that is denied a unit is not a winner under another remainder. -/
private theorem map_errorOf_denied :
    (denied gross ws).map (errorOf gross ws) = (denied gross ws).map Prod.fst := by
  refine List.map_congr_left fun t ht => if_neg fun hmem => ?_
  rw [winners_eq] at hmem
  obtain ⟨u, hu, heq⟩ := List.mem_map.mp hmem
  have hahead := ahead_of_mem_granted hu ht
  obtain ⟨w, hw, hr⟩ := (mem_ranked_iff gross ws t).mp (List.mem_of_mem_drop ht)
  obtain ⟨w', hw', hr'⟩ := (mem_ranked_iff gross ws u).mp (List.mem_of_mem_take hu)
  rw [heq, hw, Option.some.injEq] at hw'
  subst hw'
  omega

private theorem sum_granted_add_sum_denied :
    ((granted gross ws).map Prod.fst).sum + ((denied gross ws).map Prod.fst).sum =
      ws.sum * leftover gross ws := by
  rw [← sum_ranked, ← granted_append_denied, List.map_append, List.sum_append]

private theorem length_granted (hW : 0 < ws.sum) :
    ((granted gross ws).length : ℤ) = leftover gross ws := by
  have h := length_winners gross hW
  rwa [winners_eq, List.length_map] at h

/-- The winners' remainders are no smaller than the others', so they have at least their
part of the total. -/
private theorem leftover_mul_leftover_le (hW : 0 < ws.sum) :
    ws.sum * leftover gross ws * leftover gross ws ≤
      ws.length * ((granted gross ws).map Prod.fst).sum := by
  have hlarger : ∀ x ∈ (granted gross ws).map Prod.fst, ∀ y ∈ (denied gross ws).map Prod.fst,
      y ≤ x := by
    intro x hx y hy
    obtain ⟨t, ht, rfl⟩ := List.mem_map.mp hx
    obtain ⟨u, hu, rfl⟩ := List.mem_map.mp hy
    have hahead := ahead_of_mem_granted ht hu
    omega
  have hentries : ((granted gross ws).length + (denied gross ws).length : ℤ) = ws.length := by
    have h := congrArg List.length (granted_append_denied gross ws)
    rw [List.length_append, ranked, length_sortBy, remainders, List.length_map,
      List.length_zipIdx] at h
    exact_mod_cast h
  have haverage := length_mul_sum_le hlarger
  rw [List.length_map, List.length_map,
    eq_sub_of_add_eq' (sum_granted_add_sum_denied gross)] at haverage
  rw [← hentries]
  rw [length_granted gross hW] at haverage ⊢
  linarith

/-- **What a division is off**, measured in shares of `ws.sum` to the unit: at most half a
unit for each entry. -/
theorem two_mul_deviation_le (hW : 0 < ws.sum) :
    2 * deviation gross ws (shares gross ws) ≤ ws.sum * ws.length := by
  have hpos : (0 : ℤ) < ws.length := by
    have h0 := leftover_nonneg gross hW
    have hlt := leftover_lt_length gross hW
    omega
  have hgranted := leftover_mul_leftover_le gross hW
  have hsquare : 0 ≤ ws.sum * (ws.length - 2 * leftover gross ws) ^ 2 :=
    mul_nonneg hW.le (sq_nonneg _)
  rw [deviation_eq_sum_errorOf gross hW, ← granted_append_denied, List.map_append,
    List.sum_append, sum_errorOf_granted gross _ fun t => mem_winners_of_mem_granted gross,
    map_errorOf_denied, length_granted gross hW,
    eq_sub_of_add_eq' (sum_granted_add_sum_denied gross)]
  -- with n entries and L winners the error is at most 2 L (n - L) / n
  refine le_of_mul_le_mul_left ?_ hpos
  linarith

/-- The error of a part, against the exact share of another amount. -/
private theorem abs_part_sub_le {W : ℤ} (hW : 0 < W) (y : ℤ) {w : ℤ} (hw : 0 ≤ w) (x : ℚ) :
    |(y : ℚ) - x * w / W| ≤
      (|W * y - gross * w| : ℤ) * (W : ℚ)⁻¹ + |(gross : ℚ) - x| * (w * (W : ℚ)⁻¹) := by
  have hW' : (0 : ℚ) < W := by exact_mod_cast hW
  have hw' : (0 : ℚ) ≤ w * (W : ℚ)⁻¹ := mul_nonneg (by exact_mod_cast hw) (inv_nonneg.mpr hW'.le)
  have hround : (|W * y - gross * w| : ℤ) * (W : ℚ)⁻¹ = |(y : ℚ) - gross * w / W| := by
    rw [← abs_of_pos (inv_pos.mpr hW'), Int.cast_abs, ← abs_mul]
    congr 1
    push_cast
    field_simp
  have hamount : |(gross : ℚ) - x| * (w * (W : ℚ)⁻¹) = |(gross : ℚ) * w / W - x * w / W| := by
    rw [← abs_of_nonneg hw', ← abs_mul]
    congr 1
    ring
  rw [hround, hamount]
  exact abs_sub_le _ _ _

/-- **What a division is off in total**: half a unit for each entry, and as much as the
amount divided is. -/
theorem sum_abs_shares_sub_le {γ : Type*} (l : List γ) (weight : γ → ℤ)
    (hW : 0 < (l.map weight).sum) (hnonneg : ∀ c ∈ l, 0 ≤ weight c) (x : ℚ) :
    ((l.zip (shares gross (l.map weight))).map fun e =>
        |(e.2 : ℚ) - x * weight e.1 / (l.map weight).sum|).sum ≤
      l.length / 2 + |(gross : ℚ) - x| := by
  have hW' : (0 : ℚ) < (l.map weight).sum := by exact_mod_cast hW
  have hlength : l.length ≤ (shares gross (l.map weight)).length := by simp
  have hparts := List.sum_le_sum (l := l.zip (shares gross (l.map weight))) fun e he =>
    abs_part_sub_le gross hW e.2 (hnonneg e.1 (List.of_mem_zip he).1) x
  have hround : ((l.zip (shares gross (l.map weight))).map fun e =>
      ((|(l.map weight).sum * e.2 - gross * weight e.1| : ℤ) : ℚ)).sum =
        deviation gross (l.map weight) (shares gross (l.map weight)) := by
    rw [deviation, Int.cast_list_sum, List.zipWith_map_left, List.map_zip_eq_zipWith,
      List.map_zipWith]
    rfl
  have hweights : ((l.zip (shares gross (l.map weight))).map fun e => (weight e.1 : ℚ)).sum =
      (l.map weight).sum := by
    have hfst := List.map_fst_zip hlength
    rw [Int.cast_list_sum, List.map_map]
    conv_rhs => rw [← hfst, List.map_map]
    rfl
  have hdeviation : (2 : ℚ) * deviation gross (l.map weight) (shares gross (l.map weight)) ≤
      (l.map weight).sum * l.length := by
    have h := two_mul_deviation_le gross hW
    rw [List.length_map] at h
    exact_mod_cast h
  rw [List.sum_map_add, List.sum_map_mul_right, List.sum_map_mul_left, List.sum_map_mul_right,
    hround, hweights, mul_inv_cancel₀ hW'.ne', mul_one] at hparts
  refine hparts.trans (add_le_add_left ?_ _)
  rw [← div_eq_mul_inv, div_le_iff₀ hW']
  linarith

end Apportion

/-! ## Lists of payments -/

section Spread
variable {κ : Type*} [DecidableEq κ] (keys : Finset κ)

/-- The totals of amounts read in another way. -/
theorem totalOf_map_hom {ν ν' : Type*} [AddCommMonoid ν] [AddCommMonoid ν'] (f : ν →+ ν') (k : κ)
    (es : List (κ × ν)) : totalOf k (es.map fun e => (e.1, f e.2)) = f (totalOf k es) := by
  induction es with
  | nil => simp
  | cons e es ih =>
      rw [List.map_cons, totalOf_cons, totalOf_cons, ih, map_add]
      split <;> simp

/-- How far two lists of payments are apart: the totals they give to each key. -/
def spread (es es' : List (κ × ℚ)) : ℚ := ∑ k ∈ keys, |totalOf k es - totalOf k es'|

@[simp] theorem spread_nil : spread keys ([] : List (κ × ℚ)) [] = 0 := by simp [spread]

/-- Distances add up over concatenations. -/
theorem spread_append_le (es es' fs fs' : List (κ × ℚ)) :
    spread keys (es ++ fs) (es' ++ fs') ≤ spread keys es es' + spread keys fs fs' := by
  rw [spread, spread, spread, ← Finset.sum_add_distrib]
  refine Finset.sum_le_sum fun k _ => ?_
  rw [totalOf_append, totalOf_append, add_sub_add_comm]
  exact abs_add_le _ _

/-- Two payments to one key are as far apart as their amounts, at most. -/
theorem spread_singleton_le (k : κ) (x y : ℚ) : spread keys [(k, x)] [(k, y)] ≤ |x - y| := by
  have hterm : ∀ k', |totalOf k' [(k, x)] - totalOf k' [(k, y)]| =
      if k = k' then |x - y| else 0 := by
    intro k'
    by_cases h : k = k' <;> simp [totalOf_cons, h]
  rw [spread, Finset.sum_congr rfl fun k' _ => hterm k', Finset.sum_ite_eq]
  split
  · exact le_rfl
  · exact abs_nonneg _

/-- Payments made part by part are as far apart as the parts, in total at most. -/
theorem spread_flatMap_le {γ : Type*} (l : List γ) (f g : γ → List (κ × ℚ)) :
    spread keys (l.flatMap f) (l.flatMap g) ≤ (l.map fun c => spread keys (f c) (g c)).sum := by
  induction l with
  | nil => simp
  | cons c l ih =>
      rw [List.flatMap_cons, List.flatMap_cons, List.map_cons, List.sum_cons]
      exact (spread_append_le keys _ _ _ _).trans (add_le_add_right ih _)

/-- Payments to the same keys in the same order. -/
theorem spread_map_le {γ : Type*} (l : List γ) (key : γ → κ) (f g : γ → ℚ) :
    spread keys (l.map fun c => (key c, f c)) (l.map fun c => (key c, g c)) ≤
      (l.map fun c => |f c - g c|).sum := by
  have hflat : ∀ f : γ → ℚ, (l.map fun c => (key c, f c)) = l.flatMap fun c => [(key c, f c)] :=
    fun f => List.map_eq_flatMap
  rw [hflat f, hflat g]
  refine (spread_flatMap_le keys l _ _).trans (List.sum_le_sum fun c _ => ?_)
  exact spread_singleton_le keys (key c) (f c) (g c)

/-- Payments that are not negative are at most their sum away from none. -/
theorem spread_nil_left_le {es : List (κ × ℚ)} (h : ∀ e ∈ es, 0 ≤ e.2) :
    spread keys [] es ≤ (es.map Prod.snd).sum := by
  have hnone : spread keys [] es =
      spread keys (es.map fun e => (e.1, 0)) (es.map fun e => (e.1, e.2)) := by
    have hzero : ∀ k, totalOf k (es.map fun e => (e.1, (0 : ℚ))) = 0 := by
      intro k
      apply totalOf_eq_zero_of_values
      intro e he _
      obtain ⟨_, _, rfl⟩ := List.mem_map.mp he
      rfl
    simp [spread, hzero]
  have habs : (es.map fun e => |(0 : ℚ) - e.2|) = es.map Prod.snd :=
    List.map_congr_left fun e he => by rw [zero_sub, abs_neg, abs_of_nonneg (h e he)]
  rw [hnone, ← habs]
  exact spread_map_le keys es Prod.fst (fun _ => 0) Prod.snd

end Spread
end Lib
