import YeBlock.Lib.Apportion
import YeBlock.Lib.Ranking
import Mathlib.Data.Rat.Floor

/-!
# Quota, order and fairness of the apportionment

Which entries receive a leftover unit is decided by their remainders, and ties by their
position.  No entry without a remainder receives one, so every part is the exact share
rounded down or up.  Heavier entries receive no less, and entries of equal weight differ
by one unit at most, in favour of the earlier.

The apportionment is also the fairest one.  Between the remainders of the entries that
receive a unit and those of the entries that do not lies a cutoff; it puts a price on a
unit at which every entry, taken alone, prefers the part it has.  Lists that sum to the
same amount are charged the same, so no other list deviates less from the exact shares.

## Main definitions

* `Apportion.ranked` — the remainders in the order of preference.
* `Apportion.getElem_shares` — a part is its exact share rounded down, and one for a winner.
* `Apportion.remainder_pos_of_mem_winners` — what a winner's share is rounded up from.
* `sum_cost_le_of_price` — what is best for every entry at one price is best in total.
* `Apportion.deviation_shares_le` — the fairest division.
-/

namespace Lib

/-! ## Rounding down and up -/

theorem floor_div_eq (n : ℤ) {d : ℤ} (hd : 0 < d) : ⌊(n : ℚ) / d⌋ = n / d := by
  lift d to ℕ using hd.le
  exact Rat.floor_intCast_div_natCast n d

theorem ceil_div_of_emod_pos {n d : ℤ} (hd : 0 < d) (h : 0 < n % d) :
    ⌈(n : ℚ) / d⌉ = n / d + 1 := by
  have hdQ : (0 : ℚ) < d := by exact_mod_cast hd
  have hdiv := Int.mul_ediv_add_emod n d
  have hlt := Int.emod_lt_of_pos n hd
  rw [Int.ceil_eq_iff, lt_div_iff₀ hdQ, div_le_iff₀ hdQ]
  push_cast [add_sub_cancel_right]
  constructor <;> norm_cast <;> linarith

namespace Apportion

variable (gross : ℤ) (ws : List ℤ)

/-! ## Winners -/

/-- The remainders with their positions, in the order of preference. -/
def ranked : List (ℤ × ℕ) := sortBy (fun t => toLex (-t.1, t.2)) (remainders gross ws)

/-- The entries that receive a leftover unit. -/
def granted : List (ℤ × ℕ) := (ranked gross ws).take (leftover gross ws).toNat

/-- The entries that receive none. -/
def denied : List (ℤ × ℕ) := (ranked gross ws).drop (leftover gross ws).toNat

theorem granted_append_denied : granted gross ws ++ denied gross ws = ranked gross ws :=
  List.take_append_drop _ _

theorem winners_eq : winners gross ws = (granted gross ws).map Prod.snd := List.map_take.symm

theorem mem_ranked_iff (t : ℤ × ℕ) :
    t ∈ ranked gross ws ↔ ∃ w, ws[t.2]? = some w ∧ t.1 = gross * w % ws.sum := by
  obtain ⟨r, i⟩ := t
  simp only [ranked, mem_sortBy, remainders, List.mem_map, Prod.exists, Prod.mk.injEq,
    List.mk_mem_zipIdx_iff_getElem?]
  constructor
  · rintro ⟨w, j, hw, rfl, rfl⟩
    exact ⟨w, hw, rfl⟩
  · rintro ⟨w, hw, rfl⟩
    exact ⟨w, i, hw, rfl, rfl⟩

/-- The remainders are the leftover units, measured in whole shares. -/
theorem sum_ranked : ((ranked gross ws).map Prod.fst).sum = ws.sum * leftover gross ws := by
  have hfst : (remainders gross ws).map Prod.fst =
      (ws.zipIdx.map Prod.fst).map fun w => gross * w % ws.sum := by
    rw [remainders, List.map_map, List.map_map]
    rfl
  rw [ranked, ((perm_sortBy _ _).map Prod.fst).sum_eq, hfst, List.zipIdx_map_fst,
    sum_mul_leftover]

/-- The order of preference is strict. -/
theorem pairwise_ranked : (ranked gross ws).Pairwise fun t u =>
    toLex (-t.1, t.2) < toLex (-u.1, u.2) := by
  have hnodup : (remainders gross ws).Nodup := by
    apply List.Nodup.of_map Prod.snd
    rw [map_snd_remainders]
    exact List.nodup_range
  refine ascending_sortBy hnodup ?_
  intro t _ u _ h
  have hpair : (-t.1, t.2) = (-u.1, u.2) := congrArg ofLex h
  rw [Prod.mk.injEq, neg_inj] at hpair
  exact Prod.ext hpair.1 hpair.2

theorem nodup_winners : (winners gross ws).Nodup := by
  have hranking : (ranking gross ws).Nodup :=
    (perm_ranking gross ws).nodup_iff.mpr List.nodup_range
  exact hranking.sublist (List.take_sublist _ _)

variable {gross ws} {i j : ℕ} {v w : ℤ}

theorem ahead_of_mem_granted {t u : ℤ × ℕ} (ht : t ∈ granted gross ws) (hu : u ∈ denied gross ws) :
    u.1 < t.1 ∨ u.1 = t.1 ∧ t.2 < u.2 := by
  have hsplit := pairwise_ranked gross ws
  rw [← granted_append_denied, List.pairwise_append] at hsplit
  have hlt := hsplit.2.2 t ht u hu
  rw [Prod.Lex.toLex_lt_toLex] at hlt
  simp only at hlt
  omega

/-- A position wins when its entry is granted a unit. -/
theorem mem_winners_iff (hi : ws[i]? = some w) :
    i ∈ winners gross ws ↔ (gross * w % ws.sum, i) ∈ granted gross ws := by
  rw [winners_eq, List.mem_map]
  constructor
  · rintro ⟨t, ht, rfl⟩
    obtain ⟨w', hw', hrem⟩ := (mem_ranked_iff gross ws t).mp (List.mem_of_mem_take ht)
    obtain rfl := Option.some.inj (hi.symm.trans hw')
    rwa [← hrem]
  · intro h
    exact ⟨_, h, rfl⟩

theorem notMem_winners_iff (hi : ws[i]? = some w) :
    i ∉ winners gross ws ↔ (gross * w % ws.sum, i) ∈ denied gross ws := by
  have hranked : (gross * w % ws.sum, i) ∈ granted gross ws ++ denied gross ws := by
    rw [granted_append_denied]
    exact (mem_ranked_iff gross ws _).mpr ⟨w, hi, rfl⟩
  rw [mem_winners_iff hi]
  constructor
  · intro h
    exact (List.mem_append.mp hranked).resolve_left h
  · intro hdenied hgranted
    have h := ahead_of_mem_granted hgranted hdenied
    omega

/-- **A winner is ahead of everybody else**: its remainder is larger, or it is as large
and its position earlier. -/
theorem ahead_of_mem_winners (hi : ws[i]? = some v) (hj : ws[j]? = some w)
    (hwin : i ∈ winners gross ws) (hlose : j ∉ winners gross ws) :
    gross * w % ws.sum < gross * v % ws.sum ∨
      gross * w % ws.sum = gross * v % ws.sum ∧ i < j :=
  ahead_of_mem_granted ((mem_winners_iff hi).mp hwin) ((notMem_winners_iff hj).mp hlose)

/-- Remainders are less than whole shares. -/
theorem sum_granted_le (gross : ℤ) (hW : 0 < ws.sum) :
    ((granted gross ws).map Prod.fst).sum ≤ leftover gross ws * (ws.sum - 1) := by
  have hle : ∀ r ∈ (granted gross ws).map Prod.fst, r ≤ ws.sum - 1 := by
    intro r hr
    obtain ⟨t, ht, rfl⟩ := List.mem_map.mp hr
    obtain ⟨w, _, hrem⟩ := (mem_ranked_iff gross ws t).mp (List.mem_of_mem_take ht)
    have hlt := Int.emod_lt_of_pos (gross * w) hW
    omega
  have hcard := List.sum_le_card_nsmul _ _ hle
  have hlen := length_winners gross hW
  rw [winners_eq, List.length_map] at hlen
  rwa [List.length_map, nsmul_eq_mul, hlen] at hcard

/-- **Only what was rounded down is rounded up**: a winner has a remainder. -/
theorem remainder_pos_of_mem_winners (hW : 0 < ws.sum) (hi : ws[i]? = some w)
    (hwin : i ∈ winners gross ws) : 0 < gross * w % ws.sum := by
  by_contra hzero
  -- the others would have none either, and the winners' remainders do not make up the units
  have hdenied : ((denied gross ws).map Prod.fst).sum ≤ 0 := by
    have hle : ∀ r ∈ (denied gross ws).map Prod.fst, r ≤ 0 := by
      intro r hr
      obtain ⟨u, hu, rfl⟩ := List.mem_map.mp hr
      have h := ahead_of_mem_granted ((mem_winners_iff hi).mp hwin) hu
      omega
    simpa using List.sum_le_card_nsmul _ _ hle
  have hgranted := sum_granted_le gross hW
  have htotal := sum_ranked gross ws
  rw [← granted_append_denied, List.map_append, List.sum_append] at htotal
  have hpos : 0 < leftover gross ws := by
    rw [← length_winners gross hW]
    exact_mod_cast List.length_pos_of_mem hwin
  linarith

/-! ## Quota -/

/-- The part of an entry of weight `w` at position `i`: its exact share rounded down, and
one more for a winner. -/
def partAt (gross : ℤ) (ws : List ℤ) (i : ℕ) (w : ℤ) : ℤ :=
  gross * w / ws.sum + if i ∈ winners gross ws then 1 else 0

theorem getElem?_shares (gross : ℤ) (hi : ws[i]? = some w) :
    (shares gross ws)[i]? = some (partAt gross ws i w) := by
  obtain ⟨hlt, rfl⟩ := List.getElem?_eq_some_iff.mp hi
  have hcount : (winners gross ws).count i = if i ∈ winners gross ws then 1 else 0 :=
    (nodup_winners gross ws).count
  rw [List.getElem?_eq_getElem (by simpa using hlt), Option.some.injEq]
  simp only [shares, getElem_bump, hcount, floors, partAt]
  simp

/-- The exact share of an entry of weight `w`. -/
def exactShare (gross : ℤ) (ws : List ℤ) (w : ℤ) : ℚ := gross * w / ws.sum

theorem exactShare_eq (gross : ℤ) (ws : List ℤ) (w : ℤ) :
    exactShare gross ws w = (gross * w : ℤ) / (ws.sum : ℚ) := by
  rw [exactShare, Int.cast_mul]

/-- **Quota**: a part is its exact share rounded down or up. -/
theorem partAt_eq_floor_or_ceil (gross : ℤ) (hW : 0 < ws.sum) (hi : ws[i]? = some w) :
    partAt gross ws i w = ⌊exactShare gross ws w⌋ ∨
      partAt gross ws i w = ⌈exactShare gross ws w⌉ := by
  rw [exactShare_eq, partAt]
  by_cases hwin : i ∈ winners gross ws
  · right
    rw [if_pos hwin, ceil_div_of_emod_pos hW (remainder_pos_of_mem_winners hW hi hwin)]
  · left
    rw [if_neg hwin, add_zero, floor_div_eq _ hW]

/-- An exact share that is an integer is received exactly. -/
theorem partAt_eq_of_exactShare (hW : 0 < ws.sum) (hi : ws[i]? = some w) {k : ℤ}
    (h : exactShare gross ws w = k) : partAt gross ws i w = k := by
  rcases partAt_eq_floor_or_ceil gross hW hi with hpart | hpart
  · rw [hpart, h, Int.floor_intCast]
  · rw [hpart, h, Int.ceil_intCast]

/-- An entry without weight receives nothing. -/
theorem partAt_zero (hW : 0 < ws.sum) (hi : ws[i]? = some 0) : partAt gross ws i 0 = 0 :=
  partAt_eq_of_exactShare hW hi (by simp [exactShare])

/-! ## Order -/

/-- **A heavier entry receives no less** of an amount that is not negative. -/
theorem partAt_le_of_weight_lt (hW : 0 < ws.sum) (hgross : 0 ≤ gross) (hi : ws[i]? = some v)
    (hj : ws[j]? = some w) (h : v < w) : partAt gross ws i v ≤ partAt gross ws j w := by
  have hmul : gross * v ≤ gross * w := mul_le_mul_of_nonneg_left h.le hgross
  have hfloor := Int.ediv_le_ediv hW hmul
  rw [partAt, partAt]
  by_cases hwin : i ∈ winners gross ws ∧ j ∉ winners gross ws
  · -- only the lighter one is a winner, so the floors differ: its remainder is not smaller
    rw [if_pos hwin.1, if_neg hwin.2, add_zero, Int.add_one_le_iff]
    refine lt_of_le_of_ne hfloor fun heq => ?_
    have hpos := remainder_pos_of_mem_winners hW hi hwin.1
    have hahead := ahead_of_mem_winners hi hj hwin.1 hwin.2
    have hv := Int.mul_ediv_add_emod (gross * v) ws.sum
    have hw := Int.mul_ediv_add_emod (gross * w) ws.sum
    rw [heq] at hv
    have hsame : gross * v = gross * w := by omega
    rcases mul_eq_mul_left_iff.mp hsame with hvw | rfl
    · omega
    · simp at hpos
  · split <;> split <;> first | omega | tauto

/-- **Entries of equal weight** differ by one unit at most, and the earlier has it. -/
theorem partAt_of_weight_eq (hi : ws[i]? = some w) (hj : ws[j]? = some w) (h : i < j) :
    partAt gross ws j w ≤ partAt gross ws i w ∧
      partAt gross ws i w ≤ partAt gross ws j w + 1 := by
  have hnot : ¬ (j ∈ winners gross ws ∧ i ∉ winners gross ws) := by
    rintro ⟨hwin, hlose⟩
    have hahead := ahead_of_mem_winners hj hi hwin hlose
    omega
  rw [partAt, partAt]
  split <;> split <;> first | omega | tauto

/-! ## Fairness -/

/-- How far the parts `xs` are off the exact shares in total, measured in shares. -/
def deviation (gross : ℤ) (ws xs : List ℤ) : ℤ :=
  (List.zipWith (fun w x => |ws.sum * x - gross * w|) ws xs).sum

/-- A remainder that separates the winners from the others. -/
theorem exists_cutoff (gross : ℤ) (hW : 0 < ws.sum) :
    ∃ cutoff, 0 ≤ cutoff ∧ cutoff ≤ ws.sum ∧ ∀ i w, ws[i]? = some w →
      (i ∈ winners gross ws → cutoff ≤ gross * w % ws.sum) ∧
        (i ∉ winners gross ws → gross * w % ws.sum ≤ cutoff) := by
  -- that of the first who is denied a unit; somebody is, as there are fewer units than entries
  have hne : denied gross ws ≠ [] := by
    have h0 := leftover_nonneg gross hW
    have hlt := leftover_lt_length gross hW
    apply List.ne_nil_of_length_pos
    rw [denied, List.length_drop, ranked, length_sortBy, remainders, List.length_map,
      List.length_zipIdx]
    omega
  obtain ⟨first, rest, hfirst⟩ := List.exists_cons_of_ne_nil hne
  have hsplit := pairwise_ranked gross ws
  rw [← granted_append_denied, List.pairwise_append, hfirst, List.pairwise_cons] at hsplit
  have hmem : first ∈ denied gross ws := by
    rw [hfirst]
    exact List.mem_cons_self
  obtain ⟨w₀, _, hrem⟩ := (mem_ranked_iff gross ws first).mp (List.mem_of_mem_drop hmem)
  refine ⟨first.1, ?_, ?_, ?_⟩
  · rw [hrem]
    exact Int.emod_nonneg _ hW.ne'
  · rw [hrem]
    exact (Int.emod_lt_of_pos _ hW).le
  · intro i w hi
    constructor
    · intro hwin
      have h := ahead_of_mem_granted ((mem_winners_iff hi).mp hwin) hmem
      omega
    · intro hlose
      have hin := (notMem_winners_iff hi).mp hlose
      rw [hfirst, List.mem_cons] at hin
      rcases hin with heq | hin
      · rw [← heq]
      · have hlt := hsplit.2.1.1 _ hin
        rw [Prod.Lex.toLex_lt_toLex] at hlt
        simp only at hlt
        omega

section Price
variable {W n cutoff : ℤ} (hnonneg : 0 ≤ cutoff) (hle : cutoff ≤ W)
include hnonneg hle

/-- What an amount `y` costs at best, if a unit costs `W - 2 * cutoff`: the deviation
counts from above the exact share or from below it. -/
theorem price_le (y : ℤ) :
    2 * cutoff * (n / W + 1) - n ≤ |W * y - n| - (W - 2 * cutoff) * y ∨
      n - 2 * (W - cutoff) * (n / W) ≤ |W * y - n| - (W - 2 * cutoff) * y := by
  rcases lt_or_ge (n / W) y with hy | hy
  · left
    have hmono : cutoff * (n / W + 1) ≤ cutoff * y := mul_le_mul_of_nonneg_left hy hnonneg
    have habs := le_abs_self (W * y - n)
    linarith
  · right
    have hmono : (W - cutoff) * y ≤ (W - cutoff) * (n / W) :=
      mul_le_mul_of_nonneg_left hy (sub_nonneg.mpr hle)
    have habs := neg_abs_le (W * y - n)
    linarith

/-- With a remainder above the cutoff nothing is better than rounding up. -/
theorem price_up_le (hW : 0 < W) (hcut : cutoff ≤ n % W) (y : ℤ) :
    |W * (n / W + 1) - n| - (W - 2 * cutoff) * (n / W + 1) ≤
      |W * y - n| - (W - 2 * cutoff) * y := by
  have hdiv := Int.mul_ediv_add_emod n W
  have hlt := Int.emod_lt_of_pos n hW
  have habs : |W * (n / W + 1) - n| = W * (n / W + 1) - n := abs_of_nonneg (by linarith)
  rw [habs]
  rcases price_le (n := n) hnonneg hle y with h | h <;> linarith

/-- With a remainder below the cutoff nothing is better than rounding down. -/
theorem price_down_le (hW : 0 < W) (hcut : n % W ≤ cutoff) (y : ℤ) :
    |W * (n / W) - n| - (W - 2 * cutoff) * (n / W) ≤ |W * y - n| - (W - 2 * cutoff) * y := by
  have hdiv := Int.mul_ediv_add_emod n W
  have h0 := Int.emod_nonneg n hW.ne'
  have habs : |W * (n / W) - n| = n - W * (n / W) := by
    rw [abs_of_nonpos (by linarith), neg_sub]
  rw [habs]
  rcases price_le (n := n) hnonneg hle y with h | h <;> linarith

end Price
end Apportion

/-- **What is best for every entry at one price is best in total**, among the lists of
the same sum: these are all charged the same. -/
theorem sum_cost_le_of_price {α R : Type*} [CommRing R] [LinearOrder R] [IsStrictOrderedRing R]
    {cost : α → R → R} (price : R) {as : List α} {xs : List R}
    (hbest : List.Forall₂ (fun a x => ∀ y, cost a x - price * x ≤ cost a y - price * y) as xs)
    {ys : List R} (hlen : ys.length = as.length) (hsum : ys.sum = xs.sum) :
    (List.zipWith cost as xs).sum ≤ (List.zipWith cost as ys).sum := by
  have hcharged : (List.zipWith cost as xs).sum - price * xs.sum ≤
      (List.zipWith cost as ys).sum - price * ys.sum := by
    clear hsum
    induction hbest generalizing ys with
    | nil =>
        rw [List.length_nil, List.length_eq_zero_iff] at hlen
        simp [hlen]
    | @cons a x as xs hax _ ih =>
        obtain ⟨y, ys, rfl⟩ := List.exists_cons_of_length_eq_add_one hlen
        have hrest := ih (Nat.succ.inj hlen)
        have hhead := hax y
        simp only [List.zipWith_cons_cons, List.sum_cons]
        linarith
  rw [hsum] at hcharged
  linarith

namespace Apportion

/-- **The fairest division**: no other list of integers of the same sum deviates less, in
total, from the exact shares. -/
theorem deviation_shares_le (gross : ℤ) {ws : List ℤ} (hW : 0 < ws.sum) {ys : List ℤ}
    (hlen : ys.length = ws.length) (hsum : ys.sum = gross) :
    deviation gross ws (shares gross ws) ≤ deviation gross ws ys := by
  obtain ⟨cutoff, hnonneg, hle, hcut⟩ := exists_cutoff gross hW
  refine sum_cost_le_of_price (ws.sum - 2 * cutoff) ?_ hlen
    (hsum.trans (sum_shares gross hW).symm)
  rw [List.forall₂_iff_get]
  refine ⟨(length_shares gross ws).symm, fun i hi hi' y => ?_⟩
  have hw : ws[i]? = some ws[i] := List.getElem?_eq_getElem hi
  have hpart : (shares gross ws)[i] = partAt gross ws i ws[i] := by
    have hget := getElem?_shares gross hw
    rwa [List.getElem?_eq_getElem hi', Option.some.injEq] at hget
  simp only [List.get_eq_getElem, hpart, partAt]
  by_cases hwin : i ∈ winners gross ws
  · rw [if_pos hwin]
    exact price_up_le hnonneg hle hW ((hcut i _ hw).1 hwin) y
  · rw [if_neg hwin, add_zero]
    exact price_down_le hnonneg hle hW ((hcut i _ hw).2 hwin) y

end Apportion
end Lib
