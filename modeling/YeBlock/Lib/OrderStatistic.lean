import Mathlib.Data.Finset.Card
import Mathlib.Data.List.FinRange
import YeBlock.Lib.Lists

/-!
# Entries of a list by their place in order

The entry at place `k` of a list in ascending order has at most `k` entries below it and
more than `k` that are not above it, and these counts determine it, so it does not depend
on how the list is sorted.  Counts also say what a minority of the positions can do to it:
too few positions to fill one side of the place leave an entry on that side.

## Main definitions

* `IsNth l k x` — `x` is at place `k` of `l` in order.
* `IsMiddle l x` — `x` is at the middle place, half the length rounded down.
* `getElem?_sortBy_iff` — sorting finds it.
* `IsMiddle.upward_iff`, `IsMiddle.downward_iff` — what the middle has, read off the votes for it.
* `IsNth.exists_ge_notMem`, `IsNth.exists_le_notMem` — what few positions cannot change.
-/

namespace Lib

universe u

theorem countP_not_add {α : Type u} (p : α → Prop) [DecidablePred p] (l : List α) :
    (l.countP fun y => ¬ p y) + l.countP (fun y => p y) = l.length := by
  rw [List.length_eq_countP_add_countP (fun y => decide (p y)), add_comm]
  simp

section Nth
variable {α : Type u} [LinearOrder α] {l l' : List α} {k : ℕ} {x y : α}

/-- `x` is at place `k` of the list in order: at most `k` entries are below it, and more
than `k` are not above it. -/
def IsNth (l : List α) (k : ℕ) (x : α) : Prop := l.countP (· < x) ≤ k ∧ k < l.countP (· ≤ x)

instance (l : List α) (k : ℕ) (x : α) : Decidable (IsNth l k x) :=
  inferInstanceAs (Decidable (_ ∧ _))

/-- `x` is at the middle place. -/
def IsMiddle (l : List α) (x : α) : Prop := IsNth l (l.length / 2) x

instance (l : List α) (x : α) : Decidable (IsMiddle l x) :=
  inferInstanceAs (Decidable (IsNth _ _ _))

theorem isNth_iff_of_perm (h : l.Perm l') : IsNth l k x ↔ IsNth l' k x := by
  rw [IsNth, IsNth, h.countP_eq, h.countP_eq]

/-- No entry at a place is above another. -/
theorem IsNth.le_of_isNth (hx : IsNth l k x) (hy : IsNth l k y) : y ≤ x := by
  by_contra hlt
  have hmono : l.countP (· ≤ x) ≤ l.countP (· < y) := by
    refine List.countP_mono_left fun z _ hz => ?_
    have hzx : z ≤ x := of_decide_eq_true hz
    exact decide_eq_true (hzx.trans_lt (not_le.mp hlt))
  exact absurd (hx.2.trans_le hmono) hy.1.not_gt

/-- Only one entry is at a place. -/
theorem IsNth.unique (hx : IsNth l k x) (hy : IsNth l k y) : x = y :=
  le_antisymm (hy.le_of_isNth hx) (hx.le_of_isNth hy)

/-- All entries but `k` reach the one at place `k`. -/
theorem IsNth.length_le (h : IsNth l k x) : l.length ≤ k + l.countP (x ≤ ·) := by
  have hlen := l.length_eq_countP_add_countP fun y => decide (y < x)
  have hnot : (l.countP fun y => ¬ decide (y < x) = true) = l.countP (x ≤ ·) :=
    List.countP_congr fun y _ => by simp
  have hbelow := h.1
  omega

/-- The entry at index `k` of an ascending list is at place `k`. -/
theorem isNth_of_ascending (hl : l.Pairwise (· ≤ ·)) (hk : l[k]? = some x) : IsNth l k x := by
  induction l generalizing k with
  | nil => cases hk
  | cons a l ih =>
      obtain ⟨ha, hrest⟩ := List.pairwise_cons.mp hl
      rw [IsNth, List.countP_cons, List.countP_cons]
      cases k with
      | zero =>
          obtain rfl : a = x := by simpa using hk
          have hbelow : l.countP (· < a) = 0 := List.countP_eq_zero.mpr fun b hb => by
            simpa using ha b hb
          simp [hbelow]
      | succ k =>
          rw [List.getElem?_cons_succ] at hk
          obtain ⟨hbelow, habove⟩ := ih hrest hk
          have hax : a ≤ x := ha x (List.mem_of_getElem? hk)
          rw [if_pos (decide_eq_true hax)]
          have hone : (if decide (a < x) = true then 1 else 0) ≤ 1 := by split <;> omega
          omega

/-- **Sorting finds the entry at a place.** -/
theorem getElem?_sortBy_iff : (sortBy id l)[k]? = some x ↔ IsNth l k x := by
  have hsorted : ∀ y, (sortBy id l)[k]? = some y → IsNth l k y := fun y hy =>
    (isNth_iff_of_perm (perm_sortBy id l)).mp (isNth_of_ascending (pairwise_sortBy id l) hy)
  constructor
  · exact hsorted x
  · intro hx
    have hk : k < (sortBy id l).length := by
      rw [length_sortBy]
      exact hx.2.trans_le List.countP_le_length
    have hy := List.getElem?_eq_getElem hk
    rw [hy, (hsorted _ hy).unique hx]

theorem exists_isNth (hk : k < l.length) : ∃ x, IsNth l k x := by
  have hlen : k < (sortBy id l).length := by rwa [length_sortBy]
  exact ⟨_, getElem?_sortBy_iff.mp (List.getElem?_eq_getElem hlen)⟩

theorem exists_isMiddle (hl : l ≠ []) : ∃ x, IsMiddle l x := by
  have hpos : 0 < l.length := List.length_pos_iff.mpr hl
  exact exists_isNth (by omega)

/-! ### Votes for the middle -/

/-- The middle has at most half of the entries below it and fewer than half above. -/
theorem isMiddle_iff_votes :
    IsMiddle l x ↔ 2 * l.countP (· < x) ≤ l.length ∧ 2 * l.countP (x < ·) < l.length := by
  have hsum := countP_not_add (fun y => x < y) l
  simp only [not_lt] at hsum
  rw [IsMiddle, IsNth]
  omega

/-- A property closed upwards holds of the middle when half of the entries have it. -/
theorem IsMiddle.upward_iff (h : IsMiddle l x) {p : α → Prop} [DecidablePred p]
    (hp : ∀ y z, y ≤ z → p y → p z) : p x ↔ l.length ≤ 2 * l.countP fun y => p y := by
  obtain ⟨hbelow, habove⟩ := isMiddle_iff_votes.mp h
  constructor
  · intro hx
    have hmono : l.countP (fun y => ¬ p y) ≤ l.countP (· < x) := by
      refine List.countP_mono_left fun y _ hy => ?_
      rw [decide_eq_true_eq] at hy ⊢
      exact lt_of_not_ge fun hle => hy (hp x y hle hx)
    have hsum := countP_not_add p l
    omega
  · intro hvotes
    by_contra hx
    have hmono : l.countP (fun y => p y) ≤ l.countP (x < ·) := by
      refine List.countP_mono_left fun y _ hy => ?_
      rw [decide_eq_true_eq] at hy ⊢
      exact lt_of_not_ge fun hle => hx (hp y x hle hy)
    omega

/-- One closed downwards does when more than half of the entries have it. -/
theorem IsMiddle.downward_iff (h : IsMiddle l x) {p : α → Prop} [DecidablePred p]
    (hp : ∀ y z, y ≤ z → p z → p y) : p x ↔ l.length < 2 * l.countP fun y => p y := by
  have hnot := h.upward_iff (p := fun y => ¬ p y) fun y z hyz hy hz => hy (hp y z hyz hz)
  have hsum := countP_not_add p l
  rw [← not_iff_not, hnot]
  omega

end Nth

/-! ## Minorities -/

section Minority
variable {α : Type u} {l : List α}

/-- Fewer positions than there are entries with a property leave one of these out. -/
theorem exists_notMem_of_card_lt {p : α → Bool} {S : Finset (Fin l.length)}
    (h : S.card < l.countP p) : ∃ i ∉ S, p l[i] = true := by
  by_contra hnone
  have hread : (List.finRange l.length).map (fun i : Fin l.length => l[i]) = l :=
    List.map_get_finRange l
  have hcount : l.countP p =
      ((List.finRange l.length).toFinset.filter fun i : Fin l.length => p l[i] = true).card := by
    rw [(List.nodup_finRange _).card_eq_countP]
    conv_lhs => rw [← hread, List.countP_map]
    simp [Function.comp_def]
  have hsub : ((List.finRange l.length).toFinset.filter fun i : Fin l.length => p l[i] = true) ⊆
      S := by
    intro i hi
    by_contra hmem
    exact hnone ⟨i, hmem, (Finset.mem_filter.mp hi).2⟩
  rw [hcount] at h
  exact absurd (Finset.card_le_card hsub) h.not_ge

variable {β : Type*} [LinearOrder β] {key : α → β} {k : ℕ} {x : β} {S : Finset (Fin l.length)}

/-- Too few positions for the places from `k` on leave an entry that reaches place `k`. -/
theorem IsNth.exists_ge_notMem (h : IsNth (l.map key) k x) (hS : S.card + k < l.length) :
    ∃ i ∉ S, x ≤ key l[i] := by
  have hreach := h.length_le
  rw [List.length_map, List.countP_map] at hreach
  have hcount : S.card < l.countP ((fun y => decide (x ≤ y)) ∘ key) := by omega
  obtain ⟨i, hi, hle⟩ := exists_notMem_of_card_lt hcount
  exact ⟨i, hi, of_decide_eq_true hle⟩

/-- Too few positions for the places up to `k` leave an entry that place `k` reaches. -/
theorem IsNth.exists_le_notMem (h : IsNth (l.map key) k x) (hS : S.card ≤ k) :
    ∃ i ∉ S, key l[i] ≤ x := by
  have hreach := h.2
  rw [List.countP_map] at hreach
  obtain ⟨i, hi, hle⟩ := exists_notMem_of_card_lt (hS.trans_lt hreach)
  exact ⟨i, hi, of_decide_eq_true hle⟩

end Minority

end Lib
