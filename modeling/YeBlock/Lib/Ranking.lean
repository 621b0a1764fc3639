import Mathlib.Data.List.Nodup
import YeBlock.Lib.Lists

/-!
# The first of a ranked list

A program ranks a list and keeps the first `k`.  Sorting by a key that tells the entries
apart puts them in strict order.  Where the ranking is not known, what can be said of the
first `k` is what holds in every order: a property that all the entries have, and no
repetition only where the list repeats nothing or one entry is kept.

## Main definitions

* `ascending_sortBy` — keys that tell the entries apart.
* `forall_perm_mem_take_iff`, `forall_perm_nodup_take_iff` — what holds in every order.
* `filter_take_prefix` — what becomes of the first `k` when one entry is left out.
-/

namespace Lib

universe u v

/-- Sorting by a key that no two entries share puts the entries in strict order. -/
theorem ascending_sortBy {α : Type u} {κ : Type v} [LinearOrder κ] {key : α → κ} {l : List α}
    (hnodup : l.Nodup) (hkey : ∀ a ∈ l, ∀ b ∈ l, key a = key b → a = b) :
    (sortBy key l).Pairwise fun a b => key a < key b := by
  have hsorted := pairwise_sortBy key l
  have hne : (sortBy key l).Pairwise (· ≠ ·) := (perm_sortBy key l).nodup_iff.mpr hnodup
  refine (hsorted.and hne).imp_of_mem ?_
  intro a b ha hb hab
  refine lt_of_le_of_ne hab.1 fun heq => hab.2 ?_
  exact hkey a (mem_sortBy.mp ha) b (mem_sortBy.mp hb) heq

/-! ## In every order -/

section Orders
variable {α : Type u} {β : Type v} {l : List α} {k : ℕ}

/-- A list whose images repeat one can be ordered with two that agree in front. -/
theorem exists_perm_pair_of_not_nodup {f : α → β} (h : ¬ (l.map f).Nodup) :
    ∃ a b rest, (a :: b :: rest).Perm l ∧ f a = f b := by
  rw [List.nodup_iff_sublist, not_forall] at h
  obtain ⟨y, hy⟩ := h
  obtain ⟨pair, hpair, hmap⟩ := List.sublist_map_iff.mp (not_not.mp hy)
  have hlength : pair.length = 2 := by simpa using (congrArg List.length hmap).symm
  obtain ⟨a, b, rfl⟩ := List.length_eq_two.mp hlength
  obtain ⟨rest, hrest⟩ := hpair.exists_perm_append
  simp only [List.map_cons, List.map_nil, List.cons.injEq, and_true] at hmap
  exact ⟨a, b, rest, hrest.symm, hmap.1.symm.trans hmap.2⟩

/-- A property of the first `k` in every order is one of all the entries. -/
theorem forall_perm_mem_take_iff (hk : 1 ≤ k) {p : α → Prop} :
    (∀ order : List α, order.Perm l → ∀ a ∈ order.take k, p a) ↔ ∀ a ∈ l, p a := by
  constructor
  · intro h a ha
    obtain ⟨before, after, rfl⟩ := List.append_of_mem ha
    refine h (a :: (before ++ after)) List.perm_middle.symm a ?_
    obtain ⟨k, rfl⟩ := Nat.exists_eq_add_of_le' hk
    simp
  · intro h order horder a ha
    exact h a (horder.subset (List.mem_of_mem_take ha))

/-- The first `k` repeat nothing in every order exactly when the list repeats nothing, or one
entry is kept at most. -/
theorem forall_perm_nodup_take_iff {f : α → β} :
    (∀ order : List α, order.Perm l → ((order.take k).map f).Nodup) ↔
      (2 ≤ k → (l.map f).Nodup) := by
  constructor
  · intro h hk
    by_contra hrepeats
    obtain ⟨a, b, rest, hperm, heq⟩ := exists_perm_pair_of_not_nodup hrepeats
    obtain ⟨k, rfl⟩ := Nat.exists_eq_add_of_le' hk
    have hfront := h _ hperm
    simp [heq] at hfront
  · intro h order horder
    by_cases hk : 2 ≤ k
    · have horder' := ((horder.map f).nodup_iff).mpr (h hk)
      exact horder'.sublist ((List.take_sublist k order).map f)
    · have hone : k = 0 ∨ k = 1 := by omega
      rcases hone with rfl | rfl
      · simp
      · cases order <;> simp

end Orders

/-! ## Leaving one out -/

/-- Of a prefix the entries without one are a prefix of those without it, one short at most. -/
theorem filter_take_prefix {α : Type u} (p : α → Bool) {l : List α}
    (hlength : l.length = (l.filter p).length + 1) (k : ℕ) :
    (l.take k).filter p <+: (l.filter p).take k ∧
      ((l.filter p).take k).length ≤ ((l.take k).filter p).length + 1 := by
  have hcount := List.length_eq_countP_add_countP p (l := l)
  have hcount' := List.length_eq_countP_add_countP p (l := l.take k)
  have hle := ((List.take_sublist k l).countP_le (p := fun a => decide ¬p a = true))
  rw [List.countP_eq_length_filter (p := p)] at hcount hcount'
  constructor
  · rw [List.prefix_take_iff]
    refine ⟨(List.take_prefix k l).filter p, ?_⟩
    exact (List.length_filter_le _ _).trans (List.length_take_le _ _)
  · rw [List.length_take] at hcount' ⊢
    omega

end Lib
