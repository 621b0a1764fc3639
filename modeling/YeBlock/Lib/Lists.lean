import Mathlib.Algebra.BigOperators.Group.List.Basic
import Mathlib.Data.Int.Basic
import Mathlib.Data.List.Induction
import Mathlib.Data.List.Sort
import Mathlib.Data.Prod.Lex
import Mathlib.Tactic.Ring

/-!
# Sorting by a key, and adding one at chosen positions

Two list operations settlement code is built from.  Sorting by a key is insertion
sort, which is stable, so a key that breaks ties by position gives the order of a
stable library sort.  A key that no two entries share gives an order, and extremes,
that depend on the entries alone.  Adding one at a list of positions is what a loop
that hands out leftover units does to the amounts.

## Main definitions

* `sortBy key l` — `l` in ascending order of `key`.
* `sortBy_eq_of_perm` — the sorted order is unique.
* `bump xs is` — `xs` with one added at every position of `is`, with repetition.
-/

namespace Lib

universe u v

/-! ## Sorting by a key -/

section SortBy
variable {α : Type u} {κ : Type v} [LinearOrder κ]

/-- The list in ascending order of the key; entries of equal key keep their order. -/
def sortBy (key : α → κ) (l : List α) : List α := l.insertionSort fun a b => key a ≤ key b

theorem perm_sortBy (key : α → κ) (l : List α) : (sortBy key l).Perm l :=
  List.perm_insertionSort _ l

@[simp] theorem length_sortBy (key : α → κ) (l : List α) : (sortBy key l).length = l.length :=
  (perm_sortBy key l).length_eq

@[simp] theorem mem_sortBy {key : α → κ} {l : List α} {a : α} : a ∈ sortBy key l ↔ a ∈ l :=
  (perm_sortBy key l).mem_iff

theorem pairwise_sortBy (key : α → κ) (l : List α) :
    (sortBy key l).Pairwise fun a b => key a ≤ key b := by
  have htotal : Std.Total fun a b => key a ≤ key b := ⟨fun a b => le_total (key a) (key b)⟩
  have htrans : IsTrans α fun a b => key a ≤ key b := ⟨fun _ _ _ => le_trans⟩
  exact List.pairwise_insertionSort _ l

/-- Sorting an image by the key of the image. -/
theorem sortBy_map {β : Type*} (key : α → κ) (f : β → α) (l : List β) :
    sortBy key (l.map f) = (sortBy (fun b => key (f b)) l).map f :=
  (List.map_insertionSort _ _ f l fun _ _ _ _ => Iff.rfl).symm

/-- **The sorted order is unique**: lists with the same entries are sorted to the same
list when no two of them share a key. -/
theorem sortBy_eq_of_perm {key : α → κ} {l l' : List α} (h : l.Perm l')
    (hkey : ∀ a ∈ l, ∀ b ∈ l, key a = key b → a = b) : sortBy key l = sortBy key l' := by
  have hsorted : (sortBy key l).Perm (sortBy key l') :=
    ((perm_sortBy key l).trans h).trans (perm_sortBy key l').symm
  refine List.Perm.eq_of_pairwise ?_ (pairwise_sortBy key l) (pairwise_sortBy key l') hsorted
  intro a b ha hb hab hba
  exact hkey a (mem_sortBy.mp ha) b (h.mem_iff.mpr (mem_sortBy.mp hb)) (le_antisymm hab hba)

end SortBy

/-! ## Images -/

/-- A map that is injective on the entries of two lists tells them apart. -/
theorem map_inj_of_forall {α β : Type*} {f : α → β} {l l' : List α}
    (h : ∀ a ∈ l, ∀ b ∈ l', f a = f b → a = b) : l.map f = l'.map f ↔ l = l' := by
  constructor
  · intro heq
    induction l generalizing l' with
    | nil => simpa using heq
    | cons a l ih =>
        cases l' with
        | nil => cases heq
        | cons b l' =>
            rw [List.map_cons, List.map_cons, List.cons.injEq] at heq
            have hhead := h a List.mem_cons_self b List.mem_cons_self heq.1
            have htail := ih (fun a ha b hb => h a (List.mem_cons_of_mem _ ha) b
              (List.mem_cons_of_mem _ hb)) heq.2
            rw [hhead, htail]
  · intro heq
    rw [heq]

/-- Related lists under the same keys. -/
theorem forall₂_zip {κ α β : Type*} {R : α → β → Prop} (ks : List κ) {xs : List α} {ys : List β}
    (h : List.Forall₂ R xs ys) :
    List.Forall₂ (fun e e' => e.1 = e'.1 ∧ R e.2 e'.2) (ks.zip xs) (ks.zip ys) := by
  induction ks generalizing xs ys with
  | nil => exact .nil
  | cons k ks ih =>
      cases h with
      | nil => exact .nil
      | cons hxy hrest => exact .cons ⟨rfl, hxy⟩ (ih hrest)

/-- The entries of a list, each beside a value of its own. -/
theorem map_fst_map_pair {α β : Type*} (f : α → β) (l : List α) :
    (l.map fun a => (a, f a)).map Prod.fst = l := by
  rw [List.map_map]
  exact List.map_id l

/-- A list around an entry, and around what the entry is replaced by. -/
theorem exists_split_of_set {α : Type*} {l : List α} {i : ℕ} {a : α} (h : l[i]? = some a)
    (a' : α) : ∃ before after, l = before ++ a :: after ∧ l.set i a' = before ++ a' :: after := by
  obtain ⟨hi, rfl⟩ := List.getElem?_eq_some_iff.mp h
  have hsplit : ∃ before after, l = before ++ l[i] :: after ∧ before.length = i ∧
      l.set i a' = before ++ a' :: after := List.exists_of_set hi
  obtain ⟨before, after, hold, -, hnew⟩ := hsplit
  exact ⟨before, after, hold, hnew⟩

/-! ## Extremes -/

section Extremes
variable {α : Type u} [LinearOrder α] {l l' : List α}

theorem min?_eq_of_mem_iff (h : ∀ a, a ∈ l ↔ a ∈ l') : l.min? = l'.min? := by
  ext a
  simp only [List.min?_eq_some_iff, h]

theorem max?_eq_of_mem_iff (h : ∀ a, a ∈ l ↔ a ∈ l') : l.max? = l'.max? := by
  ext a
  simp only [List.max?_eq_some_iff, h]

/-- An increasing map takes the extremes along. -/
theorem min?_map_of_monotone {β : Type v} [LinearOrder β] {f : α → β} (hf : Monotone f)
    (l : List α) : (l.map f).min? = l.min?.map f := by
  cases hlo : l.min? with
  | none =>
      rw [List.min?_eq_none_iff.mp hlo]
      rfl
  | some lo =>
      obtain ⟨hmem, hle⟩ := List.min?_eq_some_iff.mp hlo
      rw [Option.map_some, List.min?_eq_some_iff]
      exact ⟨List.mem_map_of_mem hmem, List.forall_mem_map.mpr fun b hb => hf (hle b hb)⟩

theorem max?_map_of_monotone {β : Type v} [LinearOrder β] {f : α → β} (hf : Monotone f)
    (l : List α) : (l.map f).max? = l.max?.map f := by
  cases hhi : l.max? with
  | none =>
      rw [List.max?_eq_none_iff.mp hhi]
      rfl
  | some hi =>
      obtain ⟨hmem, hle⟩ := List.max?_eq_some_iff.mp hhi
      rw [Option.map_some, List.max?_eq_some_iff]
      exact ⟨List.mem_map_of_mem hmem, List.forall_mem_map.mpr fun b hb => hf (hle b hb)⟩

end Extremes

/-! ## Adding one at chosen positions -/

/-- Add one at every position of `is`, once for each occurrence. -/
def bump (xs : List ℤ) (is : List ℕ) : List ℤ := xs.mapIdx fun i x => x + is.count i

@[simp] theorem length_bump (xs : List ℤ) (is : List ℕ) : (bump xs is).length = xs.length := by
  simp [bump]

@[simp] theorem bump_nil (xs : List ℤ) : bump xs [] = xs := by
  apply List.ext_getElem (by simp)
  intro i h _
  simp [bump]

theorem getElem_bump (xs : List ℤ) (is : List ℕ) {i : ℕ} (h : i < (bump xs is).length) :
    (bump xs is)[i] = xs.get ⟨i, by simpa using h⟩ + is.count i := by
  simp [bump]

/-- One more position is one more assignment. -/
theorem bump_append_singleton (xs : List ℤ) (is : List ℕ) {i : ℕ} (h : i < (bump xs is).length) :
    bump xs (is ++ [i]) = (bump xs is).set i ((bump xs is)[i] + 1) := by
  apply List.ext_getElem (by simp)
  intro j hj _
  rw [getElem_bump, List.getElem_set]
  by_cases hij : i = j
  · subst hij
    simp [getElem_bump, List.count_append, add_assoc]
  · simp [getElem_bump, List.count_append, hij]

/-- Every position counts once towards the sum. -/
theorem sum_bump (xs : List ℤ) (is : List ℕ) (h : ∀ i ∈ is, i < xs.length) :
    (bump xs is).sum = xs.sum + is.length := by
  induction is using List.reverseRecOn with
  | nil => simp
  | append_singleton is i ih =>
      have hi : i < (bump xs is).length := by
        rw [length_bump]
        exact h i (by simp)
      have hrest : ∀ j ∈ is, j < xs.length := by
        intro j hj
        exact h j (by simp [hj])
      rw [bump_append_singleton xs is hi, List.sum_set', dif_pos hi, ih hrest,
        List.length_append, List.length_singleton]
      push_cast
      ring

/-! ## Sums -/

theorem sum_flatMap {α M : Type*} [AddMonoid M] (f : α → List M) (l : List α) :
    (l.flatMap f).sum = (l.map fun a => (f a).sum).sum := by
  induction l with
  | nil => rfl
  | cons a l ih => rw [List.flatMap_cons, List.sum_append, ih, List.map_cons, List.sum_cons]

/-! ## Corresponding lists -/

/-- Two lists that correspond entry by entry yield the same but for what the entries of the
first yield besides. -/
theorem exists_flatMap_extra {α β : Type*} {R : α → α → Prop} {P : β → Prop} {f : α → List β}
    (hstep : ∀ a a', R a a' → ∃ extra, (f a).Perm (extra ++ f a') ∧ ∀ b ∈ extra, P b)
    {l l' : List α} (h : List.Forall₂ R l l') :
    ∃ extra, (l.flatMap f).Perm (extra ++ l'.flatMap f) ∧ ∀ b ∈ extra, P b := by
  induction h with
  | nil => exact ⟨[], by simp, by simp⟩
  | cons ha _ ih =>
      obtain ⟨first, hfirst, hP⟩ := hstep _ _ ha
      obtain ⟨rest, hrest, hP'⟩ := ih
      refine ⟨first ++ rest, ?_, List.forall_mem_append.mpr ⟨hP, hP'⟩⟩
      rw [List.flatMap_cons, List.flatMap_cons]
      refine (hfirst.append hrest).trans ?_
      rw [List.append_assoc, List.append_assoc]
      exact List.Perm.append_left _ (List.perm_append_comm_assoc _ _ _)

end Lib
