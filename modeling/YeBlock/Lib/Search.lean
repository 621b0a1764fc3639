import Mathlib.Data.List.Basic
import Mathlib.Data.Nat.Basic
import Mathlib.Order.Bounds.Basic

/-!
# Searching upwards with a cap

A loop that tries `1, 2, …, n` and returns the first number that will do, or `n` when
none does.  Its result is a least element or the cap; `isLeastUpTo_iff` says both in
one line, which is what two such searches are compared by.

## Main definitions

* `IsLeastUpTo p n k` — `k` is the least number in `1..n` with `p`, and `n` if there is none.
* `isLeastUpTo_find` — the search finds it.
* `IsLeastUpTo.le_of_imp` — a weaker test is met earlier.
* `findM?_eq_find?` — a search whose test always returns is a plain search.
-/

namespace Lib

/-- The least number in `1..n` with `p`, and `n` if there is none. -/
def IsLeastUpTo (p : ℕ → Prop) (n k : ℕ) : Prop :=
  IsLeast {j | 1 ≤ j ∧ j ≤ n ∧ p j} k ∨ k = n ∧ ∀ j, 1 ≤ j → j ≤ n → ¬ p j

/-- Everything below fails, and the number itself does not unless it is the cap. -/
theorem isLeastUpTo_iff {p : ℕ → Prop} {n k : ℕ} (hn : 1 ≤ n) :
    IsLeastUpTo p n k ↔ 1 ≤ k ∧ k ≤ n ∧ (∀ j, 1 ≤ j → j < k → ¬ p j) ∧ (k < n → p k) := by
  constructor
  · rintro (⟨⟨h1, hk, hp⟩, hleast⟩ | ⟨rfl, hnone⟩)
    · refine ⟨h1, hk, fun j hj hjk hpj => ?_, fun _ => hp⟩
      have hkj := hleast ⟨hj, by omega, hpj⟩
      omega
    · exact ⟨hn, le_rfl, fun j hj hjk => hnone j hj hjk.le, fun h => absurd h (lt_irrefl _)⟩
  · rintro ⟨h1, hk, hbelow, hp⟩
    by_cases hpk : p k
    · refine .inl ⟨⟨h1, hk, hpk⟩, ?_⟩
      rintro j ⟨hj, _, hpj⟩
      by_contra hlt
      exact hbelow j hj (by omega) hpj
    · obtain rfl : k = n := by
        by_contra hne
        exact hpk (hp (by omega))
      refine .inr ⟨rfl, fun j hj hjk => ?_⟩
      rcases hjk.lt_or_eq with hlt | rfl
      · exact hbelow j hj hlt
      · exact hpk

/-- **The capped search finds it.** -/
theorem isLeastUpTo_find (p : ℕ → Prop) [DecidablePred p] {n : ℕ} (hn : 1 ≤ n) :
    IsLeastUpTo p n (((List.range' 1 n).find? fun k => p k).getD n) := by
  rw [isLeastUpTo_iff hn]
  cases hfind : (List.range' 1 n).find? fun k => p k with
  | none =>
      rw [List.find?_range'_eq_none] at hfind
      refine ⟨hn, le_rfl, fun j hj hjn => ?_, fun h => absurd h (lt_irrefl n)⟩
      simpa using hfind j hj (by simp at hjn; omega)
  | some k =>
      rw [List.find?_range'_eq_some] at hfind
      obtain ⟨hp, hmem, hbelow⟩ := hfind
      rw [List.mem_range'_1] at hmem
      refine ⟨hmem.1, by simp; omega, fun j hj hjk => ?_, fun _ => by simpa using hp⟩
      simpa using hbelow j hj hjk

/-- **A weaker test is met earlier.** -/
theorem IsLeastUpTo.le_of_imp {p p' : ℕ → Prop} {n k k' : ℕ} (hn : 1 ≤ n)
    (h : IsLeastUpTo p n k) (h' : IsLeastUpTo p' n k') (himp : ∀ j, p' j → p j) : k ≤ k' := by
  obtain ⟨_, hk, hbelow, _⟩ := (isLeastUpTo_iff hn).mp h
  obtain ⟨h1, _, _, hp'⟩ := (isLeastUpTo_iff hn).mp h'
  by_contra hlt
  exact hbelow k' h1 (by omega) (himp k' (hp' (by omega)))

/-- A search whose test always returns is a plain search. -/
theorem findM?_eq_find? {ε : Type*} {α : Type} {f : α → Except ε Bool} {g : α → Bool}
    (l : List α) (h : ∀ a ∈ l, f a = .ok (g a)) : l.findM? f = .ok (l.find? g) := by
  induction l with
  | nil => rfl
  | cons a l ih =>
      have htail := ih fun b hb => h b (List.mem_cons_of_mem a hb)
      rw [List.findM?, h a List.mem_cons_self, List.find?_cons]
      cases g a with
      | true => rfl
      | false => exact htail

end Lib
