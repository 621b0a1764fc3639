import Mathlib.Data.Nat.Basic

/-!
# Chains of links

Reachability with its length: `Links r n a b` says that `n` steps of the relation `r`
lead from `a` to `b`.  Lengths add up along a chain, and a loop can be repeated, so
where every chain from `a` is bounded no loop is in reach of `a`.

## Main definitions

* `Links r n a b` — `n` steps of `r` lead from `a` to `b`.
* `Links.append` — lengths add up.
* `Links.length_le_rank` — a rank that every step lowers bounds the chains.
* `Links.no_loop` — bounded chains meet no loop.
-/

namespace Lib

variable {α : Type*}

/-- `n` steps of `r` lead from `a` to `b`. -/
inductive Links (r : α → α → Prop) : ℕ → α → α → Prop
  | nil (a : α) : Links r 0 a a
  | cons {n : ℕ} {a b c : α} (h : r a b) (t : Links r n b c) : Links r (n + 1) a c

namespace Links
variable {r : α → α → Prop} {m n : ℕ} {a b c : α}

theorem append (h : Links r m a b) (h' : Links r n b c) : Links r (m + n) a c := by
  induction h with
  | nil a => rwa [Nat.zero_add]
  | cons hab _ ih =>
      rw [Nat.add_right_comm]
      exact .cons hab (ih h')

/-- What every step preserves, a chain preserves. -/
theorem preserves {P : α → Prop} (hstep : ∀ a b, P a → r a b → P b) (h : Links r n a b)
    (ha : P a) : P b := by
  induction h with
  | nil a => exact ha
  | cons hab _ ih => exact ih (hstep _ _ ha hab)

/-- A rank that every step lowers bounds the chains. -/
theorem length_le_rank {rank : α → ℕ} (hrank : ∀ a b, r a b → rank b < rank a)
    (h : Links r n a b) : n ≤ rank a := by
  induction h with
  | nil a => exact Nat.zero_le _
  | cons hab _ ih =>
      have hlt := hrank _ _ hab
      omega

/-- A loop can be gone round any number of times. -/
theorem repeat_loop (h : Links r n a a) (k : ℕ) : Links r (k * n) a a := by
  induction k with
  | zero =>
      rw [Nat.zero_mul]
      exact .nil a
  | succ k ih =>
      rw [Nat.succ_mul]
      exact ih.append h

/-- **Bounded chains meet no loop.** -/
theorem no_loop {bound : ℕ} (hbound : ∀ n b, Links r n a b → n ≤ bound) (h : Links r m a b)
    (hloop : Links r n b b) : n = 0 := by
  have hround := hbound _ _ (h.append (hloop.repeat_loop (bound + 1)))
  by_contra hne
  have hlarge : bound + 1 ≤ (bound + 1) * n := Nat.le_mul_of_pos_right _ (Nat.pos_of_ne_zero hne)
  omega

end Links
end Lib
