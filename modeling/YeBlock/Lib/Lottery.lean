import YeBlock.Lib.Lists
import Mathlib.Algebra.BigOperators.Ring.List
import Mathlib.Algebra.Order.BigOperators.Group.List
import Mathlib.Algebra.Order.Field.Rat
import Mathlib.Tactic.Linarith
import Mathlib.Tactic.Ring

/-!
# Finite lotteries

A lottery has finitely many outcomes with rational chances that sum to one.  Lotteries are
built from certain outcomes, from single chances, by letting one lottery decide which comes
next, and by independent repetition; what a lottery is worth is its expectation, computed
the same way.

## Main definitions

* `Lottery`, `Lottery.sure`, `Lottery.chance`, `Lottery.bind`, `Lottery.times`.
* `Lottery.expect l u`, `Lottery.prob l event` — expectations and probabilities.
* `expect_bind`, `prob_all_times` — the rules for sequences and for repetitions.
-/

namespace Lib

universe u v

/-- Finitely many outcomes, with chances that sum to one. -/
structure Lottery (α : Type u) where
  outcomes : List (α × ℚ)
  nonneg : ∀ o ∈ outcomes, 0 ≤ o.2
  sum_one : (outcomes.map Prod.snd).sum = 1

namespace Lottery
variable {α : Type u} {β : Type v}

/-- What the lottery is worth, if an outcome `a` is worth `u a`. -/
def expect (l : Lottery α) (u : α → ℚ) : ℚ := (l.outcomes.map fun o => o.2 * u o.1).sum

/-- The probability of an event. -/
def prob (l : Lottery α) (event : α → Bool) : ℚ :=
  l.expect fun a => if event a then 1 else 0

/-- A certain outcome. -/
def sure (a : α) : Lottery α := ⟨[(a, 1)], by simp, by simp⟩

/-- A single chance. -/
def chance (p : ℚ) (hp : 0 ≤ p ∧ p ≤ 1) : Lottery Bool :=
  ⟨[(true, p), (false, 1 - p)], by simpa using hp, by simp⟩

/-- The outcome of one lottery decides which comes next. -/
def bind (l : Lottery α) (f : α → Lottery β) : Lottery β where
  outcomes := l.outcomes.flatMap fun o => (f o.1).outcomes.map fun o' => (o'.1, o.2 * o'.2)
  nonneg := by
    intro o ho
    obtain ⟨first, hfirst, hmem⟩ := List.mem_flatMap.mp ho
    obtain ⟨second, hsecond, rfl⟩ := List.mem_map.mp hmem
    exact mul_nonneg (l.nonneg first hfirst) ((f first.1).nonneg second hsecond)
  sum_one := by
    have hnext : ∀ o : α × ℚ, (((f o.1).outcomes.map fun o' => (o'.1, o.2 * o'.2)).map
        Prod.snd).sum = o.2 := by
      intro o
      rw [List.map_map]
      change ((f o.1).outcomes.map fun o' => o.2 * o'.2).sum = o.2
      rw [List.sum_map_mul_left, (f o.1).sum_one, mul_one]
    rw [List.map_flatMap, sum_flatMap, List.map_congr_left fun o _ => hnext o]
    exact l.sum_one

/-- The lottery played `n` times, independently. -/
def times (l : Lottery α) : ℕ → Lottery (List α)
  | 0 => sure []
  | n + 1 => l.bind fun a => (times l n).bind fun rest => sure (a :: rest)

/-! ## Expectations -/

@[simp] theorem expect_sure (a : α) (u : α → ℚ) : (sure a).expect u = u a := by
  simp [expect, sure]

@[simp] theorem expect_chance (p : ℚ) (hp : 0 ≤ p ∧ p ≤ 1) (u : Bool → ℚ) :
    (chance p hp).expect u = p * u true + (1 - p) * u false := by
  simp [expect, chance]

/-- The worth of a sequence is the worth of its first part, each outcome at the worth of
what comes next. -/
@[simp] theorem expect_bind (l : Lottery α) (f : α → Lottery β) (u : β → ℚ) :
    (l.bind f).expect u = l.expect fun a => (f a).expect u := by
  have hnext : ∀ o : α × ℚ, (((f o.1).outcomes.map fun o' => (o'.1, o.2 * o'.2)).map
      fun o' => o'.2 * u o'.1).sum = o.2 * (f o.1).expect u := by
    intro o
    rw [List.map_map, expect, ← List.sum_map_mul_left]
    refine congrArg List.sum (List.map_congr_left fun o' _ => ?_)
    exact mul_assoc _ _ _
  rw [expect, bind, List.map_flatMap, sum_flatMap, List.map_congr_left fun o _ => hnext o]
  rfl

@[simp] theorem expect_const (l : Lottery α) (x : ℚ) : (l.expect fun _ => x) = x := by
  rw [expect, List.sum_map_mul_right, l.sum_one, one_mul]

theorem expect_add (l : Lottery α) (u v : α → ℚ) :
    (l.expect fun a => u a + v a) = l.expect u + l.expect v := by
  rw [expect, expect, expect, ← List.sum_map_add]
  refine congrArg List.sum (List.map_congr_left fun o _ => ?_)
  exact mul_add _ _ _

theorem expect_mul_left (l : Lottery α) (c : ℚ) (u : α → ℚ) :
    (l.expect fun a => c * u a) = c * l.expect u := by
  rw [expect, expect, ← List.sum_map_mul_left]
  refine congrArg List.sum (List.map_congr_left fun o _ => ?_)
  exact mul_left_comm _ _ _

/-- What is worth more at every outcome is worth more. -/
theorem expect_mono (l : Lottery α) {u v : α → ℚ} (h : ∀ a, u a ≤ v a) :
    l.expect u ≤ l.expect v :=
  List.sum_le_sum fun o ho => mul_le_mul_of_nonneg_left (h o.1) (l.nonneg o ho)

/-! ## Probabilities -/

/-- What is worth one of two values. -/
theorem expect_ite (l : Lottery α) (event : α → Bool) (x y : ℚ) :
    (l.expect fun a => if event a then x else y) = y + l.prob event * (x - y) := by
  have hsplit : (fun a => if event a then x else y) =
      fun a => y + (x - y) * if event a then 1 else 0 := by
    funext a
    split <;> ring
  rw [hsplit, expect_add, expect_const, expect_mul_left, prob, mul_comm (x - y)]

theorem prob_not (l : Lottery α) (event : α → Bool) :
    l.prob (fun a => !event a) = 1 - l.prob event := by
  have hflip : (fun a => if !event a then (1 : ℚ) else 0) =
      fun a => if event a then 0 else 1 := by
    funext a
    cases event a <;> rfl
  rw [prob, hflip, expect_ite]
  ring

/-- **Independence**: an event occurs every time with the power of its probability. -/
theorem prob_all_times (l : Lottery α) (event : α → Bool) (n : ℕ) :
    (l.times n).prob (fun outcomes => outcomes.all event) = l.prob event ^ n := by
  induction n with
  | zero => simp [prob, times]
  | succ n ih =>
      have hfirst : ∀ a, ((l.times n).bind fun rest => sure (a :: rest)).prob
          (fun outcomes => outcomes.all event) =
            l.prob event ^ n * if event a then 1 else 0 := by
        intro a
        rw [← ih, prob, prob, expect_bind]
        cases hevent : event a <;> simp [hevent]
      rw [times, prob, expect_bind]
      simp only [prob] at hfirst ⊢
      simp only [hfirst]
      rw [expect_mul_left, pow_succ]

end Lottery
end Lib
