import YeBlock.Lib.RoundingError
import Mathlib.Algebra.Order.BigOperators.Group.Finset

/-!
# Payments booked to owners

Several keys can belong to one owner.  A list of payments to keys is booked to their owners
entry by entry: an owner's total is then the sum of the totals of its keys, whatever the way
the payments are spread over them.

Two lists of payments are no farther apart once they are booked to owners: what one key of an
owner has too much makes up for what another has too little.

## Main definitions

* `byOwner owner es` — the payments, booked to the owners of their keys.
* `totalOf_byOwner` — the owners' totals.
* `spread_byOwner_le` — booking to owners brings no lists farther apart.
-/

namespace Lib

variable {κ ω ν : Type*}

/-- The payments, booked to the owners of their keys. -/
def byOwner (owner : κ → ω) (es : List (κ × ν)) : List (ω × ν) :=
  es.map fun e => (owner e.1, e.2)

section Lists
variable (owner : κ → ω)

@[simp] theorem byOwner_nil : byOwner owner ([] : List (κ × ν)) = [] := rfl

@[simp] theorem byOwner_append (es es' : List (κ × ν)) :
    byOwner owner (es ++ es') = byOwner owner es ++ byOwner owner es' := List.map_append

theorem byOwner_flatMap {γ : Type*} (l : List γ) (f : γ → List (κ × ν)) :
    byOwner owner (l.flatMap f) = l.flatMap fun c => byOwner owner (f c) := List.map_flatMap

theorem byOwner_map {ν' : Type*} (f : ν → ν') (es : List (κ × ν)) :
    byOwner owner (es.map fun e => (e.1, f e.2)) =
      (byOwner owner es).map fun e => (e.1, f e.2) := by
  simp [byOwner, Function.comp_def]

end Lists

section Totals
variable [DecidableEq κ] [DecidableEq ω] [AddCommMonoid ν] (owner : κ → ω)

/-- An owner's total is the sum of the totals of its keys. -/
theorem totalOf_byOwner {es : List (κ × ν)} {keys : Finset κ} (h : ∀ e ∈ es, e.1 ∈ keys) (o : ω) :
    totalOf o (byOwner owner es) = ∑ k ∈ keys with owner k = o, totalOf k es := by
  induction es with
  | nil => simp
  | cons e es ih =>
      have hrest := ih fun e' he' => h e' (List.mem_cons_of_mem e he')
      have hkey := h e List.mem_cons_self
      simp only [totalOf_cons, Finset.sum_add_distrib, ← hrest]
      by_cases ho : owner e.1 = o <;> simp [byOwner, totalOf_cons, Finset.sum_ite_eq, hkey, ho]

/-- Owners get the same from payments that give the same to each key. -/
theorem totalOf_byOwner_congr {es es' : List (κ × ν)} (h : ∀ k, totalOf k es = totalOf k es')
    (o : ω) : totalOf o (byOwner owner es) = totalOf o (byOwner owner es') := by
  have hkeys : ∀ e ∈ es ++ es', e.1 ∈ ((es ++ es').map Prod.fst).toFinset :=
    fun e he => List.mem_toFinset.mpr (List.mem_map_of_mem he)
  rw [totalOf_byOwner owner fun e he => hkeys e (List.mem_append_left es' he),
    totalOf_byOwner owner fun e he => hkeys e (List.mem_append_right es he)]
  exact Finset.sum_congr rfl fun k _ => h k

/-- A tally has the totals of what it was tallied from, also owner by owner. -/
theorem totalOf_byOwner_tally (es : List (κ × ν)) (o : ω) :
    totalOf o (byOwner owner ((∅ : Dict κ ν).tally es).items) = totalOf o (byOwner owner es) := by
  refine totalOf_byOwner_congr owner (fun k => ?_) o
  rw [Dict.totalOf_items, Dict.getD_tally, Dict.getD_empty, zero_add]

end Totals

/-! ## Distances -/

section Distances
variable [DecidableEq κ] [DecidableEq ω] (owner : κ → ω) (owners : Finset ω)

theorem spread_comm (es es' : List (ω × ℚ)) : spread owners es es' = spread owners es' es :=
  Finset.sum_congr rfl fun _ _ => abs_sub_comm _ _

theorem spread_triangle (es es' es'' : List (ω × ℚ)) :
    spread owners es es'' ≤ spread owners es es' + spread owners es' es'' := by
  rw [spread, spread, spread, ← Finset.sum_add_distrib]
  exact Finset.sum_le_sum fun _ _ => abs_sub_le _ _ _

theorem spread_congr_right {es es' es'' : List (ω × ℚ)} (h : ∀ o, totalOf o es' = totalOf o es'') :
    spread owners es es' = spread owners es es'' := by
  simp only [spread, h]

/-- **Booking to owners brings no lists farther apart.** -/
theorem spread_byOwner_le (es es' : List (κ × ℚ)) :
    spread owners (byOwner owner es) (byOwner owner es') ≤
      spread ((es ++ es').map Prod.fst).toFinset es es' := by
  have hkeys : ∀ e ∈ es ++ es', e.1 ∈ ((es ++ es').map Prod.fst).toFinset :=
    fun e he => List.mem_toFinset.mpr (List.mem_map_of_mem he)
  calc spread owners (byOwner owner es) (byOwner owner es')
      = ∑ o ∈ owners, |∑ k ∈ ((es ++ es').map Prod.fst).toFinset with owner k = o,
          (totalOf k es - totalOf k es')| := by
        refine Finset.sum_congr rfl fun o _ => ?_
        rw [totalOf_byOwner owner fun e he => hkeys e (List.mem_append_left es' he),
          totalOf_byOwner owner fun e he => hkeys e (List.mem_append_right es he),
          Finset.sum_sub_distrib]
    _ ≤ ∑ o ∈ owners, ∑ k ∈ ((es ++ es').map Prod.fst).toFinset with owner k = o,
          |totalOf k es - totalOf k es'| :=
        Finset.sum_le_sum fun _ _ => Finset.abs_sum_le_sum_abs _ _
    _ ≤ spread ((es ++ es').map Prod.fst).toFinset es es' :=
        Finset.sum_fiberwise_le_sum_of_sum_fiber_nonneg fun _ _ =>
          Finset.sum_nonneg fun _ _ => abs_nonneg _

end Distances

end Lib
