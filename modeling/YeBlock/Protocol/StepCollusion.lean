import YeBlock.Protocol.FailedSteps
import Mathlib.Algebra.BigOperators.Group.Finset.Piecewise
import Mathlib.Algebra.BigOperators.Ring.Finset
import Mathlib.Algebra.Order.BigOperators.Group.Finset

/-!
# Failing steps together

The fee of a failed step is divided between the author and the funder, so an author gains by
the failures of others, and an executor who fails could be paid for it by the author.  There
is nothing to share: among any set of parties that holds the executors of the steps that are
failed, whether the author is one of them or not, what the author gains is at most what the
executors lose.

## Main definitions

* `Settlement.gainOf` — what a set of parties gets out of a settlement.
* `FailedBy` — some steps of the members marked failed.
* `collusion_never_pays` — how the settlements compare.
-/

namespace YeBlock

open Lib

/-- What a set of parties is paid, less what it is slashed. -/
def Settlement.gainOf (r : Settlement) (members : Finset Identity) : ℤ :=
  ∑ x ∈ members, (r.payouts.getD x 0 - r.slashed.getD x 0)

/-- The second pipeline is the first with some steps of the members marked failed. -/
def FailedBy (members : Finset Identity) : List TaskStep → List TaskStep → Prop :=
  List.Forall₂ fun s s' => s' = s ∨ (s' = s.failed ∧ s.executor ∈ members)

/-! ## What the members get of a list of entries -/

/-- What a list of entries gives to the members. -/
def memberTotal (members : Finset Identity) (es : List (Identity × ℤ)) : ℤ :=
  ∑ x ∈ members, totalOf x es

section MemberTotal
variable (members : Finset Identity)

@[simp] theorem memberTotal_nil : memberTotal members [] = 0 := by simp [memberTotal]

@[simp] theorem memberTotal_append (es es' : List (Identity × ℤ)) :
    memberTotal members (es ++ es') = memberTotal members es + memberTotal members es' := by
  simp only [memberTotal, totalOf_append, Finset.sum_add_distrib]

theorem memberTotal_singleton (x : Identity) (amount : ℤ) :
    memberTotal members [(x, amount)] = if x ∈ members then amount else 0 := by
  simp [memberTotal, totalOf_cons]

/-- What is all the members' they get. -/
theorem memberTotal_of_mem {es : List (Identity × ℤ)} (h : ∀ e ∈ es, e.1 ∈ members) :
    memberTotal members es = (es.map Prod.snd).sum := by
  induction es with
  | nil => simp
  | cons e es ih =>
      have hsplit := memberTotal_append members [e] es
      rw [List.singleton_append] at hsplit
      rw [hsplit, memberTotal_singleton, if_pos (h e List.mem_cons_self),
        ih fun e' he' => h e' (List.mem_cons_of_mem e he'), List.map_cons, List.sum_cons]

/-- A list with further entries of the members. -/
theorem memberTotal_perm {es es' extra : List (Identity × ℤ)} (hperm : es.Perm (extra ++ es'))
    (h : ∀ e ∈ extra, e.1 ∈ members) :
    (es.map Prod.snd).sum = (extra.map Prod.snd).sum + (es'.map Prod.snd).sum ∧
      memberTotal members es = (extra.map Prod.snd).sum + memberTotal members es' := by
  constructor
  · rw [(hperm.map Prod.snd).sum_eq, List.map_append, List.sum_append]
  · rw [← memberTotal_of_mem members h, ← memberTotal_append]
    exact Finset.sum_congr rfl fun x _ => totalOf_perm x hperm

end MemberTotal

/-! ## Failing the members' steps -/

theorem fees_eq_flatMap (steps : List TaskStep) : fees steps = steps.flatMap fun s => fees [s] := by
  induction steps with
  | nil => rfl
  | cons s steps ih => rw [List.flatMap_cons, ← ih, ← fees_append, List.singleton_append]

theorem slashes_eq_flatMap (steps : List TaskStep) :
    slashes steps = steps.flatMap fun s => slashes [s] := by
  induction steps with
  | nil => rfl
  | cons s steps ih => rw [List.flatMap_cons, ← ih, ← slashes_append, List.singleton_append]

/-- A step pays its executor. -/
theorem executor_of_mem_fees {s : TaskStep} {e : Identity × ℤ} (he : e ∈ fees [s]) :
    e.1 = s.executor := by
  obtain ⟨s', hs', rfl⟩ := List.mem_map.mp he
  rw [List.mem_singleton.mp (List.mem_of_mem_filter hs')]

/-- A step forfeits a stake of its executor. -/
theorem executor_of_mem_slashes {s : TaskStep} {e : Identity × ℤ} (he : e ∈ slashes [s]) :
    e.1 = s.executor := by
  obtain ⟨s', hs', rfl⟩ := List.mem_map.mp he
  rw [List.mem_singleton.mp (List.mem_of_mem_filter hs')]

section FailedBy
variable {members : Finset Identity} {steps steps' : List TaskStep}
  (h : FailedBy members steps steps')
include h

/-- The fees that are no longer paid are the members'. -/
theorem exists_fees_lost : ∃ lost, (fees steps).Perm (lost ++ fees steps') ∧
    ∀ e ∈ lost, e.1 ∈ members ∧ 0 ≤ e.2 := by
  rw [fees_eq_flatMap, fees_eq_flatMap]
  refine exists_flatMap_extra ?_ h
  rintro s _ (rfl | ⟨rfl, hmember⟩)
  · exact ⟨[], by simp, by simp⟩
  · refine ⟨fees [s], by simp [fees_failed], ?_⟩
    exact fun e he => ⟨executor_of_mem_fees he ▸ hmember, fees_nonneg [s] e he⟩

/-- The stakes that are forfeited besides are the members'. -/
theorem exists_stakes_lost : ∃ lost, (slashes steps').Perm (lost ++ slashes steps) ∧
    ∀ e ∈ lost, e.1 ∈ members ∧ 0 ≤ e.2 := by
  rw [slashes_eq_flatMap, slashes_eq_flatMap]
  refine exists_flatMap_extra ?_ h.flip
  rintro _ s (rfl | ⟨rfl, hmember⟩)
  · exact ⟨[], by simp, by simp⟩
  · cases hqa : s.qaPassed with
    | true =>
        refine ⟨slashes [s.failed], by simp [slashes_of_passed hqa], ?_⟩
        have hexecutor : s.failed.executor ∈ members := hmember
        exact fun e he =>
          ⟨executor_of_mem_slashes he ▸ hexecutor, slashes_nonneg [s.failed] e he⟩
    | false =>
        have hsame : s.failed = s := by simp only [TaskStep.failed, ← hqa]
        exact ⟨[], by simp [hsame], by simp⟩

end FailedBy

/-! ## The settlements -/

/-- What the members gain, from the entries. -/
theorem gainOf_settlementOf (capsule : IdeaCapsule) (members : Finset Identity)
    {steps : List TaskStep} {escrow : ℤ} (hfees : ((fees steps).map Prod.snd).sum ≤ escrow) :
    (settlementOf capsule steps escrow).gainOf members =
      memberTotal members (fees steps) +
        (if capsule.author ∈ members then
          capsule.authorShare (escrow - ((fees steps).map Prod.snd).sum) else 0) -
        memberTotal members (slashes steps) := by
  have hbooks := books_settlementOf capsule steps hfees
  simp only [Settlement.gainOf, hbooks.payouts_eq, hbooks.slashed_eq, ← totalOf_fees,
    ← totalOf_slashes, Finset.sum_sub_distrib, Finset.sum_add_distrib, Finset.sum_ite_eq']
  rfl

/-- **Collusion never pays**: if any steps whose executors are among the members are marked
failed, the settlement is accepted too, the members together gain no more, whether the
author is one of them or not, and the funder is refunded no less. -/
theorem collusion_never_pays (capsule : IdeaCapsule) (members : Finset Identity)
    (steps steps' : List TaskStep) (escrow : ℤ) (hfailed : FailedBy members steps steps')
    (r : Settlement) (h : settleExecution capsule steps escrow = .ok r) :
    ∃ r', settleExecution capsule steps' escrow = .ok r' ∧
      r'.gainOf members ≤ r.gainOf members ∧ r.funderRefund ≤ r'.funderRefund := by
  obtain ⟨hask, hcovered, rfl⟩ := (settleExecution_eq_ok_iff capsule steps escrow r).mp h
  obtain ⟨lost, hfees, hlost⟩ := exists_fees_lost hfailed
  obtain ⟨forfeited, hslashes, hforfeited⟩ := exists_stakes_lost hfailed
  obtain ⟨hpaid, hmembers⟩ := memberTotal_perm members hfees fun e he => (hlost e he).1
  obtain ⟨hslashed, hmembers'⟩ := memberTotal_perm members hslashes fun e he => (hforfeited e he).1
  have hnonneg : 0 ≤ (lost.map Prod.snd).sum := by
    apply List.sum_nonneg
    simpa using fun amount x he => (hlost (x, amount) he).2
  have hnonneg' : 0 ≤ (forfeited.map Prod.snd).sum := by
    apply List.sum_nonneg
    simpa using fun amount x he => (hforfeited (x, amount) he).2
  have hcovered' : ((fees steps').map Prod.snd).sum ≤ escrow := by omega
  -- what remains after the fees rises by the fees that are lost
  have hrises : escrow - ((fees steps).map Prod.snd).sum ≤
      escrow - ((fees steps').map Prod.snd).sum := by omega
  have hshare := authorShare_mono capsule hrises
  refine ⟨_, settleExecution_of_covered hask hcovered', ?_, ?_⟩
  · rw [gainOf_settlementOf capsule members hcovered, gainOf_settlementOf capsule members hcovered']
    split_ifs <;> omega
  · simp only [settlementOf]
    omega

/-- The author of the walkthrough and the operator of its largest step. -/
theorem collusion_never_pays_petcare :
    ∃ r', settleExecution petcareCapsule (petcareSteps.set 1 petcareSteps[1].failed) 1000000 =
        .ok r' ∧
      r'.gainOf {"dana", "op-c"} ≤ petcareSettlement.gainOf {"dana", "op-c"} ∧
      petcareSettlement.funderRefund ≤ r'.funderRefund :=
  collusion_never_pays petcareCapsule {"dana", "op-c"} petcareSteps _ 1000000
    (.cons (.inl rfl) (.cons (.inr ⟨rfl, by decide⟩) (.cons (.inl rfl) (.cons (.inl rfl) .nil))))
    petcareSettlement rfl

end YeBlock
