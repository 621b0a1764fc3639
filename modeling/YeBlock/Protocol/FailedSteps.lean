import YeBlock.Protocol.IdeaMarket

/-!
# Failing quality assurance never pays

Two settlements of one pipeline are compared, which differ in one step: it passed in the
first and failed in the second.  Its fee moves into the residual, which is divided
between the author and the funder, and if it is human its stake moves to the funder.
The author's share is a rounded part of the residual, so it rises by no more than the
fee, which is what an author loses who executed the step itself.

## Main definitions

* `TaskStep.failed` — the same step, marked failed.
* `fees_set_failed`, `slashes_set_failed` — what the two pipelines pay and forfeit.
* `failing_never_pays` — how the settlements compare.
-/

namespace YeBlock

open Lib

/-- The same step, marked failed. -/
def TaskStep.failed (s : TaskStep) : TaskStep := { s with qaPassed := false }

/-- What the step forfeits when it fails. -/
def TaskStep.forfeit (s : TaskStep) : List (Identity × ℤ) :=
  if s.kind = .human then [(s.executor, s.stake)] else []

theorem fees_of_passed {s : TaskStep} (h : s.qaPassed = true) :
    fees [s] = [(s.executor, s.fee)] := by
  simp [fees, h]

theorem slashes_of_passed {s : TaskStep} (h : s.qaPassed = true) : slashes [s] = [] := by
  simp [slashes, TaskStep.forfeits, h]

theorem fees_failed (s : TaskStep) : fees [s.failed] = [] := by simp [fees, TaskStep.failed]

theorem slashes_failed (s : TaskStep) : slashes [s.failed] = s.forfeit := by
  by_cases hkind : s.kind = .human <;>
    simp [slashes, TaskStep.forfeits, TaskStep.failed, TaskStep.forfeit, hkind]

section Step
variable {steps : List TaskStep} {i : ℕ} {s : TaskStep} (hi : steps[i]? = some s)
include hi

/-- The pipeline around a step, and the same pipeline with another step in its place. -/
theorem split_at_step (s' : TaskStep) :
    steps = steps.take i ++ ([s] ++ steps.drop (i + 1)) ∧
      steps.set i s' = steps.take i ++ ([s'] ++ steps.drop (i + 1)) := by
  obtain ⟨hlt, hget⟩ := List.getElem?_eq_some_iff.mp hi
  constructor
  · rw [← hget, List.singleton_append, ← List.drop_eq_getElem_cons hlt, List.take_append_drop]
  · rw [List.set_eq_take_append_cons_drop, if_pos hlt, List.singleton_append]

variable (hqa : s.qaPassed = true)
include hqa

/-- The step's fee is no longer paid. -/
theorem fees_set_failed :
    (fees steps).Perm ((s.executor, s.fee) :: fees (steps.set i s.failed)) := by
  obtain ⟨hsplit, hset⟩ := split_at_step hi s.failed
  rw [hset]
  conv_lhs => rw [hsplit]
  simp only [fees_append, fees_of_passed hqa, fees_failed, List.nil_append]
  exact List.perm_middle

/-- The step's stake is forfeited, if it is human. -/
theorem slashes_set_failed :
    (slashes (steps.set i s.failed)).Perm (s.forfeit ++ slashes steps) := by
  obtain ⟨hsplit, hset⟩ := split_at_step hi s.failed
  rw [hset]
  conv_rhs => rw [hsplit]
  simp only [slashes_append, slashes_of_passed hqa, slashes_failed, List.nil_append]
  rw [← List.append_assoc, ← List.append_assoc]
  exact List.perm_append_comm.append_right _

theorem sum_fees_set_failed : ((fees steps).map Prod.snd).sum =
    s.fee + ((fees (steps.set i s.failed)).map Prod.snd).sum := by
  have hperm := (fees_set_failed hi hqa).map Prod.snd
  rw [hperm.sum_eq, List.map_cons, List.sum_cons]

theorem sum_slashes_set_failed : ((slashes (steps.set i s.failed)).map Prod.snd).sum =
    (s.forfeit.map Prod.snd).sum + ((slashes steps).map Prod.snd).sum := by
  have hperm := (slashes_set_failed hi hqa).map Prod.snd
  rw [hperm.sum_eq, List.map_append, List.sum_append]

theorem totalOf_fees_set_failed (x : Identity) : totalOf x (fees steps) =
    (if s.executor = x then s.fee else 0) + totalOf x (fees (steps.set i s.failed)) := by
  rw [totalOf_perm x (fees_set_failed hi hqa), totalOf_cons]

end Step

theorem TaskStep.sum_forfeit (s : TaskStep) :
    (s.forfeit.map Prod.snd).sum = if s.kind = .human then s.stake else 0 := by
  rw [forfeit]
  split <;> simp

theorem TaskStep.notMem_forfeit {s : TaskStep} {x : Identity} (h : x ≠ s.executor) :
    x ∉ s.forfeit.map Prod.fst := by
  rw [forfeit]
  split <;> simp [h]

/-- The author's share follows what remains upwards, by no more than it rises. -/
theorem authorShare_mono (c : IdeaCapsule) {remaining remaining' : ℤ}
    (h : remaining ≤ remaining') :
    c.authorShare remaining ≤ c.authorShare remaining' ∧
      c.authorShare remaining' - c.authorShare remaining ≤ remaining' - remaining :=
  roundHalfUp_part_mono basisPoints_pos c.royalty_in_range h

theorem notMem_authorEntry {c : IdeaCapsule} {x : Identity} (h : x ≠ c.author) (remaining : ℤ) :
    x ∉ (c.authorEntry remaining).map Prod.fst := by
  rw [IdeaCapsule.authorEntry]
  split <;> simp [h]

section Compare
variable {capsule : IdeaCapsule} {steps : List TaskStep} {escrow : ℤ} {i : ℕ} {s : TaskStep}
  (hi : steps[i]? = some s) (hqa : s.qaPassed = true)
include hi hqa

/-- Nobody but the executor and the author notices. -/
theorem payouts_get?_set_failed {x : Identity} (hx : x ≠ s.executor)
    (hauthor : x ≠ capsule.author) :
    (settlementOf capsule (steps.set i s.failed) escrow).payouts.get? x =
      (settlementOf capsule steps escrow).payouts.get? x := by
  have hperm := fees_set_failed hi hqa
  refine Dict.get?_tally_congr _ ?_ ?_
  · have hmem := (hperm.map Prod.fst).mem_iff (a := x)
    rw [List.map_cons, List.mem_cons, or_iff_right hx] at hmem
    rw [List.map_append, List.map_append, List.mem_append, List.mem_append,
      or_iff_left (notMem_authorEntry hauthor _), or_iff_left (notMem_authorEntry hauthor _), hmem]
  · rw [totalOf_append, totalOf_append, totalOf_eq_zero x (notMem_authorEntry hauthor _),
      totalOf_eq_zero x (notMem_authorEntry hauthor _), totalOf_fees_set_failed hi hqa,
      if_neg hx.symm, zero_add]

theorem slashed_get?_set_failed {x : Identity} (hx : x ≠ s.executor) :
    (settlementOf capsule (steps.set i s.failed) escrow).slashed.get? x =
      (settlementOf capsule steps escrow).slashed.get? x := by
  have hperm := slashes_set_failed hi hqa
  have hnone := s.notMem_forfeit hx
  refine Dict.get?_tally_congr _ ?_ ?_
  · rw [(hperm.map Prod.fst).mem_iff, List.map_append, List.mem_append, or_iff_right hnone]
  · rw [totalOf_perm x hperm, totalOf_append, totalOf_eq_zero x hnone, zero_add]

/-- **Failing never pays**: a settlement with one passing step marked failed is accepted
too.  The funder is refunded no less, and more by the stake if the step is human; its
executor is paid no more, also when the executor is the author; an author who is not is
paid no less; and nobody else's payout or slash changes. -/
theorem failing_never_pays {r : Settlement} (h : settleExecution capsule steps escrow = .ok r) :
    ∃ r', settleExecution capsule (steps.set i s.failed) escrow = .ok r' ∧
      r.funderRefund ≤ r'.funderRefund ∧
      (s.kind = .human → r.funderRefund + s.stake ≤ r'.funderRefund) ∧
      r'.payouts.getD s.executor 0 ≤ r.payouts.getD s.executor 0 ∧
      (s.executor ≠ capsule.author →
        r.payouts.getD capsule.author 0 ≤ r'.payouts.getD capsule.author 0) ∧
      ∀ x, x ≠ s.executor → r'.slashed.get? x = r.slashed.get? x ∧
        (x ≠ capsule.author → r'.payouts.get? x = r.payouts.get? x) := by
  obtain ⟨hask, hcovered, rfl⟩ := (settleExecution_eq_ok_iff capsule steps escrow r).mp h
  obtain ⟨hfee, hstake⟩ := s.fee_stake_nonneg
  have hfees := sum_fees_set_failed hi hqa
  have hslashes := sum_slashes_set_failed hi hqa
  have hcovered' : ((fees (steps.set i s.failed)).map Prod.snd).sum ≤ escrow := by omega
  -- what remains after the fees rises by the fee of the step
  have hrises : escrow - ((fees steps).map Prod.snd).sum ≤
      escrow - ((fees (steps.set i s.failed)).map Prod.snd).sum := by omega
  have hshare := authorShare_mono capsule hrises
  have hbooks := books_settlementOf capsule steps hcovered
  have hbooks' := books_settlementOf capsule (steps.set i s.failed) hcovered'
  have hpaid := fun x => totalOf_fees_set_failed hi hqa x
  simp only [totalOf_fees] at hpaid
  rw [s.sum_forfeit] at hslashes
  refine ⟨_, settleExecution_of_covered hask hcovered', ?_, ?_, ?_, ?_, ?_⟩
  · simp only [settlementOf]
    split at hslashes <;> omega
  · intro hhuman
    rw [if_pos hhuman] at hslashes
    simp only [settlementOf]
    omega
  · rw [hbooks.payouts_eq, hbooks'.payouts_eq, hpaid, if_pos rfl]
    split <;> omega
  · intro hne
    rw [hbooks.payouts_eq, hbooks'.payouts_eq, hpaid, if_neg hne, if_pos rfl, if_pos rfl]
    omega
  · intro x hx
    exact ⟨slashed_get?_set_failed hi hqa hx, payouts_get?_set_failed hi hqa hx⟩

end Compare

/-- The walkthrough with its veterinarian's step failed too. -/
theorem failing_never_pays_petcare :
    ∃ r', settleExecution petcareCapsule (petcareSteps.set 2 (petcareSteps[2].failed)) 1000000 =
        .ok r' ∧
      petcareSettlement.funderRefund ≤ r'.funderRefund ∧
      (petcareSteps[2].kind = .human →
        petcareSettlement.funderRefund + petcareSteps[2].stake ≤ r'.funderRefund) ∧
      r'.payouts.getD petcareSteps[2].executor 0 ≤
        petcareSettlement.payouts.getD petcareSteps[2].executor 0 ∧
      (petcareSteps[2].executor ≠ petcareCapsule.author →
        petcareSettlement.payouts.getD petcareCapsule.author 0 ≤
          r'.payouts.getD petcareCapsule.author 0) ∧
      ∀ x, x ≠ petcareSteps[2].executor →
        r'.slashed.get? x = petcareSettlement.slashed.get? x ∧
        (x ≠ petcareCapsule.author → r'.payouts.get? x = petcareSettlement.payouts.get? x) :=
  failing_never_pays rfl rfl rfl

end YeBlock
