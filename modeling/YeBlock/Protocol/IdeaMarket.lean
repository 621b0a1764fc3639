import YeBlock.Lib.Dict
import YeBlock.Protocol.LargestRemainder

/-!
# Settling a funded idea capsule

A capsule's escrow pays the fees of the steps that passed quality assurance, then the
author's licensed share of what remains, and the residual goes back to the funder
with the stakes of the human steps that failed.

The settlement loop keeps three running accounts over the steps.  Each is a total of a
list read off the steps, `fees` and `slashes`, and from that everything else follows:
who is paid what, that no account is negative, that the books balance, and that the
order of the steps is of no consequence.

## Main definitions

* `TaskStep`, `IdeaCapsule` — with the checks of their constructors.
* `settleExecution` — the settlement, with its two rejections.
* `fees`, `slashes` — what a list of steps pays and forfeits, in order.
* `settleExecution_eq_ok_iff` — when it returns, and what.
* `settleExecution_accounts` — the books of every settlement.
-/

namespace YeBlock

open Lib

/-! ## Capsules and steps -/

inductive StepKind
  /-- An ordinary inference workload. -/
  | machine
  /-- A reverse-hired task. -/
  | human
  deriving DecidableEq, Repr

/-- One step of a capsule's pipeline, priced at posting time. -/
structure TaskStep where
  stepId : ContentId
  kind : StepKind
  executor : Identity
  fee : ℤ
  stake : ℤ := 0
  qaPassed : Bool := true
  fee_stake_nonneg : 0 ≤ fee ∧ 0 ≤ stake
  stake_pos_of_human : kind = .human → 0 < stake

/-- The constructor's checks, in order. -/
def TaskStep.new (stepId : ContentId) (kind : StepKind) (executor : Identity) (fee : ℤ)
    (stake : ℤ := 0) (qaPassed : Bool := true) : Except PyError TaskStep :=
  if hnonneg : 0 ≤ fee ∧ 0 ≤ stake then
    if hhuman : kind = .human → 0 < stake then
      .ok ⟨stepId, kind, executor, fee, stake, qaPassed, hnonneg, hhuman⟩
    else
      .error (.valueError s!"step {stepId}: human steps require posted stake")
  else
    .error (.valueError s!"step {stepId}: fee/stake must be non-negative")

/-- The constructor accepts every step. -/
theorem TaskStep.new_eq (s : TaskStep) :
    TaskStep.new s.stepId s.kind s.executor s.fee s.stake s.qaPassed = .ok s := by
  rw [TaskStep.new, dif_pos s.fee_stake_nonneg, dif_pos s.stake_pos_of_human]

/-- An idea, registered under its author and funded once `ask` is escrowed. -/
structure IdeaCapsule where
  capsuleId : ContentId
  author : Identity
  ask : ℤ
  royaltyBps : ℤ
  parents : List ContentId := []
  royalty_in_range : 0 ≤ royaltyBps ∧ royaltyBps ≤ basisPoints

/-- The constructor's check. -/
def IdeaCapsule.new (capsuleId : ContentId) (author : Identity) (ask royaltyBps : ℤ)
    (parents : List ContentId := []) : Except PyError IdeaCapsule :=
  if hrange : 0 ≤ royaltyBps ∧ royaltyBps ≤ basisPoints then
    .ok ⟨capsuleId, author, ask, royaltyBps, parents, hrange⟩
  else
    .error (.valueError s!"capsule {capsuleId}: royalty_bps out of range")

/-- The constructor accepts every capsule. -/
theorem IdeaCapsule.new_eq (c : IdeaCapsule) :
    IdeaCapsule.new c.capsuleId c.author c.ask c.royaltyBps c.parents = .ok c := by
  rw [IdeaCapsule.new, dif_pos c.royalty_in_range]

/-! ## Settlement -/

/-- The outcome of settling one funded capsule. -/
structure Settlement where
  payouts : Dict Identity ℤ
  funderRefund : ℤ
  slashed : Dict Identity ℤ

def Settlement.totalDisbursed (self : Settlement) : ℤ := self.payouts.sum + self.funderRefund

/-- The running accounts of the loop over the steps. -/
structure StepAccounts where
  payouts : Dict Identity ℤ := ∅
  slashed : Dict Identity ℤ := ∅
  slashPool : ℤ := 0

/-- One turn of the loop. -/
def StepAccounts.post (acc : StepAccounts) (step : TaskStep) : StepAccounts :=
  if step.qaPassed then
    { acc with payouts := acc.payouts.add step.executor step.fee }
  else if step.kind = .human then
    -- non-delivery: the stake is slashed to the escrow
    { acc with
      slashed := acc.slashed.add step.executor step.stake
      slashPool := acc.slashPool + step.stake }
  else
    acc

/-- Settle a funded capsule against its pipeline receipts. -/
def settleExecution (capsule : IdeaCapsule) (steps : List TaskStep) (escrow : ℤ) :
    Except PyError Settlement :=
  if escrow < capsule.ask then
    .error (.valueError "capsule is underfunded; settlement requires escrow >= ask")
  else
    let feesDue := ((steps.filter TaskStep.qaPassed).map TaskStep.fee).sum
    if feesDue > escrow then
      .error (.valueError "posted step fees exceed escrow; pipeline was mis-priced")
    else do
      let acc := steps.foldl StepAccounts.post {}
      let remaining := escrow - feesDue
      let (authorShare, funderResidual) ← unpackPair (← largestRemainder remaining
        [capsule.royaltyBps, basisPoints - capsule.royaltyBps])
      let payouts :=
        if authorShare > 0 then acc.payouts.add capsule.author authorShare else acc.payouts
      return {
        payouts := payouts
        funderRefund := funderResidual + acc.slashPool
        slashed := acc.slashed }

/-! ## What a list of steps pays and forfeits -/

/-- The fees of the steps that passed, in order. -/
def fees (steps : List TaskStep) : List (Identity × ℤ) :=
  (steps.filter TaskStep.qaPassed).map fun s => (s.executor, s.fee)

/-- A step forfeits its stake when it is human and failed. -/
def TaskStep.forfeits (s : TaskStep) : Bool := !s.qaPassed && s.kind = .human

/-- The stakes of the human steps that failed, in order. -/
def slashes (steps : List TaskStep) : List (Identity × ℤ) :=
  (steps.filter TaskStep.forfeits).map fun s => (s.executor, s.stake)

theorem fees_nonneg (steps : List TaskStep) : ∀ e ∈ fees steps, 0 ≤ e.2 := by
  intro e he
  obtain ⟨s, _, rfl⟩ := List.mem_map.mp he
  exact s.fee_stake_nonneg.1

theorem slashes_nonneg (steps : List TaskStep) : ∀ e ∈ slashes steps, 0 ≤ e.2 := by
  intro e he
  obtain ⟨s, _, rfl⟩ := List.mem_map.mp he
  exact s.fee_stake_nonneg.2

theorem fees_perm {steps steps' : List TaskStep} (h : steps.Perm steps') :
    (fees steps).Perm (fees steps') := (h.filter _).map _

theorem slashes_perm {steps steps' : List TaskStep} (h : steps.Perm steps') :
    (slashes steps).Perm (slashes steps') := (h.filter _).map _

theorem fees_append (steps steps' : List TaskStep) :
    fees (steps ++ steps') = fees steps ++ fees steps' := by
  rw [fees, List.filter_append, List.map_append, fees, fees]

theorem slashes_append (steps steps' : List TaskStep) :
    slashes (steps ++ steps') = slashes steps ++ slashes steps' := by
  rw [slashes, List.filter_append, List.map_append, slashes, slashes]

/-- The fees due, as a sum over the passing steps. -/
theorem sum_fees (steps : List TaskStep) :
    ((fees steps).map Prod.snd).sum = ((steps.filter TaskStep.qaPassed).map TaskStep.fee).sum := by
  rw [fees, List.map_map]
  rfl

/-- One turn of the loop, on the lists. -/
theorem post_eq (acc : StepAccounts) (s : TaskStep) :
    acc.post s =
      { payouts := acc.payouts.tally (fees [s])
        slashed := acc.slashed.tally (slashes [s])
        slashPool := acc.slashPool + ((slashes [s]).map Prod.snd).sum } := by
  cases hqa : s.qaPassed with
  | true => simp [StepAccounts.post, fees, slashes, TaskStep.forfeits, hqa]
  | false =>
      by_cases hkind : s.kind = .human <;>
        simp [StepAccounts.post, fees, slashes, TaskStep.forfeits, hqa, hkind]

/-- The loop totals the two lists. -/
theorem foldl_post (steps : List TaskStep) (acc : StepAccounts) :
    steps.foldl StepAccounts.post acc =
      { payouts := acc.payouts.tally (fees steps)
        slashed := acc.slashed.tally (slashes steps)
        slashPool := acc.slashPool + ((slashes steps).map Prod.snd).sum } := by
  induction steps generalizing acc with
  | nil => simp [fees, slashes]
  | cons s steps ih =>
      have hfees : fees (s :: steps) = fees [s] ++ fees steps := fees_append [s] steps
      have hslashes : slashes (s :: steps) = slashes [s] ++ slashes steps :=
        slashes_append [s] steps
      rw [List.foldl_cons, ih, post_eq, hfees, hslashes, Dict.tally_append, Dict.tally_append,
        List.map_append, List.sum_append, add_assoc]

/-! ## The books of a settlement -/

/-- The author's share of the escrow above the fees. -/
def IdeaCapsule.authorShare (c : IdeaCapsule) (remaining : ℤ) : ℤ :=
  roundHalfUp (remaining * c.royaltyBps) basisPoints

/-- The author's entry in the payouts: none when the share is nothing. -/
def IdeaCapsule.authorEntry (c : IdeaCapsule) (remaining : ℤ) : List (Identity × ℤ) :=
  if c.authorShare remaining > 0 then [(c.author, c.authorShare remaining)] else []

/-- The author's share is a part of what remains. -/
theorem authorShare_bounds (c : IdeaCapsule) {remaining : ℤ} (h : 0 ≤ remaining) :
    0 ≤ c.authorShare remaining ∧ c.authorShare remaining ≤ remaining :=
  roundHalfUp_part_bounds basisPoints_pos c.royalty_in_range h

/-- What a settlement of `steps` against `escrow` returns. -/
def settlementOf (capsule : IdeaCapsule) (steps : List TaskStep) (escrow : ℤ) : Settlement :=
  let remaining := escrow - ((fees steps).map Prod.snd).sum
  { payouts := (∅ : Dict Identity ℤ).tally (fees steps ++ capsule.authorEntry remaining)
    funderRefund := remaining - capsule.authorShare remaining + ((slashes steps).map Prod.snd).sum
    slashed := (∅ : Dict Identity ℤ).tally (slashes steps) }

/-- With the ask and the fees covered, the call returns the settlement. -/
theorem settleExecution_of_covered {capsule : IdeaCapsule} {steps : List TaskStep} {escrow : ℤ}
    (hask : capsule.ask ≤ escrow) (hfees : ((fees steps).map Prod.snd).sum ≤ escrow) :
    settleExecution capsule steps escrow = .ok (settlementOf capsule steps escrow) := by
  have hpay : ∀ (d : Dict Identity ℤ) (remaining : ℤ),
      (if capsule.authorShare remaining > 0 then
        d.add capsule.author (capsule.authorShare remaining) else d) =
        d.tally (capsule.authorEntry remaining) := by
    intro d remaining
    rw [IdeaCapsule.authorEntry]
    split <;> rfl
  simp only [settleExecution, ← sum_fees, not_lt.mpr hask, not_lt.mpr hfees, gt_iff_lt, if_false,
    foldl_post, largestRemainder_pair, bind, Except.bind, unpackPair_pair, zero_add]
  rw [settlementOf, Dict.tally_append, ← hpay]
  rfl

/-- A settlement returns exactly when the escrow covers the ask and the fees due. -/
theorem settleExecution_eq_ok_iff (capsule : IdeaCapsule) (steps : List TaskStep) (escrow : ℤ)
    (s : Settlement) :
    settleExecution capsule steps escrow = .ok s ↔
      capsule.ask ≤ escrow ∧ ((fees steps).map Prod.snd).sum ≤ escrow ∧
        s = settlementOf capsule steps escrow := by
  by_cases hask : capsule.ask ≤ escrow
  · by_cases hfees : ((fees steps).map Prod.snd).sum ≤ escrow
    · simp [settleExecution_of_covered hask hfees, hask, hfees, eq_comm]
    · have hshort : ((fees steps).map Prod.snd).sum > escrow := by omega
      simp only [settleExecution, ← sum_fees, not_lt.mpr hask, hshort, if_true, if_false]
      simp [hfees]
  · simp [settleExecution, not_le.mp hask, hask]

/-- What the passing steps executed by `x` pay. -/
def feesOf (steps : List TaskStep) (x : Identity) : ℤ :=
  ((steps.filter fun s => s.qaPassed && s.executor = x).map TaskStep.fee).sum

/-- What the failed human steps executed by `x` forfeit. -/
def stakesLostBy (steps : List TaskStep) (x : Identity) : ℤ :=
  ((steps.filter fun s => !s.qaPassed && s.kind = .human && s.executor = x).map
    TaskStep.stake).sum

theorem totalOf_fees (steps : List TaskStep) (x : Identity) :
    totalOf x (fees steps) = feesOf steps x := by
  rw [totalOf, fees, List.filter_map, List.filter_filter, List.map_map, feesOf]
  congr 2
  apply List.filter_congr
  intro s _
  simp [Bool.and_comm]

theorem totalOf_slashes (steps : List TaskStep) (x : Identity) :
    totalOf x (slashes steps) = stakesLostBy steps x := by
  rw [totalOf, slashes, List.filter_map, List.filter_filter, List.map_map, stakesLostBy]
  congr 2
  apply List.filter_congr
  intro s _
  simp [TaskStep.forfeits, Bool.and_comm]

theorem totalOf_authorEntry (c : IdeaCapsule) {remaining : ℤ} (h : 0 ≤ remaining)
    (x : Identity) :
    totalOf x (c.authorEntry remaining) =
      if x = c.author then c.authorShare remaining else 0 := by
  have hshare := (authorShare_bounds c h).1
  rw [IdeaCapsule.authorEntry]
  split
  · simp [totalOf_cons, eq_comm]
  · next hle =>
      have hzero : c.authorShare remaining = 0 := by omega
      simp [hzero]

theorem sum_authorEntry (c : IdeaCapsule) {remaining : ℤ} (h : 0 ≤ remaining) :
    ((c.authorEntry remaining).map Prod.snd).sum = c.authorShare remaining := by
  have hshare := (authorShare_bounds c h).1
  rw [IdeaCapsule.authorEntry]
  split
  · simp
  · next hle =>
      rw [List.map_nil, List.sum_nil]
      omega

/-- The books of a settlement in which the author's share is `share`. -/
structure Settlement.Books (r : Settlement) (capsule : IdeaCapsule) (steps : List TaskStep)
    (escrow share : ℤ) : Prop where
  payouts_eq : ∀ x,
    r.payouts.getD x 0 = feesOf steps x + if x = capsule.author then share else 0
  slashed_eq : ∀ x, r.slashed.getD x 0 = stakesLostBy steps x
  payouts_nonneg : ∀ amount ∈ r.payouts.values, 0 ≤ amount
  slashed_nonneg : ∀ amount ∈ r.slashed.values, 0 ≤ amount
  refund_nonneg : 0 ≤ r.funderRefund
  balanced : r.totalDisbursed = escrow + r.slashed.sum

/-- The same settlement: equal refunds, and equal accounts as maps. -/
structure Settlement.Same (r r' : Settlement) : Prop where
  payouts : r.payouts.Same r'.payouts
  funderRefund : r.funderRefund = r'.funderRefund
  slashed : r.slashed.Same r'.slashed

theorem books_settlementOf (capsule : IdeaCapsule) (steps : List TaskStep) {escrow : ℤ}
    (hfees : ((fees steps).map Prod.snd).sum ≤ escrow) :
    (settlementOf capsule steps escrow).Books capsule steps escrow
      (capsule.authorShare (escrow - ((fees steps).map Prod.snd).sum)) := by
  have hrem : 0 ≤ escrow - ((fees steps).map Prod.snd).sum := by omega
  obtain ⟨hshare, hle⟩ := authorShare_bounds capsule hrem
  have hslashes : 0 ≤ ((slashes steps).map Prod.snd).sum := by
    apply List.sum_nonneg
    intro amount hmem
    obtain ⟨e, he, rfl⟩ := List.mem_map.mp hmem
    exact slashes_nonneg steps e he
  constructor
  case payouts_eq =>
    intro x
    rw [settlementOf, Dict.getD_tally, Dict.getD_empty, zero_add, totalOf_append, totalOf_fees,
      totalOf_authorEntry capsule hrem]
  case slashed_eq =>
    intro x
    rw [settlementOf, Dict.getD_tally, Dict.getD_empty, zero_add, totalOf_slashes]
  case payouts_nonneg =>
    apply Dict.values_tally_nonneg
    intro e he
    rcases List.mem_append.mp he with hfee | hauthor
    · exact fees_nonneg steps e hfee
    · rw [IdeaCapsule.authorEntry] at hauthor
      split at hauthor
      · rw [List.mem_singleton.mp hauthor]
        exact hshare
      · cases hauthor
  case slashed_nonneg => exact Dict.values_tally_nonneg (slashes_nonneg steps)
  case refund_nonneg =>
    simp only [settlementOf]
    omega
  case balanced =>
    simp only [Settlement.totalDisbursed, settlementOf, Dict.sum_tally, Dict.sum_empty, zero_add,
      List.map_append, List.sum_append, sum_authorEntry capsule hrem]
    omega

/-- Permuting the steps changes nothing. -/
theorem settlementOf_perm (capsule : IdeaCapsule) {steps steps' : List TaskStep} (escrow : ℤ)
    (h : steps.Perm steps') :
    (settlementOf capsule steps escrow).Same (settlementOf capsule steps' escrow) := by
  have hfees : ((fees steps).map Prod.snd).sum = ((fees steps').map Prod.snd).sum :=
    ((fees_perm h).map Prod.snd).sum_eq
  have hslashes : ((slashes steps).map Prod.snd).sum = ((slashes steps').map Prod.snd).sum :=
    ((slashes_perm h).map Prod.snd).sum_eq
  constructor
  case payouts =>
    simp only [settlementOf, hfees]
    exact Dict.tally_perm ∅ ((fees_perm h).append_right _)
  case funderRefund => simp only [settlementOf, hfees, hslashes]
  case slashed => exact Dict.tally_perm ∅ (slashes_perm h)

/-- **The books of every settlement**: each party gets its fees and the author the
share on top, each failed human its loss, nothing is negative, what is disbursed is
the escrow and the slashes, and the order of the steps does not matter. -/
theorem settleExecution_accounts (capsule : IdeaCapsule) (steps : List TaskStep) (escrow : ℤ)
    (s : Settlement) (h : settleExecution capsule steps escrow = .ok s) :
    (∃ share residual,
      largestRemainder (escrow - ((steps.filter TaskStep.qaPassed).map TaskStep.fee).sum)
        [capsule.royaltyBps, basisPoints - capsule.royaltyBps] = .ok [share, residual] ∧
      s.Books capsule steps escrow share) ∧
    ∀ steps', steps.Perm steps' →
      ∃ s', settleExecution capsule steps' escrow = .ok s' ∧ s.Same s' := by
  obtain ⟨hask, hfees, rfl⟩ := (settleExecution_eq_ok_iff _ _ _ _).mp h
  constructor
  · rw [← sum_fees]
    exact ⟨_, _, largestRemainder_pair _ _, books_settlementOf capsule steps hfees⟩
  · intro steps' hperm
    have hsum : ((fees steps').map Prod.snd).sum = ((fees steps).map Prod.snd).sum :=
      ((fees_perm hperm).map Prod.snd).sum_eq.symm
    have hrun := settleExecution_of_covered hask (hsum ▸ hfees)
    exact ⟨_, hrun, settlementOf_perm capsule escrow hperm⟩

/-- The capsule and the pipeline of the walkthrough. -/
def petcareCapsule : IdeaCapsule :=
  { capsuleId := "idea-petcare-app", author := "dana", ask := 1000000, royaltyBps := 1500,
    royalty_in_range := by decide }

def petcareSteps : List TaskStep :=
  [{ stepId := "step-market-research", kind := .machine, executor := "op-a", fee := 120000,
     fee_stake_nonneg := by decide, stake_pos_of_human := by decide },
   { stepId := "step-mvp-build", kind := .machine, executor := "op-c", fee := 300000,
     fee_stake_nonneg := by decide, stake_pos_of_human := by decide },
   { stepId := "step-vet-signoff", kind := .human, executor := "human-vet", fee := 150000,
     stake := 50000, fee_stake_nonneg := by decide, stake_pos_of_human := by decide },
   { stepId := "step-field-photos", kind := .human, executor := "human-photog", fee := 80000,
     stake := 30000, qaPassed := false, fee_stake_nonneg := by decide,
     stake_pos_of_human := by decide }]

/-- The settlement the walkthrough prints. -/
def petcareSettlement : Settlement :=
  { payouts :=
      ⟨[("op-a", 120000), ("op-c", 300000), ("human-vet", 150000), ("dana", 64500)], by decide⟩
    funderRefund := 395500
    slashed := ⟨[("human-photog", 30000)], by decide⟩ }

theorem petcare_accounts :
    ∃ share, petcareSettlement.Books petcareCapsule petcareSteps 1000000 share ∧
      ∃ s, settleExecution petcareCapsule petcareSteps.reverse 1000000 = .ok s ∧
        petcareSettlement.Same s := by
  obtain ⟨⟨share, _, _, hbooks⟩, hperm⟩ :=
    settleExecution_accounts petcareCapsule petcareSteps 1000000 petcareSettlement rfl
  exact ⟨share, hbooks, hperm _ (List.reverse_perm petcareSteps).symm⟩

end YeBlock
