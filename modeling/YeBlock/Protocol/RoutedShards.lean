import YeBlock.Protocol.Routing

/-!
# Laws of a routed shard

What a decision says about its members, and what it depends on.

A shard is as large as the workload's assumed collateral asks for, while its members
are admitted by the request's stake floor.  The two are separate fields of the request,
so a member's own stake deters it when it covers the assumed collateral, which the
floor guarantees only if it does.

The scores are a function of the eligible pool as a set.  Offering the operators in
another order, or others that are not eligible, changes neither the scores nor the
decision.

## Main definitions

* `OwnStakeDeters` — deterrence with an operator's own stake.
* `routed_shard_deters` — whom the stake of a shard deters.
* `SameEligible` — two offered lists with the same eligible operators.
* `scoreOperators_eq_of_sameEligible`, `route_eq_of_sameEligible` — replay.
-/

namespace YeBlock

open Lib

/-! ## Collateral -/

/-- Cheating is unprofitable, at the audit probability that `k` replicas give, for an
operator that risks its own stake. -/
def OwnStakeDeters (w : WorkloadEconomics) (op : Operator) (base q : ℚ) (k : ℕ) : Prop :=
  ∃ own, WorkloadEconomics.new w.honestCost w.reward op.stake = .ok own ∧ Deters own base q k

/-- A workload is deterred only at a probability. -/
theorem prob_of_isCheatingUnprofitable {w : WorkloadEconomics} {p : ℚ} {b : Bool}
    (h : isCheatingUnprofitable w p = .ok b) : 0 ≤ p ∧ p ≤ 1 := by
  by_contra hp
  rw [isCheatingUnprofitable, expectedCheatingAdvantage, checkProb, if_neg hp] at h
  cases h

/-- More collateral deters at least as well. -/
theorem ownStakeDeters_of_le {w : WorkloadEconomics} {op : Operator} {base q : ℚ} {k : ℕ}
    (hstake : w.stakeAtRisk ≤ op.stake) (h : Deters w base q k) :
    OwnStakeDeters w op base q k := by
  obtain ⟨detected, hdetected, hdeters⟩ := h
  have hp := prob_of_isCheatingUnprofitable hdeters
  let own : WorkloadEconomics :=
    { w with stakeAtRisk := op.stake, stake_nonneg := w.stake_nonneg.trans hstake }
  have hrisk : w.atStake ≤ own.atStake := add_le_add_left hstake w.reward
  refine ⟨own, own.new_eq, detected, hdetected, ?_⟩
  rw [isCheatingUnprofitable_eq w hp, Except.ok.injEq, decide_eq_true_eq] at hdeters
  rw [isCheatingUnprofitable_eq own hp, Except.ok.injEq, decide_eq_true_eq]
  exact hdeters.trans_le (mul_le_mul_of_nonneg_left hrisk hp.1)

/-- **Whom the stake of a shard deters**: where the economics deter at the decision's
redundancy, they deter every member whose own stake covers the assumed collateral, and
so every member if the stake floor covers it. -/
theorem routed_shard_deters {operators : List Operator} {req : RoutingRequest}
    {weights : RoutingWeights} {base : ℚ} {decision : RoutingDecision}
    (h : route operators req weights base = .ok decision)
    (hdeters : Deters req.workload base (1 / 10) decision.redundancy) :
    (∀ op ∈ decision.shard, req.workload.stakeAtRisk ≤ op.stake →
        OwnStakeDeters req.workload op base (1 / 10) decision.redundancy) ∧
      (req.workload.stakeAtRisk ≤ req.stakeFloor → ∀ op ∈ decision.shard,
        OwnStakeDeters req.workload op base (1 / 10) decision.redundancy) := by
  constructor
  · intro op _ hstake
    exact ownStakeDeters_of_le hstake hdeters
  · intro hfloor op hop
    have helig := (mem_shard_eligible h op hop).2
    have hstake := ((eligible_eq_none_iff op req).mp helig).2.1
    exact ownStakeDeters_of_le (hfloor.trans hstake) hdeters

/-- A workload that assumes a stake of nine. -/
def valuableWorkload : WorkloadEconomics :=
  { honestCost := 4, reward := 2, stakeAtRisk := 9,
    cost_nonneg := by decide, reward_nonneg := by decide, stake_nonneg := by decide }

/-- A request for it under the given stake floor. -/
def valuableRequest (stakeFloor : ℚ) : RoutingRequest :=
  { minVramGb := 16, workload := valuableWorkload, stakeFloor }

/-- An operator with a fixed quote. -/
def twinOperator (identity : Identity) (stake : ℚ) : Operator :=
  { identity, reputation := 9 / 10, pricePer1kTokens := 2, estLatencyMs := 100, stake,
    vramGb := 24 }

/-- Two operators with that quote and the given stake. -/
def twinOperators (stake : ℚ) : List Operator :=
  [twinOperator "op-a" stake, twinOperator "op-b" stake]

theorem deters_valuableWorkload : Deters valuableWorkload (3 / 100) (1 / 10) 2 :=
  ⟨9 / 10, by decide +kernel, by decide +kernel⟩

theorem twinOperator_deterred :
    OwnStakeDeters valuableWorkload (twinOperator "op-a" 9) (3 / 100) (1 / 10) 2 := by
  have hroute : route (twinOperators 9) (valuableRequest 9) {} (3 / 100) =
      .ok { shard := twinOperators 9, redundancy := 2 } := by decide +kernel
  exact (routed_shard_deters hroute deters_valuableWorkload).2 (le_refl (9 : ℚ)) _
    List.mem_cons_self

/-- With a stake of one each, the shard is complete and the economics deter, but no
member's own stake does. -/
theorem twinOperators_not_deterred :
    ¬ ∀ (operators : List Operator) (req : RoutingRequest) (weights : RoutingWeights) (base : ℚ),
      0 ≤ base ∧ base ≤ 1 → ∀ decision, route operators req weights base = .ok decision →
        decision.redundancy ≤ decision.shard.length →
        Deters req.workload base (1 / 10) decision.redundancy →
        ∀ op ∈ decision.shard,
          OwnStakeDeters req.workload op base (1 / 10) decision.redundancy := by
  intro h
  have hroute : route (twinOperators 1) (valuableRequest 1) {} (3 / 100) =
      .ok { shard := twinOperators 1, redundancy := 2 } := by decide +kernel
  have hbase : (0 : ℚ) ≤ 3 / 100 ∧ (3 / 100 : ℚ) ≤ 1 := by norm_num
  have hq : (0 : ℚ) ≤ 1 / 10 ∧ (1 / 10 : ℚ) ≤ 1 := by norm_num
  obtain ⟨own, hown, hdeters⟩ := h _ _ _ _ hbase _ hroute le_rfl deters_valuableWorkload _
    List.mem_cons_self
  rw [deters_iff own hbase hq (by decide)] at hdeters
  cases hown
  norm_num [combinedProbability, WorkloadEconomics.atStake, valuableRequest, valuableWorkload,
    twinOperator] at hdeters

/-! ## Replay -/

/-- Two offered lists with the same eligible operators, in whatever order and among
whatever others. -/
def SameEligible (req : RoutingRequest) (operators operators' : List Operator) : Prop :=
  (eligiblePool operators req).Perm (eligiblePool operators' req)

/-- Permuting the list keeps the eligible operators. -/
theorem sameEligible_of_perm (req : RoutingRequest) {operators operators' : List Operator}
    (h : operators.Perm operators') : SameEligible req operators operators' := h.filter _

/-- So does inserting an operator that is not eligible, or removing one. -/
theorem sameEligible_insert {req : RoutingRequest} {op : Operator} (h : eligible op req ≠ none)
    (operators operators' : List Operator) :
    SameEligible req (operators ++ op :: operators') (operators ++ operators') := by
  simp [SameEligible, eligiblePool, h]

/-- The scored pool depends on the pool as a set. -/
theorem scoredPool_eq_of_perm {pool pool' : List Operator} (req : RoutingRequest)
    (weights : RoutingWeights) (h : pool.Perm pool')
    (hids : (pool.map Operator.identity).Nodup) :
    scoredPool pool req weights = scoredPool pool' req weights := by
  have hscore : poolScore pool req weights = poolScore pool' req weights := by
    funext op
    simp only [poolScore, rescaleIn_eq_of_perm (h.map Operator.pricePer1kTokens),
      rescaleIn_eq_of_perm (h.map Operator.estLatencyMs)]
  rw [scoredPool, scoredPool, hscore]
  refine sortBy_eq_of_perm (h.map _) ?_
  intro a ha b hb hkey
  obtain ⟨op, hop, rfl⟩ := List.mem_map.mp ha
  obtain ⟨op', hop', rfl⟩ := List.mem_map.mp hb
  have hid : op.identity = op'.identity := congrArg (fun k => (ofLex k).2) hkey
  obtain rfl := List.inj_on_of_nodup_map hids hop hop' hid
  rfl

section Replay
variable {req : RoutingRequest} {operators operators' : List Operator}
  (hids : (operators.map Operator.identity).Nodup) (h : SameEligible req operators operators')
include hids

theorem nodup_identity_eligiblePool (req : RoutingRequest) :
    ((eligiblePool operators req).map Operator.identity).Nodup :=
  hids.sublist (List.filter_sublist.map _)

include h

theorem scoreOperators_eq_of_sameEligible (weights : RoutingWeights) :
    scoreOperators operators req weights = scoreOperators operators' req weights := by
  rw [scoreOperators_eq, scoreOperators_eq,
    scoredPool_eq_of_perm req weights h (nodup_identity_eligiblePool hids req)]

/-- The shard and the redundancy of the decision; the rejections name what was offered. -/
theorem route_eq_of_sameEligible (weights : RoutingWeights) (baseAuditProb : ℚ) :
    (route operators req weights baseAuditProb).map (fun d => (d.shard, d.redundancy)) =
      (route operators' req weights baseAuditProb).map fun d => (d.shard, d.redundancy) := by
  have hnil : eligiblePool operators req = [] ↔ eligiblePool operators' req = [] := by
    rw [← List.length_eq_zero_iff, ← List.length_eq_zero_iff, h.length_eq]
  rw [route_eq, route_eq,
    scoredPool_eq_of_perm req weights h (nodup_identity_eligiblePool hids req)]
  simp only [hnil]
  split
  · rfl
  · cases recommendedRedundancy req.workload baseAuditProb <;> rfl

end Replay

end YeBlock
