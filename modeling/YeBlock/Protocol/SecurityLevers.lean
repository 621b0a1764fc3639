import YeBlock.Protocol.EconomicSecurity

/-!
# The levers of economic security

Cheating is deterred when the audit probability exceeds `c / (S + r)`, or, what is the
same, when the stake exceeds `c / p - r`.  Two functions return these thresholds, as the
smallest probability and the minimum stake that make cheating unprofitable.  At a threshold
itself the advantage of cheating is zero, which does not deter, so a lever delivers only
where it has nothing to do: the reward alone deters, or no probability is high enough.

The recommended redundancy follows the economics: whatever raises the threshold or weakens
the checks never lowers it.

## Main definitions

* `requiredStakeFor` — the source's.
* `isCheatingUnprofitable_iff_lt`, `unprofitableWithStake_iff_lt` — deterrence lies beyond the
  thresholds.
* `StakeLeverDelivers`, `AuditLeverDelivers` — what the two levers promise.
* `levers_deliver_iff` — when they deliver.
* `recommendedRedundancy_mono` — redundancy follows the economics.
-/

namespace YeBlock

open Lib

/-- The minimum stake such that cheating is unprofitable at the given audit probability. -/
def requiredStakeFor (wWithoutStake : WorkloadEconomics) (auditProb : ℚ) :
    Except PyError (WithTop ℚ) := do
  checkProb auditProb
  if auditProb = 0 then
    return ⊤
  else
    return ↑(max 0 (wWithoutStake.honestCost / auditProb - wWithoutStake.reward))

/-- Whether cheating is unprofitable once the stake is replaced. -/
def unprofitableWithStake (w : WorkloadEconomics) (stake auditProb : ℚ) : Except PyError Bool := do
  isCheatingUnprofitable (← WorkloadEconomics.new w.honestCost w.reward stake) auditProb

/-! ## The thresholds -/

/-- Cheating is unprofitable exactly at the probabilities beyond the threshold. -/
theorem isCheatingUnprofitable_iff_lt (w : WorkloadEconomics) {p : ℚ} (hp : 0 ≤ p ∧ p ≤ 1) :
    isCheatingUnprofitable w p = .ok true ↔ minAuditProbability w < p := by
  have hdenom : w.stakeAtRisk + w.reward = w.atStake := rfl
  rw [isCheatingUnprofitable_eq w hp, Except.ok.injEq, decide_eq_true_eq, minAuditProbability,
    hdenom]
  rcases w.atStake_nonneg.eq_or_lt with h | h
  · rw [← h, mul_zero, if_pos rfl]
    exact iff_of_false w.cost_nonneg.not_gt not_top_lt
  · rw [if_neg h.ne', WithTop.coe_lt_coe, div_lt_iff₀ h]

section Stake
variable (w : WorkloadEconomics) {p : ℚ} (hp : 0 < p ∧ p ≤ 1)
include hp

theorem requiredStakeFor_eq :
    requiredStakeFor w p = .ok ↑(max 0 (w.honestCost / p - w.reward)) := by
  rw [requiredStakeFor, checkProb_of_mem ⟨hp.1.le, hp.2⟩]
  exact if_neg hp.1.ne'

theorem unprofitableWithStake_eq {stake : ℚ} (hstake : 0 ≤ stake) :
    unprofitableWithStake w stake p = .ok (decide (w.honestCost / p - w.reward < stake)) := by
  let own : WorkloadEconomics := { w with stakeAtRisk := stake, stake_nonneg := hstake }
  have hnew : WorkloadEconomics.new w.honestCost w.reward stake = .ok own := own.new_eq
  have hthreshold : w.honestCost < p * own.atStake ↔ w.honestCost / p - w.reward < stake := by
    rw [sub_lt_iff_lt_add, div_lt_iff₀ hp.1, mul_comm]
    rfl
  rw [unprofitableWithStake, hnew]
  change isCheatingUnprofitable own p = _
  rw [isCheatingUnprofitable_eq own ⟨hp.1.le, hp.2⟩]
  simp only [← hthreshold]
  rfl

/-- Cheating is unprofitable exactly at the stakes beyond the threshold. -/
theorem unprofitableWithStake_iff_lt {stake : ℚ} (hstake : 0 ≤ stake) :
    unprofitableWithStake w stake p = .ok true ↔ w.honestCost / p - w.reward < stake := by
  rw [unprofitableWithStake_eq w hp hstake, Except.ok.injEq, decide_eq_true_eq]

end Stake

/-! ## The levers -/

/-- The stake lever: at the required stake cheating is unprofitable, and at no smaller one. -/
def StakeLeverDelivers (w : WorkloadEconomics) (p : ℚ) : Prop :=
  ∃ stake : ℚ, requiredStakeFor w p = .ok ↑stake ∧ unprofitableWithStake w stake p = .ok true ∧
    ∀ less, 0 ≤ less → less < stake → unprofitableWithStake w less p = .ok false

/-- The audit lever: at the smallest probability, if there is one, cheating is unprofitable,
and at no smaller one. -/
def AuditLeverDelivers (w : WorkloadEconomics) : Prop :=
  ∀ p : ℚ, minAuditProbability w = ↑p → p ≤ 1 → isCheatingUnprofitable w p = .ok true ∧
    ∀ less, 0 ≤ less → less < p → isCheatingUnprofitable w less = .ok false

/-- The stake lever delivers exactly where the reward alone deters. -/
theorem stakeLeverDelivers_iff (w : WorkloadEconomics) {p : ℚ} (hp : 0 < p ∧ p ≤ 1) :
    StakeLeverDelivers w p ↔ w.honestCost < p * w.reward := by
  have hreward : w.honestCost / p - w.reward < 0 ↔ w.honestCost < p * w.reward := by
    rw [sub_neg, div_lt_iff₀ hp.1, mul_comm]
  rw [StakeLeverDelivers, requiredStakeFor_eq w hp, ← hreward]
  constructor
  · rintro ⟨stake, hstake, htrue, -⟩
    obtain rfl : max 0 (w.honestCost / p - w.reward) = stake :=
      WithTop.coe_injective (Except.ok.inj hstake)
    rw [unprofitableWithStake_iff_lt w hp (le_max_left _ _), lt_max_iff] at htrue
    exact htrue.resolve_right (lt_irrefl _)
  · intro hneg
    rw [max_eq_left hneg.le]
    refine ⟨0, rfl, (unprofitableWithStake_iff_lt w hp le_rfl).mpr hneg, ?_⟩
    intro less hless hlt
    exact absurd hless hlt.not_ge

/-- The audit lever delivers exactly where no probability is high enough. -/
theorem auditLeverDelivers_iff (w : WorkloadEconomics) :
    AuditLeverDelivers w ↔
      w.stakeAtRisk + w.reward = 0 ∨ w.stakeAtRisk + w.reward < w.honestCost := by
  have hrisk : 0 ≤ w.stakeAtRisk + w.reward := w.atStake_nonneg
  constructor
  · intro h
    rw [or_iff_not_imp_left, ← not_le]
    intro hne hle
    have hpos : 0 < w.stakeAtRisk + w.reward := lt_of_le_of_ne hrisk (Ne.symm hne)
    have hmin : minAuditProbability w = ↑(w.honestCost / (w.stakeAtRisk + w.reward)) := if_neg hne
    have hone : w.honestCost / (w.stakeAtRisk + w.reward) ≤ 1 := (div_le_one₀ hpos).mpr hle
    have hmem := And.intro (div_nonneg w.cost_nonneg hrisk) hone
    have htrue := (isCheatingUnprofitable_iff_lt w hmem).mp (h _ hmin hone).1
    rw [hmin] at htrue
    exact lt_irrefl _ htrue
  · intro h p hmin hone
    rw [minAuditProbability] at hmin
    split at hmin
    · cases hmin
    · next hne =>
        have hpos : 0 < w.stakeAtRisk + w.reward := lt_of_le_of_ne hrisk (Ne.symm hne)
        rw [← WithTop.coe_injective hmin, div_le_one₀ hpos] at hone
        exact absurd (h.resolve_left hne) hone.not_gt

/-- **When the levers deliver**: the stake lever exactly where the reward alone deters, the
audit lever exactly where no probability is high enough. -/
theorem levers_deliver_iff (w : WorkloadEconomics) {p : ℚ} (hp : 0 < p ∧ p ≤ 1) :
    (StakeLeverDelivers w p ↔ w.honestCost < p * w.reward) ∧
      (AuditLeverDelivers w ↔
        w.stakeAtRisk + w.reward = 0 ∨ w.stakeAtRisk + w.reward < w.honestCost) :=
  ⟨stakeLeverDelivers_iff w hp, auditLeverDelivers_iff w⟩

theorem levers_deliver_iff_sampled :
    (StakeLeverDelivers sampledWorkload (3 / 100) ↔ (1 : ℚ) < 3 / 100 * 40) ∧
      (AuditLeverDelivers sampledWorkload ↔ (60 + 40 : ℚ) = 0 ∨ (60 + 40 : ℚ) < 1) :=
  levers_deliver_iff sampledWorkload (by norm_num)

/-- The marginal workload's stake is the required one, its threshold the audit probability,
and it is not deterred. -/
theorem marginalWorkload_levers_fail :
    ¬ ∀ (w : WorkloadEconomics) (p : ℚ), 0 < p ∧ p ≤ 1 →
      StakeLeverDelivers w p ∧ AuditLeverDelivers w := by
  intro h
  have hp : (0 : ℚ) < 3 / 100 ∧ (3 / 100 : ℚ) ≤ 1 := by norm_num
  obtain ⟨⟨stake, hstake, htrue, -⟩, -⟩ := h marginalWorkload (3 / 100) hp
  obtain rfl : (60 : ℚ) = stake := by
    rw [requiredStakeFor_eq marginalWorkload hp, Except.ok.injEq, WithTop.coe_inj] at hstake
    rw [← hstake]
    norm_num [marginalWorkload]
  exact absurd htrue (by decide +kernel)

/-! ## Redundancy follows the economics -/

section Mono
variable {base base' q q' : ℚ} (hbase : 0 ≤ base ∧ base ≤ 1) (hbase' : 0 ≤ base' ∧ base' ≤ 1)
  (hq : 0 ≤ q ∧ q ≤ 1) (hq' : 0 ≤ q' ∧ q' ≤ 1) (haudit : base' ≤ base) (hcollusion : q ≤ q')

include hbase' hq haudit hcollusion in
/-- Less sampling and more collusion never raise the combined probability. -/
theorem combinedProbability_le (k : ℕ) :
    combinedProbability base' q' k ≤ combinedProbability base q k := by
  have hpow : q ^ (k - 1) ≤ q' ^ (k - 1) := pow_le_pow_left₀ hq.1 hcollusion _
  have hpow0 : 0 ≤ q ^ (k - 1) := pow_nonneg hq.1 _
  -- what escapes the checks is what escapes sampling and every other replica
  have hescape : (1 - base) * q ^ (k - 1) ≤ (1 - base') * q' ^ (k - 1) :=
    mul_le_mul (by linarith) hpow hpow0 (sub_nonneg.mpr hbase'.2)
  rw [combinedProbability, combinedProbability]
  linarith

include hbase hbase' hq hq' haudit hcollusion

/-- **Redundancy follows the economics**: a costlier or less collateralized workload, less
sampling and more collusion never lower the recommendation, which stays within the cap. -/
theorem recommendedRedundancy_mono {w w' : WorkloadEconomics}
    (hcost : w.honestCost ≤ w'.honestCost) (hreward : w'.reward ≤ w.reward)
    (hstake : w'.stakeAtRisk ≤ w.stakeAtRisk) {maxReplicas : ℕ} (hmax : 1 ≤ maxReplicas) :
    ∃ k k', recommendedRedundancy w base q maxReplicas = .ok k ∧
      recommendedRedundancy w' base' q' maxReplicas = .ok k' ∧
      1 ≤ k ∧ k ≤ k' ∧ k' ≤ maxReplicas := by
  obtain ⟨k, hk, hleast⟩ := recommendedRedundancy_reaches w hbase hq hmax
  obtain ⟨k', hk', hleast'⟩ := recommendedRedundancy_reaches w' hbase' hq' hmax
  have hrisk : w'.atStake ≤ w.atStake := add_le_add hstake hreward
  refine ⟨k, k', hk, hk', ((isLeastUpTo_iff hmax).mp hleast).1, ?_,
    ((isLeastUpTo_iff hmax).mp hleast').2.1⟩
  refine hleast.le_of_imp hmax hleast' fun j hj => ?_
  rw [minAuditProbability_le_iff] at hj ⊢
  obtain ⟨hpos, hreach⟩ := hj
  have hcombined := combinedProbability_le hbase' hq haudit hcollusion j
  refine ⟨hpos.trans_le hrisk, ?_⟩
  calc w.honestCost ≤ w'.honestCost := hcost
    _ ≤ combinedProbability base' q' j * w'.atStake := hreach
    _ ≤ combinedProbability base q j * w.atStake :=
        mul_le_mul hcombined hrisk w'.atStake_nonneg (combinedProbability_mem hbase hq j).1

end Mono

/-- The marginal workload costs more than the sampled one. -/
theorem recommendedRedundancy_mono_sampled :
    ∃ k k', recommendedRedundancy sampledWorkload (3 / 100) (1 / 10) 5 = .ok k ∧
      recommendedRedundancy marginalWorkload (1 / 100) (1 / 5) 5 = .ok k' ∧
      1 ≤ k ∧ k ≤ k' ∧ k' ≤ 5 :=
  recommendedRedundancy_mono (by norm_num) (by norm_num) (by norm_num) (by norm_num) (by norm_num)
    (by norm_num) (by decide) (by decide) (by decide) (by decide)

end YeBlock
