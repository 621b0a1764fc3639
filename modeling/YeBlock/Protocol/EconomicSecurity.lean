import Mathlib.Algebra.Order.Field.Rat
import Mathlib.Algebra.Order.Ring.Pow
import Mathlib.Order.WithBot
import Mathlib.Tactic.FieldSimp
import Mathlib.Tactic.Linarith
import Mathlib.Tactic.Ring
import YeBlock.Basic
import YeBlock.Lib.Search

/-!
# Economic security of compute verification

Cheating is not made impossible but unprofitable: with honest cost `c`, reward `r`,
stake `S` and audit probability `p`, the expected advantage of cheating is
`c - p * (S + r)`.  Redundancy raises the audit probability, and the recommended
redundancy is the smallest one whose combined probability reaches the threshold
`c / (S + r)`, up to a cap.  Quantities are exact rationals; the infinite threshold of
a worthless workload is `⊤`.

The recommendation asks for the threshold to be reached, the deterrence for it to be
exceeded, so the two part where a redundancy below the cap meets it exactly.

## Main definitions

* `WorkloadEconomics`, `WorkloadEconomics.new` — workloads, and the constructor's check.
* `minAuditProbability`, `isCheatingUnprofitable`, `detectionProbability` — the source's.
* `recommendedRedundancy` — the redundancy factor of a workload.
* `combinedProbability` — the audit probability under redundancy.
* `recommendedRedundancy_least_iff` — when the recommendation is the least deterring one.
-/

namespace YeBlock

open Lib

/-- The economics of one workload, in settlement units. -/
structure WorkloadEconomics where
  honestCost : ℚ
  reward : ℚ
  stakeAtRisk : ℚ
  cost_nonneg : 0 ≤ honestCost
  reward_nonneg : 0 ≤ reward
  stake_nonneg : 0 ≤ stakeAtRisk

namespace WorkloadEconomics

/-- The constructor's check. -/
def new (honestCost reward stakeAtRisk : ℚ) : Except PyError WorkloadEconomics :=
  if h : honestCost < 0 ∨ reward < 0 ∨ stakeAtRisk < 0 then
    .error (.valueError "economic quantities must be non-negative")
  else
    .ok
      { honestCost, reward, stakeAtRisk,
        cost_nonneg := not_lt.mp fun hlt => h (.inl hlt)
        reward_nonneg := not_lt.mp fun hlt => h (.inr (.inl hlt))
        stake_nonneg := not_lt.mp fun hlt => h (.inr (.inr hlt)) }

/-- The constructor accepts every workload. -/
theorem new_eq (w : WorkloadEconomics) : new w.honestCost w.reward w.stakeAtRisk = .ok w := by
  have h : ¬ (w.honestCost < 0 ∨ w.reward < 0 ∨ w.stakeAtRisk < 0) := by
    simp [w.cost_nonneg, w.reward_nonneg, w.stake_nonneg]
  rw [new, dif_neg h]

/-- What a detected cheater loses: the stake and the reward. -/
def atStake (w : WorkloadEconomics) : ℚ := w.stakeAtRisk + w.reward

theorem atStake_nonneg (w : WorkloadEconomics) : 0 ≤ w.atStake :=
  add_nonneg w.stake_nonneg w.reward_nonneg

end WorkloadEconomics

def checkProb (p : ℚ) : Except PyError Unit :=
  if 0 ≤ p ∧ p ≤ 1 then .ok () else .error (.valueError s!"probability out of range: {p}")

/-- The smallest effective audit probability that makes cheating unprofitable. -/
def minAuditProbability (w : WorkloadEconomics) : WithTop ℚ :=
  let denom := w.stakeAtRisk + w.reward
  if denom = 0 then ⊤ else ↑(w.honestCost / denom)

/-- The expected advantage of cheating; negative when honesty dominates. -/
def expectedCheatingAdvantage (w : WorkloadEconomics) (auditProb : ℚ) : Except PyError ℚ := do
  checkProb auditProb
  return w.honestCost - auditProb * (w.stakeAtRisk + w.reward)

/-- Whether a rational operator strictly prefers honest execution. -/
def isCheatingUnprofitable (w : WorkloadEconomics) (auditProb : ℚ) : Except PyError Bool := do
  return decide ((← expectedCheatingAdvantage w auditProb) < 0)

/-- The probability that a lone cheater is caught on cross-checked replicas. -/
def detectionProbability (crossCheckReplicas : ℕ) (collusionRate : ℚ) : Except PyError ℚ :=
  if crossCheckReplicas < 1 then
    .error (.valueError "replicas must be >= 1")
  else do
    checkProb collusionRate
    if crossCheckReplicas = 1 then
      return 0
    else
      return 1 - collusionRate ^ (crossCheckReplicas - 1)

/-- One turn of the search: whether `k` replicas reach the threshold. -/
def reachesThreshold (pMin : WithTop ℚ) (baseAuditProb collusionRate : ℚ) (k : ℕ) :
    Except PyError Bool := do
  let detected ← detectionProbability k collusionRate
  let eff := baseAuditProb + (1 - baseAuditProb) * detected
  return decide (pMin ≤ eff)

/-- The redundancy factor of a workload: one if sampling suffices, otherwise the first
replica count whose combined detection reaches the threshold, capped. -/
def recommendedRedundancy (w : WorkloadEconomics) (baseAuditProb : ℚ) (collusionRate : ℚ := 1 / 10)
    (maxReplicas : ℕ := 5) : Except PyError ℕ := do
  checkProb baseAuditProb
  let pMin := minAuditProbability w
  if 1 < pMin then
    return maxReplicas
  else if pMin ≤ baseAuditProb then
    return 1
  else
    let found ← (List.range' 2 (maxReplicas - 1)).findM?
      (reachesThreshold pMin baseAuditProb collusionRate)
    return found.getD maxReplicas

/-! ## The functions on probabilities -/

theorem checkProb_of_mem {p : ℚ} (h : 0 ≤ p ∧ p ≤ 1) : checkProb p = .ok () := if_pos h

theorem isCheatingUnprofitable_eq (w : WorkloadEconomics) {p : ℚ} (h : 0 ≤ p ∧ p ≤ 1) :
    isCheatingUnprofitable w p = .ok (decide (w.honestCost < p * w.atStake)) := by
  rw [isCheatingUnprofitable, expectedCheatingAdvantage, checkProb_of_mem h]
  simp only [bind, Except.bind, pure, Except.pure, sub_neg]
  rfl

theorem detectionProbability_eq {k : ℕ} (hk : 1 ≤ k) {q : ℚ} (h : 0 ≤ q ∧ q ≤ 1) :
    detectionProbability k q = .ok (1 - q ^ (k - 1)) := by
  rw [detectionProbability, if_neg hk.not_gt, checkProb_of_mem h]
  by_cases h1 : k = 1
  · subst h1
    simp [bind, Except.bind, pure, Except.pure]
  · simp [h1, bind, Except.bind, pure, Except.pure]

/-- The audit probability under redundancy: sampling, or disagreement of the replicas. -/
def combinedProbability (base q : ℚ) (k : ℕ) : ℚ := base + (1 - base) * (1 - q ^ (k - 1))

theorem reachesThreshold_eq (pMin : WithTop ℚ) (base : ℚ) {k : ℕ} (hk : 1 ≤ k) {q : ℚ}
    (h : 0 ≤ q ∧ q ≤ 1) :
    reachesThreshold pMin base q k = .ok (decide (pMin ≤ combinedProbability base q k)) := by
  rw [reachesThreshold, detectionProbability_eq hk h]
  rfl

section Combined
variable {base q : ℚ} (hbase : 0 ≤ base ∧ base ≤ 1) (hq : 0 ≤ q ∧ q ≤ 1)
include hbase hq

theorem combinedProbability_mem (k : ℕ) :
    0 ≤ combinedProbability base q k ∧ combinedProbability base q k ≤ 1 := by
  have hpow0 : 0 ≤ q ^ (k - 1) := pow_nonneg hq.1 _
  have hpow1 : q ^ (k - 1) ≤ 1 := pow_le_one₀ hq.1 hq.2
  rw [combinedProbability]
  constructor <;> nlinarith

/-- More replicas never lower it. -/
theorem combinedProbability_mono {j k : ℕ} (h : j ≤ k) :
    combinedProbability base q j ≤ combinedProbability base q k := by
  have hpow : q ^ (k - 1) ≤ q ^ (j - 1) := pow_le_pow_of_le_one hq.1 hq.2 (by omega)
  have hrest : 0 ≤ 1 - base := sub_nonneg.mpr hbase.2
  rw [combinedProbability, combinedProbability]
  gcongr

end Combined

@[simp] theorem combinedProbability_one (base q : ℚ) : combinedProbability base q 1 = base := by
  simp [combinedProbability]

/-- The threshold is reached exactly when the expected loss covers the cost, and there
is something to lose. -/
theorem minAuditProbability_le_iff (w : WorkloadEconomics) (p : ℚ) :
    minAuditProbability w ≤ p ↔ 0 < w.atStake ∧ w.honestCost ≤ p * w.atStake := by
  have hdenom : w.stakeAtRisk + w.reward = w.atStake := rfl
  rw [minAuditProbability, hdenom]
  rcases w.atStake_nonneg.eq_or_lt with h | h
  · simp [← h]
  · simp only [h.ne', if_false, WithTop.coe_le_coe, h, true_and]
    exact div_le_iff₀ h

/-! ## The recommendation -/

section Recommendation
variable (w : WorkloadEconomics) {base q : ℚ} (hbase : 0 ≤ base ∧ base ≤ 1)
  (hq : 0 ≤ q ∧ q ≤ 1) {maxReplicas : ℕ} (hmax : 1 ≤ maxReplicas)
include hbase hq hmax

/-- The branches of the recommendation are one search from one replica upwards. -/
theorem recommendedRedundancy_eq :
    recommendedRedundancy w base q maxReplicas =
      .ok (((List.range' 1 maxReplicas).find? fun k =>
        minAuditProbability w ≤ combinedProbability base q k).getD maxReplicas) := by
  have hcons : List.range' 1 maxReplicas = 1 :: List.range' 2 (maxReplicas - 1) := by
    obtain ⟨n, rfl⟩ : ∃ n, maxReplicas = n + 1 := ⟨maxReplicas - 1, by omega⟩
    rfl
  rw [recommendedRedundancy, checkProb_of_mem hbase]
  simp only [bind, Except.bind, pure, Except.pure]
  by_cases hone : 1 < minAuditProbability w
  · -- a threshold above one is out of reach of every redundancy
    have hnone : ∀ k, ¬ minAuditProbability w ≤ combinedProbability base q k := by
      intro k hk
      have hle : ((combinedProbability base q k : ℚ) : WithTop ℚ) ≤ 1 :=
        WithTop.coe_le_coe.mpr (combinedProbability_mem hbase hq k).2
      exact absurd (hone.trans_le (hk.trans hle)) (lt_irrefl _)
    have hfind : ((List.range' 1 maxReplicas).find? fun k =>
        minAuditProbability w ≤ combinedProbability base q k) = none :=
      List.find?_eq_none.mpr fun k _ => by simpa using hnone k
    rw [if_pos hone, hfind]
    rfl
  · by_cases hsample : minAuditProbability w ≤ base
    · simp [hone, hsample, hcons]
    · have hsearch : (List.range' 2 (maxReplicas - 1)).findM?
          (reachesThreshold (minAuditProbability w) base q) =
            .ok ((List.range' 2 (maxReplicas - 1)).find? fun k =>
              minAuditProbability w ≤ combinedProbability base q k) := by
        refine findM?_eq_find? _ fun k hk => reachesThreshold_eq _ _ ?_ hq
        exact le_trans one_le_two (List.mem_range'_1.mp hk).1
      simp [hone, hsample, hcons, hsearch]

/-- **The recommendation is the least redundancy that reaches the threshold**, and the
cap when none does. -/
theorem recommendedRedundancy_reaches :
    ∃ k, recommendedRedundancy w base q maxReplicas = .ok k ∧
      IsLeastUpTo (fun k => minAuditProbability w ≤ combinedProbability base q k)
        maxReplicas k :=
  ⟨_, recommendedRedundancy_eq w hbase hq hmax, isLeastUpTo_find _ hmax⟩

end Recommendation

/-- Cheating is unprofitable at the audit probability that `k` replicas give. -/
def Deters (w : WorkloadEconomics) (base q : ℚ) (k : ℕ) : Prop :=
  ∃ detected, detectionProbability k q = .ok detected ∧
    isCheatingUnprofitable w (base + (1 - base) * detected) = .ok true

theorem deters_iff (w : WorkloadEconomics) {base q : ℚ} (hbase : 0 ≤ base ∧ base ≤ 1)
    (hq : 0 ≤ q ∧ q ≤ 1) {k : ℕ} (hk : 1 ≤ k) :
    Deters w base q k ↔ w.honestCost < combinedProbability base q k * w.atStake := by
  have hprob : isCheatingUnprofitable w (base + (1 - base) * (1 - q ^ (k - 1))) = _ :=
    isCheatingUnprofitable_eq w (combinedProbability_mem hbase hq k)
  simp only [Deters, detectionProbability_eq hk hq, Except.ok.injEq, exists_eq_left', hprob,
    decide_eq_true_eq, combinedProbability]

/-- A deterring redundancy reaches the threshold. -/
theorem reaches_of_deters {w : WorkloadEconomics} {base q : ℚ} (hbase : 0 ≤ base ∧ base ≤ 1)
    (hq : 0 ≤ q ∧ q ≤ 1) {k : ℕ} (hk : 1 ≤ k) (h : Deters w base q k) :
    0 < w.atStake ∧ w.honestCost ≤ combinedProbability base q k * w.atStake := by
  rw [deters_iff w hbase hq hk] at h
  constructor
  · rcases w.atStake_nonneg.eq_or_lt with hzero | hpos
    · rw [← hzero, mul_zero] at h
      exact absurd w.cost_nonneg h.not_ge
    · exact hpos
  · exact h.le

/-- Of the least redundancy that reaches the threshold only its own strictness is open. -/
theorem recommendedRedundancy_least_iff_strict (w : WorkloadEconomics) {base q : ℚ}
    (hbase : 0 ≤ base ∧ base ≤ 1) (hq : 0 ≤ q ∧ q ≤ 1) {maxReplicas k : ℕ}
    (hmax : 1 ≤ maxReplicas) (hk : recommendedRedundancy w base q maxReplicas = .ok k)
    (h1 : 1 ≤ k) (hkmax : k ≤ maxReplicas)
    (hbelow : ∀ j, 1 ≤ j → j < k →
      ¬ (0 < w.atStake ∧ w.honestCost ≤ combinedProbability base q j * w.atStake)) :
    (∃ j, recommendedRedundancy w base q maxReplicas = .ok j ∧
        IsLeastUpTo (Deters w base q) maxReplicas j) ↔
      (k < maxReplicas → w.honestCost < combinedProbability base q k * w.atStake) := by
  simp only [hk, Except.ok.injEq, exists_eq_left', isLeastUpTo_iff hmax, deters_iff w hbase hq h1]
  constructor
  · intro h
    exact h.2.2.2
  · intro hdeters
    exact ⟨h1, hkmax, fun j hj hjk hdet => hbelow j hj hjk (reaches_of_deters hbase hq hj hdet),
      hdeters⟩

/-- **When the recommendation is the least deterring redundancy**: exactly when no
redundancy below the cap meets the threshold without exceeding it. -/
theorem recommendedRedundancy_least_iff (w : WorkloadEconomics) {base q : ℚ}
    (hbase : 0 ≤ base ∧ base ≤ 1) (hq : 0 ≤ q ∧ q ≤ 1) {maxReplicas : ℕ}
    (hmax : 1 ≤ maxReplicas) :
    (∃ k, recommendedRedundancy w base q maxReplicas = .ok k ∧
        IsLeastUpTo (Deters w base q) maxReplicas k) ↔
      (w.stakeAtRisk + w.reward = 0 ∨ ∀ k, 1 ≤ k → k < maxReplicas →
        w.honestCost ≠ combinedProbability base q k * (w.stakeAtRisk + w.reward)) := by
  obtain ⟨k, hk, hreaches⟩ := recommendedRedundancy_reaches w hbase hq hmax
  simp only [isLeastUpTo_iff hmax, minAuditProbability_le_iff] at hreaches
  obtain ⟨h1, hkmax, hbelow, hat⟩ := hreaches
  rw [recommendedRedundancy_least_iff_strict w hbase hq hmax hk h1 hkmax hbelow]
  change _ ↔ w.atStake = 0 ∨ ∀ k, 1 ≤ k → k < maxReplicas →
    w.honestCost ≠ combinedProbability base q k * w.atStake
  constructor
  · intro hstrict
    refine or_iff_not_imp_left.mpr fun hne j hj hjmax heq => ?_
    have hpos : 0 < w.atStake := lt_of_le_of_ne w.atStake_nonneg (Ne.symm hne)
    have hkj : k ≤ j := by
      by_contra hlt
      exact hbelow j hj (by omega) ⟨hpos, heq.le⟩
    have hmono := combinedProbability_mono hbase hq hkj
    have hlt := hstrict (by omega)
    rw [heq] at hlt
    exact absurd (lt_of_mul_lt_mul_right hlt hpos.le) hmono.not_gt
  · intro hexact hlt
    obtain ⟨hpos, hle⟩ := hat hlt
    rcases hexact with hzero | hexact
    · exact absurd hzero hpos.ne'
    · exact lt_of_le_of_ne hle (hexact k h1 hlt)

/-- A workload that the default sampling rate deters with room to spare. -/
def sampledWorkload : WorkloadEconomics :=
  { honestCost := 1, reward := 40, stakeAtRisk := 60,
    cost_nonneg := by decide, reward_nonneg := by decide, stake_nonneg := by decide }

/-- A workload whose threshold is the default sampling rate itself. -/
def marginalWorkload : WorkloadEconomics :=
  { honestCost := 3, reward := 40, stakeAtRisk := 60,
    cost_nonneg := by decide, reward_nonneg := by decide, stake_nonneg := by decide }

theorem sampledWorkload_least :
    ∃ k, recommendedRedundancy sampledWorkload (3 / 100) (1 / 10) 5 = .ok k ∧
      IsLeastUpTo (Deters sampledWorkload (3 / 100) (1 / 10)) 5 k := by
  have hbase : (0 : ℚ) ≤ 3 / 100 ∧ (3 / 100 : ℚ) ≤ 1 := by norm_num
  have hq : (0 : ℚ) ≤ 1 / 10 ∧ (1 / 10 : ℚ) ≤ 1 := by norm_num
  refine (recommendedRedundancy_least_iff sampledWorkload hbase hq (by decide)).mpr (.inr ?_)
  intro k hk _
  have hmono := combinedProbability_mono hbase hq hk
  rw [combinedProbability_one] at hmono
  simp only [sampledWorkload]
  linarith

/-- At the marginal workload sampling alone is recommended, and does not deter. -/
theorem marginalWorkload_not_deterred :
    ¬ ∀ (w : WorkloadEconomics) (base q : ℚ), 0 ≤ base ∧ base ≤ 1 → 0 ≤ q ∧ q ≤ 1 →
      ∀ maxReplicas, 1 ≤ maxReplicas → ∃ k, recommendedRedundancy w base q maxReplicas = .ok k ∧
        IsLeastUpTo (Deters w base q) maxReplicas k := by
  intro h
  have hbase : (0 : ℚ) ≤ 3 / 100 ∧ (3 / 100 : ℚ) ≤ 1 := by norm_num
  have hq : (0 : ℚ) ≤ 1 / 10 ∧ (1 / 10 : ℚ) ≤ 1 := by norm_num
  obtain ⟨k, hk, hleast⟩ := h marginalWorkload (3 / 100) (1 / 10) hbase hq 5 (by decide)
  have hone : recommendedRedundancy marginalWorkload (3 / 100) (1 / 10) 5 = .ok 1 := by
    decide +kernel
  obtain rfl : 1 = k := Except.ok.inj (hone.symm.trans hk)
  have hdeters := ((isLeastUpTo_iff (by decide)).mp hleast).2.2.2 (by decide)
  rw [deters_iff marginalWorkload hbase hq le_rfl, combinedProbability_one] at hdeters
  norm_num [marginalWorkload, WorkloadEconomics.atStake] at hdeters

end YeBlock
