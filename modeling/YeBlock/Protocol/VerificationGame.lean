import YeBlock.Lib.Lottery
import YeBlock.Protocol.EconomicSecurity

/-!
# The verification game

The formulas of the economic model summarise a game.  An operator runs a workload on one of
`k` cross-checked replicas, honestly or not.  The workload is audited by chance, and every
other replica colludes by chance, independently; a cheat is detected by an audit or by a
replica that does not collude.  An honest operator earns its reward less its cost, an
undetected cheat the whole reward, and a detected cheat loses its stake.

The game is played here by finite lotteries.  The detection probability and the advantage of
cheating are those of the game, and the recommended redundancy is the least at which
cheating has no advantage in it.  Over a sequence of workloads at such redundancies an
operator that may choose each move by what it has seen so far cannot beat honesty.

## Main definitions

* `Draw`, `draw` — what chance decides about one workload.
* `payoff` — what an operator gets for it.
* `advantage_of_game`, `recommendedRedundancy_game` — the formulas are about the game.
* `season`, `honesty_optimal` — sequences of workloads.
-/

namespace YeBlock

open Lib

/-! ## One workload -/

/-- What chance decides about a workload: whether it is audited, and which of the other
replicas collude. -/
structure Draw where
  audited : Bool
  colluding : List Bool

namespace Draw

/-- The cross-check disagrees: some other replica does not collude. -/
def disagrees (r : Draw) : Bool := !r.colluding.all id

/-- A cheat is seen, by the audit or by the cross-check. -/
def detected (r : Draw) : Bool := r.audited || r.disagrees

end Draw

/-- What an operator gets for a workload, if it cheats and if it does not. -/
def payoff (w : WorkloadEconomics) (cheats : Bool) (r : Draw) : ℚ :=
  if cheats then
    if r.detected then -w.stakeAtRisk else w.reward
  else
    w.reward - w.honestCost

section Game
variable {base q : ℚ} (hbase : 0 ≤ base ∧ base ≤ 1) (hq : 0 ≤ q ∧ q ≤ 1)

/-- Chance's move at a workload on `k` replicas. -/
def draw (k : ℕ) : Lottery Draw :=
  (Lottery.chance base hbase).bind fun audited =>
    ((Lottery.chance q hq).times (k - 1)).bind fun colluding => .sure ⟨audited, colluding⟩

/-- What a strategy for one workload is worth. -/
def worth (w : WorkloadEconomics) (k : ℕ) (cheats : Bool) : ℚ :=
  (draw hbase hq k).expect (payoff w cheats)

/-- Some other replica does not collude, however many there are. -/
theorem prob_some_honest (n : ℕ) :
    ((Lottery.chance q hq).times n).prob (fun colluding => !colluding.all id) = 1 - q ^ n := by
  rw [Lottery.prob_not, Lottery.prob_all_times]
  simp [Lottery.prob]

/-- The cross-check catches a cheat with the source's detection probability. -/
theorem prob_disagrees (k : ℕ) :
    (draw hbase hq k).prob Draw.disagrees = 1 - q ^ (k - 1) := by
  -- whether the workload is audited makes no difference
  have hmixed : ∀ x : ℚ, base * x + (1 - base) * x = x := by
    intro x
    ring
  rw [← prob_some_honest hq, draw, Lottery.prob, Lottery.expect_bind, Lottery.expect_chance]
  simp only [Lottery.expect_bind, Lottery.expect_sure, Draw.disagrees, Lottery.prob]
  exact hmixed _

/-- A cheat is detected with the combined probability. -/
theorem prob_detected (k : ℕ) :
    (draw hbase hq k).prob Draw.detected = combinedProbability base q k := by
  rw [combinedProbability, ← prob_some_honest hq, draw, Lottery.prob, Lottery.expect_bind,
    Lottery.expect_chance]
  simp only [Lottery.expect_bind, Lottery.expect_sure, Draw.detected, Draw.disagrees,
    Bool.true_or, Bool.false_or, if_true, Lottery.expect_const, Lottery.prob, mul_one]

/-- Honesty is worth the reward less the cost. -/
theorem worth_honest (w : WorkloadEconomics) (k : ℕ) :
    worth hbase hq w k false = w.reward - w.honestCost :=
  Lottery.expect_const _ _

/-- Cheating is worth the reward, less what is at stake as often as it is detected. -/
theorem worth_cheat (w : WorkloadEconomics) (k : ℕ) :
    worth hbase hq w k true = w.reward - combinedProbability base q k * w.atStake := by
  change ((draw hbase hq k).expect fun r =>
    if r.detected then -w.stakeAtRisk else w.reward) = _
  rw [Lottery.expect_ite, prob_detected, WorkloadEconomics.atStake]
  ring

/-- Cheating is worth more by the cost saved, less what is lost when it is detected. -/
theorem worth_sub (w : WorkloadEconomics) (k : ℕ) :
    worth hbase hq w k true - worth hbase hq w k false =
      w.honestCost - combinedProbability base q k * w.atStake := by
  rw [worth_cheat, worth_honest]
  ring

/-- **The formulas are about the game**: on every number of replicas the detection
probability is the probability that the cross-check catches a cheat, and the expected
advantage at the combined audit probability is what cheating is worth more than honesty. -/
theorem advantage_of_game (w : WorkloadEconomics) {k : ℕ} (hk : 1 ≤ k) :
    detectionProbability k q = .ok ((draw hbase hq k).prob Draw.disagrees) ∧
      expectedCheatingAdvantage w ((draw hbase hq k).prob Draw.detected) =
        .ok (worth hbase hq w k true - worth hbase hq w k false) := by
  have hprob := combinedProbability_mem hbase hq k
  rw [prob_disagrees, prob_detected, worth_sub, expectedCheatingAdvantage,
    checkProb_of_mem hprob]
  exact ⟨detectionProbability_eq hk hq, rfl⟩

/-- **The recommendation is the least redundancy at which cheating does not pay**: of the
numbers of replicas up to the cap, the first on which cheating is worth at most as much as
honesty, and the cap if there is none. -/
theorem recommendedRedundancy_game (w : WorkloadEconomics) (hstake : 0 < w.stakeAtRisk + w.reward)
    {maxReplicas : ℕ} (hmax : 1 ≤ maxReplicas) :
    ∃ k, recommendedRedundancy w base q maxReplicas = .ok k ∧
      IsLeastUpTo (fun k => worth hbase hq w k true ≤ worth hbase hq w k false) maxReplicas k := by
  obtain ⟨k, hk, hleast⟩ := recommendedRedundancy_reaches w hbase hq hmax
  refine ⟨k, hk, ?_⟩
  have hsame : (fun k => minAuditProbability w ≤ combinedProbability base q k) =
      fun k => worth hbase hq w k true ≤ worth hbase hq w k false := by
    funext k
    have hdiff := worth_sub hbase hq w k
    have hpos : 0 < w.atStake := hstake
    rw [eq_iff_iff, minAuditProbability_le_iff, ← sub_nonpos (a := worth hbase hq w k true), hdiff,
      sub_nonpos]
    exact and_iff_right hpos
  rwa [← hsame]

end Game

theorem samplingRate_mem : (0 : ℚ) ≤ 3 / 100 ∧ (3 / 100 : ℚ) ≤ 1 := by norm_num

theorem collusionRate_mem : (0 : ℚ) ≤ 1 / 10 ∧ (1 / 10 : ℚ) ≤ 1 := by norm_num

theorem advantage_of_game_sampled :
    detectionProbability 2 (1 / 10) =
        .ok ((draw samplingRate_mem collusionRate_mem 2).prob Draw.disagrees) ∧
      expectedCheatingAdvantage sampledWorkload
          ((draw samplingRate_mem collusionRate_mem 2).prob Draw.detected) =
        .ok (worth samplingRate_mem collusionRate_mem sampledWorkload 2 true -
          worth samplingRate_mem collusionRate_mem sampledWorkload 2 false) :=
  advantage_of_game samplingRate_mem collusionRate_mem sampledWorkload (by decide)

theorem recommendedRedundancy_game_marginal :
    ∃ k, recommendedRedundancy marginalWorkload (3 / 100) (1 / 10) 5 = .ok k ∧
      IsLeastUpTo (fun k => worth samplingRate_mem collusionRate_mem marginalWorkload k true ≤
        worth samplingRate_mem collusionRate_mem marginalWorkload k false) 5 k :=
  recommendedRedundancy_game samplingRate_mem collusionRate_mem marginalWorkload
    (by norm_num [marginalWorkload]) (by decide)

/-! ## A sequence of workloads -/

/-- A workload and the number of replicas it runs on. -/
structure Assignment where
  workload : WorkloadEconomics
  replicas : ℕ

section Season
variable {base q : ℚ} (hbase : 0 ≤ base ∧ base ≤ 1) (hq : 0 ≤ q ∧ q ≤ 1)

/-- What an operator earns over a sequence of workloads, if it chooses each move by the
rounds it has seen. -/
def season (strategy : List Draw → Bool) : List Draw → List Assignment → Lottery ℚ
  | _, [] => .sure 0
  | seen, a :: rest =>
      (draw hbase hq a.replicas).bind fun r =>
        (season strategy (seen ++ [r]) rest).bind fun earned =>
          .sure (payoff a.workload (strategy seen) r + earned)

/-- What honesty earns over a sequence of workloads. -/
def honestEarnings (assignments : List Assignment) : ℚ :=
  (assignments.map fun a => a.workload.reward - a.workload.honestCost).sum

/-- Where cheating does not pay at any workload, no strategy beats honesty. -/
theorem season_le_of_worth (strategy : List Draw → Bool) {assignments : List Assignment}
    (h : ∀ a ∈ assignments, worth hbase hq a.workload a.replicas true ≤
      worth hbase hq a.workload a.replicas false) : ∀ seen,
      (season hbase hq strategy seen assignments).expect id ≤ honestEarnings assignments := by
  induction assignments with
  | nil =>
      intro seen
      simp [season, honestEarnings]
  | cons a rest ih =>
      intro seen
      have hrest := ih fun a' ha' => h a' (List.mem_cons_of_mem a ha')
      have hmove : worth hbase hq a.workload a.replicas (strategy seen) ≤
          a.workload.reward - a.workload.honestCost := by
        rw [← worth_honest hbase hq a.workload a.replicas]
        cases strategy seen with
        | true => exact h a List.mem_cons_self
        | false => exact le_rfl
      have hnext : ∀ r, ((season hbase hq strategy (seen ++ [r]) rest).bind fun earned =>
          Lottery.sure (payoff a.workload (strategy seen) r + earned)).expect id ≤
            payoff a.workload (strategy seen) r + honestEarnings rest := by
        intro r
        rw [Lottery.expect_bind]
        simp only [Lottery.expect_sure, id]
        rw [Lottery.expect_add, Lottery.expect_const]
        exact add_le_add_right (hrest (seen ++ [r])) _
      rw [season, Lottery.expect_bind]
      refine ((draw hbase hq a.replicas).expect_mono hnext).trans ?_
      have hsum : honestEarnings (a :: rest) =
          a.workload.reward - a.workload.honestCost + honestEarnings rest := List.sum_cons
      rw [Lottery.expect_add, Lottery.expect_const, hsum]
      exact add_le_add_left hmove _

/-- **Honesty is an optimal strategy**: over every sequence of workloads, each on its
recommended redundancy below the cap, an operator earns at most what honesty does, in
expectation, even if it chooses each move by what it has seen. -/
theorem honesty_optimal (strategy : List Draw → Bool) (assignments : List Assignment)
    (maxReplicas : ℕ)
    (hrecommended : ∀ a ∈ assignments,
      recommendedRedundancy a.workload base q maxReplicas = .ok a.replicas)
    (hbelow : ∀ a ∈ assignments, a.replicas < maxReplicas) :
    (season hbase hq strategy [] assignments).expect id ≤ honestEarnings assignments := by
  refine season_le_of_worth hbase hq strategy (fun a ha => ?_) []
  have hlt := hbelow a ha
  have hmax : 1 ≤ maxReplicas := by omega
  obtain ⟨k, hk, hleast⟩ := recommendedRedundancy_reaches a.workload hbase hq hmax
  obtain rfl : a.replicas = k := Except.ok.inj ((hrecommended a ha).symm.trans hk)
  have hreached := ((isLeastUpTo_iff (by omega)).mp hleast).2.2.2 hlt
  rw [minAuditProbability_le_iff] at hreached
  have hdiff := worth_sub hbase hq a.workload a.replicas
  linarith [hreached.2]

end Season

theorem honesty_optimal_sampled :
    (season samplingRate_mem collusionRate_mem (fun seen => seen.length = 1) []
        [⟨sampledWorkload, 1⟩, ⟨sampledWorkload, 1⟩]).expect id ≤
      honestEarnings [⟨sampledWorkload, 1⟩, ⟨sampledWorkload, 1⟩] := by
  have hone : recommendedRedundancy sampledWorkload (3 / 100) (1 / 10) 5 = .ok 1 := by
    decide +kernel
  refine honesty_optimal _ _ _ _ 5 ?_ ?_
  · simpa using hone
  · simp

end YeBlock
