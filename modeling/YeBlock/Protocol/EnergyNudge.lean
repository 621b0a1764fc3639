import YeBlock.Protocol.Ranks

/-!
# Energy can only nudge

The energy-aware scores are the scores of the standard matcher, each with an adjustment
between zero and the sum of the energy weights.  The adjustment reads an operator's place
among the observed signals, and an operator without a profile is placed at the worst, so
no operator gets less.  A lead of more than the weights cannot be overtaken.

## Main definitions

* `EnergyWeights.Nonneg`, `EnergyWeights.total` — non-negative weights, and their sum.
* `energyAdjustment_mem`, `energyAdjustment_le_of_unattested` — bounds of an adjustment.
* `EnergyNudge`, `energy_nudges` — what the energy signals do to the scores.
-/

namespace YeBlock

open Lib

namespace EnergyWeights

/-- Weights that are not negative. -/
structure Nonneg (w : EnergyWeights) : Prop where
  energy : 0 ≤ w.energy
  carbon : 0 ≤ w.carbon
  surplusBonus : 0 ≤ w.surplusBonus

/-- The most that the signals can add. -/
def total (w : EnergyWeights) : ℚ := w.energy + w.carbon + w.surplusBonus

end EnergyWeights

section Bounds
variable (profiles : Dict Identity EnergyProfile) {members : List Operator}

theorem signalPlace_mem (signal : EnergyProfile → ℚ) {op : Operator} (hop : op ∈ members) :
    0 ≤ signalPlace profiles members signal op ∧ signalPlace profiles members signal op ≤ 1 :=
  rescaleIn_mem (List.mem_map_of_mem hop)

/-- No operator is placed above one without a profile. -/
theorem signalPlace_le_of_unattested (signal : EnergyProfile → ℚ) {op op' : Operator}
    (hnone : profiles.get? op.identity = none) (hop' : op' ∈ members) :
    signalPlace profiles members signal op' ≤ signalPlace profiles members signal op := by
  rw [signalPlace_eq, signalPlace_eq, signalOf_of_none hnone]
  refine rescaleIn_mono ?_
  cases hprofile : profiles.get? op'.identity with
  | none => rw [signalOf_of_none hprofile]
  | some profile =>
      rw [signalOf_of_some hprofile]
      exact le_highest (mem_observed.mpr ⟨op', hop', profile, hprofile, rfl⟩)

/-- What an axis adds is between zero and its weight. -/
theorem axis_mem {weight place : ℚ} (hweight : 0 ≤ weight) (hplace : 0 ≤ place ∧ place ≤ 1) :
    0 ≤ weight * (1 - place) ∧ weight * (1 - place) ≤ weight :=
  ⟨mul_nonneg hweight (sub_nonneg.mpr hplace.2),
    mul_le_of_le_one_right hweight (sub_le_self 1 hplace.1)⟩

variable {energyWeights : EnergyWeights} (hweights : energyWeights.Nonneg)
include hweights

theorem bonus_mem (op : Operator) :
    0 ≤ (if inSurplus profiles op then energyWeights.surplusBonus else 0) ∧
      (if inSurplus profiles op then energyWeights.surplusBonus else 0) ≤
        energyWeights.surplusBonus := by
  split
  · exact ⟨hweights.surplusBonus, le_rfl⟩
  · exact ⟨le_rfl, hweights.surplusBonus⟩

/-- **An adjustment is between zero and the sum of the weights.** -/
theorem energyAdjustment_mem {op : Operator} (hop : op ∈ members) :
    0 ≤ energyAdjustment profiles members energyWeights op ∧
      energyAdjustment profiles members energyWeights op ≤ energyWeights.total := by
  obtain ⟨hcost, hcost'⟩ := axis_mem hweights.energy
    (signalPlace_mem profiles EnergyProfile.energyCostPerKwh hop)
  obtain ⟨hcarbon, hcarbon'⟩ := axis_mem hweights.carbon
    (signalPlace_mem profiles EnergyProfile.carbonIntensity hop)
  obtain ⟨hbonus, hbonus'⟩ := bonus_mem profiles hweights op
  rw [energyAdjustment, EnergyWeights.total]
  exact ⟨add_nonneg (add_nonneg hcost hcarbon) hbonus,
    add_le_add (add_le_add hcost' hcarbon') hbonus'⟩

/-- **An operator without a profile gets the least.** -/
theorem energyAdjustment_le_of_unattested {op op' : Operator}
    (hnone : profiles.get? op.identity = none) (hop' : op' ∈ members) :
    energyAdjustment profiles members energyWeights op ≤
      energyAdjustment profiles members energyWeights op' := by
  have hplace : ∀ signal, 1 - signalPlace profiles members signal op ≤
      1 - signalPlace profiles members signal op' := fun signal =>
    sub_le_sub_left (signalPlace_le_of_unattested profiles signal hnone hop') 1
  have hbonus : (if inSurplus profiles op then energyWeights.surplusBonus else 0) = 0 := by
    simp [inSurplus, hnone]
  rw [energyAdjustment, energyAdjustment, hbonus]
  exact add_le_add (add_le_add (mul_le_mul_of_nonneg_left (hplace _) hweights.energy)
    (mul_le_mul_of_nonneg_left (hplace _) hweights.carbon)) (bonus_mem profiles hweights op').1

end Bounds

/-- What the energy signals do to a scored list: its entries are kept, each with an
adjustment, and put in the order of the adjusted scores. -/
structure EnergyNudge (profiles : Dict Identity EnergyProfile) (energyWeights : EnergyWeights)
    (base rescored : List (Operator × ℚ)) (adjustment : Operator → ℚ) : Prop where
  perm : rescored.Perm (base.map fun t => (t.1, t.2 + adjustment t.1))
  bounded : ∀ t ∈ base, 0 ≤ adjustment t.1 ∧ adjustment t.1 ≤
    energyWeights.energy + energyWeights.carbon + energyWeights.surplusBonus
  unattested_least : ∀ t ∈ base, ∀ t' ∈ base, profiles.get? t.1.identity = none →
    profiles.get? t'.1.identity ≠ none → adjustment t.1 ≤ adjustment t'.1
  sorted : rescored.Pairwise fun a b => b.2 < a.2 ∨ a.2 = b.2 ∧ a.1.identity ≤ b.1.identity
  stays_ahead : ∀ a ∈ base, ∀ b ∈ base,
    b.2 + (energyWeights.energy + energyWeights.carbon + energyWeights.surplusBonus) < a.2 →
    ∀ i j : ℕ, rescored[i]? = some (a.1, a.2 + adjustment a.1) →
      rescored[j]? = some (b.1, b.2 + adjustment b.1) → i < j

/-- **Energy can only nudge**: outside the interactive class the energy-aware scores are
those of the matcher, reordered, each with an adjustment between zero and the sum of the
weights, the least for the operators without a profile. -/
theorem energy_nudges (operators : List Operator) (profiles : Dict Identity EnergyProfile)
    (req : RoutingRequest) {latencyClass : String} (hclass : latencyClass ≠ "interactive")
    (weights : RoutingWeights) {energyWeights : EnergyWeights} (hweights : energyWeights.Nonneg) :
    ∃ base rescored adjustment, scoreOperators operators req weights = .ok base ∧
      energyAwareScores operators profiles req latencyClass weights energyWeights =
        .ok rescored ∧
      EnergyNudge profiles energyWeights base rescored adjustment := by
  have hscores := energyAwareScores_eq operators profiles req latencyClass weights energyWeights
  rw [if_neg hclass] at hscores
  refine ⟨_, _, energyAdjustment profiles (eligiblePool operators req) energyWeights,
    scoreOperators_eq operators req weights, hscores, ?_⟩
  have hbase := rankedBy_scoredPool (eligiblePool operators req) req weights
  have hrescored := rankedBy_rescored (eligiblePool operators req) profiles req weights
    energyWeights
  have hmem : ∀ t ∈ scoredPool (eligiblePool operators req) req weights,
      t.1 ∈ eligiblePool operators req := fun t ht => (hbase.mem_iff.mp ht).1
  constructor
  case perm =>
    exact hrescored.perm.trans (hbase.perm_add _).symm
  case bounded =>
    intro t ht
    exact energyAdjustment_mem profiles hweights (hmem t ht)
  case unattested_least =>
    intro t _ t' ht' hnone _
    exact energyAdjustment_le_of_unattested profiles hweights hnone (hmem t' ht')
  case sorted =>
    refine hrescored.sorted.imp fun {a b} hab => ?_
    rw [scoreKey, scoreKey, Prod.Lex.toLex_le_toLex] at hab
    simpa using hab
  case stays_ahead =>
    intro a ha b hb hlead i j hi hj
    refine hrescored.lt_of_precedes hi hj (.inl ?_)
    have hleast := (energyAdjustment_mem profiles hweights (hmem a ha)).1
    have hmost := (energyAdjustment_mem profiles hweights (hmem b hb)).2
    rw [EnergyWeights.total] at hmost
    linarith

/-- The profiles of one of the twin operators. -/
def halfProfiles : Dict Identity EnergyProfile where
  items := [("op-a", { energyCostPerKwh := 1 / 20, carbonIntensity := 30 })]
  nodup_keys := by decide

theorem energy_nudges_twinOperators :
    ∃ base rescored adjustment,
      scoreOperators (twinOperators 9) (valuableRequest 9) {} = .ok base ∧
      energyAwareScores (twinOperators 9) halfProfiles (valuableRequest 9) "bulk" {} {} =
        .ok rescored ∧
      EnergyNudge halfProfiles {} base rescored adjustment :=
  energy_nudges _ _ _ (by decide) _ ⟨by norm_num, by norm_num, by norm_num⟩

end YeBlock
