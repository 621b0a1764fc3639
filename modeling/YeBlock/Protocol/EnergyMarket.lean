import YeBlock.Protocol.RoutedShards

/-!
# The energy market: energy-aware routing

Batch and bulk workloads add energy cost and carbon intensity to the scores of the
standard matcher, normalized within the eligible pool.  Interactive workloads keep the
plain scores.  An operator without an attested profile is given the worst cost and
carbon observed among those that have one.

The rescored list is a function of the scored pool and of the profiles of its members,
so what holds of the scored pool under reordering holds here too, and the profile of
anybody else is never read.

## Main definitions

* `EnergyProfile`, `EnergyWeights`, `energyAwareScores` — the source's.
* `routing_replayable` — scores and shard depend on the eligible operators alone.
-/

namespace YeBlock

open Lib

/-- The attested energy signals of an operator. -/
structure EnergyProfile where
  energyCostPerKwh : ℚ
  carbonIntensity : ℚ
  inSurplusWindow : Bool := false
  deriving DecidableEq

structure EnergyWeights where
  energy : ℚ := 1 / 4
  carbon : ℚ := 1 / 10
  surplusBonus : ℚ := 1 / 20

/-- The worst signal among the operators that have a profile, zero if none has. -/
def worstSignal (signal : EnergyProfile → ℚ) (profiles : Dict Identity EnergyProfile)
    (eligibleOps : List Operator) : ℚ :=
  ((eligibleOps.filterMap fun o => profiles.get? o.identity).map signal).max?.getD 0

/-- The signal of an operator, the worst one if it has no profile. -/
def signalOf (signal : EnergyProfile → ℚ) (profiles : Dict Identity EnergyProfile)
    (eligibleOps : List Operator) (o : Operator) : ℚ :=
  match profiles.get? o.identity with
  | some profile => signal profile
  | none => worstSignal signal profiles eligibleOps

/-- Whether an attested profile says that the operator has power to spare. -/
def inSurplus (profiles : Dict Identity EnergyProfile) (op : Operator) : Bool :=
  match profiles.get? op.identity with
  | some profile => profile.inSurplusWindow
  | none => false

/-- Score operators with energy signals layered on the standard matcher. -/
def energyAwareScores (operators : List Operator) (profiles : Dict Identity EnergyProfile)
    (req : RoutingRequest) (latencyClass : String := "batch") (baseWeights : RoutingWeights := {})
    (energyWeights : EnergyWeights := {}) : Except PyError (List (Operator × ℚ)) := do
  let base ← scoreOperators operators req baseWeights
  if latencyClass = "interactive" ∨ base = [] then
    return base
  else
    let eligibleOps := base.map Prod.fst
    let costs := eligibleOps.map (signalOf EnergyProfile.energyCostPerKwh profiles eligibleOps)
    let carbons := eligibleOps.map (signalOf EnergyProfile.carbonIntensity profiles eligibleOps)
    let costN ← normalize costs
    let carbonN ← normalize carbons
    let rescored := (base.zip (costN.zip carbonN)).map fun ((op, score), cN, gN) =>
      let score := score + energyWeights.energy * (1 - cN)
      let score := score + energyWeights.carbon * (1 - gN)
      (op, if inSurplus profiles op then score + energyWeights.surplusBonus else score)
    return sortBy scoreKey rescored

/-! ## What the scores are a function of -/

section Adjustment
variable (profiles : Dict Identity EnergyProfile) (members : List Operator)
  (energyWeights : EnergyWeights)

/-- The place of an operator's signal among those of the members. -/
def signalPlace (signal : EnergyProfile → ℚ) (op : Operator) : ℚ :=
  rescaleIn (members.map (signalOf signal profiles members)) (signalOf signal profiles members op)

/-- What the energy signals add to the score of an operator. -/
def energyAdjustment (op : Operator) : ℚ :=
  energyWeights.energy * (1 - signalPlace profiles members EnergyProfile.energyCostPerKwh op) +
      energyWeights.carbon * (1 - signalPlace profiles members EnergyProfile.carbonIntensity op) +
    if inSurplus profiles op then energyWeights.surplusBonus else 0

end Adjustment

/-- The scored operators with the energy signals added, best first. -/
def rescored (profiles : Dict Identity EnergyProfile) (energyWeights : EnergyWeights)
    (base : List (Operator × ℚ)) : List (Operator × ℚ) :=
  sortBy scoreKey (base.map fun t =>
    (t.1, t.2 + energyAdjustment profiles (base.map Prod.fst) energyWeights t.1))

/-- **The algorithm returns the rescored pool**, and never raises. -/
theorem energyAwareScores_eq (operators : List Operator) (profiles : Dict Identity EnergyProfile)
    (req : RoutingRequest) (latencyClass : String) (baseWeights : RoutingWeights)
    (energyWeights : EnergyWeights) :
    energyAwareScores operators profiles req latencyClass baseWeights energyWeights =
      .ok (if latencyClass = "interactive" then
          scoredPool (eligiblePool operators req) req baseWeights
        else
          rescored profiles energyWeights
            (scoredPool (eligiblePool operators req) req baseWeights)) := by
  rw [energyAwareScores, scoreOperators_eq]
  generalize scoredPool (eligiblePool operators req) req baseWeights = base
  simp only [bind, Except.bind, pure, Except.pure]
  by_cases hclass : latencyClass = "interactive"
  · rw [if_pos (.inl hclass), if_pos hclass]
  by_cases hempty : base = []
  · subst hempty
    rw [if_pos (.inr rfl), if_neg hclass]
    rfl
  · have hzip : ∀ f g : Operator × ℚ → ℚ, base.zip ((base.map f).zip (base.map g)) =
        base.map fun t => (t, f t, g t) := by
      intro f g
      rw [List.zip_map', List.map_prod_left_eq_zip]
    rw [if_neg (not_or.mpr ⟨hclass, hempty⟩), if_neg hclass, normalize_eq (by simpa using hempty),
      normalize_eq (by simpa using hempty)]
    simp only [List.map_map, hzip, rescored]
    congr 2
    apply List.map_congr_left
    intro t _
    simp only [Function.comp_apply, energyAdjustment, signalPlace, List.map_map]
    split <;> simp [add_assoc]

section Congr
variable {profiles profiles' : Dict Identity EnergyProfile} {members : List Operator}
  (h : ∀ op ∈ members, profiles.get? op.identity = profiles'.get? op.identity)
include h

theorem signalOf_congr (signal : EnergyProfile → ℚ) {op : Operator} (hop : op ∈ members) :
    signalOf signal profiles members op = signalOf signal profiles' members op := by
  have hworst : worstSignal signal profiles members = worstSignal signal profiles' members := by
    rw [worstSignal, worstSignal, List.filterMap_congr h]
  rw [signalOf, signalOf, h op hop, hworst]

/-- The adjustments of the members are read from the members' profiles. -/
theorem energyAdjustment_congr (energyWeights : EnergyWeights) {op : Operator}
    (hop : op ∈ members) :
    energyAdjustment profiles members energyWeights op =
      energyAdjustment profiles' members energyWeights op := by
  have hplace : ∀ signal, signalPlace profiles members signal op =
      signalPlace profiles' members signal op := by
    intro signal
    rw [signalPlace, signalPlace, signalOf_congr h signal hop,
      List.map_congr_left fun o ho => signalOf_congr h signal ho]
  rw [energyAdjustment, energyAdjustment, hplace, hplace, inSurplus, inSurplus, h op hop]

end Congr

/-- **Routing is replayable from the eligible operators alone**: with distinct
identities, the scores, the shard, the redundancy and the energy-aware scores are the
same for any two lists with the same eligible operators, and whatever the profiles of
the others. -/
theorem routing_replayable {req : RoutingRequest} {operators operators' : List Operator}
    (hids : (operators.map Operator.identity).Nodup) (h : SameEligible req operators operators')
    {profiles profiles' : Dict Identity EnergyProfile}
    (hprofiles : ∀ op ∈ eligiblePool operators req,
      profiles.get? op.identity = profiles'.get? op.identity)
    (weights : RoutingWeights) (baseAuditProb : ℚ) (latencyClass : String)
    (energyWeights : EnergyWeights) :
    scoreOperators operators req weights = scoreOperators operators' req weights ∧
      (route operators req weights baseAuditProb).map (fun d => (d.shard, d.redundancy)) =
        (route operators' req weights baseAuditProb).map (fun d => (d.shard, d.redundancy)) ∧
      energyAwareScores operators profiles req latencyClass weights energyWeights =
        energyAwareScores operators' profiles' req latencyClass weights energyWeights := by
  refine ⟨scoreOperators_eq_of_sameEligible hids h weights,
    route_eq_of_sameEligible hids h weights baseAuditProb, ?_⟩
  have hmembers : ∀ op ∈ (scoredPool (eligiblePool operators req) req weights).map Prod.fst,
      profiles.get? op.identity = profiles'.get? op.identity := by
    intro op hop
    exact hprofiles op ((perm_scoredPool _ _ _).mem_iff.mp hop)
  rw [energyAwareScores_eq, energyAwareScores_eq,
    ← scoredPool_eq_of_perm req weights h (nodup_identity_eligiblePool hids req), rescored,
    rescored, List.map_congr_left fun t ht => by
      rw [energyAdjustment_congr hmembers energyWeights (List.mem_map_of_mem ht)]]

/-- An operator whose hardware is too small for the request. -/
def smallOperator : Operator :=
  { identity := "op-c", reputation := 1, pricePer1kTokens := 1, estLatencyMs := 10, stake := 50,
    vramGb := 8 }

/-- A profile of that operator alone. -/
def smallProfiles : Dict Identity EnergyProfile where
  items := [("op-c", { energyCostPerKwh := 1 / 50, carbonIntensity := 20 })]
  nodup_keys := by decide

/-- The small operator and its profile change nothing, wherever it is offered. -/
theorem routing_replayable_twinOperators :
    let operators' := smallOperator :: (twinOperators 9).reverse
    scoreOperators (twinOperators 9) (valuableRequest 9) =
        scoreOperators operators' (valuableRequest 9) ∧
      (route (twinOperators 9) (valuableRequest 9)).map (fun d => (d.shard, d.redundancy)) =
        (route operators' (valuableRequest 9)).map (fun d => (d.shard, d.redundancy)) ∧
      energyAwareScores (twinOperators 9) ∅ (valuableRequest 9) =
        energyAwareScores operators' smallProfiles (valuableRequest 9) := by
  have hids : ((twinOperators 9).map Operator.identity).Nodup := by decide
  have hreverse : SameEligible (valuableRequest 9) (twinOperators 9) (twinOperators 9).reverse :=
    sameEligible_of_perm _ (List.reverse_perm _).symm
  have hsmall : SameEligible (valuableRequest 9) (smallOperator :: (twinOperators 9).reverse)
      (twinOperators 9).reverse := sameEligible_insert (by decide) [] _
  have hprofiles : ∀ op ∈ eligiblePool (twinOperators 9) (valuableRequest 9),
      (∅ : Dict Identity EnergyProfile).get? op.identity = smallProfiles.get? op.identity := by
    decide +kernel
  exact routing_replayable hids (hreverse.trans hsmall.symm) hprofiles {} (3 / 100) "batch" {}

end YeBlock
