import YeBlock.Protocol.Ranks

/-!
# Scores do not depend on the units of account

Prices, latencies, energy costs and carbon intensities enter the scores through their
places among the values of the pool.  Measured in another unit, with another scale and
another origin, they have the same places, so the scores and their order are the same.

## Main definitions

* `UnitChange` — another scale and another origin.
* `Operator.requote`, `EnergyProfile.remeter` — operators and profiles in other units.
* `scores_unit_free` — the scores are those of the old units.
-/

namespace YeBlock

open Lib

/-- Another unit of account: a positive scale, and an origin. -/
structure UnitChange where
  scale : ℚ
  offset : ℚ
  scale_pos : 0 < scale

namespace UnitChange

/-- A value in the new unit. -/
def apply (u : UnitChange) (v : ℚ) : ℚ := u.scale * v + u.offset

/-- The unit itself. -/
def same : UnitChange := ⟨1, 0, one_pos⟩

@[simp] theorem apply_same (v : ℚ) : same.apply v = v := by simp [apply, same]

theorem monotone_apply (u : UnitChange) : Monotone u.apply := fun _ _ h =>
  add_le_add_left (mul_le_mul_of_nonneg_left h u.scale_pos.le) u.offset

theorem rescaleIn_apply (u : UnitChange) (l : List ℚ) (v : ℚ) :
    rescaleIn (l.map u.apply) (u.apply v) = rescaleIn l v :=
  rescaleIn_affine u.scale_pos u.offset l v

end UnitChange

/-- An operator with its quote in other units. -/
def Operator.requote (price latency : UnitChange) (op : Operator) : Operator :=
  { op with
    pricePer1kTokens := price.apply op.pricePer1kTokens
    estLatencyMs := latency.apply op.estLatencyMs }

/-- A profile in other units. -/
def EnergyProfile.remeter (cost carbon : UnitChange) (profile : EnergyProfile) : EnergyProfile :=
  { profile with
    energyCostPerKwh := cost.apply profile.energyCostPerKwh
    carbonIntensity := carbon.apply profile.carbonIntensity }

@[simp] theorem Operator.requote_same (op : Operator) : op.requote .same .same = op := by
  simp [Operator.requote]

@[simp] theorem EnergyProfile.remeter_same (profile : EnergyProfile) :
    profile.remeter .same .same = profile := by
  simp [EnergyProfile.remeter]

/-! ## Quotes -/

section Quotes
variable (price latency : UnitChange) (req : RoutingRequest) (weights : RoutingWeights)

/-- An entry with its operator in other units. -/
def requoteEntry (t : Operator × ℚ) : Operator × ℚ := (t.1.requote price latency, t.2)

/-- Eligibility does not read the quote. -/
theorem eligiblePool_requote (operators : List Operator) :
    eligiblePool (operators.map (Operator.requote price latency)) req =
      (eligiblePool operators req).map (Operator.requote price latency) := by
  have heligible : ∀ op : Operator, eligible (op.requote price latency) req = eligible op req :=
    fun _ => rfl
  rw [eligiblePool, eligiblePool, List.filter_map]
  simp only [Function.comp_def, heligible]

theorem poolScore_requote (pool : List Operator) (op : Operator) :
    poolScore (pool.map (Operator.requote price latency)) req weights
      (op.requote price latency) = poolScore pool req weights op := by
  have hprices : (pool.map (Operator.requote price latency)).map Operator.pricePer1kTokens =
      (pool.map Operator.pricePer1kTokens).map price.apply := by
    rw [List.map_map, List.map_map]
    rfl
  have hlatencies : (pool.map (Operator.requote price latency)).map Operator.estLatencyMs =
      (pool.map Operator.estLatencyMs).map latency.apply := by
    rw [List.map_map, List.map_map]
    rfl
  rw [poolScore, hprices, hlatencies]
  simp only [Operator.requote, UnitChange.rescaleIn_apply]
  rfl

theorem scoredPool_requote (pool : List Operator) :
    scoredPool (pool.map (Operator.requote price latency)) req weights =
      (scoredPool pool req weights).map (requoteEntry price latency) := by
  have hentries : (pool.map (Operator.requote price latency)).map (fun op =>
      (op, poolScore (pool.map (Operator.requote price latency)) req weights op)) =
      (pool.map fun op => (op, poolScore pool req weights op)).map
        (requoteEntry price latency) := by
    rw [List.map_map, List.map_map]
    refine List.map_congr_left fun op _ => ?_
    exact Prod.ext rfl (poolScore_requote price latency req weights pool op)
  rw [scoredPool, hentries, sortBy_map]
  rfl

end Quotes

/-! ## Energy signals -/

section Signals
variable (price latency cost carbon : UnitChange) (profiles : Dict Identity EnergyProfile)
  (members : List Operator)

theorem get?_remeter (op : Operator) :
    (profiles.mapValues (EnergyProfile.remeter cost carbon)).get?
        (op.requote price latency).identity =
      (profiles.get? op.identity).map (EnergyProfile.remeter cost carbon) :=
  Dict.get?_mapValues _ profiles op.identity

/-- A signal that is measured in another unit is placed as before. -/
theorem signalPlace_remeter (signal : EnergyProfile → ℚ) (unit : UnitChange)
    (hsignal : ∀ profile : EnergyProfile,
      signal (profile.remeter cost carbon) = unit.apply (signal profile)) (op : Operator) :
    signalPlace (profiles.mapValues (EnergyProfile.remeter cost carbon))
        (members.map (Operator.requote price latency)) signal (op.requote price latency) =
      signalPlace profiles members signal op := by
  have hget := get?_remeter price latency cost carbon profiles
  have hobserved : observed signal (profiles.mapValues (EnergyProfile.remeter cost carbon))
      (members.map (Operator.requote price latency)) =
        (observed signal profiles members).map unit.apply := by
    simp only [observed, List.filterMap_map, Function.comp_def, hget]
    rw [← List.map_filterMap, List.map_map, List.map_map]
    exact List.map_congr_left fun profile _ => hsignal profile
  rw [signalPlace_eq, signalPlace_eq, hobserved]
  by_cases hnone : observed signal profiles members = []
  · rw [hnone, List.map_nil, rescaleIn_of_flat (a := 0) (by simp),
      rescaleIn_of_flat (a := 0) (by simp)]
  · have hvalue : signalOf signal (profiles.mapValues (EnergyProfile.remeter cost carbon))
        (members.map (Operator.requote price latency)) (op.requote price latency) =
          unit.apply (signalOf signal profiles members op) := by
      cases hop : profiles.get? op.identity with
      | none =>
          rw [signalOf_of_none hop, signalOf_of_none (by rw [hget, hop]; rfl), hobserved, highest,
            max?_map_of_monotone unit.monotone_apply, max?_eq_highest hnone]
          rfl
      | some profile =>
          rw [signalOf_of_some hop, signalOf_of_some (by rw [hget, hop]; rfl), hsignal]
    rw [hvalue, UnitChange.rescaleIn_apply]

theorem energyAdjustment_remeter (energyWeights : EnergyWeights) (op : Operator) :
    energyAdjustment (profiles.mapValues (EnergyProfile.remeter cost carbon))
        (members.map (Operator.requote price latency)) energyWeights (op.requote price latency) =
      energyAdjustment profiles members energyWeights op := by
  have hsurplus : inSurplus (profiles.mapValues (EnergyProfile.remeter cost carbon))
      (op.requote price latency) = inSurplus profiles op := by
    rw [inSurplus, inSurplus, get?_remeter]
    cases profiles.get? op.identity <;> rfl
  have hplace := signalPlace_remeter price latency cost carbon profiles members
  rw [energyAdjustment, energyAdjustment, hsurplus,
    hplace EnergyProfile.energyCostPerKwh cost (fun _ => rfl) op,
    hplace EnergyProfile.carbonIntensity carbon (fun _ => rfl) op]

theorem rescored_remeter (energyWeights : EnergyWeights) (base : List (Operator × ℚ)) :
    rescored (profiles.mapValues (EnergyProfile.remeter cost carbon)) energyWeights
        (base.map (requoteEntry price latency)) =
      (rescored profiles energyWeights base).map (requoteEntry price latency) := by
  have hmembers : (base.map (requoteEntry price latency)).map Prod.fst =
      (base.map Prod.fst).map (Operator.requote price latency) := by
    rw [List.map_map, List.map_map]
    rfl
  have hentries : ∀ members : List Operator, (base.map (requoteEntry price latency)).map (fun t =>
      (t.1, t.2 + energyAdjustment (profiles.mapValues (EnergyProfile.remeter cost carbon))
        (members.map (Operator.requote price latency)) energyWeights t.1)) =
      (base.map fun t => (t.1, t.2 + energyAdjustment profiles members energyWeights t.1)).map
        (requoteEntry price latency) := by
    intro members
    rw [List.map_map, List.map_map]
    refine List.map_congr_left fun t _ => Prod.ext rfl ?_
    exact congrArg (t.2 + ·) (energyAdjustment_remeter price latency cost carbon profiles members
      energyWeights t.1)
  rw [rescored, hmembers, hentries, sortBy_map]
  rfl

end Signals

/-- **Scores do not depend on the units of account**: with every price, every latency, every
energy cost and every carbon intensity in another unit, both scorings return the entries
they returned, with the same scores and in the same order, and nothing raises. -/
theorem scores_unit_free (operators : List Operator) (profiles : Dict Identity EnergyProfile)
    (req : RoutingRequest) (latencyClass : String) (weights : RoutingWeights)
    (energyWeights : EnergyWeights) (price latency cost carbon : UnitChange) :
    (∃ scored, scoreOperators operators req weights = .ok scored ∧
      scoreOperators (operators.map (Operator.requote price latency)) req weights =
        .ok (scored.map fun t => (t.1.requote price latency, t.2))) ∧
    ∃ scored, energyAwareScores operators profiles req latencyClass weights energyWeights =
        .ok scored ∧
      energyAwareScores (operators.map (Operator.requote price latency))
          (profiles.mapValues (EnergyProfile.remeter cost carbon)) req latencyClass weights
          energyWeights =
        .ok (scored.map fun t => (t.1.requote price latency, t.2)) := by
  have hscored := scoredPool_requote price latency req weights (eligiblePool operators req)
  constructor
  · refine ⟨_, scoreOperators_eq operators req weights, ?_⟩
    rw [scoreOperators_eq, eligiblePool_requote, hscored]
    rfl
  · refine ⟨_, energyAwareScores_eq operators profiles req latencyClass weights energyWeights, ?_⟩
    rw [energyAwareScores_eq, eligiblePool_requote, hscored, rescored_remeter]
    split <;> rfl

end YeBlock
