import YeBlock.Protocol.EnergyNudge

/-!
# Improving never loses rank

An operator that asks less, answers faster or earns reputation keeps everybody behind it
that was behind it, and so does one whose power becomes cheaper or cleaner.  Its change
moves the extremes of the pool, and with them the places of the others, but on every axis
the distance by which another one lies above it never falls.

## Main definitions

* `Operator.Improves`, `EnergyProfile.Improves` — a change to the better.
* `poolScore_sub_le`, `energyAdjustment_sub_le` — the lead over another operator.
* `improving_keeps_leads` — an operator that improves stays ahead.
-/

namespace YeBlock

open Lib

/-- Weights that are not negative. -/
structure RoutingWeights.Nonneg (w : RoutingWeights) : Prop where
  reputation : 0 ≤ w.reputation
  price : 0 ≤ w.price
  latency : 0 ≤ w.latency

/-- An operator that is no dearer, no slower and no less reputed, and otherwise the same. -/
structure Operator.Improves (op op' : Operator) : Prop where
  identity : op'.identity = op.identity
  reputation : op.reputation ≤ op'.reputation
  price : op'.pricePer1kTokens ≤ op.pricePer1kTokens
  latency : op'.estLatencyMs ≤ op.estLatencyMs
  stake : op'.stake = op.stake
  vramGb : op'.vramGb = op.vramGb
  hasTee : op'.hasTee = op.hasTee
  region : op'.region = op.region

/-- A profile of power that is no dearer and no dirtier, and still in surplus if it was. -/
structure EnergyProfile.Improves (profile profile' : EnergyProfile) : Prop where
  cost : profile'.energyCostPerKwh ≤ profile.energyCostPerKwh
  carbon : profile'.carbonIntensity ≤ profile.carbonIntensity
  surplus : profile.inSurplusWindow = true → profile'.inSurplusWindow = true

/-! ## Offers -/

section Offers
variable {operators : List Operator} {req : RoutingRequest} {op op' : Operator}
  (himproves : op.Improves op')
include himproves

/-- The operator changes its place in the eligible pool, the rest of the pool stays. -/
theorem exists_rest_of_improves {i : ℕ} (hop : operators[i]? = some op)
    (heligible : eligible op req = none) :
    ∃ rest, (eligiblePool operators req).Perm (op :: rest) ∧
      (eligiblePool (operators.set i op') req).Perm (op' :: rest) := by
  have heligible' : eligible op' req = none := by
    rw [← heligible, eligible, eligible, himproves.vramGb, himproves.stake, himproves.hasTee]
  have hperm : ∀ (o : Operator) (before after : List Operator), eligible o req = none →
      (eligiblePool (before ++ o :: after) req).Perm (o :: eligiblePool (before ++ after) req) := by
    intro o before after ho
    refine (List.perm_middle.filter _).trans (List.Perm.of_eq ?_)
    rw [List.filter_cons_of_pos (by simpa using ho), eligiblePool]
  obtain ⟨before, after, hold, hnew⟩ := exists_split_of_set hop op'
  refine ⟨eligiblePool (before ++ after) req, ?_, ?_⟩
  · rw [hold]
    exact hperm op before after heligible
  · rw [hnew]
    exact hperm op' before after heligible'

theorem nodup_identity_of_improves (hids : (operators.map Operator.identity).Nodup) {i : ℕ}
    (hop : operators[i]? = some op) :
    ((operators.set i op').map Operator.identity).Nodup := by
  obtain ⟨before, after, hold, hnew⟩ := exists_split_of_set hop op'
  rw [hold] at hids
  rw [hnew]
  simpa [himproves.identity] using hids

variable {pool pool' rest : List Operator} (h : pool.Perm (op :: rest))
  (h' : pool'.Perm (op' :: rest))
include h h'

/-- **The lead of an improved operator** in the scores of the matcher does not shrink. -/
theorem poolScore_sub_le {weights : RoutingWeights} (hweights : weights.Nonneg) {b : Operator}
    (hb : b ∈ rest) :
    poolScore pool req weights op - poolScore pool req weights b ≤
      poolScore pool' req weights op' - poolScore pool' req weights b := by
  have haxis : ∀ (weight : ℚ) (value : Operator → ℚ), 0 ≤ weight → value op' ≤ value op →
      weight * (rescaleIn (pool.map value) (value b) - rescaleIn (pool.map value) (value op)) ≤
        weight * (rescaleIn (pool'.map value) (value b) -
          rescaleIn (pool'.map value) (value op')) := by
    intro weight value hweight hvalue
    simp only [rescaleIn_eq_of_perm (h.map value), rescaleIn_eq_of_perm (h'.map value)]
    exact mul_le_mul_of_nonneg_left (rescaleIn_sub_le (List.mem_map_of_mem hb) hvalue) hweight
  have hprice := haxis weights.price Operator.pricePer1kTokens hweights.price himproves.price
  have hlatency := haxis weights.latency Operator.estLatencyMs hweights.latency himproves.latency
  have hreputation := mul_le_mul_of_nonneg_left himproves.reputation hweights.reputation
  have hregion : colocated op' req = colocated op req := by
    rw [colocated, colocated, himproves.region]
  simp only [poolScore, hregion]
  linarith

/-- The adjustments do not read the offers. -/
theorem energyAdjustment_eq_of_improves (profiles : Dict Identity EnergyProfile)
    (energyWeights : EnergyWeights) {o o' : Operator} (ho : o.identity = o'.identity) :
    energyAdjustment profiles pool energyWeights o =
      energyAdjustment profiles pool' energyWeights o' := by
  have hids : (op :: rest).map Operator.identity = (op' :: rest).map Operator.identity := by
    rw [List.map_cons, List.map_cons, himproves.identity]
  refine energyAdjustment_eq_of_identities ?_ energyWeights ho
  exact (h.map _).trans ((List.Perm.of_eq hids).trans (h'.map _).symm)

end Offers

section Runs
variable {operators : List Operator} {req : RoutingRequest} {op op' : Operator}
  (himproves : op.Improves op') (hids : (operators.map Operator.identity).Nodup) {i : ℕ}
  (hop : operators[i]? = some op)
include himproves hids hop

/-- Scores by which the lead of an improved operator does not shrink keep it ahead. -/
theorem ranksAhead_of_improves {f f' : Operator → ℚ} {scored scored' : List (Operator × ℚ)}
    (h : RankedBy (eligiblePool operators req) f scored)
    (h' : RankedBy (eligiblePool (operators.set i op') req) f' scored')
    (hlead : ∀ rest, (eligiblePool operators req).Perm (op :: rest) →
      (eligiblePool (operators.set i op') req).Perm (op' :: rest) →
      ∀ b ∈ rest, f op - f b ≤ f' op' - f' b)
    {y : Identity} (hahead : RanksAhead scored op.identity y) :
    RanksAhead scored' op.identity y := by
  refine h.ranksAhead_of_gap h' (nodup_identity_eligiblePool hids req)
    (nodup_identity_eligiblePool (nodup_identity_of_improves himproves hids hop) req) ?_ hahead
  intro a ha b hb hax hby hne
  have hself : a = op := List.inj_on_of_nodup_map hids (mem_eligiblePool.mp ha).1
    (List.mem_of_getElem? hop) hax
  subst hself
  obtain ⟨rest, hpool, hpool'⟩ := exists_rest_of_improves himproves hop (mem_eligiblePool.mp ha).2
  have hrest : b ∈ rest := (List.mem_cons.mp (hpool.mem_iff.mp hb)).resolve_left hne.symm
  exact ⟨op', hpool'.mem_iff.mpr List.mem_cons_self, b,
    hpool'.mem_iff.mpr (List.mem_cons_of_mem _ hrest), himproves.identity, hby,
    hlead rest hpool hpool' b hrest⟩

variable {weights : RoutingWeights} (hweights : weights.Nonneg) {y : Identity}
include hweights

/-- An improved operator stays ahead in the scores of the matcher. -/
theorem ranksAhead_scoredPool_of_improves
    (hahead : RanksAhead (scoredPool (eligiblePool operators req) req weights) op.identity y) :
    RanksAhead (scoredPool (eligiblePool (operators.set i op') req) req weights)
      op.identity y :=
  ranksAhead_of_improves himproves hids hop (rankedBy_scoredPool _ req weights)
    (rankedBy_scoredPool _ req weights)
    (fun _ h h' _ hb => poolScore_sub_le himproves h h' hweights hb) hahead

/-- An improved operator stays ahead in the energy-aware scores. -/
theorem ranksAhead_rescored_of_improves (profiles : Dict Identity EnergyProfile)
    (energyWeights : EnergyWeights)
    (hahead : RanksAhead (rescored profiles energyWeights
      (scoredPool (eligiblePool operators req) req weights)) op.identity y) :
    RanksAhead (rescored profiles energyWeights
      (scoredPool (eligiblePool (operators.set i op') req) req weights)) op.identity y := by
  refine ranksAhead_of_improves himproves hids hop (rankedBy_rescored _ _ _ _ _)
    (rankedBy_rescored _ _ _ _ _) (fun rest h h' b hb => ?_) hahead
  have hlead : poolScore _ req weights op - poolScore _ req weights b ≤ _ :=
    poolScore_sub_le himproves h h' hweights hb
  have hself := energyAdjustment_eq_of_improves himproves h h' profiles energyWeights
    himproves.identity.symm
  have hother := energyAdjustment_eq_of_improves himproves h h' profiles energyWeights
    (rfl : b.identity = b.identity)
  rw [hself, hother]
  linarith

end Runs

/-! ## Profiles -/

section Profiles
variable {others profiles profiles' : Dict Identity EnergyProfile} {x : Identity}
  {profile profile' : EnergyProfile} {members : List Operator}
  (h : AddsProfile others x profile profiles) (h' : AddsProfile others x profile' profiles')
  {a b : Operator} (ha : a ∈ members) (hb : b ∈ members) (hax : a.identity = x)
  (hbx : b.identity ≠ x)
include h h' ha hb hax hbx

/-- The lead that a signal gives does not shrink when the signal falls. -/
theorem signalLead_le {weight : ℚ} (hweight : 0 ≤ weight) {signal : EnergyProfile → ℚ}
    (hsignal : signal profile' ≤ signal profile) :
    signalLead profiles members weight signal a b ≤
      signalLead profiles' members weight signal a b := by
  refine mul_le_mul_of_nonneg_left ?_ hweight
  rw [h.signalPlace_self ha hax, h'.signalPlace_self ha hax]
  cases hother : others.get? b.identity with
  | none =>
      rw [h.signalPlace_of_none ha hax hbx hother, h'.signalPlace_of_none ha hax hbx hother]
      exact rescaleIn_highest_sub_le _ hsignal
  | some other =>
      rw [h.signalPlace_of_some ha hax hbx hother, h'.signalPlace_of_some ha hax hbx hother]
      exact rescaleIn_sub_le (mem_observed.mpr ⟨b, hb, other, hother, rfl⟩) hsignal

omit ha hb in
/-- A profile that stays in surplus keeps its bonus. -/
theorem bonusLead_le {bonus : ℚ} (hbonus : 0 ≤ bonus)
    (hsurplus : profile.inSurplusWindow = true → profile'.inSurplusWindow = true) :
    bonusLead profiles bonus a b ≤ bonusLead profiles' bonus a b := by
  have hother : inSurplus profiles b = inSurplus profiles' b := by
    rw [inSurplus, inSurplus, h.get?_other hbx, h'.get?_other hbx]
  have hself : inSurplus profiles a = profile.inSurplusWindow := by
    rw [inSurplus, h.get?_self hax]
  have hself' : inSurplus profiles' a = profile'.inSurplusWindow := by
    rw [inSurplus, h'.get?_self hax]
  rw [bonusLead, bonusLead, hother, hself, hself']
  refine sub_le_sub_right ?_ _
  by_cases hwas : profile.inSurplusWindow = true
  · rw [if_pos hwas, if_pos (hsurplus hwas)]
  · rw [if_neg hwas]
    split
    · exact hbonus
    · exact le_rfl

/-- **The lead of an improved profile** in the adjustments does not shrink. -/
theorem energyAdjustment_sub_le {energyWeights : EnergyWeights} (hweights : energyWeights.Nonneg)
    (himproves : profile.Improves profile') :
    energyAdjustment profiles members energyWeights a -
        energyAdjustment profiles members energyWeights b ≤
      energyAdjustment profiles' members energyWeights a -
        energyAdjustment profiles' members energyWeights b := by
  have hcost : signalLead profiles members energyWeights.energy _ a b ≤ _ :=
    signalLead_le h h' ha hb hax hbx hweights.energy himproves.cost
  have hcarbon : signalLead profiles members energyWeights.carbon _ a b ≤ _ :=
    signalLead_le h h' ha hb hax hbx hweights.carbon himproves.carbon
  have hbonus := bonusLead_le h h' hax hbx hweights.surplusBonus himproves.surplus
  rw [energyAdjustment_sub, energyAdjustment_sub]
  exact add_le_add (add_le_add hcost hcarbon) hbonus

end Profiles

/-- An operator with an improved profile stays ahead in the energy-aware scores. -/
theorem ranksAhead_rescored_of_profile {pool : List Operator}
    (hids : (pool.map Operator.identity).Nodup) {profiles : Dict Identity EnergyProfile}
    {x y : Identity} {profile profile' : EnergyProfile} (hprofile : profiles.get? x = some profile)
    (himproves : profile.Improves profile') (req : RoutingRequest) (weights : RoutingWeights)
    {energyWeights : EnergyWeights} (hweights : energyWeights.Nonneg)
    (hahead : RanksAhead (rescored profiles energyWeights (scoredPool pool req weights)) x y) :
    RanksAhead (rescored (profiles.set x profile') energyWeights
      (scoredPool pool req weights)) x y := by
  refine (rankedBy_rescored _ _ _ _ _).ranksAhead_of_gap (rankedBy_rescored _ _ _ _ _) hids hids
    (fun a ha b hb hax hby hne => ⟨a, ha, b, hb, hax, hby, ?_⟩) hahead
  have hbx : b.identity ≠ x := fun hbx =>
    hne (List.inj_on_of_nodup_map hids ha hb (hax.trans hbx.symm))
  have hlead := energyAdjustment_sub_le (AddsProfile.of_get? hprofile)
    (AddsProfile.of_set profiles x profile') ha hb hax hbx hweights himproves
  linarith

/-- **Improving never loses rank**: an operator of the list that lowers its price or its
latency or raises its reputation stays ahead of every operator it was ahead of, in the
scores of the matcher and in the energy-aware ones, and so does one with a profile whose
energy becomes cheaper or cleaner. -/
theorem improving_keeps_leads {operators : List Operator}
    (hids : (operators.map Operator.identity).Nodup) {i : ℕ} {op op' : Operator}
    (hop : operators[i]? = some op) (himproves : op.Improves op')
    (profiles : Dict Identity EnergyProfile) (req : RoutingRequest) (latencyClass : String)
    {weights : RoutingWeights} (hweights : weights.Nonneg) {energyWeights : EnergyWeights}
    (henergy : energyWeights.Nonneg) (y : Identity) :
    StaysAhead (scoreOperators operators req weights)
        (scoreOperators (operators.set i op') req weights) op.identity y ∧
      StaysAhead (energyAwareScores operators profiles req latencyClass weights energyWeights)
        (energyAwareScores (operators.set i op') profiles req latencyClass weights energyWeights)
        op.identity y ∧
      ∀ profile profile', profiles.get? op.identity = some profile →
        profile.Improves profile' →
        StaysAhead (energyAwareScores operators profiles req latencyClass weights energyWeights)
          (energyAwareScores operators (profiles.set op.identity profile') req latencyClass weights
            energyWeights) op.identity y := by
  have hplain : RanksAhead (scoredPool (eligiblePool operators req) req weights) op.identity y →
      RanksAhead (scoredPool (eligiblePool (operators.set i op') req) req weights)
        op.identity y :=
    ranksAhead_scoredPool_of_improves himproves hids hop hweights
  refine ⟨⟨_, _, scoreOperators_eq _ _ _, scoreOperators_eq _ _ _, hplain⟩,
    ⟨_, _, energyAwareScores_eq _ _ _ _ _ _, energyAwareScores_eq _ _ _ _ _ _, ?_⟩,
    fun profile profile' hprofile hcleaner =>
      ⟨_, _, energyAwareScores_eq _ _ _ _ _ _, energyAwareScores_eq _ _ _ _ _ _, ?_⟩⟩
  · split
    · exact hplain
    · exact ranksAhead_rescored_of_improves himproves hids hop hweights profiles energyWeights
  · split
    · exact id
    · exact ranksAhead_rescored_of_profile (nodup_identity_eligiblePool hids req) hprofile hcleaner
        req weights henergy

/-- The quote of one of the twin operators, at half the price. -/
def cheaperOperator : Operator := { twinOperator "op-a" 9 with pricePer1kTokens := 1 }

/-- Its profile, with power that costs less. -/
def cheaperProfile : EnergyProfile := { energyCostPerKwh := 1 / 50, carbonIntensity := 30 }

theorem improving_keeps_leads_twinOperators :
    StaysAhead (scoreOperators (twinOperators 9) (valuableRequest 9))
        (scoreOperators [cheaperOperator, twinOperator "op-b" 9] (valuableRequest 9))
        "op-a" "op-b" ∧
      StaysAhead (energyAwareScores (twinOperators 9) halfProfiles (valuableRequest 9))
        (energyAwareScores [cheaperOperator, twinOperator "op-b" 9] halfProfiles
          (valuableRequest 9)) "op-a" "op-b" ∧
      StaysAhead (energyAwareScores (twinOperators 9) halfProfiles (valuableRequest 9))
        (energyAwareScores (twinOperators 9) (halfProfiles.set "op-a" cheaperProfile)
          (valuableRequest 9)) "op-a" "op-b" := by
  have hcheaper : (twinOperator "op-a" 9).Improves cheaperOperator :=
    ⟨rfl, le_rfl, by norm_num [twinOperator, cheaperOperator], le_rfl, rfl, rfl, rfl, rfl⟩
  have hweights : ({} : RoutingWeights).Nonneg := ⟨by norm_num, by norm_num, by norm_num⟩
  have henergy : ({} : EnergyWeights).Nonneg := ⟨by norm_num, by norm_num, by norm_num⟩
  have hrun := improving_keeps_leads (i := 0) (by decide : ((twinOperators 9).map _).Nodup) rfl
    hcheaper halfProfiles (valuableRequest 9) "batch" hweights henergy "op-b"
  refine ⟨hrun.1, hrun.2.1, hrun.2.2 _ cheaperProfile rfl ⟨?_, le_rfl, id⟩⟩
  norm_num [cheaperProfile]

end YeBlock
