import YeBlock.Protocol.ImprovingRanks

/-!
# Withholding a profile

An operator that withholds its energy profile is given the worst signals observed among
the others.  It gains nothing on a signal by which another one is no better, nor over an
operator that has the best signal of the others, nor over anybody who was ahead of it
without the energy signals.  An operator that is the worst by itself can gain: the worst
of the others is better than what it withholds.

## Main definitions

* `LeadSafe` — signals by which withholding gains nothing.
* `signalLead_le_iff_leadSafe`, `energyAdjustment_sub_le_of_withheld` — the lead over an
  operator that withholds its profile.
* `withholding_keeps_behind` — when an operator that withholds stays behind.
-/

namespace YeBlock

open Lib

/-- The lead of `y` on a signal is safe from an operator that withholds `profile`: `y` has
no profile itself, or some other one is no better than `profile`, or that of `y` is the
best of the others, which are not all the same. -/
def LeadSafe (signal : EnergyProfile → ℚ) (others : Dict Identity EnergyProfile)
    (members : List Operator) (profile : EnergyProfile) (y : Identity) : Prop :=
  ∀ other, others.get? y = some other →
    (∃ v ∈ observed signal others members, signal profile ≤ v) ∨
      ((∀ v ∈ observed signal others members, signal other ≤ v) ∧
        ∃ v ∈ observed signal others members, signal other < v)

section Withheld
variable {others profiles : Dict Identity EnergyProfile} {x : Identity} {profile : EnergyProfile}
  {members : List Operator} (h : AddsProfile others x profile profiles)
  {a b : Operator} (ha : a ∈ members) (hb : b ∈ members) (hax : a.identity = x)
  (hbx : b.identity ≠ x)
include h ha hb hax hbx

/-- **When the lead that a signal gives over `a` does not shrink** as `a` withholds its
profile. -/
theorem signalLead_le_iff_leadSafe {weight : ℚ} (hweight : 0 < weight)
    {signal : EnergyProfile → ℚ} :
    signalLead profiles members weight signal b a ≤ signalLead others members weight signal b a ↔
      LeadSafe signal others members profile b.identity := by
  have hself : others.get? a.identity = none := by rw [hax, h.absent]
  rw [signalLead, signalLead, mul_le_mul_iff_right₀ hweight, ← neg_le_neg_iff, neg_sub, neg_sub,
    h.signalPlace_self ha hax, signalPlace_eq a, signalOf_of_none hself]
  cases hother : others.get? b.identity with
  | none =>
      rw [h.signalPlace_of_none ha hax hbx hother, signalPlace_eq b, signalOf_of_none hother,
        sub_self, sub_nonneg]
      refine iff_of_true (rescaleIn_mono (le_highest List.mem_cons_self)) ?_
      intro other hsome
      rw [hother] at hsome
      cases hsome
  | some other =>
      have hmem : signal other ∈ observed signal others members :=
        mem_observed.mpr ⟨b, hb, other, hother, rfl⟩
      rw [h.signalPlace_of_some ha hax hbx hother, signalPlace_eq b, signalOf_of_some hother,
        rescaleIn_withheld_le_iff hmem, LeadSafe, hother]
      simp only [Option.some.injEq, forall_eq']

omit ha hb in
/-- Who withholds a profile has no surplus bonus. -/
theorem bonusLead_le_of_withheld {bonus : ℚ} (hbonus : 0 ≤ bonus) :
    bonusLead profiles bonus b a ≤ bonusLead others bonus b a := by
  have hother : inSurplus profiles b = inSurplus others b := by
    rw [inSurplus, inSurplus, h.get?_other hbx]
  have hself : inSurplus others a = false := by rw [inSurplus, hax, h.absent]
  rw [bonusLead, bonusLead, hother, hself, if_neg Bool.false_ne_true]
  refine sub_le_sub_left ?_ _
  split
  · exact hbonus
  · exact le_rfl

/-- **The lead over an operator that withholds its profile** does not shrink where it is
safe. -/
theorem energyAdjustment_sub_le_of_withheld {energyWeights : EnergyWeights}
    (hweights : energyWeights.Nonneg)
    (hcost : 0 < energyWeights.energy →
      LeadSafe EnergyProfile.energyCostPerKwh others members profile b.identity)
    (hcarbon : 0 < energyWeights.carbon →
      LeadSafe EnergyProfile.carbonIntensity others members profile b.identity) :
    energyAdjustment profiles members energyWeights b -
        energyAdjustment profiles members energyWeights a ≤
      energyAdjustment others members energyWeights b -
        energyAdjustment others members energyWeights a := by
  have hsignal : ∀ {weight : ℚ} {signal : EnergyProfile → ℚ}, 0 ≤ weight →
      (0 < weight → LeadSafe signal others members profile b.identity) →
      signalLead profiles members weight signal b a ≤
        signalLead others members weight signal b a := by
    intro weight signal hweight hsafe
    rcases hweight.eq_or_lt with rfl | hpos
    · simp [signalLead]
    · exact (signalLead_le_iff_leadSafe h ha hb hax hbx hpos).mpr (hsafe hpos)
  have hbonus := bonusLead_le_of_withheld h hax hbx hweights.surplusBonus
  rw [energyAdjustment_sub, energyAdjustment_sub]
  exact add_le_add (add_le_add (hsignal hweights.energy hcost) (hsignal hweights.carbon hcarbon))
    hbonus

end Withheld

section Runs
variable {pool : List Operator} (hids : (pool.map Operator.identity).Nodup)
  {profiles : Dict Identity EnergyProfile} (req : RoutingRequest) (weights : RoutingWeights)
  {energyWeights : EnergyWeights} (hweights : energyWeights.Nonneg) {x y : Identity}
include hids hweights

/-- Without a profile an operator is given the least of the adjustments, so it stays behind
who is ahead of it without them. -/
theorem ranksAhead_withheld_of_base
    (hahead : RanksAhead (scoredPool pool req weights) y x) :
    RanksAhead (rescored (profiles.erase x) energyWeights (scoredPool pool req weights)) y x := by
  refine (rankedBy_scoredPool _ _ _).ranksAhead_of_gap (rankedBy_rescored _ _ _ _ _) hids hids
    (fun b hb a ha hby hax _ => ⟨b, hb, a, ha, hby, hax, ?_⟩) hahead
  have habsent : (profiles.erase x).get? a.identity = none := by
    rw [hax, Dict.get?_erase, if_pos rfl]
  have hleast := energyAdjustment_le_of_unattested (profiles.erase x) hweights habsent hb
  linarith

/-- A lead that is safe on the signals that carry weight is kept. -/
theorem ranksAhead_withheld_of_safe {profile : EnergyProfile}
    (hprofile : profiles.get? x = some profile)
    (hcost : 0 < energyWeights.energy →
      LeadSafe EnergyProfile.energyCostPerKwh (profiles.erase x) pool profile y)
    (hcarbon : 0 < energyWeights.carbon →
      LeadSafe EnergyProfile.carbonIntensity (profiles.erase x) pool profile y)
    (hahead : RanksAhead (rescored profiles energyWeights (scoredPool pool req weights)) y x) :
    RanksAhead (rescored (profiles.erase x) energyWeights (scoredPool pool req weights)) y x := by
  refine (rankedBy_rescored _ _ _ _ _).ranksAhead_of_gap (rankedBy_rescored _ _ _ _ _) hids hids
    (fun b hb a ha hby hax hne => ⟨b, hb, a, ha, hby, hax, ?_⟩) hahead
  have hbx : b.identity ≠ x := fun hbx =>
    hne (List.inj_on_of_nodup_map hids hb ha (hbx.trans hax.symm))
  rw [← hby] at hcost hcarbon
  have hlead := energyAdjustment_sub_le_of_withheld (AddsProfile.of_get? hprofile) ha hb hax hbx
    hweights hcost hcarbon
  linarith

end Runs

/-- **Who withholds stays behind** an operator whose lead is safe on the signals that carry
weight, and behind one that is ahead in the scores of the matcher. -/
theorem withholding_keeps_behind {operators : List Operator}
    (hids : (operators.map Operator.identity).Nodup) {profiles : Dict Identity EnergyProfile}
    (req : RoutingRequest) (latencyClass : String) (weights : RoutingWeights)
    {energyWeights : EnergyWeights} (hweights : energyWeights.Nonneg) {x y : Identity}
    {profile : EnergyProfile} (hprofile : profiles.get? x = some profile)
    (hsafe : (∃ base, scoreOperators operators req weights = .ok base ∧ RanksAhead base y x) ∨
      (0 < energyWeights.energy → LeadSafe EnergyProfile.energyCostPerKwh (profiles.erase x)
        (eligiblePool operators req) profile y) ∧
      (0 < energyWeights.carbon → LeadSafe EnergyProfile.carbonIntensity (profiles.erase x)
        (eligiblePool operators req) profile y)) :
    StaysAhead (energyAwareScores operators profiles req latencyClass weights energyWeights)
      (energyAwareScores operators (profiles.erase x) req latencyClass weights energyWeights)
      y x := by
  have hpool := nodup_identity_eligiblePool hids req
  refine ⟨_, _, energyAwareScores_eq _ _ _ _ _ _, energyAwareScores_eq _ _ _ _ _ _, ?_⟩
  split
  · exact id
  intro hahead
  rcases hsafe with ⟨base, hbase, hplain⟩ | ⟨hcost, hcarbon⟩
  · rw [scoreOperators_eq, Except.ok.injEq] at hbase
    subst hbase
    exact ranksAhead_withheld_of_base hpool req weights hweights hplain
  · exact ranksAhead_withheld_of_safe hpool req weights hweights hprofile hcost hcarbon hahead

/-- The power of the first costs twice that of the second, and half that of the third. -/
def stepProfiles : Dict Identity EnergyProfile where
  items := [("op-a", { energyCostPerKwh := 1 / 10, carbonIntensity := 30 }),
    ("op-b", { energyCostPerKwh := 1 / 20, carbonIntensity := 30 }),
    ("op-c", { energyCostPerKwh := 1 / 5, carbonIntensity := 30 })]
  nodup_keys := by decide

theorem withholding_keeps_behind_stepProfiles :
    StaysAhead
      (energyAwareScores [twinOperator "op-a" 9, twinOperator "op-b" 9, twinOperator "op-c" 9]
        stepProfiles (valuableRequest 9))
      (energyAwareScores [twinOperator "op-a" 9, twinOperator "op-b" 9, twinOperator "op-c" 9]
        (stepProfiles.erase "op-a") (valuableRequest 9)) "op-b" "op-a" := by
  have hsafe : ∀ signal : EnergyProfile → ℚ,
      (∃ v ∈ observed signal (stepProfiles.erase "op-a")
          (eligiblePool [twinOperator "op-a" 9, twinOperator "op-b" 9, twinOperator "op-c" 9]
            (valuableRequest 9)),
        signal { energyCostPerKwh := 1 / 10, carbonIntensity := 30 } ≤ v) →
      LeadSafe signal (stepProfiles.erase "op-a")
        (eligiblePool [twinOperator "op-a" 9, twinOperator "op-b" 9, twinOperator "op-c" 9]
          (valuableRequest 9)) { energyCostPerKwh := 1 / 10, carbonIntensity := 30 } "op-b" :=
    fun _ hworse _ _ => .inl hworse
  exact withholding_keeps_behind (by decide) (valuableRequest 9) "batch" {}
    ⟨by norm_num, by norm_num, by norm_num⟩ rfl
    (.inr ⟨fun _ => hsafe _ (by decide +kernel), fun _ => hsafe _ (by decide +kernel)⟩)

/-- Of two operators, the one with the dearer power withholds its profile: the other one is
then the worst observed, and what it was ahead by is gone. -/
theorem sole_worst_gains :
    ¬ ∀ (operators : List Operator) (profiles : Dict Identity EnergyProfile)
      (req : RoutingRequest) (latencyClass : String) (weights : RoutingWeights)
      (energyWeights : EnergyWeights) (x y : Identity),
      (operators.map Operator.identity).Nodup → weights.Nonneg → energyWeights.Nonneg →
        latencyClass ≠ "interactive" →
        (∃ op ∈ eligiblePool operators req, op.identity = x) → profiles.get? x ≠ none →
        StaysAhead (energyAwareScores operators profiles req latencyClass weights energyWeights)
          (energyAwareScores operators (profiles.erase x) req latencyClass weights energyWeights)
          y x := by
  intro h
  have hids : ((twinOperators 9).map Operator.identity).Nodup := by decide
  have hpool : eligiblePool (twinOperators 9) (valuableRequest 9) = twinOperators 9 := by
    decide +kernel
  obtain ⟨scored, scored', hscored, hscored', hahead⟩ := h (twinOperators 9) stepProfiles
    (valuableRequest 9) "batch" {} {} "op-a" "op-b" hids ⟨by norm_num, by norm_num, by norm_num⟩
    ⟨by norm_num, by norm_num, by norm_num⟩ (by decide) (by rw [hpool]; decide) (by decide)
  rw [energyAwareScores_eq, if_neg (by decide), hpool, Except.ok.injEq] at hscored hscored'
  subst hscored hscored'
  have ha : twinOperator "op-a" 9 ∈ twinOperators 9 := List.mem_cons_self
  have hb : twinOperator "op-b" 9 ∈ twinOperators 9 := List.mem_cons_of_mem _ List.mem_cons_self
  have hbefore := rankedBy_rescored (twinOperators 9) stepProfiles (valuableRequest 9) {} {}
  have hafter := rankedBy_rescored (twinOperators 9) (stepProfiles.erase "op-a")
    (valuableRequest 9) {} {}
  have hbehind := (hbefore.ranksAhead_iff hids "op-b" "op-a").mpr
    ⟨_, hb, _, ha, rfl, rfl, .inl (by decide +kernel)⟩
  -- without its profile the scores are equal, and the identities decide
  have hovertakes := (hafter.ranksAhead_iff hids "op-a" "op-b").mpr
    ⟨_, ha, _, hb, rfl, rfl, .inr ⟨by decide +kernel, by decide⟩⟩
  exact hafter.not_ranksAhead hids hovertakes (hahead hbehind)

end YeBlock
