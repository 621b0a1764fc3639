import YeBlock.Protocol.EnergyMarket
import YeBlock.Protocol.ShardSelection

/-!
# Ranks

The scored lists of routing hold the eligible pool in the order of a score, ties broken by
identity.  With distinct identities, who stands before whom is a comparison of two members
of the pool, so a change of the inputs that does not shrink the difference of their scores
keeps their order.

An operator's energy signals are placed among those observed: the worst signal, which
stands in for a missing profile, is one of them.

## Main definitions

* `RanksAhead scored x y` — `x` stands before `y`.
* `StaysAhead run run' x y` — two scorings, the second of which keeps `x` before `y`.
* `RankedBy pool f scored` — `scored` is the pool in the order of the score `f`.
* `RankedBy.ranksAhead_of_gap` — an order that is kept.
* `observed`, `signalPlace_eq` — the observed signals, and the places among them.
* `energyAdjustment_sub` — the lead that the energy signals give.
* `AddsProfile others x profile profiles` — profiles that have one of `x` besides.
* `rankedBy_scoredPool`, `rankedBy_rescored` — the lists that routing returns.
-/

namespace YeBlock

open Lib

/-- An entry of `x` stands before an entry of `y`. -/
def RanksAhead (scored : List (Operator × ℚ)) (x y : Identity) : Prop :=
  ∃ (i j : ℕ) (a b : Operator × ℚ), i < j ∧ scored[i]? = some a ∧ scored[j]? = some b ∧
    a.1.identity = x ∧ b.1.identity = y

/-- Two scorings return, and if the first has `x` before `y`, so has the second. -/
def StaysAhead (run run' : Except PyError (List (Operator × ℚ))) (x y : Identity) : Prop :=
  ∃ scored scored', run = .ok scored ∧ run' = .ok scored' ∧
    (RanksAhead scored x y → RanksAhead scored' x y)

/-- The pool in the order of a score. -/
structure RankedBy (pool : List Operator) (f : Operator → ℚ) (scored : List (Operator × ℚ)) :
    Prop where
  perm : scored.Perm (pool.map fun op => (op, f op))
  sorted : scored.Pairwise fun a b => scoreKey a ≤ scoreKey b

namespace RankedBy
variable {pool pool' : List Operator} {f f' : Operator → ℚ} {scored scored' : List (Operator × ℚ)}

theorem mem_iff (h : RankedBy pool f scored) {t : Operator × ℚ} :
    t ∈ scored ↔ t.1 ∈ pool ∧ t.2 = f t.1 := by
  rw [h.perm.mem_iff, List.mem_map]
  constructor
  · rintro ⟨op, hop, rfl⟩
    exact ⟨hop, rfl⟩
  · rintro ⟨hop, hscore⟩
    exact ⟨t.1, hop, Prod.ext rfl hscore.symm⟩

/-- The entries with an addend of each operator. -/
theorem perm_add (h : RankedBy pool f scored) (g : Operator → ℚ) :
    (scored.map fun t => (t.1, t.2 + g t.1)).Perm (pool.map fun op => (op, f op + g op)) := by
  have hmap := h.perm.map fun t : Operator × ℚ => (t.1, t.2 + g t.1)
  rwa [List.map_map] at hmap

/-- An entry that precedes another stands before it. -/
theorem lt_of_precedes (h : RankedBy pool f scored) {i j : ℕ} {a b : Operator × ℚ}
    (hi : scored[i]? = some a) (hj : scored[j]? = some b) (hab : Precedes a b) : i < j := by
  rw [precedes_iff] at hab
  by_contra hle
  rcases (not_lt.mp hle).lt_or_eq with hlt | rfl
  · obtain ⟨hi', rfl⟩ := List.getElem?_eq_some_iff.mp hi
    obtain ⟨hj', rfl⟩ := List.getElem?_eq_some_iff.mp hj
    exact absurd hab (List.pairwise_iff_getElem.mp h.sorted j i hj' hi' hlt).not_gt
  · rw [hi, Option.some.injEq] at hj
    exact absurd hab (hj ▸ lt_irrefl _)

/-- **Who stands before whom** is a comparison of two members of the pool. -/
theorem ranksAhead_iff (h : RankedBy pool f scored) (hids : (pool.map Operator.identity).Nodup)
    (x y : Identity) :
    RanksAhead scored x y ↔ ∃ a ∈ pool, ∃ b ∈ pool, a.identity = x ∧ b.identity = y ∧
      Precedes (a, f a) (b, f b) := by
  constructor
  · rintro ⟨i, j, a, b, hij, hi, hj, rfl, rfl⟩
    obtain ⟨ha, hfa⟩ := h.mem_iff.mp (List.mem_of_getElem? hi)
    obtain ⟨hb, hfb⟩ := h.mem_iff.mp (List.mem_of_getElem? hj)
    refine ⟨a.1, ha, b.1, hb, rfl, rfl, ?_⟩
    rw [← hfa, ← hfb, precedes_iff]
    obtain ⟨hi', hia⟩ := List.getElem?_eq_some_iff.mp hi
    obtain ⟨hj', hjb⟩ := List.getElem?_eq_some_iff.mp hj
    have hle := List.pairwise_iff_getElem.mp h.sorted i j hi' hj' hij
    rw [hia, hjb] at hle
    refine lt_of_le_of_ne hle fun heq => ?_
    -- equal keys name one operator, which is in the list only once
    have hid : a.1.identity = b.1.identity := congrArg (fun k => (ofLex k).2) heq
    have hsame : (scored.map Prod.fst)[i]? = (scored.map Prod.fst)[j]? := by
      simp only [List.getElem?_map, hi, hj, Option.map_some,
        List.inj_on_of_nodup_map hids ha hb hid]
    have hfst := h.perm.map Prod.fst
    rw [map_fst_map_pair] at hfst
    have hnodup : (scored.map Prod.fst).Nodup := hfst.nodup_iff.mpr (List.Nodup.of_map _ hids)
    have hlen : i < (scored.map Prod.fst).length := by simpa using hi'
    have hindex := (List.getElem?_inj hlen hnodup).mp hsame
    omega
  · rintro ⟨a, ha, b, hb, hx, hy, hab⟩
    obtain ⟨i, hi⟩ := List.mem_iff_getElem?.mp (h.mem_iff.mpr ⟨ha, rfl⟩ : (a, f a) ∈ scored)
    obtain ⟨j, hj⟩ := List.mem_iff_getElem?.mp (h.mem_iff.mpr ⟨hb, rfl⟩ : (b, f b) ∈ scored)
    exact ⟨i, j, _, _, h.lt_of_precedes hi hj hab, hi, hj, hx, hy⟩

/-- Of two operators one stands before the other. -/
theorem not_ranksAhead (h : RankedBy pool f scored) (hids : (pool.map Operator.identity).Nodup)
    {x y : Identity} (hahead : RanksAhead scored x y) : ¬ RanksAhead scored y x := by
  rw [h.ranksAhead_iff hids] at hahead ⊢
  rintro ⟨b', hb', a', ha', hy', hx', hba⟩
  obtain ⟨a, ha, b, hb, rfl, rfl, hab⟩ := hahead
  rw [List.inj_on_of_nodup_map hids ha' ha hx', List.inj_on_of_nodup_map hids hb' hb hy'] at hba
  rw [precedes_iff] at hab hba
  exact lt_asymm hab hba

/-- **An order that is kept**: `x` stays before `y` when its lead does not shrink. -/
theorem ranksAhead_of_gap (h : RankedBy pool f scored) (h' : RankedBy pool' f' scored')
    (hids : (pool.map Operator.identity).Nodup) (hids' : (pool'.map Operator.identity).Nodup)
    {x y : Identity}
    (hgap : ∀ a ∈ pool, ∀ b ∈ pool, a.identity = x → b.identity = y → a ≠ b →
      ∃ a' ∈ pool', ∃ b' ∈ pool', a'.identity = x ∧ b'.identity = y ∧ f a - f b ≤ f' a' - f' b')
    (hahead : RanksAhead scored x y) : RanksAhead scored' x y := by
  obtain ⟨a, ha, b, hb, hx, hy, hab⟩ := (h.ranksAhead_iff hids x y).mp hahead
  have hne : a ≠ b := by
    rintro rfl
    rw [precedes_iff] at hab
    exact lt_irrefl _ hab
  obtain ⟨a', ha', b', hb', hx', hy', hle⟩ := hgap a ha b hb hx hy hne
  refine (h'.ranksAhead_iff hids' x y).mpr ⟨a', ha', b', hb', hx', hy', ?_⟩
  rcases hab with hlt | ⟨heq, hid⟩
  · exact .inl (sub_pos.mp ((sub_pos.mpr hlt).trans_le hle))
  · have hnonneg : f' b' ≤ f' a' := sub_nonneg.mp ((sub_nonneg.mpr heq.symm.le).trans hle)
    rcases hnonneg.lt_or_eq with hlt | heq'
    · exact .inl hlt
    · exact .inr ⟨heq'.symm, by rwa [hx', hy', ← hx, ← hy]⟩

end RankedBy

/-! ## The lists that routing returns -/

/-- The scored pool is the pool in the order of its scores. -/
theorem rankedBy_scoredPool (pool : List Operator) (req : RoutingRequest)
    (weights : RoutingWeights) :
    RankedBy pool (poolScore pool req weights) (scoredPool pool req weights) :=
  ⟨perm_sortBy _ _, pairwise_sortBy _ _⟩

section Signals
variable (signal : EnergyProfile → ℚ) (profiles : Dict Identity EnergyProfile)
  {members members' : List Operator}

/-- The signals of the members that have a profile. -/
def observed (members : List Operator) : List ℚ :=
  (members.filterMap fun o => profiles.get? o.identity).map signal

variable {signal profiles}

theorem mem_observed {v : ℚ} :
    v ∈ observed signal profiles members ↔
      ∃ o ∈ members, ∃ profile, profiles.get? o.identity = some profile ∧ signal profile = v := by
  simp only [observed, List.mem_map, List.mem_filterMap]
  constructor
  · rintro ⟨profile, ⟨o, ho, hget⟩, rfl⟩
    exact ⟨o, ho, profile, hget, rfl⟩
  · rintro ⟨o, ho, profile, hget, rfl⟩
    exact ⟨profile, ⟨o, ho, hget⟩, rfl⟩

theorem worstSignal_eq : worstSignal signal profiles members =
    highest (observed signal profiles members) := rfl

theorem signalOf_of_some {o : Operator} {profile : EnergyProfile}
    (h : profiles.get? o.identity = some profile) :
    signalOf signal profiles members o = signal profile := by
  rw [signalOf, h]

theorem signalOf_of_none {o : Operator} (h : profiles.get? o.identity = none) :
    signalOf signal profiles members o = highest (observed signal profiles members) := by
  rw [signalOf, h, worstSignal_eq]

/-- **A signal is placed among those observed.** -/
theorem signalPlace_eq (op : Operator) : signalPlace profiles members signal op =
    rescaleIn (observed signal profiles members) (signalOf signal profiles members op) := by
  rw [signalPlace]
  by_cases hnone : observed signal profiles members = []
  · have hzero : ∀ v ∈ members.map (signalOf signal profiles members), v = 0 := by
      intro v hv
      obtain ⟨o, ho, rfl⟩ := List.mem_map.mp hv
      cases hget : profiles.get? o.identity with
      | none =>
          rw [signalOf_of_none hget, hnone]
          rfl
      | some profile =>
          have hmem : signal profile ∈ observed signal profiles members :=
            mem_observed.mpr ⟨o, ho, profile, hget, rfl⟩
          rw [hnone] at hmem
          cases hmem
    rw [rescaleIn_of_flat hzero, hnone, rescaleIn_of_flat (a := 0) (by simp)]
  · refine rescaleIn_eq_of_mem_iff (fun v => ?_) _
    constructor
    · intro hv
      obtain ⟨o, ho, rfl⟩ := List.mem_map.mp hv
      cases hget : profiles.get? o.identity with
      | none =>
          rw [signalOf_of_none hget]
          exact highest_mem hnone
      | some profile =>
          rw [signalOf_of_some hget]
          exact mem_observed.mpr ⟨o, ho, profile, hget, rfl⟩
    · intro hv
      obtain ⟨o, ho, profile, hget, rfl⟩ := mem_observed.mp hv
      exact List.mem_map.mpr ⟨o, ho, signalOf_of_some hget⟩

/-- The adjustments read the operators' identities alone, as a set. -/
theorem energyAdjustment_eq_of_identities
    (h : (members.map Operator.identity).Perm (members'.map Operator.identity))
    (energyWeights : EnergyWeights) {op op' : Operator} (hop : op.identity = op'.identity) :
    energyAdjustment profiles members energyWeights op =
      energyAdjustment profiles members' energyWeights op' := by
  have hform : ∀ signal members, observed signal profiles members =
      ((members.map Operator.identity).filterMap profiles.get?).map signal := by
    intro signal members
    rw [List.filterMap_map]
    rfl
  have hobserved : ∀ signal v, v ∈ observed signal profiles members ↔
      v ∈ observed signal profiles members' := by
    intro signal v
    rw [hform, hform]
    exact ((h.filterMap _).map signal).mem_iff
  have hsignal : ∀ signal, signalOf signal profiles members op =
      signalOf signal profiles members' op' := by
    intro signal
    rw [signalOf, signalOf, worstSignal_eq, worstSignal_eq, highest, highest,
      max?_eq_of_mem_iff (hobserved signal), hop]
  have hplace : ∀ signal, signalPlace profiles members signal op =
      signalPlace profiles members' signal op' := by
    intro signal
    rw [signalPlace_eq, signalPlace_eq, hsignal, rescaleIn_eq_of_mem_iff (hobserved signal)]
  rw [energyAdjustment, energyAdjustment, hplace, hplace, inSurplus, inSurplus, hop]

end Signals

/-- The lead that a signal gives to `a` over `b`. -/
def signalLead (profiles : Dict Identity EnergyProfile) (members : List Operator) (weight : ℚ)
    (signal : EnergyProfile → ℚ) (a b : Operator) : ℚ :=
  weight * (signalPlace profiles members signal b - signalPlace profiles members signal a)

/-- The lead that the surplus bonus gives to `a` over `b`. -/
def bonusLead (profiles : Dict Identity EnergyProfile) (bonus : ℚ) (a b : Operator) : ℚ :=
  (if inSurplus profiles a then bonus else 0) - if inSurplus profiles b then bonus else 0

/-- The adjustments give a lead by the two signals and the bonus. -/
theorem energyAdjustment_sub (profiles : Dict Identity EnergyProfile) (members : List Operator)
    (energyWeights : EnergyWeights) (a b : Operator) :
    energyAdjustment profiles members energyWeights a -
        energyAdjustment profiles members energyWeights b =
      signalLead profiles members energyWeights.energy EnergyProfile.energyCostPerKwh a b +
        signalLead profiles members energyWeights.carbon EnergyProfile.carbonIntensity a b +
        bonusLead profiles energyWeights.surplusBonus a b := by
  rw [energyAdjustment, energyAdjustment, signalLead, signalLead, bonusLead]
  ring

/-- The rescored pool is the pool in the order of its adjusted scores. -/
theorem rankedBy_rescored (pool : List Operator) (profiles : Dict Identity EnergyProfile)
    (req : RoutingRequest) (weights : RoutingWeights) (energyWeights : EnergyWeights) :
    RankedBy pool
      (fun op => poolScore pool req weights op + energyAdjustment profiles pool energyWeights op)
      (rescored profiles energyWeights (scoredPool pool req weights)) := by
  constructor
  · have hadjust : ∀ op, energyAdjustment profiles
        ((scoredPool pool req weights).map Prod.fst) energyWeights op =
          energyAdjustment profiles pool energyWeights op := fun op =>
      energyAdjustment_eq_of_identities ((perm_scoredPool pool req weights).map _) energyWeights rfl
    refine (perm_sortBy _ _).trans ?_
    simp only [hadjust]
    exact (rankedBy_scoredPool pool req weights).perm_add _
  · exact pairwise_sortBy _ _

/-! ## One profile more -/

/-- The profiles are those of `others` and one of `x`, which `others` does not have. -/
structure AddsProfile (others : Dict Identity EnergyProfile) (x : Identity)
    (profile : EnergyProfile) (profiles : Dict Identity EnergyProfile) : Prop where
  absent : others.get? x = none
  get?_eq : ∀ k, profiles.get? k = if k = x then some profile else others.get? k

namespace AddsProfile
variable {others profiles : Dict Identity EnergyProfile} {x : Identity} {profile : EnergyProfile}
  {members : List Operator} {signal : EnergyProfile → ℚ}

/-- A profile is added to those that are left without it. -/
theorem of_get? (h : profiles.get? x = some profile) :
    AddsProfile (profiles.erase x) x profile profiles where
  absent := by rw [Dict.get?_erase, if_pos rfl]
  get?_eq k := by
    rw [Dict.get?_erase]
    split
    · next hk => rw [hk, h]
    · rfl

/-- Assigning a profile adds it to those that are left without the old one. -/
theorem of_set (profiles : Dict Identity EnergyProfile) (x : Identity) (profile : EnergyProfile) :
    AddsProfile (profiles.erase x) x profile (profiles.set x profile) where
  absent := by rw [Dict.get?_erase, if_pos rfl]
  get?_eq k := by
    rw [Dict.get?_erase, Dict.get?_set]
    split <;> rfl

variable (h : AddsProfile others x profile profiles)
include h

theorem get?_self {a : Operator} (ha : a.identity = x) :
    profiles.get? a.identity = some profile := by rw [h.get?_eq, if_pos ha]

theorem get?_other {b : Operator} (hb : b.identity ≠ x) :
    profiles.get? b.identity = others.get? b.identity := by rw [h.get?_eq, if_neg hb]

/-- The profile of a member adds its signal to those observed. -/
theorem mem_observed_iff {a : Operator} (ha : a ∈ members) (hax : a.identity = x) (v : ℚ) :
    v ∈ observed signal profiles members ↔
      v ∈ signal profile :: observed signal others members := by
  rw [List.mem_cons, mem_observed, mem_observed]
  constructor
  · rintro ⟨o, ho, q, hq, rfl⟩
    rw [h.get?_eq] at hq
    split at hq
    · exact .inl (congrArg signal (Option.some.inj hq).symm)
    · exact .inr ⟨o, ho, q, hq, rfl⟩
  · rintro (rfl | ⟨o, ho, q, hq, rfl⟩)
    · exact ⟨a, ha, profile, h.get?_self hax, rfl⟩
    · refine ⟨o, ho, q, ?_, rfl⟩
      rw [h.get?_other, hq]
      rintro rfl
      rw [h.absent] at hq
      cases hq

variable {a b : Operator} (ha : a ∈ members) (hax : a.identity = x)
include ha hax

theorem rescaleIn_observed (v : ℚ) : rescaleIn (observed signal profiles members) v =
    rescaleIn (signal profile :: observed signal others members) v :=
  rescaleIn_eq_of_mem_iff (h.mem_observed_iff ha hax) v

theorem highest_observed : highest (observed signal profiles members) =
    highest (signal profile :: observed signal others members) := by
  rw [highest, highest, max?_eq_of_mem_iff (h.mem_observed_iff ha hax)]

/-- The place of the member whose profile it is. -/
theorem signalPlace_self : signalPlace profiles members signal a =
    rescaleIn (signal profile :: observed signal others members) (signal profile) := by
  rw [signalPlace_eq, signalOf_of_some (h.get?_self hax), h.rescaleIn_observed ha hax]

/-- The place of a member that has a profile too. -/
theorem signalPlace_of_some (hb : b.identity ≠ x) {other : EnergyProfile}
    (hother : others.get? b.identity = some other) : signalPlace profiles members signal b =
      rescaleIn (signal profile :: observed signal others members) (signal other) := by
  rw [signalPlace_eq, signalOf_of_some ((h.get?_other hb).trans hother),
    h.rescaleIn_observed ha hax]

/-- The place of a member that has none. -/
theorem signalPlace_of_none (hb : b.identity ≠ x) (hother : others.get? b.identity = none) :
    signalPlace profiles members signal b =
      rescaleIn (signal profile :: observed signal others members)
        (highest (signal profile :: observed signal others members)) := by
  rw [signalPlace_eq, signalOf_of_none ((h.get?_other hb).trans hother),
    h.rescaleIn_observed ha hax, h.highest_observed ha hax]

end AddsProfile

end YeBlock
