import Mathlib.Data.Finset.Order
import YeBlock.Protocol.Metering

/-!
# Which meters corroborate a window

The cross-checks stand for independent measurement: a meter alone earns nothing.  But the
verdict is read off the joules of the readings, and never looks at the meters they were
taken by, so one more reading of the primary's own meter, or a copy of a reading, is a vote
like any other.  It is sure to make no difference exactly where the vote of the cross-checks
is settled with a vote to spare.

## Main definitions

* `votes` — how many cross-checks read what is asked for.
* `Outvoted`, `Carried`, `Agreed` — the ways in which a vote is settled; `Settled`.
* `IndependentOnly` — a window that is corroborated by independent meters only.
* `corroboration_independent_iff` — which windows are.
-/

namespace YeBlock

open Lib

/-- How many cross-checks read what is asked for. -/
def votes (crossChecks : List MeterReading) (p : ℤ → Prop) [DecidablePred p] : ℕ :=
  crossChecks.countP fun r => p r.joules

/-- Too few cross-checks reach the primary, with the tolerance added to each: less than half,
and `spare` votes more would not be enough.  Ceilings rise with the readings, unless the
tolerance takes away all of a reading, or more. -/
structure Outvoted (primary : MeterReading) (crossChecks : List MeterReading) (toleranceBps : ℤ)
    (spare : ℕ) : Prop where
  rising : 0 < basisPoints + toleranceBps →
    2 * votes crossChecks (fun j => primary.joules ≤ ceilingOf j toleranceBps) + spare <
      crossChecks.length
  flat : basisPoints + toleranceBps = 0 → 0 < primary.joules
  falling : basisPoints + toleranceBps < 0 →
    2 * votes crossChecks (fun j => primary.joules ≤ ceilingOf j toleranceBps) + spare ≤
      crossChecks.length

/-- More than half of the cross-checks read no less than the primary, and reach it. -/
def Carried (primary : MeterReading) (crossChecks : List MeterReading) (toleranceBps : ℤ) : Prop :=
  0 ≤ basisPoints + toleranceBps ∧ crossChecks.length <
    2 * votes crossChecks fun j => primary.joules ≤ ceilingOf j toleranceBps ∧ primary.joules ≤ j

/-- The cross-checks agree on a value, with a vote to spare: fewer than half of them read less,
and fewer than half, by one vote, read more. -/
def Agreed (crossChecks : List MeterReading) : Prop :=
  ∃ v, 2 * votes crossChecks (· < v) < crossChecks.length ∧
    2 * votes crossChecks (v < ·) + 1 < crossChecks.length

/-- The vote is settled, whatever one more reading says. -/
def Settled (primary : MeterReading) (crossChecks : List MeterReading) (toleranceBps : ℤ) : Prop :=
  primary.joules < 0 ∨ Outvoted primary crossChecks toleranceBps 1 ∨
    Carried primary crossChecks toleranceBps ∨ Agreed crossChecks

/-- No joule can be minted: the primary is refused or reads none, or nobody checks it. -/
def Unminted (primary : MeterReading) (crossChecks : List MeterReading) (toleranceBps : ℤ) : Prop :=
  primary.joules < 0 ∨ crossChecks = [] ∨ Outvoted primary crossChecks toleranceBps 0 ∨
    primary.joules = 0 ∧ 2 * votes crossChecks (· < 0) ≤ crossChecks.length

/-- A window that mints nothing. -/
def MintsNothing (primary : MeterReading) (crossChecks : List MeterReading) (toleranceBps : ℤ) :
    Prop :=
  ∀ accepted mintable,
    validateAttestation primary crossChecks toleranceBps = .ok (accepted, mintable) → mintable = 0

/-- Only independent meters corroborate a window: a further reading of the primary's own
meter, or a copy of a reading, changes nothing, wherever it is put; and the primary's own meter
alone mints nothing. -/
structure IndependentOnly (primary : MeterReading) (crossChecks : List MeterReading)
    (toleranceBps : ℤ) : Prop where
  unmoved : ∀ added : MeterReading, added.meter = primary.meter ∨ added ∈ crossChecks →
    ∀ more : List MeterReading, more.Perm (added :: crossChecks) →
      validateAttestation primary more toleranceBps =
        validateAttestation primary crossChecks toleranceBps
  alone : (∀ r ∈ crossChecks, r.meter = primary.meter) →
    MintsNothing primary crossChecks toleranceBps

/-! ## Ceilings -/

section Ceilings
variable {toleranceBps : ℤ}

theorem ceilingOf_eq (c toleranceBps : ℤ) :
    ceilingOf c toleranceBps = c * (basisPoints + toleranceBps) / basisPoints := by
  rw [mul_add, add_comm, Int.add_mul_ediv_right _ _ basisPoints_pos.ne', ceilingOf, add_comm]

theorem ceilingOf_le_of_rising (h : 0 ≤ basisPoints + toleranceBps) {c c' : ℤ} (hc : c ≤ c') :
    ceilingOf c toleranceBps ≤ ceilingOf c' toleranceBps := by
  rw [ceilingOf_eq, ceilingOf_eq]
  exact Int.ediv_le_ediv basisPoints_pos (mul_le_mul_of_nonneg_right hc h)

theorem ceilingOf_le_of_falling (h : basisPoints + toleranceBps ≤ 0) {c c' : ℤ} (hc : c ≤ c') :
    ceilingOf c' toleranceBps ≤ ceilingOf c toleranceBps := by
  rw [ceilingOf_eq, ceilingOf_eq]
  exact Int.ediv_le_ediv basisPoints_pos (mul_le_mul_of_nonpos_right hc h)

theorem ceilingOf_flat (h : basisPoints + toleranceBps = 0) (c : ℤ) :
    ceilingOf c toleranceBps = 0 := by
  rw [ceilingOf_eq, h, mul_zero, Int.zero_ediv]

/-- Every primary is reached by readings that are high enough. -/
theorem le_ceilingOf_of_rising (h : 0 < basisPoints + toleranceBps) {joules c : ℤ}
    (hjoules : 0 ≤ joules) (hc : joules * basisPoints ≤ c) : joules ≤ ceilingOf c toleranceBps := by
  refine le_trans ?_ (ceilingOf_le_of_rising h.le hc)
  rw [ceilingOf_eq, mul_right_comm, Int.mul_ediv_cancel _ basisPoints_pos.ne']
  exact le_mul_of_one_le_right hjoules h

/-- Where ceilings fall it is by readings that are low enough. -/
theorem le_ceilingOf_of_falling (h : basisPoints + toleranceBps < 0) {joules c : ℤ}
    (hjoules : 0 ≤ joules) (hc : c ≤ -(joules * basisPoints)) :
    joules ≤ ceilingOf c toleranceBps := by
  refine le_trans ?_ (ceilingOf_le_of_falling h.le hc)
  have hstep : joules * 1 ≤ joules * -(basisPoints + toleranceBps) :=
    mul_le_mul_of_nonneg_left (by omega) hjoules
  rw [ceilingOf_eq, ← neg_mul, mul_right_comm, Int.mul_ediv_cancel _ basisPoints_pos.ne']
  linarith

/-- Where ceilings fall a reading that is no less than the primary and reaches it is zero. -/
theorem eq_zero_of_falling (h : basisPoints + toleranceBps < 0) {joules c : ℤ}
    (hjoules : 0 ≤ joules) (hc : joules ≤ c) (hreach : joules ≤ ceilingOf c toleranceBps) :
    c = 0 := by
  by_contra hne
  have hpos : 0 < c := by omega
  have hneg : c * (basisPoints + toleranceBps) / basisPoints < 0 :=
    Int.ediv_neg_of_neg_of_pos (mul_neg_of_pos_of_neg hpos h) basisPoints_pos
  rw [ceilingOf_eq] at hreach
  omega

end Ceilings

/-! ## Votes -/

section Votes
variable {primary : MeterReading} {crossChecks : List MeterReading} {toleranceBps c : ℤ}

theorem votes_eq_countP (crossChecks : List MeterReading) (p : ℤ → Prop) [DecidablePred p] :
    votes crossChecks p = (crossChecks.map MeterReading.joules).countP fun j => p j := by
  rw [votes, List.countP_map]
  rfl

theorem votes_cons (r : MeterReading) (crossChecks : List MeterReading) (p : ℤ → Prop)
    [DecidablePred p] :
    votes (r :: crossChecks) p = votes crossChecks p + if p r.joules then 1 else 0 := by
  simp [votes, List.countP_cons]

/-- **The middle is too low for the primary** exactly when it is outvoted. -/
theorem refused_iff (hc : IsMiddle (crossChecks.map MeterReading.joules) c) :
    ceilingOf c toleranceBps < primary.joules ↔ Outvoted primary crossChecks toleranceBps 0 := by
  rcases lt_trichotomy 0 (basisPoints + toleranceBps) with hd | hd | hd
  · have hvotes := hc.upward_iff (p := fun j => primary.joules ≤ ceilingOf j toleranceBps)
      fun y z hyz hy => hy.trans (ceilingOf_le_of_rising hd.le hyz)
    rw [← votes_eq_countP, List.length_map] at hvotes
    rw [← not_le, hvotes, not_le]
    exact ⟨fun h => ⟨fun _ => h, fun h0 => by omega, fun h0 => by omega⟩, fun h => h.rising hd⟩
  · rw [ceilingOf_flat hd.symm]
    exact ⟨fun h => ⟨fun h0 => by omega, fun _ => h, fun h0 => by omega⟩, fun h => h.flat hd.symm⟩
  · have hvotes := hc.downward_iff (p := fun j => primary.joules ≤ ceilingOf j toleranceBps)
      fun y z hyz hz => hz.trans (ceilingOf_le_of_falling hd.le hyz)
    rw [← votes_eq_countP, List.length_map] at hvotes
    rw [← not_le, hvotes, not_lt]
    exact ⟨fun h => ⟨fun h0 => by omega, fun h0 => by omega, fun _ => h⟩, fun h => h.falling hd⟩

/-- The middle reaches the primary, and is no less, exactly when half of the readings are so. -/
theorem carried_iff (hd : 0 ≤ basisPoints + toleranceBps)
    (hc : IsMiddle (crossChecks.map MeterReading.joules) c) :
    (primary.joules ≤ ceilingOf c toleranceBps ∧ primary.joules ≤ c) ↔ crossChecks.length ≤
      2 * votes crossChecks fun j =>
        primary.joules ≤ ceilingOf j toleranceBps ∧ primary.joules ≤ j := by
  have hvotes := hc.upward_iff
    (p := fun j => primary.joules ≤ ceilingOf j toleranceBps ∧ primary.joules ≤ j)
    fun y z hyz hy => ⟨hy.1.trans (ceilingOf_le_of_rising hd hyz), hy.2.trans hyz⟩
  rwa [← votes_eq_countP, List.length_map] at hvotes

/-- A primary that is outvoted with a vote to spare is outvoted after one more vote. -/
theorem Outvoted.cons (h : Outvoted primary crossChecks toleranceBps 1) (added : MeterReading) :
    Outvoted primary (added :: crossChecks) toleranceBps 0 := by
  constructor
  · intro hd
    have hrising := h.rising hd
    rw [votes_cons, List.length_cons]
    split <;> omega
  · exact h.flat
  · intro hd
    have hfalling := h.falling hd
    rw [votes_cons, List.length_cons]
    split <;> omega

theorem Outvoted.of_spare (h : Outvoted primary crossChecks toleranceBps 1) :
    Outvoted primary crossChecks toleranceBps 0 where
  rising hd := by
    have hrising := h.rising hd
    omega
  flat := h.flat
  falling hd := by
    have hfalling := h.falling hd
    omega

/-- One vote more that reaches the primary is the one to spare. -/
theorem Outvoted.of_cons {r : MeterReading} (hr : primary.joules ≤ ceilingOf r.joules toleranceBps)
    (h : Outvoted primary (r :: crossChecks) toleranceBps 0) :
    Outvoted primary crossChecks toleranceBps 1 := by
  constructor
  · intro hd
    have hrising := h.rising hd
    rw [votes_cons, if_pos hr, List.length_cons] at hrising
    omega
  · exact h.flat
  · intro hd
    have hfalling := h.falling hd
    rw [votes_cons, if_pos hr, List.length_cons] at hfalling
    omega

/-- The middle, by the votes below and above it. -/
theorem isMiddle_joules_iff :
    IsMiddle (crossChecks.map MeterReading.joules) c ↔
      2 * votes crossChecks (· < c) ≤ crossChecks.length ∧
        2 * votes crossChecks (c < ·) < crossChecks.length := by
  rw [isMiddle_iff_votes, votes_eq_countP, votes_eq_countP, List.length_map]

end Votes

/-! ## A settled vote -/

section Window
variable {primary : MeterReading} {crossChecks : List MeterReading} {toleranceBps : ℤ}

theorem validateAttestation_of_neg (h : primary.joules < 0) (crossChecks : List MeterReading)
    (toleranceBps : ℤ) : validateAttestation primary crossChecks toleranceBps =
      .error (.valueError "negative joules") := if_pos h

theorem validateAttestation_nil (h : 0 ≤ primary.joules) (toleranceBps : ℤ) :
    validateAttestation primary [] toleranceBps = .ok (false, 0) := by
  rw [validateAttestation, if_neg h.not_gt, if_pos rfl]

theorem exists_isMiddle_joules (hne : crossChecks ≠ []) :
    ∃ c, IsMiddle (crossChecks.map MeterReading.joules) c :=
  exists_isMiddle (by simpa using hne)

/-- The order of the cross-checks makes no difference. -/
theorem validateAttestation_perm {more : List MeterReading} (h : more.Perm crossChecks) :
    validateAttestation primary more toleranceBps =
      validateAttestation primary crossChecks toleranceBps := by
  rcases lt_or_ge primary.joules 0 with hneg | hprimary
  · rw [validateAttestation_of_neg hneg, validateAttestation_of_neg hneg]
  by_cases hempty : crossChecks = []
  · subst hempty
    rw [h.eq_nil]
  · obtain ⟨c, hc⟩ := exists_isMiddle_joules hempty
    have hc' : IsMiddle (more.map MeterReading.joules) c := by
      rwa [IsMiddle, isNth_iff_of_perm (h.map _), (h.map _).length_eq]
    rw [validateAttestation_eq hprimary hc, validateAttestation_eq hprimary hc']

/-- A primary that is outvoted is refused. -/
theorem validateAttestation_of_outvoted (hprimary : 0 ≤ primary.joules)
    (h : Outvoted primary crossChecks toleranceBps 0) :
    validateAttestation primary crossChecks toleranceBps = .ok (false, 0) := by
  by_cases hempty : crossChecks = []
  · rw [hempty, validateAttestation_nil hprimary]
  · obtain ⟨c, hc⟩ := exists_isMiddle_joules hempty
    rw [validateAttestation_eq hprimary hc, verdictAt, if_pos ((refused_iff hc).mpr h)]

/-- A primary that half of the cross-checks carry is accepted for its own joules. -/
theorem validateAttestation_of_carried (hprimary : 0 ≤ primary.joules)
    (hd : 0 ≤ basisPoints + toleranceBps) (hne : crossChecks ≠ [])
    (h : crossChecks.length ≤ 2 * votes crossChecks fun j =>
      primary.joules ≤ ceilingOf j toleranceBps ∧ primary.joules ≤ j) :
    validateAttestation primary crossChecks toleranceBps = .ok (true, primary.joules) := by
  obtain ⟨c, hc⟩ := exists_isMiddle_joules hne
  obtain ⟨hreach, hle⟩ := (carried_iff hd hc).mpr h
  rw [validateAttestation_eq hprimary hc, verdictAt, if_neg hreach.not_gt, min_eq_left hle]

/-- Where the vote is settled one more reading makes no difference. -/
theorem unmoved_of_settled (h : Settled primary crossChecks toleranceBps) (added : MeterReading) :
    validateAttestation primary (added :: crossChecks) toleranceBps =
      validateAttestation primary crossChecks toleranceBps := by
  rcases lt_or_ge primary.joules 0 with hneg | hprimary
  · rw [validateAttestation_of_neg hneg, validateAttestation_of_neg hneg]
  rcases h with hneg | hout | ⟨hd, hcarried⟩ | ⟨v, hbelow, habove⟩
  · exact absurd hprimary hneg.not_ge
  · rw [validateAttestation_of_outvoted hprimary (hout.cons added),
      validateAttestation_of_outvoted hprimary hout.of_spare]
  · have hne : crossChecks ≠ [] := by
      rintro rfl
      simp [votes] at hcarried
    rw [validateAttestation_of_carried hprimary hd hne hcarried.le]
    refine validateAttestation_of_carried hprimary hd (List.cons_ne_nil _ _) ?_
    rw [votes_cons, List.length_cons]
    omega
  · have hmiddle : IsMiddle (crossChecks.map MeterReading.joules) v :=
      isMiddle_joules_iff.mpr ⟨hbelow.le, by omega⟩
    have hmiddle' : IsMiddle ((added :: crossChecks).map MeterReading.joules) v := by
      rw [isMiddle_joules_iff, votes_cons, votes_cons, List.length_cons]
      constructor <;> split <;> omega
    rw [validateAttestation_eq hprimary hmiddle, validateAttestation_eq hprimary hmiddle']

/-! ## An unsettled one -/

/-- Equal verdicts: where one middle reaches the primary the other does, and they mint the
same. -/
theorem reaches_of_verdictAt_eq {joules c c' : ℤ}
    (h : verdictAt joules toleranceBps c = verdictAt joules toleranceBps c')
    (hc : joules ≤ ceilingOf c toleranceBps) :
    joules ≤ ceilingOf c' toleranceBps ∧ min joules c = min joules c' := by
  rw [verdictAt, verdictAt, if_neg hc.not_gt] at h
  split at h
  · cases h
  · next hc' => exact ⟨not_lt.mp hc', congrArg Prod.snd h⟩

/-- Some bound is beyond all the readings, and what they have to reach. -/
theorem exists_bound (primary : MeterReading) (crossChecks : List MeterReading) :
    ∃ b : ℤ, primary.joules * basisPoints ≤ b ∧ 0 ≤ b ∧
      ∀ r ∈ crossChecks, -b ≤ r.joules ∧ r.joules ≤ b := by
  obtain ⟨m, hm⟩ := (crossChecks.map fun r => |r.joules|).toFinset.exists_le
  refine ⟨max m (max 0 (primary.joules * basisPoints)), by simp, by simp, fun r hr => ?_⟩
  have hle := hm |r.joules| (List.mem_toFinset.mpr (List.mem_map_of_mem hr))
  rw [← abs_le]
  exact hle.trans (le_max_left _ _)

/-- Readings that are the middle beside a vote from below all of them, and beside one from
above, agree on it. -/
theorem agreed_of_extremes {b m : ℤ} (hb : 0 ≤ b)
    (hbound : ∀ r ∈ crossChecks, -b ≤ r.joules ∧ r.joules ≤ b) {low high : MeterReading}
    (hlow : low.joules = -(b + 1)) (hhigh : high.joules = b + 1)
    (hm : IsMiddle ((low :: crossChecks).map MeterReading.joules) m)
    (hm' : IsMiddle ((high :: crossChecks).map MeterReading.joules) m) : Agreed crossChecks := by
  have hall : ∀ p : ℤ → Prop, ∀ [DecidablePred p], (∀ r ∈ crossChecks, p r.joules) →
      votes crossChecks p = crossChecks.length := fun p _ h =>
    List.countP_eq_length.mpr fun r hr => decide_eq_true (h r hr)
  obtain ⟨hbelow, habove⟩ := isMiddle_joules_iff.mp hm
  obtain ⟨hbelow', habove'⟩ := isMiddle_joules_iff.mp hm'
  rw [votes_cons, List.length_cons] at hbelow habove hbelow' habove'
  have hlt : low.joules < m := by
    by_contra hle
    have hevery := hall (m < ·) fun r hr => by have hr := (hbound r hr).1; omega
    rw [hevery, if_pos (by omega)] at habove'
    omega
  have hgt : m < high.joules := by
    by_contra hle
    have hevery := hall (· < m) fun r hr => by have hr := (hbound r hr).2; omega
    rw [hevery, if_pos (by omega)] at hbelow
    omega
  rw [if_pos hlt] at hbelow
  rw [if_pos hgt] at habove'
  exact ⟨m, by omega, by omega⟩

/-- A primary that is not outvoted with a vote to spare is reached by the middle beside a very
low vote, or beside a very high one: the one that reaches it itself. -/
theorem reaches_of_not_outvoted (hprimary : 0 ≤ primary.joules)
    (hout : ¬ Outvoted primary crossChecks toleranceBps 1) {b m m' : ℤ}
    (hb : primary.joules * basisPoints ≤ b) {low high : MeterReading}
    (hlow : low.joules = -(b + 1)) (hhigh : high.joules = b + 1)
    (hm : IsMiddle ((low :: crossChecks).map MeterReading.joules) m)
    (hm' : IsMiddle ((high :: crossChecks).map MeterReading.joules) m') :
    primary.joules ≤ ceilingOf m toleranceBps ∨ primary.joules ≤ ceilingOf m' toleranceBps := by
  rcases lt_trichotomy 0 (basisPoints + toleranceBps) with hd | hd | hd
  · have hvote := le_ceilingOf_of_rising hd hprimary (c := high.joules) (by omega)
    exact .inr (not_lt.mp (mt (refused_iff hm').mp fun hrefused => hout (hrefused.of_cons hvote)))
  · rw [ceilingOf_flat hd.symm]
    by_contra hpos
    exact hout ⟨fun h0 => by omega, fun _ => by omega, fun h0 => by omega⟩
  · have hvote := le_ceilingOf_of_falling hd hprimary (c := low.joules) (by omega)
    exact .inl (not_lt.mp (mt (refused_iff hm).mp fun hrefused => hout (hrefused.of_cons hvote)))

/-- **Where the vote is not settled** a reading of the primary's meter makes a difference: a
very low one or a very high one. -/
theorem settled_of_unmoved (h : ∀ j : ℤ,
    validateAttestation primary (⟨primary.meter, j⟩ :: crossChecks) toleranceBps =
      validateAttestation primary crossChecks toleranceBps) :
    Settled primary crossChecks toleranceBps := by
  rcases lt_or_ge primary.joules 0 with hneg | hprimary
  · exact .inl hneg
  by_cases hout : Outvoted primary crossChecks toleranceBps 1
  · exact .inr (.inl hout)
  obtain ⟨b, hscaled, hb, hbound⟩ := exists_bound primary crossChecks
  obtain ⟨m, hm⟩ : ∃ m, IsMiddle ((⟨primary.meter, -(b + 1)⟩ :: crossChecks).map
      MeterReading.joules) m := exists_isMiddle_joules (List.cons_ne_nil _ _)
  obtain ⟨m', hm'⟩ : ∃ m, IsMiddle ((⟨primary.meter, b + 1⟩ :: crossChecks).map
      MeterReading.joules) m := exists_isMiddle_joules (List.cons_ne_nil _ _)
  have hsame : verdictAt primary.joules toleranceBps m =
      verdictAt primary.joules toleranceBps m' := by
    have hlow := h (-(b + 1))
    rw [← h (b + 1), validateAttestation_eq hprimary hm,
      validateAttestation_eq hprimary hm'] at hlow
    exact Except.ok.inj hlow
  have hreach : primary.joules ≤ ceilingOf m toleranceBps :=
    (reaches_of_not_outvoted hprimary hout hscaled rfl rfl hm hm').elim id fun hreach' =>
      (reaches_of_verdictAt_eq hsame.symm hreach').1
  obtain ⟨hreach', hmin⟩ := reaches_of_verdictAt_eq hsame hreach
  have hagreed : m = m' → Agreed crossChecks := by
    rintro rfl
    exact agreed_of_extremes hb hbound rfl rfl hm hm'
  -- the same is minted of both: the middles agree, or both carry the primary
  by_cases hle : primary.joules ≤ m
  · rcases le_or_gt 0 (basisPoints + toleranceBps) with hd | hd
    · have hvotes := (carried_iff hd hm).mp ⟨hreach, hle⟩
      have hlow : ¬ primary.joules ≤ -(b + 1) := by omega
      rw [votes_cons, if_neg fun hvote => hlow hvote.2, List.length_cons] at hvotes
      exact .inr (.inr (.inl ⟨hd, by omega⟩))
    · have hle' : primary.joules ≤ m' := by omega
      have hzero := eq_zero_of_falling hd hprimary hle hreach
      have hzero' := eq_zero_of_falling hd hprimary hle' hreach'
      exact .inr (.inr (.inr (hagreed (hzero.trans hzero'.symm))))
  · exact .inr (.inr (.inr (hagreed (by omega))))

/-- **When a window mints nothing**: the primary is refused, nothing corroborates it, or what
it is accepted for is nothing. -/
theorem mintsNothing_iff : MintsNothing primary crossChecks toleranceBps ↔
    Unminted primary crossChecks toleranceBps := by
  rw [MintsNothing, Unminted]
  rcases lt_or_ge primary.joules 0 with hneg | hprimary
  · refine iff_of_true ?_ (.inl hneg)
    rw [validateAttestation_of_neg hneg]
    intro _ _ h
    cases h
  by_cases hempty : crossChecks = []
  · refine iff_of_true ?_ (.inr (.inl hempty))
    rw [hempty, validateAttestation_nil hprimary]
    intro _ _ h
    cases h
    rfl
  obtain ⟨c, hc⟩ := exists_isMiddle_joules hempty
  have hnegative := hc.downward_iff (p := fun j => j < 0) fun y z hyz hz => by omega
  rw [← votes_eq_countP, List.length_map] at hnegative
  rw [validateAttestation_eq hprimary hc, or_iff_right hprimary.not_gt, or_iff_right hempty,
    ← refused_iff hc, verdictAt]
  by_cases hrefused : ceilingOf c toleranceBps < primary.joules
  · simp [hrefused]
  · have hzero : c = 0 → ceilingOf c toleranceBps = 0 := by
      rintro rfl
      simp [ceilingOf]
    simp only [hrefused, if_false, false_or, Except.ok.injEq, Prod.mk.injEq]
    constructor
    · intro h
      have hnone := h true _ ⟨rfl, rfl⟩
      omega
    · rintro ⟨hjoules, hvotes⟩ _ _ ⟨-, rfl⟩
      omega

/-- **When independent meters only corroborate a window**: exactly when the vote of its
cross-checks is settled, and, if they are all of the primary's own meter, nothing is minted. -/
theorem corroboration_independent_iff (primary : MeterReading) (crossChecks : List MeterReading)
    (toleranceBps : ℤ) :
    IndependentOnly primary crossChecks toleranceBps ↔
      Settled primary crossChecks toleranceBps ∧
        ((∀ r ∈ crossChecks, r.meter = primary.meter) →
          Unminted primary crossChecks toleranceBps) := by
  constructor
  · intro h
    exact ⟨settled_of_unmoved fun j => h.unmoved ⟨primary.meter, j⟩ (.inl rfl) _ (.refl _),
      fun hown => mintsNothing_iff.mp (h.alone hown)⟩
  · rintro ⟨hsettled, halone⟩
    refine ⟨fun added _ more hperm => ?_, fun hown => mintsNothing_iff.mpr (halone hown)⟩
    rw [validateAttestation_perm hperm, unmoved_of_settled hsettled]

end Window

/-- A meter that is its own only witness mints what it says. -/
theorem solo_meter_mints :
    ¬ ∀ (primary : MeterReading) (crossChecks : List MeterReading) (toleranceBps : ℤ),
      IndependentOnly primary crossChecks toleranceBps := by
  intro h
  have hsolo : validateAttestation ⟨"meter-1", 5000000⟩ [⟨"meter-1", 5000000⟩] 200 =
      .ok (true, 5000000) := by decide +kernel
  have hnothing := (h ⟨"meter-1", 5000000⟩ [⟨"meter-1", 5000000⟩] 200).alone (by decide) _ _ hsolo
  exact absurd hnothing (by decide)

end YeBlock
