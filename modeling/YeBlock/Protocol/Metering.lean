import Mathlib.Data.Finset.Max
import Mathlib.Data.Fintype.Card
import YeBlock.Lib.OrderStatistic
import YeBlock.Protocol.EconomicSecurity

/-!
# The energy market: metering

A window's energy is minted from the reading of a primary meter, capped by what the
cross-check meters corroborate: the reading in the middle of theirs, in ascending order.  A
primary above that by more than the tolerance is rejected.

The middle withstands a minority: fewer than half of the readings can neither raise it
above every other reading nor lower it below every other.

## Main definitions

* `MeterReading`, `validateAttestation`, `overReportUnprofitable` — the source's.
* `ceilingOf`, `verdictAt` — what a window is worth to the primary, by what corroborates it.
* `validateAttestation_eq` — the verdict of a window.
* `Withstands`, `validateAttestation_withstands` — a dishonest minority.
-/

namespace YeBlock

open Lib

/-- What a meter attests for a window. -/
structure MeterReading where
  meter : Identity
  joules : ℤ
  deriving DecidableEq

/-- Accept or reject a metering window against its cross-check meters; returns the verdict
and the mintable joules. -/
def validateAttestation (primary : MeterReading) (crossChecks : List MeterReading)
    (toleranceBps : ℤ := 200) : Except PyError (Bool × ℤ) :=
  if primary.joules < 0 then
    .error (.valueError "negative joules")
  else if crossChecks = [] then
    .ok (false, 0)
  else do
    let corroborated ← getItem (sortBy id (crossChecks.map MeterReading.joules))
      (crossChecks.length / 2)
    let ceiling := corroborated + corroborated * toleranceBps / basisPoints
    if ceiling < primary.joules then
      return (false, 0)
    else
      return (true, min primary.joules corroborated)

/-- Whether faking an attestation loses money in expectation: the inequality of compute
verification, with the faked credit as the reward and the energy saved as the cost. -/
def overReportUnprofitable (creditValue meteringCost stakeAtRisk detectionProb : ℚ) :
    Except PyError Bool := do
  let w ← WorkloadEconomics.new meteringCost creditValue stakeAtRisk
  isCheatingUnprofitable w detectionProb

/-- Faking energy loses money exactly when the expected loss exceeds the energy's cost. -/
theorem overReportUnprofitable_eq {creditValue meteringCost stakeAtRisk detectionProb : ℚ}
    (hcredit : 0 ≤ creditValue) (hcost : 0 ≤ meteringCost) (hstake : 0 ≤ stakeAtRisk)
    (hprob : 0 ≤ detectionProb ∧ detectionProb ≤ 1) :
    overReportUnprofitable creditValue meteringCost stakeAtRisk detectionProb =
      .ok (decide (meteringCost < detectionProb * (stakeAtRisk + creditValue))) := by
  let w : WorkloadEconomics := ⟨meteringCost, creditValue, stakeAtRisk, hcost, hcredit, hstake⟩
  have hnew : WorkloadEconomics.new meteringCost creditValue stakeAtRisk = .ok w := w.new_eq
  rw [overReportUnprofitable, hnew]
  exact isCheatingUnprofitable_eq w hprob

/-! ## The verdict -/

/-- The reading up to which a primary is within tolerance. -/
def ceilingOf (corroborated toleranceBps : ℤ) : ℤ :=
  corroborated + corroborated * toleranceBps / basisPoints

/-- What a window is worth, by what corroborates it. -/
def verdictAt (joules toleranceBps corroborated : ℤ) : Bool × ℤ :=
  if ceilingOf corroborated toleranceBps < joules then (false, 0)
  else (true, min joules corroborated)

/-- **The verdict of a window** is read off the middle of its cross-checks. -/
theorem validateAttestation_eq {primary : MeterReading} (hprimary : 0 ≤ primary.joules)
    {crossChecks : List MeterReading} {corroborated : ℤ}
    (hmiddle : IsMiddle (crossChecks.map MeterReading.joules) corroborated) (toleranceBps : ℤ) :
    validateAttestation primary crossChecks toleranceBps =
      .ok (verdictAt primary.joules toleranceBps corroborated) := by
  have hne : crossChecks ≠ [] := by
    rintro rfl
    exact absurd hmiddle.2 (by simp)
  rw [IsMiddle, ← getElem?_sortBy_iff, List.length_map] at hmiddle
  rw [validateAttestation, if_neg hprimary.not_gt, if_neg hne, getItem, hmiddle]
  simp only [bind, Except.bind, pure, Except.pure]
  by_cases hover : ceilingOf corroborated toleranceBps < primary.joules
  · rw [verdictAt, if_pos hover]
    exact if_pos hover
  · rw [verdictAt, if_neg hover]
    exact if_neg hover

/-- A higher middle leaves more room. -/
theorem ceilingOf_mono {toleranceBps : ℤ} (htol : 0 ≤ toleranceBps) {c c' : ℤ} (h : c ≤ c') :
    ceilingOf c toleranceBps ≤ ceilingOf c' toleranceBps := by
  have hscaled : c * toleranceBps / basisPoints ≤ c' * toleranceBps / basisPoints :=
    Int.ediv_le_ediv basisPoints_pos (mul_le_mul_of_nonneg_right h htol)
  exact add_le_add h hscaled

theorem le_ceilingOf {toleranceBps : ℤ} (htol : 0 ≤ toleranceBps) {c : ℤ} (hc : 0 ≤ c) :
    c ≤ ceilingOf c toleranceBps :=
  le_add_of_nonneg_right (Int.ediv_nonneg (mul_nonneg hc htol) basisPoints_pos.le)

/-- No primary is within tolerance of a negative middle. -/
theorem ceilingOf_neg {toleranceBps : ℤ} (htol : 0 ≤ toleranceBps) {c : ℤ} (hc : c < 0) :
    ceilingOf c toleranceBps < 0 := by
  have hscaled : c * toleranceBps / basisPoints ≤ 0 :=
    Int.ediv_le_of_le_mul basisPoints_pos (by
      rw [zero_mul]
      exact mul_nonpos_of_nonpos_of_nonneg hc.le htol)
  exact add_neg_of_neg_of_nonpos hc hscaled

/-! ## A dishonest minority -/

/-- The verdict of a window when some of the cross-checks are dishonest: what is accepted
mints no more than half of the readings show, nor more than the highest honest one, and the
primary is within tolerance of that one; a primary that no honest reading falls short of is
accepted and mints its own joules. -/
def Withstands (primary : MeterReading) (crossChecks : List MeterReading) (toleranceBps : ℤ)
    (dishonest : Finset (Fin crossChecks.length)) : Prop :=
  ∃ accepted mintable,
    validateAttestation primary crossChecks toleranceBps = .ok (accepted, mintable) ∧
    (accepted = true → 0 ≤ mintable ∧
      crossChecks.length ≤ 2 * crossChecks.countP (fun r => mintable ≤ r.joules) ∧
      ∃ i ∉ dishonest, (∀ j ∉ dishonest, crossChecks[j].joules ≤ crossChecks[i].joules) ∧
        mintable ≤ crossChecks[i].joules ∧
        primary.joules ≤
          crossChecks[i].joules + crossChecks[i].joules * toleranceBps / basisPoints) ∧
    ((∀ i ∉ dishonest, primary.joules ≤ crossChecks[i].joules) →
      accepted = true ∧ mintable = primary.joules)

/-- Some honest reading is the highest. -/
theorem exists_highest_honest {crossChecks : List MeterReading}
    (dishonest : Finset (Fin crossChecks.length))
    (hminority : 2 * dishonest.card < crossChecks.length) :
    ∃ i ∉ dishonest, ∀ j ∉ dishonest, crossChecks[j].joules ≤ crossChecks[i].joules := by
  have hcard : dishonest.card < (Finset.univ : Finset (Fin crossChecks.length)).card := by
    rw [Finset.card_univ, Fintype.card_fin]
    omega
  obtain ⟨i, -, hi⟩ := Finset.exists_mem_notMem_of_card_lt_card hcard
  obtain ⟨i, hi, hmax⟩ := Finset.exists_max_image dishonestᶜ (fun i => crossChecks[i].joules)
    ⟨i, Finset.mem_compl.mpr hi⟩
  exact ⟨i, Finset.mem_compl.mp hi, fun j hj => hmax j (Finset.mem_compl.mpr hj)⟩

/-- What is not above the middle is corroborated by half of the readings. -/
theorem length_le_countP_of_le {crossChecks : List MeterReading} {c mintable : ℤ}
    (hnth : IsNth (crossChecks.map MeterReading.joules) (crossChecks.length / 2) c)
    (h : mintable ≤ c) :
    crossChecks.length ≤ 2 * crossChecks.countP (fun r => mintable ≤ r.joules) := by
  have hreach := hnth.length_le
  rw [List.length_map, List.countP_map] at hreach
  have hmono : (crossChecks.countP fun r => c ≤ r.joules) ≤
      crossChecks.countP fun r => mintable ≤ r.joules :=
    List.countP_mono_left fun r _ hr => decide_eq_true (h.trans (of_decide_eq_true hr))
  simp only [Function.comp_def] at hreach
  omega

section Minority
variable {primary : MeterReading} (hprimary : 0 ≤ primary.joules)
  {crossChecks : List MeterReading} {toleranceBps : ℤ} (htol : 0 ≤ toleranceBps)
  (dishonest : Finset (Fin crossChecks.length))

include hprimary htol

/-- **Metering withstands a dishonest minority**: when fewer than half of the cross-checks
are dishonest, what is accepted is corroborated by half of the readings and by an honest
one, to the tolerance; and a primary that no honest reading falls short of is accepted and
mints its own joules. -/
theorem validateAttestation_withstands (hminority : 2 * dishonest.card < crossChecks.length) :
    Withstands primary crossChecks toleranceBps dishonest := by
  have hne : crossChecks.map MeterReading.joules ≠ [] := by
    rw [ne_eq, List.map_eq_nil_iff]
    rintro rfl
    simp at hminority
  obtain ⟨c, hc⟩ := exists_isMiddle hne
  have hnth : IsNth (crossChecks.map MeterReading.joules) (crossChecks.length / 2) c := by
    simpa [IsMiddle] using hc
  have hverdict := validateAttestation_eq hprimary hc toleranceBps
  -- a primary that no honest reading falls short of is below the middle
  have hcovered : (∀ i ∉ dishonest, primary.joules ≤ crossChecks[i].joules) →
      primary.joules ≤ c := by
    intro hhonest
    obtain ⟨j, hj, hle⟩ := hnth.exists_le_notMem (S := dishonest) (by omega)
    exact (hhonest j hj).trans hle
  by_cases hwithin : primary.joules ≤ ceilingOf c toleranceBps
  · rw [verdictAt, if_neg hwithin.not_gt] at hverdict
    refine ⟨true, _, hverdict, fun _ => ⟨?_, ?_, ?_⟩, fun hhonest => ⟨rfl, ?_⟩⟩
    · have hcorroborated : 0 ≤ c := by
        by_contra hneg
        exact absurd (hprimary.trans hwithin) (ceilingOf_neg htol (not_le.mp hneg)).not_ge
      exact le_min hprimary hcorroborated
    · exact length_le_countP_of_le hnth (min_le_right _ _)
    · obtain ⟨i, hi, hmax⟩ := exists_highest_honest dishonest hminority
      obtain ⟨j, hj, hle⟩ := hnth.exists_ge_notMem (S := dishonest) (by omega)
      have hci : c ≤ crossChecks[i].joules := hle.trans (hmax j hj)
      exact ⟨i, hi, hmax, (min_le_right _ _).trans hci, hwithin.trans (ceilingOf_mono htol hci)⟩
    · exact min_eq_left (hcovered hhonest)
  · rw [verdictAt, if_pos (not_le.mp hwithin)] at hverdict
    refine ⟨false, 0, hverdict, fun haccepted => (by cases haccepted), fun hhonest => ?_⟩
    have hprimaryc := hcovered hhonest
    exact absurd (hprimaryc.trans (le_ceilingOf htol (hprimary.trans hprimaryc))) hwithin

end Minority

/-- The meter of the walkthrough, checked by two honest meters and one that reports nonsense. -/
def checkedWindow : List MeterReading :=
  [⟨"meter-2", 3590000⟩, ⟨"meter-3", 3605000⟩, ⟨"meter-4", -7⟩]

theorem checkedWindow_withstands :
    Withstands ⟨"meter-1", 3600000⟩ checkedWindow 200 {⟨2, by decide⟩} :=
  validateAttestation_withstands (by decide) (by decide) _ (by decide)

end YeBlock
