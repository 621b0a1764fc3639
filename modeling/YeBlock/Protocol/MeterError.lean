import Mathlib.Algebra.Order.BigOperators.Group.List
import YeBlock.Protocol.Metering

/-!
# What is minted, and what was supplied

An honest meter reads the energy of a window up to an error.  As long as most cross-checks
of every window are honest, its middle reading is within the error, so whatever the primary
reports.  Over any number of windows no more is minted than was supplied, up to the error of
each window; and honest primaries mint no less, to the same accuracy, if the tolerance covers
what two honest readings can differ by.

## Main definitions

* `MeteredWindow`, `MeteredWindow.minted` — a window, its energy and what it mints.
* `HonestMajority` — most cross-checks are accurate.
* `minted_tracks_energy` — the balance of a sequence of windows.
-/

namespace YeBlock

open Lib

/-- A metering window, with the energy that was supplied in it. -/
structure MeteredWindow where
  energy : ℤ
  primary : MeterReading
  crossChecks : List MeterReading
  energy_nonneg : 0 ≤ energy

namespace MeteredWindow

/-- The joules that are minted for a window; none where the attestation is refused. -/
def minted (toleranceBps : ℤ) (w : MeteredWindow) : ℤ :=
  match validateAttestation w.primary w.crossChecks toleranceBps with
  | .ok (_, mintable) => mintable
  | .error _ => 0

/-- A reading within the error of the energy. -/
def Accurate (w : MeteredWindow) (error : ℤ) (r : MeterReading) : Prop :=
  |r.joules - w.energy| ≤ error

/-- More than half of the cross-checks are accurate. -/
def HonestMajority (w : MeteredWindow) (error : ℤ) : Prop :=
  ∃ dishonest : Finset (Fin w.crossChecks.length), 2 * dishonest.card < w.crossChecks.length ∧
    ∀ i ∉ dishonest, w.Accurate error w.crossChecks[i]

/-- The tolerance on an accurate reading covers what two of them can differ by. -/
def Covered (w : MeteredWindow) (error toleranceBps : ℤ) : Prop :=
  2 * error * basisPoints ≤ (w.energy - error) * toleranceBps

variable {w : MeteredWindow} {error toleranceBps : ℤ}

/-- **The middle cross-check is accurate**, as dishonest ones can neither raise it above
every honest one nor lower it below. -/
theorem exists_isMiddle_accurate (h : w.HonestMajority error) :
    ∃ c, IsMiddle (w.crossChecks.map MeterReading.joules) c ∧ |c - w.energy| ≤ error := by
  obtain ⟨dishonest, hminority, hhonest⟩ := h
  have hne : w.crossChecks.map MeterReading.joules ≠ [] := by
    rw [ne_eq, List.map_eq_nil_iff, ← List.length_eq_zero_iff]
    omega
  obtain ⟨c, hc⟩ := exists_isMiddle hne
  have hnth : IsNth (w.crossChecks.map MeterReading.joules) (w.crossChecks.length / 2) c := by
    simpa [IsMiddle] using hc
  obtain ⟨i, hi, hlower⟩ := hnth.exists_ge_notMem (S := dishonest) (by omega)
  obtain ⟨j, hj, hupper⟩ := hnth.exists_le_notMem (S := dishonest) (by omega)
  have habove := hhonest i hi
  have hbelow := hhonest j hj
  rw [Accurate, abs_le] at habove hbelow
  refine ⟨c, hc, abs_le.mpr ⟨?_, ?_⟩⟩ <;> omega

/-- What a window with an honest majority mints, by its middle cross-check. -/
theorem minted_cases (toleranceBps : ℤ) (h : w.HonestMajority error) :
    ∃ c, |c - w.energy| ≤ error ∧
      w.minted toleranceBps =
        if w.primary.joules < 0 ∨ ceilingOf c toleranceBps < w.primary.joules then 0
        else min w.primary.joules c := by
  obtain ⟨c, hmiddle, hc⟩ := exists_isMiddle_accurate h
  refine ⟨c, hc, ?_⟩
  rcases lt_or_ge w.primary.joules 0 with hneg | hprimary
  · have hrefused : validateAttestation w.primary w.crossChecks toleranceBps =
        .error (.valueError "negative joules") := if_pos hneg
    rw [minted, hrefused, if_pos (.inl hneg)]
  · rw [minted, validateAttestation_eq hprimary hmiddle, verdictAt]
    by_cases hover : ceilingOf c toleranceBps < w.primary.joules
    · simp [hover]
    · simp [hover, hprimary.not_gt]

/-- No window mints more than was supplied, up to the error. -/
theorem minted_le (h : w.HonestMajority error) :
    w.minted toleranceBps ≤ w.energy + error := by
  obtain ⟨c, hc, hminted⟩ := minted_cases toleranceBps h
  have henergy := w.energy_nonneg
  have herror := (abs_nonneg _).trans hc
  rw [abs_le] at hc
  rw [hminted]
  split <;> omega

/-- A primary beyond tolerance of every accurate reading mints nothing. -/
theorem minted_of_over (h : w.HonestMajority error) (htol : 0 ≤ toleranceBps)
    (hover : ceilingOf (w.energy + error) toleranceBps < w.primary.joules) :
    w.minted toleranceBps = 0 := by
  obtain ⟨c, hc, hminted⟩ := minted_cases toleranceBps h
  have hceiling : ceilingOf c toleranceBps ≤ ceilingOf (w.energy + error) toleranceBps := by
    apply ceilingOf_mono htol
    rw [abs_le] at hc
    omega
  rw [hminted, if_pos (.inr (hceiling.trans_lt hover))]

/-- An accurate primary mints no less than was supplied, up to the error. -/
theorem le_minted (h : w.HonestMajority error) (htol : 0 ≤ toleranceBps)
    (hprimary : w.Accurate error w.primary) (hcovered : w.Covered error toleranceBps) :
    w.energy - error ≤ w.minted toleranceBps := by
  obtain ⟨c, hc, hminted⟩ := minted_cases toleranceBps h
  have herror := (abs_nonneg _).trans hc
  rw [Accurate, abs_le] at hprimary
  rw [abs_le] at hc
  have hlow : 0 ≤ w.energy - error := by
    by_contra hneg
    have hscaled : (w.energy - error) * toleranceBps ≤ 0 :=
      mul_nonpos_of_nonpos_of_nonneg (by omega) htol
    have hspread : 2 * error * 10000 ≤ (w.energy - error) * toleranceBps := hcovered
    have henergy := w.energy_nonneg
    omega
  have hceiling : w.energy + error ≤ ceilingOf c toleranceBps := by
    have hmono : ceilingOf (w.energy - error) toleranceBps ≤ ceilingOf c toleranceBps :=
      ceilingOf_mono htol (by omega)
    have hspread : 2 * error ≤ (w.energy - error) * toleranceBps / basisPoints :=
      (Int.le_ediv_iff_mul_le basisPoints_pos).mpr hcovered
    rw [ceilingOf] at hmono
    omega
  have hwithin : ¬ (w.primary.joules < 0 ∨ ceilingOf c toleranceBps < w.primary.joules) := by
    omega
  rw [hminted, if_neg hwithin]
  omega

end MeteredWindow

open MeteredWindow

theorem sum_map_add_error (error : ℤ) (windows : List MeteredWindow) :
    (windows.map fun w => w.energy + error).sum =
      (windows.map energy).sum + windows.length * error := by
  simp [List.sum_map_add]

/-- **Energy is minted as it was supplied.**  Over a sequence of windows with honest
majorities no more is minted than was supplied, up to the error of each window, whatever
the primaries report; a primary beyond tolerance mints nothing; and primaries that are
honest mint no less than was supplied, up to the error of each window. -/
theorem minted_tracks_energy {error toleranceBps : ℤ} (htol : 0 ≤ toleranceBps)
    (windows : List MeteredWindow) (hmajority : ∀ w ∈ windows, w.HonestMajority error) :
    (windows.map (minted toleranceBps)).sum ≤
        (windows.map energy).sum + windows.length * error ∧
      (∀ w ∈ windows, ceilingOf (w.energy + error) toleranceBps < w.primary.joules →
        w.minted toleranceBps = 0) ∧
      ((∀ w ∈ windows, w.Accurate error w.primary ∧ w.Covered error toleranceBps) →
        (windows.map energy).sum - windows.length * error ≤
          (windows.map (minted toleranceBps)).sum) := by
  refine ⟨?_, fun w hw => minted_of_over (hmajority w hw) htol, fun hhonest => ?_⟩
  · rw [← sum_map_add_error]
    exact List.sum_le_sum fun w hw => minted_le (hmajority w hw)
  · have hleast : (windows.map fun w => w.energy + -error).sum ≤
        (windows.map (minted toleranceBps)).sum := List.sum_le_sum fun w hw =>
      le_minted (hmajority w hw) htol (hhonest w hw).1 (hhonest w hw).2
    rwa [sum_map_add_error, mul_neg] at hleast

/-- The window of the walkthrough, with one cross-check that reports nonsense. -/
def suppliedWindow : MeteredWindow where
  energy := 3600000
  primary := ⟨"meter-1", 3600000⟩
  crossChecks := checkedWindow
  energy_nonneg := by decide

/-- That cross-check. -/
def brokenCheck : Fin suppliedWindow.crossChecks.length := ⟨2, by decide⟩

theorem minted_tracks_energy_supplied :
    ([suppliedWindow].map (minted 200)).sum ≤
        ([suppliedWindow].map energy).sum + [suppliedWindow].length * 10000 ∧
      (∀ w ∈ [suppliedWindow], ceilingOf (w.energy + 10000) 200 < w.primary.joules →
        w.minted 200 = 0) ∧
      ((∀ w ∈ [suppliedWindow], w.Accurate 10000 w.primary ∧ w.Covered 10000 200) →
        ([suppliedWindow].map energy).sum - [suppliedWindow].length * 10000 ≤
          ([suppliedWindow].map (minted 200)).sum) := by
  refine minted_tracks_energy (by decide) [suppliedWindow] fun w hw => ?_
  obtain rfl := List.mem_singleton.mp hw
  refine ⟨{brokenCheck}, by decide, ?_⟩
  unfold Accurate
  decide

end YeBlock
