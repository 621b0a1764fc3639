import YeBlock.Protocol.LargestRemainder

/-!
# The energy market: hosting splits

One node's gross revenue is divided between its hardware seat and its energy seat at a
negotiated ratio.  The routine goes through the general apportionment; its closed form is
a rounding of the hardware seat's part, and the laws of the split follow from it.

## Main definitions

* `splitHostingRevenue` — the source's.
* `splitHostingRevenue_eq` — the closed form.
* `hosting_split_law` — the amounts, and how they follow the gross and the ratio.
-/

namespace YeBlock

open Lib

/-- Partition a node's gross revenue between the hardware seat and the energy seat. -/
def splitHostingRevenue (gross hardwareBps : ℤ) : Except PyError (ℤ × ℤ) :=
  if ¬ (0 ≤ hardwareBps ∧ hardwareBps ≤ basisPoints) then
    .error (.valueError "hardware_bps out of range")
  else do
    let (hardware, energy) ← unpackPair (← largestRemainder gross
      [hardwareBps, basisPoints - hardwareBps])
    return (hardware, energy)

/-- The hardware seat's amount. -/
def hardwarePart (gross hardwareBps : ℤ) : ℤ := roundHalfUp (gross * hardwareBps) basisPoints

/-- **The closed form**: the hardware seat's part rounded half up, and the rest. -/
theorem splitHostingRevenue_eq (gross : ℤ) {bps : ℤ} (h : 0 ≤ bps ∧ bps ≤ basisPoints) :
    splitHostingRevenue gross bps =
      .ok (hardwarePart gross bps, gross - hardwarePart gross bps) := by
  rw [splitHostingRevenue, if_neg (not_not.mpr h), largestRemainder_pair]
  rfl

/-- A split returns in range only, and then the closed form. -/
theorem splitHostingRevenue_eq_ok_iff (gross bps : ℤ) (seats : ℤ × ℤ) :
    splitHostingRevenue gross bps = .ok seats ↔ (0 ≤ bps ∧ bps ≤ basisPoints) ∧
      seats = (hardwarePart gross bps, gross - hardwarePart gross bps) := by
  by_cases h : 0 ≤ bps ∧ bps ≤ basisPoints
  · rw [splitHostingRevenue_eq gross h, Except.ok.injEq, and_iff_right h]
    exact eq_comm
  · rw [splitHostingRevenue, if_pos h]
    simp [h]

section Laws
variable {gross gross' bps bps' : ℤ}

theorem hardwarePart_bounds (hgross : 0 ≤ gross) (h : 0 ≤ bps ∧ bps ≤ basisPoints) :
    0 ≤ hardwarePart gross bps ∧ hardwarePart gross bps ≤ gross :=
  roundHalfUp_part_bounds basisPoints_pos h hgross

/-- More revenue raises the hardware seat's part, by no more than the revenue rises. -/
theorem hardwarePart_mono_gross (h : 0 ≤ bps ∧ bps ≤ basisPoints) (hle : gross ≤ gross') :
    hardwarePart gross bps ≤ hardwarePart gross' bps ∧
      hardwarePart gross' bps - hardwarePart gross bps ≤ gross' - gross :=
  roundHalfUp_part_mono basisPoints_pos h hle

theorem hardwarePart_mono_bps (hgross : 0 ≤ gross) (hle : bps ≤ bps') :
    hardwarePart gross bps ≤ hardwarePart gross bps' :=
  roundHalfUp_mono basisPoints_pos (mul_le_mul_of_nonneg_left hle hgross)

/-- **The hosting split law**: the hardware seat gets its part of the gross rounded half
up, the energy seat the rest.  Neither is negative, neither falls when the gross rises or
rises by more, and a higher ratio moves revenue from the energy seat to the hardware seat
only. -/
theorem hosting_split_law (hgross : 0 ≤ gross) (hbps : 0 ≤ bps ∧ bps ≤ 10000) :
    ∃ hardware energy, splitHostingRevenue gross bps = .ok (hardware, energy) ∧
      hardware = roundHalfUp (gross * bps) 10000 ∧ energy = gross - hardware ∧
      0 ≤ hardware ∧ 0 ≤ energy ∧
      (∀ gross' hardware' energy', gross ≤ gross' →
        splitHostingRevenue gross' bps = .ok (hardware', energy') →
        (hardware ≤ hardware' ∧ hardware' - hardware ≤ gross' - gross) ∧
          energy ≤ energy' ∧ energy' - energy ≤ gross' - gross) ∧
      ∀ bps' hardware' energy', bps ≤ bps' →
        splitHostingRevenue gross bps' = .ok (hardware', energy') →
        hardware ≤ hardware' ∧ energy' ≤ energy := by
  have hbounds := hardwarePart_bounds hgross hbps
  refine ⟨_, _, splitHostingRevenue_eq gross hbps, rfl, rfl, hbounds.1, by omega, ?_, ?_⟩
  · intro gross' hardware' energy' hle hsplit
    obtain ⟨_, hseats⟩ := (splitHostingRevenue_eq_ok_iff gross' bps _).mp hsplit
    cases hseats
    have hmono := hardwarePart_mono_gross hbps hle
    omega
  · intro bps' hardware' energy' hle hsplit
    obtain ⟨_, hseats⟩ := (splitHostingRevenue_eq_ok_iff gross bps' _).mp hsplit
    cases hseats
    have hmono := hardwarePart_mono_bps hgross hle
    omega

end Laws

/-- The split of the walkthrough. -/
theorem hosting_split_walkthrough :
    ∃ hardware energy, splitHostingRevenue 1000001 6000 = .ok (hardware, energy) ∧
      hardware = roundHalfUp (1000001 * 6000) 10000 ∧ energy = 1000001 - hardware ∧
      0 ≤ hardware ∧ 0 ≤ energy ∧
      (∀ gross' hardware' energy', 1000001 ≤ gross' →
        splitHostingRevenue gross' 6000 = .ok (hardware', energy') →
        (hardware ≤ hardware' ∧ hardware' - hardware ≤ gross' - 1000001) ∧
          energy ≤ energy' ∧ energy' - energy ≤ gross' - 1000001) ∧
      ∀ bps' hardware' energy', 6000 ≤ bps' →
        splitHostingRevenue 1000001 bps' = .ok (hardware', energy') →
        hardware ≤ hardware' ∧ energy' ≤ energy :=
  hosting_split_law (by decide) (by decide)

end YeBlock
