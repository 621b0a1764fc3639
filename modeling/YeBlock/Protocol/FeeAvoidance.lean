import YeBlock.Protocol.RailBounds
import YeBlock.Protocol.RailOrder

/-!
# Fees that splitting avoids

A fee is rounded half up, payment by payment, so a payment small enough pays none, and a payer
may split what it owes as it likes.  Whether this saves the whole fee depends on the fee
alone: below one half of the amount it does, for every amount, since then a payment of one
unit is free; from one half on, every payment costs something.

## Main definitions

* `fee_eq_zero_iff` — the payments that are free.
* `Rail.MayPay` — an amount that is within the payer's policy, but for the per-call limit.
* `collected_appliedAll` — what several payments bring the rail.
* `fee_avoidable_iff` — when a payer can avoid the fee.
-/

namespace YeBlock

open Lib Rail

/-- A fee on a positive exact share is not negative, and is zero below half a unit. -/
theorem fee_eq_zero_iff (r : Rail) {amount : ℤ} (hpos : 0 ≤ amount * r.feeBps) :
    0 ≤ r.fee amount ∧ (r.fee amount = 0 ↔ 2 * (amount * r.feeBps) < basisPoints) := by
  rw [Rail.fee, roundHalfUp, basisPoints]
  omega

/-- What several payments bring the rail is their fees. -/
theorem collected_appliedAll (r : Rail) (payments : List Payment) :
    (r.appliedAll payments).burned + (r.appliedAll payments).treasury =
      r.burned + r.treasury + (payments.map fun p => r.fee p.amount).sum := by
  have hsum : (payments.map fun p => r.burnOf p.amount).sum +
      (payments.map fun p => r.fee p.amount - r.burnOf p.amount).sum =
        (payments.map fun p => r.fee p.amount).sum := by
    rw [← List.sum_map_add]
    simp only [add_sub_cancel]
  rw [burned_appliedAll, treasury_appliedAll, ← hsum]
  ring

/-- If the payer has a policy, it allows the payee, and the amount fits under its daily limit.
Payments of one unit are within the per-call limit. -/
def Rail.MayPay (r : Rail) (payer payee : Identity) (gross : ℤ) : Prop :=
  ∀ policy, r.policies.get? payer = some policy → policy.revoked = false ∧
    0 < policy.perCallLimit ∧ r.spentToday.getD payer 0 + gross ≤ policy.dailyLimit ∧
      (policy.allowlist = ∅ ∨ payee ∈ policy.allowlist)

/-- A payer that may pay an amount clears it in single units, on any unused receipts. -/
theorem run_unit_legs {r : Rail} {payer payee : Identity} {receipts : List ContentId}
    (hsome : 0 < receipts.length) (hmay : r.MayPay payer payee receipts.length)
    (hnodup : receipts.Nodup) (hfresh : ∀ receipt ∈ receipts, receipt ∉ r.usedReceipts) :
    ((equalLegs payer payee 1 receipts).forM clear).run r =
      .ok () (r.appliedAll (equalLegs payer payee 1 receipts)) := by
  have hv : r.BatchValid (equalLegs payer payee 1 receipts) := by
    refine batchValid_equalLegs zero_lt_one ?_ hnodup hfresh
    intro policy hpolicy
    obtain ⟨hactive, hcall, hday, hallowed⟩ := hmay policy hpolicy
    exact (WalletPolicy.check_eq_none_iff _ _ _ _).mpr ⟨hactive, hcall, by omega, hallowed⟩
  apply run_forM_clear_of_fits hv
  intro p hp policy hpolicy
  obtain ⟨receipt, -, rfl⟩ := List.mem_map.mp hp
  have hday := (hmay policy hpolicy).2.2.1
  simpa [equalLegs, totalOf, Function.comp_def] using hday

/-- **When splitting avoids the fee**: on every rail with a fee that is not negative, whatever
a payer may pay a payee can be cleared, payment by payment, without bringing the rail
anything, exactly if the fee is less than half of the amount. -/
theorem fee_avoidable_iff (r : Rail) (hfee : 0 ≤ r.feeBps) (payer payee : Identity)
    (gross : ℤ) (hgross : 0 < gross) (hmay : r.MayPay payer payee gross) :
    (∃ (payments : List Payment) (r' : Rail), (∀ p ∈ payments, p.payer = payer ∧ p.payee = payee) ∧
        (payments.map Payment.amount).sum = gross ∧ (payments.forM clear).run r = .ok () r' ∧
        r'.burned + r'.treasury = r.burned + r.treasury) ↔
      2 * r.feeBps < basisPoints := by
  constructor
  · rintro ⟨payments, r', -, hsum, hrun, hcollected⟩
    obtain ⟨hv, rfl⟩ := batchValid_of_run_forM_clear hrun
    rw [collected_appliedAll, add_eq_left] at hcollected
    obtain ⟨p, hp⟩ : ∃ p, p ∈ payments := by
      apply List.exists_mem_of_ne_nil
      rintro rfl
      simp at hsum
      omega
    have hshare : ∀ q ∈ payments, 0 ≤ q.amount * r.feeBps :=
      fun q hq => mul_nonneg (hv.legs q hq).amount_pos.le hfee
    have hle : r.fee p.amount ≤ (payments.map fun p => r.fee p.amount).sum := by
      refine List.single_le_sum ?_ _ (List.mem_map_of_mem hp)
      simpa using fun q hq => (fee_eq_zero_iff r (hshare q hq)).1
    obtain ⟨hnonneg, hzero⟩ := fee_eq_zero_iff r (hshare p hp)
    have hfree := hzero.mp (by omega)
    have hunit : 1 * r.feeBps ≤ p.amount * r.feeBps :=
      mul_le_mul_of_nonneg_right (hv.legs p hp).amount_pos hfee
    omega
  · intro hhalf
    obtain ⟨receipts, hlength, hnodup, hfresh⟩ :=
      exists_fresh_receipts r.usedReceipts gross.toNat
    have hall : (receipts.length : ℤ) = gross := by
      rw [hlength, Int.toNat_of_nonneg hgross.le]
    refine ⟨_, _, ?_, ?_, run_unit_legs (by omega) (hall ▸ hmay) hnodup hfresh, ?_⟩
    · simp [equalLegs]
    · simp [equalLegs, Function.comp_def, hall]
    · have hfree : r.fee 1 = 0 := (fee_eq_zero_iff r (by simpa using hfee)).2.mpr (by simpa)
      simp [collected_appliedAll, equalLegs, Function.comp_def, hfree]

/-- At the fee of the defaults, the small wallet can spend its day without a fee. -/
theorem fee_avoidable_iff_small_wallet :
    (∃ (payments : List Payment) (r' : Rail),
        (∀ p ∈ payments, p.payer = "agent-buyer" ∧ p.payee = "op-a") ∧
        (payments.map Payment.amount).sum = 100 ∧
        (payments.forM clear).run { policies := (∅ : Dict _ _).set "agent-buyer" smallWallet } =
          .ok () r' ∧
        r'.burned + r'.treasury = 0 + 0) ↔ 2 * (30 : ℤ) < basisPoints :=
  fee_avoidable_iff { policies := (∅ : Dict _ _).set "agent-buyer" smallWallet } (by decide)
    "agent-buyer" "op-a" 100 (by decide) (by
      rintro policy h
      cases h
      decide)

end YeBlock
