import YeBlock.Protocol.RailRuns

/-!
# How accurately the rail collects its fees

Every accepted payment is rounded twice: its fee, and the burned part of that fee.  The
parameters are fixed along a run, so what has been burned and what has reached the
treasury are sums over the accepted payments, however these were batched, and each
rounding is off by half a unit at most.

## Main definitions

* `fees_finish`, `burned_finish` — the collected fees and the burned part as sums.
* `fee_accuracy` — both stay within half a unit for each accepted payment.
-/

namespace YeBlock

open Lib Rail

section Collected
variable (r : Rail) (calls : List RailCall)

/-- The books of the fees after a run: the parameters have not changed, and every accepted
payment added its burned part and the rest of its fee. -/
theorem feeBooks_finish :
    (finish RailCall.perform r calls).burned =
        r.burned + ((acceptedPayments r calls).map fun p => r.burnOf p.amount).sum ∧
      (finish RailCall.perform r calls).treasury = r.treasury +
        ((acceptedPayments r calls).map fun p => r.fee p.amount - r.burnOf p.amount).sum := by
  have hrun := rail_induction (r := r) (P := fun s log =>
    (s.feeBps = r.feeBps ∧ s.burnShareBps = r.burnShareBps) ∧
      s.burned = r.burned + (log.map fun p => r.burnOf p.amount).sum ∧
      s.treasury = r.treasury + (log.map fun p => r.fee p.amount - r.burnOf p.amount).sum)
    ?hpolicy ?hpay ?hstart calls
  · exact hrun.2
  case hpolicy =>
    intro s log policies hs
    exact hs
  case hpay =>
    intro s log ps hs _
    obtain ⟨⟨hfee, hshare⟩, hburned, htreasury⟩ := hs
    have hfees : s.fee = r.fee := by
      ext amount
      rw [Rail.fee, Rail.fee, hfee]
    have hburns : s.burnOf = r.burnOf := by
      ext amount
      rw [burnOf, burnOf, hfees, hshare]
    refine ⟨by simp [hfee, hshare], ?_, ?_⟩
    · rw [burned_appliedAll, hburned, hburns, List.map_append, List.sum_append, add_assoc]
    · rw [treasury_appliedAll, htreasury, hburns, hfees, List.map_append, List.sum_append,
        add_assoc]
  case hstart => simp

variable {r} (hburned : r.burned = 0) (htreasury : r.treasury = 0)
include hburned

theorem burned_finish : (finish RailCall.perform r calls).burned =
    ((acceptedPayments r calls).map fun p => r.burnOf p.amount).sum := by
  rw [(feeBooks_finish r calls).1, hburned, zero_add]

include htreasury

/-- What is collected is the fees of the accepted payments. -/
theorem fees_finish :
    (finish RailCall.perform r calls).burned + (finish RailCall.perform r calls).treasury =
      ((acceptedPayments r calls).map fun p => r.fee p.amount).sum := by
  rw [burned_finish calls hburned, (feeBooks_finish r calls).2, htreasury, zero_add,
    ← List.sum_map_add]
  simp only [add_sub_cancel]

/-- **Fee and burn accuracy over whole runs**: the collected fees are within half a unit,
for each accepted payment, of their share of the total amount, and so is the burned part
of its share of the collected fees. -/
theorem fee_accuracy :
    let last : Rail := finish RailCall.perform r calls
    let payments := acceptedPayments r calls
    |10000 * (last.burned + last.treasury) - r.feeBps * (payments.map Payment.amount).sum| ≤
        5000 * payments.length ∧
      |10000 * last.burned - r.burnShareBps * (last.burned + last.treasury)| ≤
        5000 * payments.length := by
  intro last payments
  have hfees : last.burned + last.treasury = _ := fees_finish calls hburned htreasury
  have hburns : last.burned = _ := burned_finish calls hburned
  have hfee := abs_sum_roundHalfUp_sub_le (payments.map fun p => p.amount * r.feeBps)
    basisPoints_pos
  have hburn := abs_sum_roundHalfUp_sub_le (payments.map fun p => r.fee p.amount * r.burnShareBps)
    basisPoints_pos
  simp only [List.map_map, Function.comp_def, List.length_map, List.sum_map_mul_right] at hfee hburn
  change 2 * |10000 * (payments.map fun p => r.fee p.amount).sum - _| ≤ _ at hfee
  change 2 * |10000 * (payments.map fun p => r.burnOf p.amount).sum - _| ≤ _ at hburn
  rw [← hfees, mul_comm _ r.feeBps] at hfee
  rw [← hburns, ← hfees, mul_comm _ r.burnShareBps] at hburn
  simp only [basisPoints] at hfee hburn
  constructor <;> omega

end Collected

theorem fee_accuracy_walkthrough :
    let last := finish RailCall.perform {} walkthroughCalls
    let payments := acceptedPayments {} walkthroughCalls
    |10000 * (last.burned + last.treasury) - 30 * (payments.map Payment.amount).sum| ≤
        5000 * payments.length ∧
      |10000 * last.burned - 5000 * (last.burned + last.treasury)| ≤ 5000 * payments.length :=
  fee_accuracy walkthroughCalls rfl rfl

end YeBlock
