import YeBlock.Lib.Redelivery
import YeBlock.Protocol.RailLedger
import YeBlock.Protocol.RailOrder

/-!
# Payments sent again

An agent that hears nothing of a payment can send it again.  If the payment was cleared, its
receipt is used now; if it was rejected, what it was rejected for has not gone away: no
payment makes a receipt unused or gives an agent more to spend.  So while policies stay as
they are, calls that are delivered at least once have the effect of calls delivered exactly
once.

A policy is different.  Delivered again, `set_policy` undoes whatever was set in between.

## Main definitions

* `Rail.NothingToClear` — a call with no effect.
* `spentOnce_pays` — a paying call is spent by being made.
* `redelivery_is_harmless` — the result.
-/

namespace YeBlock

open Lib Rail

/-- The call sets no policy, and is rejected or clears no payment at all. -/
structure Rail.NothingToClear (r : Rail) (c : RailCall) : Prop where
  pays : ∀ policy, c ≠ .setPolicy policy
  idle : r.BatchValid c.payments → c.payments = []

/-- What can be cleared after a call that pays could have been cleared before it. -/
theorem batchValid_before {r : Rail} {c : RailCall} (hc : ∀ policy, c ≠ .setPolicy policy)
    {payments : List Payment} (h : (event RailCall.perform r c).after.BatchValid payments) :
    r.BatchValid payments := by
  rcases RailCall.perform_pays hc r with ⟨hv, hrun⟩ | ⟨_, msg, hrun⟩
  · rw [(event_of_ok hrun).2] at h
    have hpos : ∀ p ∈ c.payments, 0 < p.amount := fun p hp => (hv.legs p hp).amount_pos
    exact ⟨fun q hq => (Valid.of_appliedAll hpos (h.legs q hq)).1, h.receipts_nodup⟩
  · rwa [(event_of_error hrun).2] at h

/-- What was cleared cannot be cleared again. -/
theorem not_batchValid_applied {r : Rail} {payments : List Payment} (hne : payments ≠ []) :
    ¬ (r.appliedAll payments).BatchValid payments := by
  intro h
  obtain ⟨p, hp⟩ := List.exists_mem_of_ne_nil payments hne
  apply (h.legs p hp).receipt_unused
  rw [usedReceipts_appliedAll]
  exact Finset.mem_union_right _ (List.mem_toFinset.mpr (List.mem_map_of_mem hp))

/-- **A paying call is spent by being made**, whether it was accepted or rejected. -/
theorem spentOnce_pays : SpentOnce RailCall.perform (fun c => ∀ policy, c ≠ .setPolicy policy)
    NothingToClear := by
  constructor
  case idle =>
    intro r c h
    rcases RailCall.perform_pays h.pays r with ⟨hv, hrun⟩ | ⟨_, msg, hrun⟩
    · rw [(event_of_ok hrun).2, h.idle hv]
      rfl
    · exact (event_of_error hrun).2
  case made =>
    intro r c hc
    refine ⟨hc, fun hv => ?_⟩
    rcases RailCall.perform_pays hc r with ⟨_, hrun⟩ | ⟨hnot, msg, hrun⟩
    · by_contra hne
      rw [(event_of_ok hrun).2] at hv
      exact not_batchValid_applied hne hv
    · rw [(event_of_error hrun).2] at hv
      exact absurd hv hnot
  case kept =>
    intro r c c' hc' h
    exact ⟨h.pays, fun hv => h.idle (batchValid_before hc' hv)⟩

/-- **At least once is exactly once**: from every rail, if `clear` and `clear_batch` calls are
delivered in the order they were sent, each once and then any number of times more, at any
later time, they leave the rail that each delivered once would leave. -/
theorem redelivery_is_harmless (r : Rail) (sent delivered : List RailCall)
    (hdelivery : Delivery sent delivered)
    (hpays : ∀ c ∈ sent, ∀ policy, c ≠ .setPolicy policy) :
    finish RailCall.perform r delivered = finish RailCall.perform r sent :=
  spentOnce_pays.finish_eq hdelivery hpays r

/-- A batch and a payment, and the batch again. -/
theorem redelivery_is_harmless_pipeline :
    finish RailCall.perform {} [.clearBatch pipeline, .clear ⟨"op-a", "op-b", 500, "rcpt-p3"⟩,
        .clearBatch pipeline] =
      finish RailCall.perform {} [.clearBatch pipeline,
        .clear ⟨"op-a", "op-b", 500, "rcpt-p3"⟩] :=
  redelivery_is_harmless {} [.clearBatch pipeline, .clear ⟨"op-a", "op-b", 500, "rcpt-p3"⟩]
    [.clearBatch pipeline, .clear ⟨"op-a", "op-b", 500, "rcpt-p3"⟩, .clearBatch pipeline]
    (((Delivery.nil.first _).first _).again (by simp)) (by simp)

end YeBlock
