import YeBlock.Lib.Trace
import YeBlock.Protocol.RailBatch

/-!
# Whole runs of the rail

A run is any sequence of `set_policy`, `clear` and `clear_batch` calls, accepted or
rejected.  `RailCall.perform_cases` says once what a call can do; every result about
runs is an invariant that relates the rail to the payments accepted so far.

* Conservation: the books hold exactly what was accepted.
* Exactly once: the used receipts are those of the accepted payments, each once, and
  a rejected call changes nothing.
* Daily limit: `clear` keeps it.  `clear_batch` checks every leg against the spending
  recorded before the batch, so several legs of one payer can pass it together; the
  limit holds along a run exactly when no valid batch does that.

## Main definitions

* `RailCall` — one call; `RailCall.perform` runs it.
* `acceptedPayments r calls` — the payments of the accepted calls of a run.
* `conservation`, `receipts_exactly_once`, `dailyLimitKept_iff` — the three results.
-/

namespace YeBlock

open Lib Rail

/-- One call on a rail. -/
inductive RailCall
  | setPolicy (policy : WalletPolicy)
  | clear (payment : Payment)
  | clearBatch (payments : List Payment)

namespace RailCall

/-- Make the call. -/
def perform : RailCall → RailM Unit
  | .setPolicy policy => Rail.setPolicy policy
  | .clear payment => Rail.clear payment
  | .clearBatch payments => Rail.clearBatch payments

/-- The payments a call asks to clear. -/
def payments : RailCall → List Payment
  | .setPolicy _ => []
  | .clear payment => [payment]
  | .clearBatch payments => payments

/-- **What a call can do**: replace one policy, clear all of its payments, or raise
a `PaymentError` and change nothing. -/
theorem perform_cases (c : RailCall) (r : Rail) :
    (∃ policy, c = .setPolicy policy ∧ c.perform.run r =
        .ok () { r with policies := r.policies.set policy.agent policy }) ∨
      (r.BatchValid c.payments ∧ c.perform.run r = .ok () (r.appliedAll c.payments)) ∨
      (¬ r.BatchValid c.payments ∧
        ∃ msg, c.perform.run r = .error (.paymentError msg) r) := by
  cases c with
  | setPolicy policy => exact .inl ⟨policy, rfl, rfl⟩
  | clear p =>
      rw [payments, batchValid_singleton]
      exact .inr (r.run_clear p)
  | clearBatch ps => exact .inr (r.run_clearBatch ps)

/-- A call that pays clears all of its payments, or raises and changes nothing. -/
theorem perform_pays {c : RailCall} (hc : ∀ policy, c ≠ .setPolicy policy) (r : Rail) :
    (r.BatchValid c.payments ∧ c.perform.run r = .ok () (r.appliedAll c.payments)) ∨
      (¬ r.BatchValid c.payments ∧ ∃ msg, c.perform.run r = .error (.paymentError msg) r) := by
  rcases c.perform_cases r with ⟨policy, hset, _⟩ | h
  · exact absurd hset (hc policy)
  · exact h

/-- A call that pays a valid batch returns. -/
theorem perform_of_valid {c : RailCall} (hc : ∀ policy, c ≠ .setPolicy policy) {r : Rail}
    (hv : r.BatchValid c.payments) : c.perform.run r = .ok () (r.appliedAll c.payments) := by
  rcases perform_pays hc r with ⟨_, hrun⟩ | ⟨hnot, _⟩
  · exact hrun
  · exact absurd hv hnot

/-- The two ways a call is accepted. -/
theorem perform_ok {c : RailCall} {r r' : Rail} (h : c.perform.run r = .ok () r') :
    (∃ policy, c = .setPolicy policy ∧
        r' = { r with policies := r.policies.set policy.agent policy }) ∨
      (r.BatchValid c.payments ∧ r' = r.appliedAll c.payments) := by
  rcases c.perform_cases r with ⟨policy, hc, hrun⟩ | ⟨hv, hrun⟩ | ⟨_, msg, hrun⟩
  · rw [hrun] at h
    cases h
    exact .inl ⟨policy, hc, rfl⟩
  · rw [hrun] at h
    cases h
    exact .inr ⟨hv, rfl⟩
  · rw [hrun] at h
    cases h

/-- A rejected call changes nothing. -/
theorem perform_error {c : RailCall} {r r' : Rail} {e : PyError}
    (h : c.perform.run r = .error e r') : r' = r := by
  rcases c.perform_cases r with ⟨_, _, hrun⟩ | ⟨_, hrun⟩ | ⟨_, msg, hrun⟩
  all_goals
    rw [hrun] at h
    cases h
  rfl

end RailCall

/-- The payments of the accepted calls of a run, in order. -/
def acceptedPayments (r : Rail) (calls : List RailCall) : List Payment :=
  (accepted RailCall.perform r calls).flatMap RailCall.payments

/-! ## Invariants of runs -/

section Invariant
variable {P : Rail → List Payment → Prop}

/-- **Induction along a run of the rail.**  A relation between the rail and the
payments accepted so far holds at the end if policies do not matter to it and a
valid batch keeps it. -/
theorem rail_induction
    (hpolicy : ∀ r log policies, P r log → P { r with policies := policies } log)
    (hpay : ∀ r log ps, P r log → r.BatchValid ps → P (r.appliedAll ps) (log ++ ps))
    {r : Rail} (h : P r []) (calls : List RailCall) :
    P (finish RailCall.perform r calls) (acceptedPayments r calls) := by
  have hrun := run_induction RailCall.perform
    (P := fun s log => P s (log.flatMap RailCall.payments)) ?hok ?herr calls r [] h
  · simpa [acceptedPayments] using hrun
  case hok =>
    intro s log c _ s' hs hc
    rw [List.flatMap_append, List.flatMap_singleton]
    rcases RailCall.perform_ok hc with ⟨policy, rfl, rfl⟩ | ⟨hv, rfl⟩
    · simpa [RailCall.payments] using hpolicy s _ _ hs
    · exact hpay s _ _ hs hv
  case herr =>
    intro s log c e s' hs hc
    rw [RailCall.perform_error hc]
    exact hs

end Invariant

/-! ## Conservation -/

/-- What the books hold: balances, burned, treasury. -/
def Rail.booked (r : Rail) : ℤ := r.balances.sum + r.burned + r.treasury

theorem Rail.booked_appliedAll (r : Rail) (payments : List Payment) :
    (r.appliedAll payments).booked = r.booked + (payments.map Payment.amount).sum := by
  induction payments generalizing r with
  | nil => simp [appliedAll]
  | cons p ps ih =>
      have hleg : (r.applied p).booked = r.booked + p.amount := by
        simp only [booked, applied, Dict.sum_add]
        ring
      have hstep : r.appliedAll (p :: ps) = (r.applied p).appliedAll ps := rfl
      rw [hstep, ih, hleg, List.map_cons, List.sum_cons, add_assoc]

/-- A run adds to the books exactly the amounts it accepted. -/
theorem booked_finish (r : Rail) (calls : List RailCall) :
    (finish RailCall.perform r calls).booked =
      r.booked + ((acceptedPayments r calls).map Payment.amount).sum := by
  refine rail_induction (P := fun s log =>
    s.booked = r.booked + (log.map Payment.amount).sum) ?_ ?_ ?_ calls
  · intro s log _ hs
    exact hs
  · intro s log ps hs _
    rw [s.booked_appliedAll, hs, List.map_append, List.sum_append, add_assoc]
  · simp

/-- **Conservation over whole runs**: whatever the parameters and policies, and
whichever calls are rejected, the books hold exactly the accepted amounts. -/
theorem conservation (r : Rail) (hbalances : r.balances = ∅) (hburned : r.burned = 0)
    (htreasury : r.treasury = 0) (calls : List RailCall) :
    (finish RailCall.perform r calls).balances.sum + (finish RailCall.perform r calls).burned +
        (finish RailCall.perform r calls).treasury =
      ((acceptedPayments r calls).map Payment.amount).sum := by
  have hstart : r.booked = 0 := by simp [booked, hbalances, hburned, htreasury]
  have hrun := booked_finish r calls
  rwa [hstart, zero_add] at hrun

/-- The calls of the walkthrough: three payments cleared, one of them alone and two as
a batch, and three rejected, by a limit, by the allowlist and for their receipt. -/
def walkthroughCalls : List RailCall :=
  [.setPolicy
      { owner := "alice", agent := "agent-buyer", perCallLimit := 50000, dailyLimit := 100000,
        allowlist := {"op-a", "agent-researcher"} },
    .clear ⟨"agent-buyer", "op-a", 36000, "rcpt-chunk-1"⟩,
    .clear ⟨"agent-buyer", "op-a", 60000, "rcpt-x"⟩,
    .clear ⟨"agent-buyer", "shady-svc", 1000, "rcpt-y"⟩,
    .clear ⟨"agent-buyer", "op-a", 1000, "rcpt-chunk-1"⟩,
    .clearBatch pipeline]

theorem conservation_walkthrough :
    (finish RailCall.perform {} walkthroughCalls).balances.sum +
        (finish RailCall.perform {} walkthroughCalls).burned +
        (finish RailCall.perform {} walkthroughCalls).treasury = 50000 :=
  (conservation {} rfl rfl rfl walkthroughCalls).trans (by decide)

/-- The rail's own check accepts the accepted total, and no other. -/
theorem conservationCheck_finish (r : Rail) (hstart : r.booked = 0) (calls : List RailCall)
    (grossCleared : ℤ) :
    (finish RailCall.perform r calls).conservationCheck grossCleared = true ↔
      grossCleared = ((acceptedPayments r calls).map Payment.amount).sum := by
  have hrun := booked_finish r calls
  rw [hstart, zero_add] at hrun
  rw [conservationCheck, decide_eq_true_eq, ← hrun]
  exact eq_comm

/-! ## Receipts -/

/-- The accepted payments of a run have distinct receipts, and these are what the
rail has used. -/
theorem receipts_finish {r : Rail} (hstart : r.usedReceipts = ∅) (calls : List RailCall) :
    ((acceptedPayments r calls).map Payment.receipt).Nodup ∧
      (finish RailCall.perform r calls).usedReceipts =
        ((acceptedPayments r calls).map Payment.receipt).toFinset := by
  refine rail_induction (P := fun s log => (log.map Payment.receipt).Nodup ∧
    s.usedReceipts = (log.map Payment.receipt).toFinset) ?_ ?_ ?_ calls
  · intro s log _ hs
    exact hs
  · rintro s log ps ⟨hnodup, hused⟩ hv
    have hdisj : (log.map Payment.receipt).Disjoint (ps.map Payment.receipt) := by
      intro x hlog hps
      obtain ⟨p, hp, rfl⟩ := List.mem_map.mp hps
      apply (hv.legs p hp).receipt_unused
      rw [hused]
      exact List.mem_toFinset.mpr hlog
    rw [List.map_append, usedReceipts_appliedAll, List.toFinset_append, hused]
    exact ⟨hnodup.append hv.receipts_nodup hdisj, rfl⟩
  · simp [hstart]

/-- A rejected call of a run changes nothing. -/
theorem after_of_rejected {r : Rail} {calls : List RailCall}
    {e : Event PyError Rail Unit RailCall} (he : e ∈ trace RailCall.perform r calls)
    (hrej : e.accepted = false) : e.after = e.before := by
  rw [exists_event_of_mem_trace he] at hrej ⊢
  rcases e.call.perform_cases e.before with ⟨_, _, h⟩ | ⟨_, h⟩ | ⟨_, msg, h⟩
  · rw [(event_of_ok h).1] at hrej
    cases hrej
  · rw [(event_of_ok h).1] at hrej
    cases hrej
  · exact (event_of_error h).2

/-- A payment on an unused receipt clears exactly when it is positive and within policy. -/
theorem clears_iff_of_unused (r : Rail) {p : Payment} (hp : p.receipt ∉ r.usedReceipts) :
    (∃ s, (clear p).run r = .ok () s) ↔
      0 < p.amount ∧ ∀ policy, r.policies.get? p.payer = some policy →
        policy.check p.payee p.amount (r.spentToday.getD p.payer 0) = none := by
  rcases r.run_clear p with ⟨hv, h⟩ | ⟨hv, msg, h⟩
  · exact ⟨fun _ => ⟨hv.amount_pos, hv.within_policy⟩, fun _ => ⟨_, h⟩⟩
  · constructor
    · rintro ⟨s, hs⟩
      rw [h] at hs
      cases hs
    · rintro ⟨hpos, hpolicy⟩
      exact absurd ⟨hpos, hp, hpolicy⟩ hv

/-- **A receipt is a payment pre-image exactly once.**  Along every run from an
empty rail the accepted payments have distinct receipts, the used receipts are
theirs, a rejected call changes nothing, and a receipt no accepted payment used is
no obstacle to a further payment. -/
theorem receipts_exactly_once (feeBps burnShareBps : ℤ) (calls : List RailCall) :
    let start : Rail := { feeBps := feeBps, burnShareBps := burnShareBps }
    let last := finish RailCall.perform start calls
    let receipts := (acceptedPayments start calls).map Payment.receipt
    receipts.Nodup ∧ last.usedReceipts = receipts.toFinset ∧
      (∀ e ∈ trace RailCall.perform start calls, e.accepted = false → e.after = e.before) ∧
      ∀ p : Payment, p.receipt ∉ receipts →
        ((∃ s, (clear p).run last = .ok () s) ↔
          0 < p.amount ∧ ∀ policy, last.policies.get? p.payer = some policy →
            policy.check p.payee p.amount (last.spentToday.getD p.payer 0) = none) := by
  intro start last receipts
  obtain ⟨hnodup, hused⟩ := receipts_finish (r := start) rfl calls
  refine ⟨hnodup, hused, fun e he => after_of_rejected he, ?_⟩
  intro p hp
  have hunused : p.receipt ∉ last.usedReceipts := by
    rw [hused]
    exact fun h => hp (List.mem_toFinset.mp h)
  exact clears_iff_of_unused last hunused

/-! ## The daily limit -/

/-- Right after the call, every payer of the call whose wallet has a policy has
spent at most the policy's daily limit. -/
def DailyLimitKept (e : Event PyError Rail Unit RailCall) : Prop :=
  ∀ p ∈ e.call.payments, ∀ policy, e.after.policies.get? p.payer = some policy →
    e.after.spentToday.getD p.payer 0 ≤ policy.dailyLimit

/-- The legs of one payer fit under the daily limit together: whenever a payer with
a policy pays more than one leg, the spending recorded before the batch and all of
its legs stay within the limit. -/
def Rail.LegsFit (r : Rail) (payments : List Payment) : Prop :=
  ∀ payer policy, r.policies.get? payer = some policy →
    1 < (payments.filter fun p => p.payer = payer).length →
    r.spentToday.getD payer 0 + totalOf payer (payments.map fun p => (p.payer, p.amount)) ≤
      policy.dailyLimit

/-- A payer with one leg pays that leg. -/
theorem totalOf_of_single {p : Payment} {payments : List Payment} (hp : p ∈ payments)
    (hone : (payments.filter fun q => q.payer = p.payer).length ≤ 1) :
    totalOf p.payer (payments.map fun q => (q.payer, q.amount)) = p.amount := by
  have hmem : p ∈ payments.filter fun q => q.payer = p.payer := by simp [hp]
  have hpos := List.length_pos_of_mem hmem
  have hlen : (payments.filter fun q => q.payer = p.payer).length = 1 := by omega
  obtain ⟨q, hq⟩ := List.length_eq_one_iff.mp hlen
  rw [hq, List.mem_singleton] at hmem
  subst hmem
  simp [totalOf, List.filter_map, Function.comp_def, hq]

/-- A valid batch keeps the daily limit exactly when its legs fit. -/
theorem dailyLimitKept_appliedAll {r : Rail} {payments : List Payment}
    (hv : r.BatchValid payments) :
    (∀ p ∈ payments, ∀ policy, r.policies.get? p.payer = some policy →
        (r.appliedAll payments).spentToday.getD p.payer 0 ≤ policy.dailyLimit) ↔
      r.LegsFit payments := by
  simp only [spentToday_appliedAll, Dict.getD_tally]
  constructor
  · intro h payer policy hpol hmany
    have hpos : 0 < (payments.filter fun p => p.payer = payer).length := by omega
    obtain ⟨p, hp⟩ := List.exists_mem_of_length_pos hpos
    obtain ⟨hmem, rfl⟩ : p ∈ payments ∧ p.payer = payer := by simpa using hp
    exact h p hmem policy hpol
  · intro h p hp policy hpol
    by_cases hmany : 1 < (payments.filter fun q => q.payer = p.payer).length
    · exact h p.payer policy hpol hmany
    · rw [totalOf_of_single hp (by omega)]
      have hcheck := (hv.legs p hp).within_policy policy hpol
      exact ((WalletPolicy.check_eq_none_iff _ _ _ _).mp hcheck).2.2.1

/-- A single payment has no second leg. -/
theorem Rail.legsFit_singleton (r : Rail) (p : Payment) : r.LegsFit [p] := by
  intro payer policy _ hmany
  have hle : ([p].filter fun q => q.payer = payer).length ≤ 1 := List.length_filter_le _ _
  omega

/-- A paying call keeps the daily limit exactly when, if it is valid, its legs fit. -/
theorem dailyLimitKept_of_pays (r : Rail) {c : RailCall} (hc : ∀ policy, c ≠ .setPolicy policy) :
    ((event RailCall.perform r c).accepted = true →
        DailyLimitKept (event RailCall.perform r c)) ↔
      (r.BatchValid c.payments → r.LegsFit c.payments) := by
  rcases c.perform_cases r with ⟨policy, rfl, _⟩ | ⟨hv, h⟩ | ⟨hv, msg, h⟩
  · exact absurd rfl (hc policy)
  · rw [forall_prop_of_true (event_of_ok h).1, forall_prop_of_true hv, DailyLimitKept,
      (event_of_ok h).2, policies_appliedAll]
    exact dailyLimitKept_appliedAll hv
  · simp [event_of_error h, hv]

/-- One call keeps the daily limit exactly when, if it is a valid batch, its legs fit. -/
theorem dailyLimitKept_event (r : Rail) (c : RailCall) :
    ((event RailCall.perform r c).accepted = true →
        DailyLimitKept (event RailCall.perform r c)) ↔
      ∀ payments, c = .clearBatch payments → r.BatchValid payments → r.LegsFit payments := by
  cases c with
  | setPolicy policy => simp [DailyLimitKept, event, RailCall.payments]
  | clear p =>
      rw [dailyLimitKept_of_pays r (by simp)]
      simp [RailCall.payments, r.legsFit_singleton]
  | clearBatch ps =>
      rw [dailyLimitKept_of_pays r (by simp)]
      simp [RailCall.payments]

/-- **When the daily limit holds over a run**: after every accepted call, exactly if
the legs of every valid batch fit. -/
theorem dailyLimitKept_iff (feeBps burnShareBps : ℤ) (calls : List RailCall) :
    let start : Rail := { feeBps := feeBps, burnShareBps := burnShareBps }
    (∀ e ∈ trace RailCall.perform start calls, e.accepted = true → DailyLimitKept e) ↔
      ∀ e ∈ trace RailCall.perform start calls, ∀ payments,
        e.call = .clearBatch payments → e.before.BatchValid payments →
          e.before.LegsFit payments := by
  intro start
  apply forall₂_congr
  intro e he
  rw [exists_event_of_mem_trace he]
  exact dailyLimitKept_event e.before e.call

/-- A wallet with a daily limit of 100, and two legs of 60 it pays in one batch. -/
def overspendingCalls : List RailCall :=
  [.setPolicy { owner := "alice", agent := "agent-buyer", perCallLimit := 60, dailyLimit := 100 },
    .clearBatch [⟨"agent-buyer", "op-a", 60, "rcpt-1"⟩, ⟨"agent-buyer", "op-a", 60, "rcpt-2"⟩]]

/-- The batch is accepted, and 120 is spent against a limit of 100. -/
theorem dailyLimit_overspent :
    ¬ ∀ calls : List RailCall, ∀ e ∈ trace RailCall.perform {} calls,
      e.accepted = true → DailyLimitKept e := by
  intro h
  have hlast := h overspendingCalls _ (List.mem_cons_of_mem _ List.mem_cons_self) (by decide)
  have hspent := hlast ⟨"agent-buyer", "op-a", 60, "rcpt-1"⟩ List.mem_cons_self
    { owner := "alice", agent := "agent-buyer", perCallLimit := 60, dailyLimit := 100 } (by decide)
  exact absurd hspent (by decide)

end YeBlock
