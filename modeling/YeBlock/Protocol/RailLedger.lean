import YeBlock.Lib.Simulation
import YeBlock.Protocol.RailRuns
import Mathlib.Algebra.BigOperators.Group.Multiset.Basic

/-!
# What the rail is for: a ledger of payments

Seen from outside, the rail needs only two things: the policy each agent is under, and the
payments cleared so far, in no order.  Everything else it stores is a total over those
payments, kept so that a call is decided without looking back: what an agent spent, which
receipts are used, what a payee holds, what was burned and what the treasury got.

The ledger below decides every call from the cleared payments alone.  The rail implements
it: along every run from an empty rail the two accept the same calls, and what the rail
stores are the ledger's totals.  So two runs that end up with the same payments cleared have
the same books, in whatever order, one by one or in batches, and under whichever policies
they were cleared.

## Main definitions

* `Ledger`, `Ledger.next` — the abstract rail, and what a call does to it.
* `Books` — what the rail stores, as totals over the ledger.
* `rail_implements_ledger`, `books_of_cleared` — the two results.
-/

namespace YeBlock

open Lib Rail

/-! ## The ledger -/

/-- The policy of each agent that has one, and the payments cleared so far. -/
structure Ledger where
  policies : Identity → Option WalletPolicy
  cleared : Multiset Payment

namespace Ledger

/-- Nothing set, nothing paid. -/
def blank : Ledger := ⟨fun _ => none, 0⟩

/-- The total of `value` over the payments of which `who` is the agent. -/
def total (payments : Multiset Payment) (who : Payment → Identity) (value : Payment → ℤ)
    (agent : Identity) : ℤ :=
  ((payments.filter fun p => who p = agent).map value).sum

/-- What an agent has paid. -/
def spent (l : Ledger) (agent : Identity) : ℤ :=
  total l.cleared Payment.payer Payment.amount agent

/-- A payment is positive, on a receipt no payment was cleared for, and within the payer's
policy, given what the payer has paid. -/
structure Permits (l : Ledger) (p : Payment) : Prop where
  amount_pos : 0 < p.amount
  receipt_unused : ∀ q ∈ l.cleared, q.receipt ≠ p.receipt
  within_policy : ∀ policy, l.policies p.payer = some policy →
    policy.revoked = false ∧ p.amount ≤ policy.perCallLimit ∧
      l.spent p.payer + p.amount ≤ policy.dailyLimit ∧
      (policy.allowlist = ∅ ∨ p.payee ∈ policy.allowlist)

/-- Every payment is permitted, and the receipts are distinct. -/
def PermitsAll (l : Ledger) (payments : List Payment) : Prop :=
  (∀ p ∈ payments, l.Permits p) ∧ (payments.map Payment.receipt).Nodup

open Classical in
/-- What a call does: set a policy, or clear all of its payments if they are permitted. -/
noncomputable def next (l : Ledger) : RailCall → Option Ledger
  | .setPolicy policy =>
      some { l with policies := Function.update l.policies policy.agent (some policy) }
  | .clear p => if l.Permits p then some { l with cleared := p ::ₘ l.cleared } else none
  | .clearBatch payments =>
      if l.PermitsAll payments then some { l with cleared := payments + l.cleared } else none

@[simp] theorem permitsAll_singleton (l : Ledger) (p : Payment) :
    l.PermitsAll [p] ↔ l.Permits p := by
  simp [PermitsAll]

/-- A call that sets no policy is one of these two. -/
theorem next_of_pays (l : Ledger) {c : RailCall} (hc : ∀ policy, c ≠ .setPolicy policy) :
    (l.PermitsAll c.payments → l.next c = some { l with cleared := c.payments + l.cleared }) ∧
      (¬ l.PermitsAll c.payments → l.next c = none) := by
  cases c with
  | setPolicy policy => exact absurd rfl (hc policy)
  | clear p =>
      rw [RailCall.payments, permitsAll_singleton]
      exact ⟨fun h => if_pos h, fun h => if_neg h⟩
  | clearBatch ps => exact ⟨fun h => if_pos h, fun h => if_neg h⟩

end Ledger

/-! ## Totals -/

/-- What a dictionary was given for a key, as a total over the payments. -/
theorem totalOf_eq_total (who : Payment → Identity) (value : Payment → ℤ) (agent : Identity)
    (payments : List Payment) :
    totalOf agent (payments.map fun p => (who p, value p)) =
      Ledger.total payments who value agent := by
  simp [totalOf, Ledger.total, List.filter_map, Function.comp_def]

theorem total_coe_add (payments : List Payment) (cleared : Multiset Payment)
    (who : Payment → Identity) (value : Payment → ℤ) (agent : Identity) :
    Ledger.total (payments + cleared) who value agent =
      Ledger.total cleared who value agent +
        totalOf agent (payments.map fun p => (who p, value p)) := by
  rw [totalOf_eq_total, Ledger.total, Multiset.filter_add, Multiset.map_add, Multiset.sum_add,
    add_comm]
  rfl

/-- **The rail's books**: what it stores are totals over the payments cleared. -/
structure Books (feeBps burnShareBps : ℤ) (r : Rail) (l : Ledger) : Prop where
  feeBps : r.feeBps = feeBps
  burnShareBps : r.burnShareBps = burnShareBps
  policies : ∀ agent, r.policies.get? agent = l.policies agent
  spent : ∀ agent, r.spentToday.getD agent 0 = l.spent agent
  receipts : ∀ receipt, receipt ∈ r.usedReceipts ↔ ∃ p ∈ l.cleared, p.receipt = receipt
  balances : ∀ agent, r.balances.getD agent 0 =
    Ledger.total l.cleared Payment.payee (fun p => p.amount - r.fee p.amount) agent
  burned : r.burned = (l.cleared.map fun p => r.burnOf p.amount).sum
  treasury : r.treasury = (l.cleared.map fun p => r.fee p.amount - r.burnOf p.amount).sum

namespace Books
variable {feeBps burnShareBps : ℤ} {r : Rail} {l : Ledger}

theorem blank (feeBps burnShareBps : ℤ) :
    Books feeBps burnShareBps { feeBps := feeBps, burnShareBps := burnShareBps } .blank := by
  constructor <;> simp [Ledger.blank, Ledger.spent, Ledger.total]

theorem setPolicy (h : Books feeBps burnShareBps r l) (policy : WalletPolicy) :
    Books feeBps burnShareBps { r with policies := r.policies.set policy.agent policy }
      { l with policies := Function.update l.policies policy.agent (some policy) } := by
  refine ⟨h.feeBps, h.burnShareBps, ?_, h.spent, h.receipts, h.balances, h.burned, h.treasury⟩
  intro agent
  rw [Dict.get?_set, h.policies]
  exact (Function.update_apply l.policies policy.agent (some policy) agent).symm

/-- Applying the legs of a call keeps the books. -/
theorem appliedAll (h : Books feeBps burnShareBps r l) (payments : List Payment) :
    Books feeBps burnShareBps (r.appliedAll payments)
      { l with cleared := payments + l.cleared } := by
  have hfee : (r.appliedAll payments).fee = r.fee := by
    funext amount
    simp [Rail.fee]
  have hburn : (r.appliedAll payments).burnOf = r.burnOf := by
    funext amount
    simp [Rail.burnOf, hfee]
  constructor
  case feeBps => simp [h.feeBps]
  case burnShareBps => simp [h.burnShareBps]
  case policies => simpa using h.policies
  case spent =>
    intro agent
    rw [spentToday_appliedAll, Dict.getD_tally, h.spent]
    exact (total_coe_add payments l.cleared Payment.payer Payment.amount agent).symm
  case receipts =>
    intro receipt
    rw [usedReceipts_appliedAll]
    simp [h.receipts, or_comm, or_and_right, exists_or]
  case balances =>
    intro agent
    rw [balances_appliedAll, Dict.getD_tally, h.balances, hfee, total_coe_add]
  case burned =>
    rw [burned_appliedAll, h.burned, hburn, Multiset.map_add, Multiset.sum_add, add_comm]
    rfl
  case treasury =>
    rw [treasury_appliedAll, h.treasury, hfee, hburn, Multiset.map_add, Multiset.sum_add, add_comm]
    rfl

/-- The rail finds a payment valid exactly when the ledger permits it. -/
theorem valid_iff (h : Books feeBps burnShareBps r l) (p : Payment) :
    r.Valid p ↔ l.Permits p := by
  constructor
  · intro hv
    refine ⟨hv.amount_pos, ?_, ?_⟩
    · intro q hq heq
      exact hv.receipt_unused ((h.receipts p.receipt).mpr ⟨q, hq, heq⟩)
    · intro policy hpolicy
      have hcheck := hv.within_policy policy ((h.policies p.payer).trans hpolicy)
      rwa [WalletPolicy.check_eq_none_iff, h.spent] at hcheck
  · intro hp
    refine ⟨hp.amount_pos, ?_, ?_⟩
    · intro hused
      obtain ⟨q, hq, heq⟩ := (h.receipts p.receipt).mp hused
      exact hp.receipt_unused q hq heq
    · intro policy hpolicy
      rw [WalletPolicy.check_eq_none_iff, h.spent]
      exact hp.within_policy policy ((h.policies p.payer).symm.trans hpolicy)

theorem batchValid_iff (h : Books feeBps burnShareBps r l) (payments : List Payment) :
    r.BatchValid payments ↔ l.PermitsAll payments := by
  have hlegs : (∀ p ∈ payments, r.Valid p) ↔ ∀ p ∈ payments, l.Permits p :=
    forall₂_congr fun p _ => h.valid_iff p
  exact ⟨fun hv => ⟨hlegs.mp hv.legs, hv.receipts_nodup⟩, fun hp => ⟨hlegs.mpr hp.1, hp.2⟩⟩

end Books

/-! ## The rail implements the ledger -/

/-- From related states the rail returns and the ledger accepts, into related states, or
the rail raises and the ledger rejects. -/
theorem Books.perform {feeBps burnShareBps : ℤ} {r : Rail} {l : Ledger}
    (h : Books feeBps burnShareBps r l) (c : RailCall) :
    (∃ r' l', c.perform.run r = .ok () r' ∧ l.next c = some l' ∧
        Books feeBps burnShareBps r' l') ∨
      (∃ e, c.perform.run r = .error e r ∧ l.next c = none) := by
  by_cases hc : ∃ policy, c = .setPolicy policy
  · obtain ⟨policy, rfl⟩ := hc
    exact .inl ⟨_, _, rfl, rfl, h.setPolicy policy⟩
  · rw [not_exists] at hc
    obtain ⟨haccepts, hrejects⟩ := l.next_of_pays hc
    rw [← h.batchValid_iff] at haccepts hrejects
    rcases RailCall.perform_pays hc r with ⟨hv, hrun⟩ | ⟨hv, msg, hrun⟩
    · exact .inl ⟨_, _, hrun, haccepts hv, h.appliedAll _⟩
    · exact .inr ⟨_, hrun, hrejects hv⟩

/-- One call of the rail is one call of the ledger. -/
theorem implements_ledger (feeBps burnShareBps : ℤ) :
    Implements RailCall.perform Ledger.next (Books feeBps burnShareBps) where
  returns := by
    intro r l c _ r' h hrun
    rcases h.perform c with ⟨_, l', hok, hnext, hbooks⟩ | ⟨e, herr, _⟩
    · rw [hok] at hrun
      cases hrun
      exact ⟨l', hnext, hbooks⟩
    · rw [herr] at hrun
      cases hrun
  raises := by
    intro r l c _ r' h hrun
    rcases h.perform c with ⟨_, _, hok, _⟩ | ⟨e, herr, hnext⟩
    · rw [hok] at hrun
      cases hrun
    · rw [herr] at hrun
      cases hrun
      exact ⟨hnext, h⟩

/-- **The rail implements the ledger**: along every run from an empty rail, the calls
accepted are those the ledger accepts, and the books left are the totals over the payments
the ledger has cleared. -/
theorem rail_implements_ledger (feeBps burnShareBps : ℤ) (calls : List RailCall) :
    let start : Rail := { feeBps := feeBps, burnShareBps := burnShareBps }
    (trace RailCall.perform start calls).map Event.accepted =
        verdicts Ledger.next .blank calls ∧
      Books feeBps burnShareBps (finish RailCall.perform start calls)
        (specFinish Ledger.next .blank calls) :=
  (implements_ledger feeBps burnShareBps).run calls _ _ (.blank feeBps burnShareBps)

/-! ## The books depend on what was cleared alone -/

/-- The books of two rails agree, dictionaries as maps. -/
structure SameBooks (r r' : Rail) : Prop where
  spentToday : r.spentToday.Same r'.spentToday
  usedReceipts : r.usedReceipts = r'.usedReceipts
  balances : r.balances.Same r'.balances
  burned : r.burned = r'.burned
  treasury : r.treasury = r'.treasury

/-- A run leaves the books that applying its accepted payments leaves. -/
theorem finish_eq_appliedAll (r : Rail) (calls : List RailCall) :
    ∃ policies, finish RailCall.perform r calls =
      { r.appliedAll (acceptedPayments r calls) with policies := policies } := by
  refine rail_induction (P := fun s log => ∃ policies, s =
    { r.appliedAll log with policies := policies }) ?_ ?_ ⟨r.policies, rfl⟩ calls
  · rintro s log policies ⟨_, rfl⟩
    exact ⟨policies, rfl⟩
  · rintro s log ps ⟨policies, rfl⟩ _
    refine ⟨policies, ?_⟩
    rw [appliedAll_eq, appliedAll_eq r, appliedAll_eq r]
    simp [Rail.fee, Rail.burnOf, Dict.tally_append, add_assoc, Finset.union_assoc]

/-- **The order of clearing leaves no mark on the books**: two runs from the same rail that
clear the same payments, in whatever order and batches, with whatever other calls between
them, leave the same books. -/
theorem books_of_cleared (r : Rail) (calls calls' : List RailCall)
    (h : (acceptedPayments r calls).Perm (acceptedPayments r calls')) :
    SameBooks (finish RailCall.perform r calls) (finish RailCall.perform r calls') := by
  obtain ⟨policies, hrun⟩ := finish_eq_appliedAll r calls
  obtain ⟨policies', hrun'⟩ := finish_eq_appliedAll r calls'
  have hsame := r.appliedAll_perm h
  rw [hrun, hrun']
  exact ⟨hsame.spentToday, hsame.usedReceipts, hsame.balances, hsame.burned, hsame.treasury⟩

theorem books_of_cleared_pipeline :
    SameBooks (finish RailCall.perform {} [.clearBatch pipeline])
      (finish RailCall.perform {} (pipeline.reverse.map .clear)) :=
  books_of_cleared {} _ _ (by decide)

end YeBlock
