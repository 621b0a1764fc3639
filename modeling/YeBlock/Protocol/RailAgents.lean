import YeBlock.Lib.Unwinding
import YeBlock.Protocol.RailRuns

/-!
# Agents on one rail

Whether a payment of an agent clears depends on the agent's own policy, on what the agent has
spent, and on whether the receipt is used.  Others write none of the first two, so all they
can take from an agent are its receipts: a receipt is good for one payment, whoever pays.
Among agents with receipts of their own, each gets from the rail what it would get alone,
to the text of every error, in every interleaving of their calls.

## Main definitions

* `RailCall.ownedBy`, `receiptsOf` — an agent's calls, and the receipts they name.
* `RailCall.Spares` — a call of others that names none of these receipts.
* `SameTo` — two rails that look the same to an agent.
* `agents_do_not_interfere` — an agent among others, and alone.
-/

namespace YeBlock

open Lib Rail

/-! ## Whose calls -/

/-- The call sets the agent's policy, or clears payments of the agent alone. -/
def RailCall.ownedBy (agent : Identity) : RailCall → Bool
  | .setPolicy policy => policy.agent = agent
  | .clear p => p.payer = agent
  | .clearBatch payments => payments.all fun p => p.payer = agent

/-- The receipts that an agent's calls name. -/
def receiptsOf (agent : Identity) (calls : List RailCall) : List ContentId :=
  ((calls.filter (RailCall.ownedBy agent)).flatMap RailCall.payments).map Payment.receipt

/-- The agent whose policy a call sets. -/
def RailCall.policyAgent : RailCall → Option Identity
  | .setPolicy policy => some policy.agent
  | .clear _ => none
  | .clearBatch _ => none

/-- The call neither sets the agent's policy nor pays for the agent, and names none of these
receipts. -/
structure RailCall.Spares (c : RailCall) (agent : Identity) (receipts : List ContentId) : Prop where
  policy : c.policyAgent ≠ some agent
  payments : ∀ p ∈ c.payments, p.payer ≠ agent ∧ p.receipt ∉ receipts

instance (c : RailCall) (agent : Identity) (receipts : List ContentId) :
    Decidable (c.Spares agent receipts) :=
  decidable_of_iff
    (c.policyAgent ≠ some agent ∧ ∀ p ∈ c.payments, p.payer ≠ agent ∧ p.receipt ∉ receipts)
    ⟨fun h => ⟨h.1, h.2⟩, fun h => ⟨h.policy, h.payments⟩⟩

/-- Two rails with the same policy and spending of an agent, on which the same of these
receipts are used. -/
structure SameTo (agent : Identity) (receipts : List ContentId) (r r' : Rail) : Prop where
  policy : r.policies.get? agent = r'.policies.get? agent
  spent : r.spentToday.getD agent 0 = r'.spentToday.getD agent 0
  used : ∀ receipt ∈ receipts, (receipt ∈ r.usedReceipts ↔ receipt ∈ r'.usedReceipts)

namespace SameTo
variable {agent : Identity} {receipts : List ContentId} {r r' : Rail}

theorem refl (agent : Identity) (receipts : List ContentId) (r : Rail) :
    SameTo agent receipts r r := ⟨rfl, rfl, fun _ _ => Iff.rfl⟩

/-! ## The agent's own calls -/

theorem alike_setPolicy (h : SameTo agent receipts r r') (policy : WalletPolicy) :
    Alike (setPolicy policy) r r' (SameTo agent receipts) := by
  refine .returns rfl rfl ⟨?_, h.spent, h.used⟩
  simp only [Dict.get?_set, h.policy]

theorem applied (h : SameTo agent receipts r r') (p : Payment) :
    SameTo agent receipts (r.applied p) (r'.applied p) := by
  refine ⟨h.policy, ?_, ?_⟩
  · simp only [Rail.applied, Dict.getD_add, h.spent]
  · intro receipt hreceipt
    simp only [Rail.applied, Finset.mem_insert, h.used receipt hreceipt]

theorem alike_apply (h : SameTo agent receipts r r') (p : Payment) :
    Alike (Rail.apply p) r r' (SameTo agent receipts) :=
  .returns (r.run_apply p) (r'.run_apply p) (h.applied p)

variable {p : Payment} (hp : p.payer = agent ∧ p.receipt ∈ receipts)
include hp

/-- The checks of a payment read nothing else. -/
theorem alike_validate (h : SameTo agent receipts r r') :
    Alike (validate p) r r' (SameTo agent receipts) := by
  obtain ⟨rfl, hreceipt⟩ := hp
  have hused := h.used p.receipt hreceipt
  by_cases hpos : p.amount ≤ 0
  · exact .raises (by simp [validate, hpos]; rfl) (by simp [validate, hpos]) h
  by_cases huse : p.receipt ∈ r.usedReceipts
  · have huse' := hused.mp huse
    exact .raises (by simp [validate, hpos, huse]; rfl) (by simp [validate, hpos, huse']) h
  have huse' := mt hused.mpr huse
  cases hpol : r.policies.get? p.payer with
  | none =>
      have hpol' := h.policy.symm.trans hpol
      exact .returns (by simp [validate, hpos, huse, hpol]; rfl)
        (by simp [validate, hpos, huse', hpol']) h
  | some policy =>
      have hpol' := h.policy.symm.trans hpol
      cases hcheck : policy.check p.payee p.amount (r.spentToday.getD p.payer 0) with
      | none =>
          have hcheck' := h.spent ▸ hcheck
          exact .returns (by simp [validate, hpos, huse, hpol, hcheck]; rfl)
            (by simp [validate, hpos, huse', hpol', hcheck']) h
      | some violation =>
          have hcheck' := h.spent ▸ hcheck
          exact .raises (by simp [validate, hpos, huse, hpol, hcheck]; rfl)
            (by simp [validate, hpos, huse', hpol', hcheck']) h

theorem alike_validateLeg (h : SameTo agent receipts r r') (seen : Finset ContentId) :
    Alike (validateLeg seen p) r r' (SameTo agent receipts) := by
  refine (h.alike_validate hp).bind fun _ s s' hs => ?_
  by_cases hseen : p.receipt ∈ seen
  · rw [if_pos hseen]
    exact .raises rfl rfl hs
  · rw [if_neg hseen]
    exact .returns rfl rfl hs

omit hp in
/-- **A call of the agent answers alike** on rails that look the same to it. -/
theorem alike_perform (h : SameTo agent receipts r r') {c : RailCall}
    (hc : c.ownedBy agent = true) (hreceipts : ∀ p ∈ c.payments, p.receipt ∈ receipts) :
    Alike c.perform r r' (SameTo agent receipts) := by
  cases c with
  | setPolicy policy => exact h.alike_setPolicy policy
  | clear p =>
      have hp : p.payer = agent ∧ p.receipt ∈ receipts :=
        ⟨by simpa [RailCall.ownedBy] using hc, hreceipts p List.mem_cons_self⟩
      exact (h.alike_validate hp).bind fun _ s s' hs => hs.alike_apply p
  | clearBatch payments =>
      have hpayments : ∀ p ∈ payments, p.payer = agent ∧ p.receipt ∈ receipts := by
        intro p hp
        have hpayers : ∀ p ∈ payments, p.payer = agent := by simpa [RailCall.ownedBy] using hc
        exact ⟨hpayers p hp, hreceipts p hp⟩
      refine Alike.bind (Alike.foldlM payments
        (fun p hp seen s s' hs => hs.alike_validateLeg (hpayments p hp) seen) ∅ r r' h) ?_
      intro _ s s' hs
      exact Alike.forM payments (fun p _ s s' hs => hs.alike_apply p) s s' hs

end SameTo

/-! ## The calls of others -/

/-- A call of others leaves a rail that looks to the agent as before. -/
theorem RailCall.Spares.sameTo {c : RailCall} {agent : Identity} {receipts : List ContentId}
    (hc : c.Spares agent receipts) (r : Rail) :
    SameTo agent receipts (event RailCall.perform r c).after r := by
  rcases c.perform_cases r with ⟨policy, hset, hrun⟩ | ⟨_, hrun⟩ | ⟨_, msg, hrun⟩
  · rw [(event_of_ok hrun).2]
    refine ⟨?_, rfl, fun _ _ => Iff.rfl⟩
    have hne : agent ≠ policy.agent := by
      rintro rfl
      exact hc.policy (by rw [hset, policyAgent])
    rw [Dict.get?_set, if_neg hne]
  · rw [(event_of_ok hrun).2]
    refine ⟨by rw [policies_appliedAll], ?_, ?_⟩
    · have hzero : totalOf agent (c.payments.map fun p => (p.payer, p.amount)) = 0 := by
        apply totalOf_eq_zero
        simpa using fun p hp => (hc.payments p hp).1
      rw [spentToday_appliedAll, Dict.getD_tally, hzero, add_zero]
    · intro receipt hreceipt
      rw [usedReceipts_appliedAll, Finset.mem_union, or_iff_left]
      intro hmem
      obtain ⟨p, hp, rfl⟩ := List.mem_map.mp (List.mem_toFinset.mp hmem)
      exact (hc.payments p hp).2 hreceipt
  · rw [(event_of_error hrun).2]
    exact .refl agent receipts r

theorem SameTo.trans {agent : Identity} {receipts : List ContentId} {r r' r'' : Rail}
    (h : SameTo agent receipts r r') (h' : SameTo agent receipts r' r'') :
    SameTo agent receipts r r'' :=
  ⟨h.policy.trans h'.policy, h.spent.trans h'.spent,
    fun receipt hreceipt => (h.used receipt hreceipt).trans (h'.used receipt hreceipt)⟩

/-- **Agents do not interfere**: in every run from any rail in which each call that is not an
agent's own spares it and the receipts of its calls, the agent's calls return and raise the
same as without the others, and its policy, its spending and the use of its receipts end up
the same. -/
theorem agents_do_not_interfere (r : Rail) (agent : Identity) (calls : List RailCall)
    (h : ∀ c ∈ calls, c.ownedBy agent = false → c.Spares agent (receiptsOf agent calls)) :
    let alone := calls.filter (RailCall.ownedBy agent)
    seenBy RailCall.perform (RailCall.ownedBy agent) r calls =
        seenBy RailCall.perform (RailCall.ownedBy agent) r alone ∧
      SameTo agent (receiptsOf agent calls) (finish RailCall.perform r calls)
        (finish RailCall.perform r alone) := by
  have hunwinds : Unwinds RailCall.perform (RailCall.ownedBy agent) calls
      (SameTo agent (receiptsOf agent calls)) := by
    constructor
    case alike =>
      intro c hmem hc s s' hs
      refine hs.alike_perform hc fun p hp => ?_
      have hown : c ∈ calls.filter (RailCall.ownedBy agent) := List.mem_filter.mpr ⟨hmem, hc⟩
      exact List.mem_map_of_mem (List.mem_flatMap.mpr ⟨c, hown, hp⟩)
    case kept =>
      intro c hmem hc s s' hs
      exact ((h c hmem hc).sameTo s).trans hs
  exact hunwinds.run r r (.refl agent _ r)

/-- The walkthrough, with a payment of another agent in the middle of the buyer's calls. -/
def sharedCalls : List RailCall :=
  walkthroughCalls.take 2 ++ .clear ⟨"op-b", "op-a", 500, "rcpt-b1"⟩ :: walkthroughCalls.drop 2

theorem agents_do_not_interfere_shared :
    seenBy RailCall.perform (RailCall.ownedBy "op-b") {} sharedCalls =
        seenBy RailCall.perform (RailCall.ownedBy "op-b") {}
          [.clear ⟨"op-b", "op-a", 500, "rcpt-b1"⟩] ∧
      SameTo "op-b" ["rcpt-b1"] (finish RailCall.perform {} sharedCalls)
        (finish RailCall.perform {} [.clear ⟨"op-b", "op-a", 500, "rcpt-b1"⟩]) :=
  agents_do_not_interfere {} "op-b" sharedCalls (by decide)

end YeBlock
