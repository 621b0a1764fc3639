import YeBlock.Protocol.RailRuns

/-!
# Wallet policies along a run

Every payment goes through the same validation, alone or as a leg of a batch, so what
the payer's policy checks holds of every payment accepted while it is in force.  A call
other than `set_policy` leaves the policies alone, and `set_policy` replaces the policy
of one agent, so a revoked policy stops its agent until it is replaced.

## Main definitions

* `policies_after` — what a call does to an agent's policy.
* `accepted_within_policy` — every accepted payment passed its payer's policy.
* `wallet_policy_enforced` — both facts over whole runs.
-/

namespace YeBlock

open Lib Rail

/-- An agent's policy changes only by a call that sets it. -/
theorem policies_after (r : Rail) {c : RailCall} {agent : Identity}
    (hc : ∀ policy, c = .setPolicy policy → policy.agent ≠ agent) :
    (event RailCall.perform r c).after.policies.get? agent = r.policies.get? agent := by
  rcases c.perform_cases r with ⟨policy, hset, h⟩ | ⟨_, h⟩ | ⟨_, msg, h⟩
  · have hne : agent ≠ policy.agent := Ne.symm (hc policy hset)
    rw [(event_of_ok h).2, Dict.get?_set, if_neg hne]
  · rw [(event_of_ok h).2, policies_appliedAll]
  · rw [(event_of_error h).2]

/-- Every payment of an accepted call is positive and passed the policy of its payer
that was in force. -/
theorem accepted_within_policy {r : Rail} {c : RailCall}
    (h : (event RailCall.perform r c).accepted = true) {p : Payment} (hp : p ∈ c.payments)
    {policy : WalletPolicy} (hpolicy : r.policies.get? p.payer = some policy) :
    0 < p.amount ∧ p.amount ≤ policy.perCallLimit ∧
      (policy.allowlist = ∅ ∨ p.payee ∈ policy.allowlist) ∧ policy.revoked = false := by
  rcases c.perform_cases r with ⟨_, rfl, _⟩ | ⟨hv, _⟩ | ⟨_, msg, hrun⟩
  · cases hp
  · have hleg := hv.legs p hp
    obtain ⟨hrevoked, hlimit, _, hallowed⟩ :=
      (WalletPolicy.check_eq_none_iff _ _ _ _).mp (hleg.within_policy policy hpolicy)
    exact ⟨hleg.amount_pos, hlimit, hallowed, hrevoked⟩
  · rw [(event_of_error hrun).1] at h
    cases h

/-- While a revoked policy of an agent is in force, and none of the calls replaces it,
no payment of the agent is accepted. -/
theorem no_payment_while_revoked {policy : WalletPolicy} (hrevoked : policy.revoked = true)
    {calls : List RailCall}
    (hkept : ∀ policy', .setPolicy policy' ∈ calls → policy'.agent ≠ policy.agent) {r : Rail}
    (hr : r.policies.get? policy.agent = some policy) :
    ∀ e ∈ trace RailCall.perform r calls, e.accepted = true →
      ∀ p ∈ e.call.payments, p.payer ≠ policy.agent := by
  refine trace_of_kept (I := fun r => r.policies.get? policy.agent = some policy) calls
    ?_ ?_ r hr
  · intro s c hc hs
    rw [policies_after s fun policy' hset => hkept policy' (hset ▸ hc)]
    exact hs
  · intro s c _ hs haccepted p hp hpayer
    have hwithin := accepted_within_policy haccepted hp (hpayer.symm ▸ hs)
    rw [hrevoked] at hwithin
    cases hwithin.2.2.2

/-- **Wallet policy is enforced on every path**, from any rail and along any run: each
payment accepted while its payer has a policy in force is positive, within the per-call
limit, to an allowed payee and under a policy that is not revoked; and after a revoked
policy is set for an agent, as long as no call replaces it, no payment by that agent is
accepted. -/
theorem wallet_policy_enforced (r : Rail) :
    (∀ calls : List RailCall, ∀ e ∈ trace RailCall.perform r calls, e.accepted = true →
      ∀ p ∈ e.call.payments, ∀ policy, e.before.policies.get? p.payer = some policy →
        0 < p.amount ∧ p.amount ≤ policy.perCallLimit ∧
          (policy.allowlist = ∅ ∨ p.payee ∈ policy.allowlist) ∧ policy.revoked = false) ∧
      ∀ (before after : List RailCall) (policy : WalletPolicy), policy.revoked = true →
        (∀ policy', .setPolicy policy' ∈ after → policy'.agent ≠ policy.agent) →
        ∀ e ∈ (trace RailCall.perform r (before ++ .setPolicy policy :: after)).drop
            (before.length + 1), e.accepted = true →
          ∀ p ∈ e.call.payments, p.payer ≠ policy.agent := by
  constructor
  · intro calls e he haccepted p hp policy hpolicy
    rw [exists_event_of_mem_trace he] at haccepted
    exact accepted_within_policy haccepted hp hpolicy
  · intro before after policy hrevoked hkept
    have hlen : before.length + 1 = (trace RailCall.perform r before).length + 1 := by simp
    rw [trace_append, hlen, List.drop_length_add_append, trace, List.drop_one, List.tail_cons]
    apply no_payment_while_revoked hrevoked hkept
    exact (Dict.get?_set _ _ _ _).trans (if_pos rfl)

end YeBlock
