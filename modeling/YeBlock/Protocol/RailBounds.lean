import YeBlock.Protocol.RailPolicies
import Mathlib.Algebra.Order.BigOperators.Group.List
import Mathlib.Data.Fintype.EquivFin
import Mathlib.Tactic.Linarith

/-!
# How far a wallet and the books can move

A batch can take a wallet past its daily limit, but not arbitrarily far: one leg was
checked against the limit, and every other leg of the batch against the per-call limit.  So
a wallet that is never asked for more than `m + 1` legs in one call is at most `m` per-call
limits over its daily limit, however many calls are made and however its policy is replaced
meanwhile.  It can be brought to that bound exactly.

With a fee and a burn share that are shares of a whole, no call takes anything back: what a
payee holds, what was burned, what the treasury got and what a payer spent only grow.

## Main definitions

* `PolicyOf` — the policies an agent is under at some point of a run.
* `overspend_bound`, `overspend_bound_attained` — the most a wallet can be overspent.
* `books_grow` — nothing is taken back.
-/

namespace YeBlock

open Lib Rail

/-! ## The overspend of a batch -/

/-- The policies an agent starts a run with or is given by one of its calls. -/
def PolicyOf (r : Rail) (calls : List RailCall) (agent : Identity) (policy : WalletPolicy) : Prop :=
  r.policies.get? agent = some policy ∨ (.setPolicy policy ∈ calls ∧ policy.agent = agent)

/-- A payer's legs, of which the first is `amount` and the others are at most `limit` each. -/
theorem sum_le_of_head {amount limit : ℤ} {m : ℕ} {amounts : List ℤ}
    (hlimit : 0 ≤ limit) (hlength : amounts.length ≤ m) (hle : ∀ x ∈ amounts, x ≤ limit) :
    (amount :: amounts).sum ≤ amount + m * limit := by
  have hsum := List.sum_le_card_nsmul amounts limit hle
  have hcast : (amounts.length : ℤ) ≤ m := by exact_mod_cast hlength
  have hmul : (amounts.length : ℤ) * limit ≤ m * limit :=
    mul_le_mul_of_nonneg_right hcast hlimit
  rw [nsmul_eq_mul] at hsum
  rw [List.sum_cons]
  linarith

/-- A valid batch in which an agent pays at most `m + 1` legs leaves it at most `m` per-call
limits over its daily limit, or with nothing more spent. -/
theorem spent_le_of_batchValid {r : Rail} {payments : List Payment} (hv : r.BatchValid payments)
    {agent : Identity} {policy : WalletPolicy} (hpolicy : r.policies.get? agent = some policy)
    {m : ℕ} (hlegs : (payments.filter fun p => p.payer = agent).length ≤ m + 1) :
    (r.appliedAll payments).spentToday.getD agent 0 = r.spentToday.getD agent 0 ∨
      (r.appliedAll payments).spentToday.getD agent 0 ≤
        policy.dailyLimit + m * policy.perCallLimit := by
  have hchecked : ∀ p ∈ payments.filter fun p => p.payer = agent, 0 < p.amount ∧
      p.amount ≤ policy.perCallLimit ∧
        r.spentToday.getD agent 0 + p.amount ≤ policy.dailyLimit := by
    intro p hp
    obtain ⟨hmem, hpayer⟩ := List.mem_filter.mp hp
    have hpayer : p.payer = agent := by simpa using hpayer
    have hleg := hv.legs p hmem
    have hcheck := (WalletPolicy.check_eq_none_iff _ _ _ _).mp
      (hleg.within_policy policy (hpayer ▸ hpolicy))
    exact ⟨hleg.amount_pos, hcheck.2.1, hpayer ▸ hcheck.2.2.1⟩
  have hspent : (r.appliedAll payments).spentToday.getD agent 0 = r.spentToday.getD agent 0 +
      ((payments.filter fun p => p.payer = agent).map Payment.amount).sum := by
    rw [spentToday_appliedAll, Dict.getD_tally]
    simp [totalOf, List.filter_map, Function.comp_def]
  rw [hspent]
  cases hfilter : payments.filter fun p => p.payer = agent with
  | nil => exact .inl (by simp)
  | cons p ps =>
      rw [hfilter] at hchecked hlegs
      obtain ⟨hpos, hcall, hday⟩ := hchecked p List.mem_cons_self
      have hlimit : 0 ≤ policy.perCallLimit := hpos.le.trans hcall
      have hlength : (ps.map Payment.amount).length ≤ m := by
        simpa using hlegs
      have hsum : ((p :: ps).map Payment.amount).sum ≤ p.amount + m * policy.perCallLimit := by
        apply sum_le_of_head hlimit hlength
        intro x hx
        obtain ⟨q, hq, rfl⟩ := List.mem_map.mp hx
        exact (hchecked q (List.mem_cons_of_mem p hq)).2.1
      exact .inr (by linarith)

/-- **How far a wallet can be overspent.**  Along a run that starts with a policy in force
for an agent, and in which all of its policies allow at most `daily` a day and `perCall` a
call, and no call has more than `m + 1` legs it pays, the agent is never more than
`m * perCall` over `daily`, unless it was from the start. -/
theorem overspend_bound (r : Rail) (agent : Identity) (daily perCall : ℤ) (m : ℕ)
    (calls : List RailCall) (hstart : ∃ policy, r.policies.get? agent = some policy)
    (hlimits : ∀ policy, PolicyOf r calls agent policy →
      policy.dailyLimit ≤ daily ∧ policy.perCallLimit ≤ perCall)
    (hlegs : ∀ c ∈ calls, (c.payments.filter fun p => p.payer = agent).length ≤ m + 1) :
    ∀ e ∈ trace RailCall.perform r calls, e.after.spentToday.getD agent 0 ≤
      max (r.spentToday.getD agent 0) (daily + m * perCall) := by
  let Kept : Rail → Prop := fun s =>
    (∃ policy, s.policies.get? agent = some policy ∧ policy.dailyLimit ≤ daily ∧
        policy.perCallLimit ≤ perCall) ∧
      s.spentToday.getD agent 0 ≤ max (r.spentToday.getD agent 0) (daily + m * perCall)
  have hkeep : ∀ s, ∀ c ∈ calls, Kept s → Kept (event RailCall.perform s c).after := by
    rintro s c hc ⟨⟨policy, hpolicy, hdaily, hcall⟩, hspent⟩
    rcases c.perform_cases s with ⟨policy', rfl, hrun⟩ | ⟨hv, hrun⟩ | ⟨_, msg, hrun⟩
    · rw [(event_of_ok hrun).2]
      refine ⟨?_, hspent⟩
      by_cases hagent : agent = policy'.agent
      · exact ⟨policy', by rw [Dict.get?_set, if_pos hagent],
          hlimits policy' (.inr ⟨hc, hagent.symm⟩)⟩
      · exact ⟨policy, by rw [Dict.get?_set, if_neg hagent, hpolicy], hdaily, hcall⟩
    · rw [(event_of_ok hrun).2]
      refine ⟨⟨policy, by rw [policies_appliedAll, hpolicy], hdaily, hcall⟩, ?_⟩
      rcases spent_le_of_batchValid hv hpolicy (hlegs c hc) with hsame | hle
      · rw [hsame]
        exact hspent
      · apply le_max_of_le_right
        have hmul : (m : ℤ) * policy.perCallLimit ≤ m * perCall :=
          mul_le_mul_of_nonneg_left hcall (Int.natCast_nonneg m)
        linarith
    · rw [(event_of_error hrun).2]
      exact ⟨⟨policy, hpolicy, hdaily, hcall⟩, hspent⟩
  obtain ⟨policy, hpolicy⟩ := hstart
  have hfirst : Kept r := ⟨⟨policy, hpolicy, hlimits policy (.inl hpolicy)⟩, le_max_left _ _⟩
  exact trace_of_kept calls hkeep (fun s c hc hs => (hkeep s c hc hs).2) r hfirst

/-- A wallet of 100 a day and 60 a call. -/
def smallWallet : WalletPolicy :=
  { owner := "alice", agent := "agent-buyer", perCallLimit := 60, dailyLimit := 100 }

/-- Two legs of 60 in one batch reach 120, and no batch of two legs passes 160. -/
theorem overspend_bound_two_legs :
    (trace RailCall.perform { policies := (∅ : Dict _ _).set "agent-buyer" smallWallet }
        [.clearBatch [⟨"agent-buyer", "op-a", 60, "rcpt-1"⟩,
          ⟨"agent-buyer", "op-a", 60, "rcpt-2"⟩]]).all
      (fun e => e.after.spentToday.getD "agent-buyer" 0 ≤ max 0 (100 + 1 * 60)) = true := by
  rw [List.all_eq_true]
  refine fun e he => decide_eq_true
    (overspend_bound _ "agent-buyer" 100 60 1 _ ⟨smallWallet, rfl⟩ ?_ (by decide) e he)
  rintro policy (h | ⟨h, _⟩)
  · cases h
    decide
  · simp at h

/-! ## The bound is reached -/

/-- There are always as many unused receipts as are asked for. -/
theorem exists_fresh_receipts (used : Finset ContentId) (n : ℕ) :
    ∃ receipts : List ContentId, receipts.length = n ∧ receipts.Nodup ∧
      ∀ receipt ∈ receipts, receipt ∉ used := by
  obtain ⟨more, hsub, hcard⟩ :=
    Infinite.exists_superset_card_eq used (used.card + n) (Nat.le_add_right _ _)
  refine ⟨(more \ used).toList, ?_, Finset.nodup_toList _, ?_⟩
  · rw [Finset.length_toList, Finset.card_sdiff_of_subset hsub, hcard, Nat.add_sub_cancel_left]
  · intro receipt h
    exact (Finset.mem_sdiff.mp (Finset.mem_toList.mp h)).2

/-- The policy is in force, and lets its agent pay the payee. -/
structure Rail.Allows (r : Rail) (policy : WalletPolicy) (payee : Identity) : Prop where
  in_force : r.policies.get? policy.agent = some policy
  active : policy.revoked = false
  allowed : policy.allowlist = ∅ ∨ payee ∈ policy.allowlist

/-- One leg of an amount for each receipt. -/
def equalLegs (payer payee : Identity) (amount : ℤ) (receipts : List ContentId) : List Payment :=
  receipts.map fun receipt => ⟨payer, payee, amount, receipt⟩

section EqualLegs
variable {r : Rail} {policy : WalletPolicy} {payee : Identity}

theorem Rail.Allows.appliedAll (h : r.Allows policy payee) (payments : List Payment) :
    (r.appliedAll payments).Allows policy payee :=
  ⟨by rw [policies_appliedAll, h.in_force], h.active, h.allowed⟩

/-- Equal legs on unused receipts are a valid batch if the payer's policy, if it has one, has
nothing against any one of them.  They need not fit under the daily limit together. -/
theorem batchValid_equalLegs {payer : Identity} {amount : ℤ} (hpos : 0 < amount)
    (hcheck : ∀ policy, r.policies.get? payer = some policy →
      policy.check payee amount (r.spentToday.getD payer 0) = none)
    {receipts : List ContentId} (hnodup : receipts.Nodup)
    (hfresh : ∀ receipt ∈ receipts, receipt ∉ r.usedReceipts) :
    r.BatchValid (equalLegs payer payee amount receipts) := by
  constructor
  case legs =>
    intro p hp
    obtain ⟨receipt, hreceipt, rfl⟩ := List.mem_map.mp hp
    exact ⟨hpos, hfresh receipt hreceipt, hcheck⟩
  case receipts_nodup => simpa [equalLegs, Function.comp_def] using hnodup

theorem Rail.Allows.batchValid (h : r.Allows policy payee) {amount : ℤ} (hpos : 0 < amount)
    (hcall : amount ≤ policy.perCallLimit)
    (hday : r.spentToday.getD policy.agent 0 + amount ≤ policy.dailyLimit)
    {receipts : List ContentId} (hnodup : receipts.Nodup)
    (hfresh : ∀ receipt ∈ receipts, receipt ∉ r.usedReceipts) :
    r.BatchValid (equalLegs policy.agent payee amount receipts) := by
  refine batchValid_equalLegs hpos ?_ hnodup hfresh
  intro policy' hpolicy'
  obtain rfl : policy = policy' := Option.some.inj (h.in_force.symm.trans hpolicy')
  exact (WalletPolicy.check_eq_none_iff _ _ _ _).mpr ⟨h.active, hcall, hday, h.allowed⟩

theorem spentToday_equalLegs (r : Rail) (payer payee : Identity) (amount : ℤ)
    (receipts : List ContentId) :
    (r.appliedAll (equalLegs payer payee amount receipts)).spentToday.getD payer 0 =
      r.spentToday.getD payer 0 + receipts.length * amount := by
  rw [spentToday_appliedAll, Dict.getD_tally]
  simp [equalLegs, totalOf, Function.comp_def]

/-- The agent pays up to one call below its daily limit in single units, and then a batch of
the largest legs, each of which still fits. -/
theorem Rail.Allows.exists_overspend (m n : ℕ) (hcall : 0 < policy.perCallLimit) :
    ∀ r : Rail, r.Allows policy payee →
      r.spentToday.getD policy.agent 0 + n + policy.perCallLimit = policy.dailyLimit →
        ∃ calls : List RailCall,
          (∀ c ∈ calls, (∀ policy', c ≠ .setPolicy policy') ∧
            (c.payments.filter fun p => p.payer = policy.agent).length ≤ m + 1) ∧
          (finish RailCall.perform r calls).spentToday.getD policy.agent 0 =
            policy.dailyLimit + m * policy.perCallLimit := by
  induction n with
  | zero =>
      intro r h hroom
      obtain ⟨receipts, hlength, hnodup, hfresh⟩ := exists_fresh_receipts r.usedReceipts (m + 1)
      have hv := h.batchValid hcall le_rfl (by omega) hnodup hfresh
      let legs := equalLegs policy.agent payee policy.perCallLimit receipts
      have hrun : (RailCall.clearBatch legs).perform.run r = .ok () (r.appliedAll legs) :=
        RailCall.perform_of_valid (by simp) hv
      refine ⟨[.clearBatch legs], ?_, ?_⟩
      · have hle : (legs.filter fun p => p.payer = policy.agent).length ≤ m + 1 :=
          (List.length_filter_le _ _).trans (by simp [legs, equalLegs, hlength])
        simpa [RailCall.payments] using hle
      · rw [finish, (event_of_ok hrun).2, finish, spentToday_equalLegs, hlength]
        push_cast at hroom ⊢
        linarith
  | succ n ih =>
      intro r h hroom
      obtain ⟨receipt, hfresh⟩ := Infinite.exists_notMem_finset r.usedReceipts
      have hv := h.batchValid zero_lt_one hcall (by omega) (List.nodup_singleton receipt)
        (by simpa using hfresh)
      let leg : Payment := ⟨policy.agent, payee, 1, receipt⟩
      have hrun : (RailCall.clear leg).perform.run r = .ok () (r.appliedAll [leg]) :=
        RailCall.perform_of_valid (by simp) hv
      have hspent : (r.appliedAll [leg]).spentToday.getD policy.agent 0 =
          r.spentToday.getD policy.agent 0 + 1 := by
        simpa [equalLegs, leg] using spentToday_equalLegs r policy.agent payee 1 [receipt]
      have hnext : (r.appliedAll [leg]).spentToday.getD policy.agent 0 + n +
          policy.perCallLimit = policy.dailyLimit := by
        rw [hspent]
        push_cast at hroom
        linarith
      obtain ⟨calls, hcalls, hlast⟩ := ih (r.appliedAll [leg]) (h.appliedAll [leg]) hnext
      refine ⟨.clear leg :: calls, ?_, ?_⟩
      · refine List.forall_mem_cons.mpr ⟨⟨by simp, ?_⟩, hcalls⟩
        exact (List.length_filter_le _ _).trans (by simp [RailCall.payments])
      · rw [finish, (event_of_ok hrun).2, hlast]

end EqualLegs

/-- **The bound on the overspend is reached**: from every rail on which an agent has room for
one call of the largest amount under a policy that is not revoked, calls with at most `m + 1`
legs take it to exactly `m` per-call limits over its daily limit. -/
theorem overspend_bound_attained (r : Rail) (policy : WalletPolicy) (payee : Identity) (m : ℕ)
    (hpolicy : r.policies.get? policy.agent = some policy) (hactive : policy.revoked = false)
    (hallowed : policy.allowlist = ∅ ∨ payee ∈ policy.allowlist)
    (hcall : 0 < policy.perCallLimit)
    (hroom : r.spentToday.getD policy.agent 0 + policy.perCallLimit ≤ policy.dailyLimit) :
    ∃ calls : List RailCall,
      (∀ c ∈ calls, (∀ policy', c ≠ .setPolicy policy') ∧
        (c.payments.filter fun p => p.payer = policy.agent).length ≤ m + 1) ∧
      (finish RailCall.perform r calls).spentToday.getD policy.agent 0 =
        policy.dailyLimit + m * policy.perCallLimit := by
  have hallows : r.Allows policy payee := ⟨hpolicy, hactive, hallowed⟩
  obtain ⟨n, hn⟩ := Int.le.dest hroom
  exact Rail.Allows.exists_overspend m n hcall r hallows (by omega)

theorem overspend_bound_attained_small_wallet :
    ∃ calls : List RailCall,
      (∀ c ∈ calls, (∀ policy', c ≠ .setPolicy policy') ∧
        (c.payments.filter fun p => p.payer = "agent-buyer").length ≤ 9 + 1) ∧
      (finish RailCall.perform { policies := (∅ : Dict _ _).set "agent-buyer" smallWallet }
        calls).spentToday.getD "agent-buyer" 0 = 100 + 9 * 60 :=
  overspend_bound_attained { policies := (∅ : Dict _ _).set "agent-buyer" smallWallet }
    smallWallet "op-a" 9 rfl rfl (.inl rfl) (by decide) (by decide)

/-! ## Nothing is taken back -/

/-- What every account holds has not shrunk, and no receipt was forgotten. -/
structure Grown (r r' : Rail) : Prop where
  spentToday : ∀ agent, r.spentToday.getD agent 0 ≤ r'.spentToday.getD agent 0
  usedReceipts : r.usedReceipts ⊆ r'.usedReceipts
  balances : ∀ agent, r.balances.getD agent 0 ≤ r'.balances.getD agent 0
  burned : r.burned ≤ r'.burned
  treasury : r.treasury ≤ r'.treasury

theorem Grown.refl (r : Rail) : Grown r r :=
  ⟨fun _ => le_rfl, subset_rfl, fun _ => le_rfl, le_rfl, le_rfl⟩

theorem Grown.trans {r r' r'' : Rail} (h : Grown r r') (h' : Grown r' r'') : Grown r r'' :=
  ⟨fun agent => (h.spentToday agent).trans (h'.spentToday agent),
    h.usedReceipts.trans h'.usedReceipts,
    fun agent => (h.balances agent).trans (h'.balances agent),
    h.burned.trans h'.burned, h.treasury.trans h'.treasury⟩

/-- The fee and the burn share are shares of a whole. -/
structure Rail.SharesOfWhole (r : Rail) : Prop where
  fee : 0 ≤ r.feeBps ∧ r.feeBps ≤ basisPoints
  burn : 0 ≤ r.burnShareBps ∧ r.burnShareBps ≤ basisPoints

section Shares
variable {r : Rail} (h : r.SharesOfWhole)

include h

theorem Rail.SharesOfWhole.fee_bounds {amount : ℤ} (hpos : 0 ≤ amount) :
    0 ≤ r.fee amount ∧ r.fee amount ≤ amount :=
  roundHalfUp_part_bounds basisPoints_pos h.fee hpos

theorem Rail.SharesOfWhole.burnOf_bounds {amount : ℤ} (hpos : 0 ≤ amount) :
    0 ≤ r.burnOf amount ∧ r.burnOf amount ≤ r.fee amount :=
  roundHalfUp_part_bounds basisPoints_pos h.burn (h.fee_bounds hpos).1

/-- Applying positive legs shrinks nothing. -/
theorem Rail.SharesOfWhole.grown_appliedAll {payments : List Payment}
    (hpos : ∀ p ∈ payments, 0 < p.amount) : Grown r (r.appliedAll payments) := by
  constructor
  case spentToday =>
    intro agent
    rw [spentToday_appliedAll, Dict.getD_tally]
    apply le_add_of_nonneg_right
    apply totalOf_nonneg
    simpa using fun p hp => (hpos p hp).le
  case usedReceipts =>
    rw [usedReceipts_appliedAll]
    exact Finset.subset_union_left
  case balances =>
    intro agent
    rw [balances_appliedAll, Dict.getD_tally]
    apply le_add_of_nonneg_right
    apply totalOf_nonneg
    simpa using fun p hp => (h.fee_bounds (hpos p hp).le).2
  case burned =>
    rw [burned_appliedAll]
    apply le_add_of_nonneg_right
    apply List.sum_nonneg
    simpa using fun p hp => (h.burnOf_bounds (hpos p hp).le).1
  case treasury =>
    rw [treasury_appliedAll]
    apply le_add_of_nonneg_right
    apply List.sum_nonneg
    simpa using fun p hp => (h.burnOf_bounds (hpos p hp).le).2

end Shares

/-- **Nothing is taken back**: with a fee and a burn share between zero and the whole, every
run leaves each payee with at least what it held, each payer with at least what it had spent,
and no less burned or in the treasury. -/
theorem books_grow (r : Rail) (hfee : 0 ≤ r.feeBps ∧ r.feeBps ≤ basisPoints)
    (hburn : 0 ≤ r.burnShareBps ∧ r.burnShareBps ≤ basisPoints) (calls : List RailCall) :
    Grown r (finish RailCall.perform r calls) := by
  have hrun := rail_induction (P := fun s _ => Grown r s ∧ s.SharesOfWhole) ?_ ?_
    ⟨.refl r, hfee, hburn⟩ calls
  · exact hrun.1
  · rintro s _ policies ⟨hgrown, hshares⟩
    exact ⟨⟨hgrown.spentToday, hgrown.usedReceipts, hgrown.balances, hgrown.burned,
      hgrown.treasury⟩, hshares.fee, hshares.burn⟩
  · rintro s _ ps ⟨hgrown, hshares⟩ hv
    refine ⟨hgrown.trans (hshares.grown_appliedAll fun p hp => (hv.legs p hp).amount_pos), ?_⟩
    exact ⟨by simpa using hshares.fee, by simpa using hshares.burn⟩

theorem books_grow_walkthrough :
    Grown (finish RailCall.perform {} (walkthroughCalls.take 2))
      (finish RailCall.perform (finish RailCall.perform {} (walkthroughCalls.take 2))
        (walkthroughCalls.drop 2)) :=
  books_grow _ (by decide) (by decide) _

end YeBlock
