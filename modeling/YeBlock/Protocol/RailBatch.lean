import YeBlock.Protocol.PaymentRail

/-!
# Batches: all or nothing, and the same as one by one

A batch validates every leg against the rail as it stands before the batch, then
applies the legs.  Two results about that design.

`clear_batch` is atomic: a rejected batch changes no field, and once validation has
passed no leg can fail to apply.

Clearing the same legs one at a time validates each leg against a rail the earlier
legs have changed.  Every reason to reject a leg only becomes stronger as receipts
are used and spending grows, so a sequence that clears one by one in some order is
valid as a batch in every order; and since the legs commute as far as the books are
concerned, both reach the same rail.

## Main definitions

* `Rail.Same` — equality of rails, with dictionaries compared as maps.
* `Rail.clearBatch_atomic`, `Rail.clearBatch_agrees_clear` — the two results.
-/

namespace YeBlock.Rail

open Lib

/-! ## Atomicity -/

/-- **A batch settles entirely or not at all.**  It raises a `PaymentError` and
leaves the rail as it was, or its applying pass ran to the end; and a leg of that
pass never raises, from whatever rail it starts. -/
theorem clearBatch_atomic (r : Rail) (payments : List Payment) :
    ((∃ msg, (clearBatch payments).run r = .error (.paymentError msg) r) ∨
      ((payments.forM apply).run r = .ok () (r.appliedAll payments) ∧
        (clearBatch payments).run r = .ok () (r.appliedAll payments))) ∧
      ∀ (p : Payment) (s : Rail), ∃ s', (apply p).run s = .ok () s' := by
  refine ⟨?_, fun p s => ⟨_, s.run_apply p⟩⟩
  rcases r.run_clearBatch payments with ⟨_, h⟩ | ⟨_, h⟩
  · exact .inr ⟨r.run_forM_apply payments, h⟩
  · exact .inl h

/-! ## Validity along a sequence -/

@[simp] theorem batchValid_singleton (r : Rail) (p : Payment) : r.BatchValid [p] ↔ r.Valid p :=
  ⟨fun h => h.legs p (by simp), fun h => ⟨by simpa using h, by simp⟩⟩

theorem BatchValid.perm {r : Rail} {ps qs : List Payment} (h : r.BatchValid ps)
    (hperm : ps.Perm qs) : r.BatchValid qs :=
  ⟨fun q hq => h.legs q (hperm.mem_iff.mpr hq),
    (hperm.map Payment.receipt).nodup_iff.mp h.receipts_nodup⟩

/-- A payment within policy after more spending was within policy before it. -/
theorem check_of_le {policy : WalletPolicy} {payee : Identity} {amount spent spent' : ℤ}
    (hle : spent ≤ spent') (h : policy.check payee amount spent' = none) :
    policy.check payee amount spent = none := by
  rw [WalletPolicy.check_eq_none_iff] at h ⊢
  obtain ⟨hrev, hcall, hday, hallow⟩ := h
  exact ⟨hrev, hcall, by omega, hallow⟩

/-- What is valid after a positive payment was valid before it, on another receipt. -/
theorem Valid.of_applied {r : Rail} {p q : Payment} (hp : 0 < p.amount)
    (h : (r.applied p).Valid q) : r.Valid q ∧ q.receipt ≠ p.receipt := by
  have hunused : q.receipt ∉ insert p.receipt r.usedReceipts := h.receipt_unused
  rw [Finset.mem_insert, not_or] at hunused
  have hspent : r.spentToday.getD q.payer 0 ≤ (r.applied p).spentToday.getD q.payer 0 := by
    rw [applied, Dict.getD_add]
    split <;> omega
  constructor
  · refine ⟨h.amount_pos, hunused.2, ?_⟩
    intro policy hpol
    exact check_of_le hspent (h.within_policy policy hpol)
  · exact hunused.1

/-- Clearing one by one succeeded: the payments were a valid batch from the start. -/
theorem batchValid_of_run_forM_clear {r r' : Rail} {ps : List Payment}
    (h : (ps.forM clear).run r = .ok () r') : r.BatchValid ps ∧ r' = r.appliedAll ps := by
  induction ps generalizing r with
  | nil =>
      cases h
      exact ⟨⟨by simp, by simp⟩, rfl⟩
  | cons p ps ih =>
      change (clear p >>= fun _ => ps.forM clear).run r = .ok () r' at h
      rcases r.run_clear p with ⟨hv, hclear⟩ | ⟨_, msg, hclear⟩
      · rw [run_bind_of_ok hclear] at h
        obtain ⟨hrest, hr'⟩ := ih h
        have hlegs : ∀ q ∈ ps, r.Valid q ∧ q.receipt ≠ p.receipt := by
          intro q hq
          exact Valid.of_applied hv.amount_pos (hrest.legs q hq)
        have hfresh : p.receipt ∉ ps.map Payment.receipt := by
          intro hmem
          obtain ⟨q, hq, hqp⟩ := List.mem_map.mp hmem
          exact (hlegs q hq).2 hqp
        refine ⟨⟨List.forall_mem_cons.mpr ⟨hv, fun q hq => (hlegs q hq).1⟩, ?_⟩, hr'⟩
        exact List.nodup_cons.mpr ⟨hfresh, hrest.receipts_nodup⟩
      · rw [run_bind_of_error hclear] at h
        cases h

/-! ## Agreement -/

/-- The rails agree field by field, dictionaries as maps. -/
structure Same (r r' : Rail) : Prop where
  feeBps : r.feeBps = r'.feeBps
  burnShareBps : r.burnShareBps = r'.burnShareBps
  policies : r.policies.Same r'.policies
  spentToday : r.spentToday.Same r'.spentToday
  usedReceipts : r.usedReceipts = r'.usedReceipts
  balances : r.balances.Same r'.balances
  burned : r.burned = r'.burned
  treasury : r.treasury = r'.treasury

/-- The order of the legs does not matter to the books. -/
theorem appliedAll_perm (r : Rail) {ps qs : List Payment} (h : ps.Perm qs) :
    (r.appliedAll ps).Same (r.appliedAll qs) := by
  constructor
  case feeBps => simp
  case burnShareBps => simp
  case policies => simp [Dict.Same.refl]
  case spentToday =>
    rw [spentToday_appliedAll, spentToday_appliedAll]
    exact Dict.tally_perm _ (h.map _)
  case usedReceipts =>
    rw [usedReceipts_appliedAll, usedReceipts_appliedAll,
      List.toFinset_eq_of_perm _ _ (h.map Payment.receipt)]
  case balances =>
    rw [balances_appliedAll, balances_appliedAll]
    exact Dict.tally_perm _ (h.map _)
  case burned => rw [burned_appliedAll, burned_appliedAll, (h.map _).sum_eq]
  case treasury => rw [treasury_appliedAll, treasury_appliedAll, (h.map _).sum_eq]

/-- **A batch agrees with clearing one by one**: if the payments clear one at a
time in some order, they clear as a batch in every order, reaching the same rail;
and a batch of one is a single payment. -/
theorem clearBatch_agrees_clear (r : Rail) :
    (∀ (ps qs : List Payment) (r' : Rail), ps.Perm qs → (ps.forM clear).run r = .ok () r' →
        ∃ r'', (clearBatch qs).run r = .ok () r'' ∧ r''.Same r') ∧
      ∀ p, (clearBatch [p]).run r = (clear p).run r := by
  constructor
  · intro ps qs r' hperm h
    obtain ⟨hvalid, rfl⟩ := batchValid_of_run_forM_clear h
    rcases r.run_clearBatch qs with ⟨_, hrun⟩ | ⟨hnot, _⟩
    · exact ⟨_, hrun, r.appliedAll_perm hperm.symm⟩
    · exact absurd (hvalid.perm hperm) hnot
  · intro p
    rcases r.run_validate p with ⟨_, h⟩ | ⟨_, msg, h⟩
    · have hpass : ([p].foldlM validateLeg ∅).run r = .ok {p.receipt} r := by
        rw [List.foldlM_cons, validateLeg, bind_assoc, run_bind_of_ok h]
        rfl
      rw [clearBatch, run_bind_of_ok hpass, run_forM_apply, clear, run_bind_of_ok h, run_apply]
      rfl
    · have hpass : ([p].foldlM validateLeg ∅).run r = .error (.paymentError msg) r := by
        rw [List.foldlM_cons, validateLeg, bind_assoc, run_bind_of_error h]
      rw [clearBatch, run_bind_of_error hpass, clear, run_bind_of_error h]

/-- The pipeline of the walkthrough. -/
def pipeline : List Payment :=
  [⟨"agent-buyer", "agent-researcher", 10000, "rcpt-p1"⟩,
    ⟨"agent-researcher", "op-a", 4000, "rcpt-p2"⟩]

theorem clearBatch_agrees_clear_pipeline :
    ∃ r'', (clearBatch pipeline.reverse).run {} = .ok () r'' ∧
      r''.Same (appliedAll {} pipeline) :=
  (clearBatch_agrees_clear {}).1 pipeline pipeline.reverse (appliedAll {} pipeline)
    (List.reverse_perm pipeline).symm rfl

end YeBlock.Rail
