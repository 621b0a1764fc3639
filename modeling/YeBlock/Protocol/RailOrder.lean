import YeBlock.Protocol.RailRuns
import Mathlib.Algebra.Order.BigOperators.Group.List

/-!
# Orders and groupings of the same payments

The same payments can reach the rail one at a time, in any order, or grouped into batches.
Which of these are accepted differs in one place only, the daily limit: a batch checks it
for every leg against the spending recorded before the batch, so it never sees two legs of
one payer together.

* Payments clear one at a time exactly when they clear as a batch and the legs of each
  payer fit under its daily limit together.  That condition names no order, so neither the
  outcome nor the books depend on one.
* Batches that clear one after the other clear as one batch.

## Main definitions

* `Rail.DayFits` — every payer can pay all of its legs today.
* `clear_each_iff`, `clear_each_perm`, `clearBatch_merge` — the three results.
-/

namespace YeBlock

open Lib

namespace Rail

/-- Every payer with a policy stays under its daily limit after all of its legs. -/
def DayFits (r : Rail) (payments : List Payment) : Prop :=
  ∀ p ∈ payments, ∀ policy, r.policies.get? p.payer = some policy →
    r.spentToday.getD p.payer 0 + totalOf p.payer (payments.map fun q => (q.payer, q.amount)) ≤
      policy.dailyLimit

/-- For a valid batch only a payer of several legs can exceed the limit. -/
theorem BatchValid.dayFits_iff {r : Rail} {payments : List Payment} (h : r.BatchValid payments) :
    r.DayFits payments ↔ r.LegsFit payments := by
  rw [← dailyLimitKept_appliedAll h, spentToday_appliedAll]
  simp only [Dict.getD_tally, DayFits]

/-- Of positive payments each is at most what its payer pays in all. -/
theorem amount_le_totalOf {payments : List Payment} (hpos : ∀ q ∈ payments, 0 < q.amount)
    {p : Payment} (hp : p ∈ payments) :
    p.amount ≤ totalOf p.payer (payments.map fun q => (q.payer, q.amount)) := by
  apply List.single_le_sum
  · intro x hx
    simp only [List.mem_map, List.mem_filter] at hx
    obtain ⟨_, ⟨⟨q, hq, rfl⟩, _⟩, rfl⟩ := hx
    exact (hpos q hq).le
  · simp only [List.mem_map, List.mem_filter]
    exact ⟨(p.payer, p.amount), ⟨⟨p, hp, rfl⟩, by simp⟩, rfl⟩

/-! ## One at a time -/

section Step
variable {r : Rail} {p : Payment}

/-- After the first leg, the other legs fit if all of them did. -/
theorem DayFits.of_cons {ps : List Payment} (h : r.DayFits (p :: ps)) :
    (r.applied p).DayFits ps := by
  intro q hq policy hpolicy
  have hall := h q (List.mem_cons_of_mem p hq) policy hpolicy
  rw [List.map_cons, totalOf_cons] at hall
  have hspent : (r.applied p).spentToday.getD q.payer 0 =
      r.spentToday.getD q.payer 0 + if p.payer = q.payer then p.amount else 0 := by
    rw [applied, Dict.getD_add]
  rw [hspent, add_assoc]
  exact hall

/-- What was valid beside `p` is valid after it, if the payer can still pay it today. -/
theorem Valid.applied {q : Payment} (hq : r.Valid q) (hne : q.receipt ≠ p.receipt)
    (hday : ∀ policy, r.policies.get? q.payer = some policy →
      (r.applied p).spentToday.getD q.payer 0 + q.amount ≤ policy.dailyLimit) :
    (r.applied p).Valid q := by
  refine ⟨hq.amount_pos, ?_, ?_⟩
  · change q.receipt ∉ insert p.receipt r.usedReceipts
    rw [Finset.mem_insert, not_or]
    exact ⟨hne, hq.receipt_unused⟩
  · intro policy hpolicy
    obtain ⟨hrevoked, hlimit, _, hallowed⟩ :=
      (WalletPolicy.check_eq_none_iff _ _ _ _).mp (hq.within_policy policy hpolicy)
    exact (WalletPolicy.check_eq_none_iff _ _ _ _).mpr
      ⟨hrevoked, hlimit, hday policy hpolicy, hallowed⟩

/-- The rest of a valid batch whose legs fit is a valid batch after the first leg. -/
theorem BatchValid.of_cons {ps : List Payment} (h : r.BatchValid (p :: ps))
    (hfits : r.DayFits (p :: ps)) : (r.applied p).BatchValid ps := by
  have hnodup := List.nodup_cons.mp h.receipts_nodup
  refine ⟨?_, hnodup.2⟩
  intro q hq
  have hvalid := h.legs q (List.mem_cons_of_mem p hq)
  apply hvalid.applied
  · intro heq
    exact hnodup.1 (heq ▸ List.mem_map_of_mem hq)
  · intro policy hpolicy
    have hpos : ∀ q' ∈ ps, 0 < q'.amount :=
      fun q' hq' => (h.legs q' (List.mem_cons_of_mem p hq')).amount_pos
    have hle := amount_le_totalOf hpos hq
    have hrest := hfits.of_cons q hq policy hpolicy
    omega

end Step

/-- Clearing a first payment, then the others. -/
theorem run_forM_clear_cons {r : Rail} {p : Payment} (hp : r.Valid p) (ps : List Payment) :
    ((p :: ps).forM clear).run r = (ps.forM clear).run (r.applied p) := by
  rcases r.run_clear p with ⟨_, hclear⟩ | ⟨hnot, _⟩
  · exact run_bind_of_ok hclear _
  · exact absurd hp hnot

/-- A valid batch whose legs fit clears one at a time. -/
theorem run_forM_clear_of_fits {r : Rail} {ps : List Payment} (h : r.BatchValid ps)
    (hfits : r.DayFits ps) : (ps.forM clear).run r = .ok () (r.appliedAll ps) := by
  induction ps generalizing r with
  | nil => rfl
  | cons p ps ih =>
      rw [run_forM_clear_cons (h.legs p List.mem_cons_self)]
      exact ih (h.of_cons hfits) hfits.of_cons

/-- What clears one at a time fits: the last leg of each payer was checked against all the
others. -/
theorem dayFits_of_run_forM_clear {r r' : Rail} {ps : List Payment}
    (h : (ps.forM clear).run r = .ok () r') : r.DayFits ps := by
  induction ps generalizing r with
  | nil => intro p hp; cases hp
  | cons p ps ih =>
      have hp := (batchValid_of_run_forM_clear h).1.legs p List.mem_cons_self
      rw [run_forM_clear_cons hp] at h
      have hrest := ih h
      intro q hq policy hpolicy
      rw [List.map_cons, totalOf_cons]
      by_cases hlater : ∃ q' ∈ ps, q'.payer = q.payer
      · obtain ⟨q', hq', heq⟩ := hlater
        have hfits := hrest q' hq' policy (heq ▸ hpolicy)
        rw [heq, applied, Dict.getD_add, add_assoc] at hfits
        exact hfits
      · have hpq : p.payer = q.payer := by
          rcases List.mem_cons.mp hq with rfl | hq
          · rfl
          · exact absurd ⟨q, hq, rfl⟩ hlater
        have hzero : totalOf q.payer (ps.map fun q' => (q'.payer, q'.amount)) = 0 := by
          apply totalOf_eq_zero
          simpa using fun q' hq' heq => hlater ⟨q', hq', heq⟩
        have hcheck := (WalletPolicy.check_eq_none_iff _ _ _ _).mp
          (hp.within_policy policy (hpq ▸ hpolicy))
        rw [hzero, if_pos hpq, ← hpq]
        omega

end Rail

open Rail

/-- **What a batch does not check**: payments clear one at a time exactly when they clear as
a batch and the legs of each payer of several fit under its daily limit together. -/
theorem clear_each_iff (r : Rail) (payments : List Payment) :
    (∃ r', (payments.forM clear).run r = .ok () r') ↔
      (∃ r', (clearBatch payments).run r = .ok () r') ∧ r.LegsFit payments := by
  constructor
  · rintro ⟨r', h⟩
    have hv := (batchValid_of_run_forM_clear h).1
    refine ⟨?_, hv.dayFits_iff.mp (dayFits_of_run_forM_clear h)⟩
    exact ⟨_, RailCall.perform_of_valid (c := .clearBatch payments) (by simp) hv⟩
  · rintro ⟨⟨r', h⟩, hfit⟩
    rcases r.run_clearBatch payments with ⟨hv, _⟩ | ⟨_, msg, hrun⟩
    · exact ⟨_, run_forM_clear_of_fits hv (hv.dayFits_iff.mpr hfit)⟩
    · rw [hrun] at h
      cases h

/-- The legs fit together in one order if they do in another. -/
theorem Rail.DayFits.perm {r : Rail} {ps qs : List Payment} (h : r.DayFits ps)
    (hperm : ps.Perm qs) : r.DayFits qs := by
  intro q hq policy hpolicy
  rw [← totalOf_perm _ (hperm.map _)]
  exact h q (hperm.mem_iff.mpr hq) policy hpolicy

/-- **Payments clear in every order or in none**: if they clear one at a time in one order,
they do in every other, and leave the same rail. -/
theorem clear_each_perm (r r' : Rail) (ps qs : List Payment) (hperm : ps.Perm qs)
    (h : (ps.forM clear).run r = .ok () r') :
    ∃ r'', (qs.forM clear).run r = .ok () r'' ∧ r''.Same r' := by
  obtain ⟨hv, rfl⟩ := batchValid_of_run_forM_clear h
  have hfits := dayFits_of_run_forM_clear h
  exact ⟨_, run_forM_clear_of_fits (hv.perm hperm) (hfits.perm hperm),
    r.appliedAll_perm hperm.symm⟩

theorem clear_each_perm_pipeline :
    ∃ r'', (pipeline.reverse.forM clear).run {} = .ok () r'' ∧
      r''.Same (appliedAll {} pipeline) :=
  clear_each_perm {} (appliedAll {} pipeline) pipeline pipeline.reverse
    (List.reverse_perm pipeline).symm rfl

/-! ## Merging batches -/

/-- What is valid after positive payments was valid before them, on another receipt. -/
theorem Rail.Valid.of_appliedAll {r : Rail} {ps : List Payment} (hpos : ∀ p ∈ ps, 0 < p.amount)
    {q : Payment} (h : (r.appliedAll ps).Valid q) :
    r.Valid q ∧ q.receipt ∉ ps.map Payment.receipt := by
  induction ps generalizing r with
  | nil => exact ⟨h, by simp⟩
  | cons p ps ih =>
      obtain ⟨hfirst, hrest⟩ := ih (fun p' hp' => hpos p' (List.mem_cons_of_mem p hp')) h
      obtain ⟨hvalid, hne⟩ := Valid.of_applied (hpos p List.mem_cons_self) hfirst
      rw [List.map_cons, List.mem_cons, not_or]
      exact ⟨hvalid, hne, hrest⟩

/-- A batch and a batch valid after it are one valid batch. -/
theorem Rail.BatchValid.append {r : Rail} {ps qs : List Payment} (hps : r.BatchValid ps)
    (hqs : (r.appliedAll ps).BatchValid qs) : r.BatchValid (ps ++ qs) := by
  have hlegs : ∀ q ∈ qs, r.Valid q ∧ q.receipt ∉ ps.map Payment.receipt :=
    fun q hq => Valid.of_appliedAll (fun p hp => (hps.legs p hp).amount_pos) (hqs.legs q hq)
  have hdisjoint : (ps.map Payment.receipt).Disjoint (qs.map Payment.receipt) := by
    intro receipt hmem hmem'
    obtain ⟨q, hq, rfl⟩ := List.mem_map.mp hmem'
    exact (hlegs q hq).2 hmem
  refine ⟨?_, ?_⟩
  · intro p hp
    rcases List.mem_append.mp hp with hp | hp
    · exact hps.legs p hp
    · exact (hlegs p hp).1
  · rw [List.map_append]
    exact hps.receipts_nodup.append hqs.receipts_nodup hdisjoint

/-- Batches that clear one after the other are valid as one. -/
theorem batchValid_flatten {r r' : Rail} {batches : List (List Payment)}
    (h : (batches.forM clearBatch).run r = .ok () r') :
    r.BatchValid batches.flatten ∧ r' = r.appliedAll batches.flatten := by
  induction batches generalizing r with
  | nil =>
      cases h
      exact ⟨⟨by simp, by simp⟩, rfl⟩
  | cons ps batches ih =>
      change (clearBatch ps >>= fun _ => batches.forM clearBatch).run r = .ok () r' at h
      rcases r.run_clearBatch ps with ⟨hv, hrun⟩ | ⟨_, msg, hrun⟩
      · rw [run_bind_of_ok hrun] at h
        obtain ⟨hrest, hr'⟩ := ih h
        rw [List.flatten_cons, appliedAll, List.foldl_append]
        exact ⟨hv.append hrest, hr'⟩
      · rw [run_bind_of_error hrun] at h
        cases h

/-- **Batches merge**: batches that clear one after the other clear as one batch, and leave
the same rail. -/
theorem clearBatch_merge (r r' : Rail) (batches : List (List Payment))
    (h : (batches.forM clearBatch).run r = .ok () r') :
    (clearBatch batches.flatten).run r = .ok () r' := by
  obtain ⟨hv, rfl⟩ := batchValid_flatten h
  exact RailCall.perform_of_valid (c := .clearBatch batches.flatten) (by simp) hv

theorem clearBatch_merge_pipeline :
    (clearBatch (pipeline ++ [⟨"op-a", "op-b", 500, "rcpt-p3"⟩])).run {} =
      .ok () (appliedAll {} (pipeline ++ [⟨"op-a", "op-b", 500, "rcpt-p3"⟩])) :=
  clearBatch_merge {} _ [pipeline, [⟨"op-a", "op-b", 500, "rcpt-p3"⟩]] rfl

end YeBlock
