import Mathlib.Data.List.Induction
import Mathlib.Data.List.Nodup
import YeBlock.Node.Receipts

/-!
# Runs of admission

A settlement client goes through rounds: it filters a candidate list with the
validator, pays the receipts that pass, and finalizes their workloads.  The finalized
set therefore knows earlier rounds only, and a run pays no workload twice exactly when
no candidate list repeats one on its own.

## Main definitions

* `Round`, `admittedRounds` — runs of admission and finalization.
* `Round.offers` — the workloads a round would pay if none were finalized.
* `mem_admittedRounds` — a workload is paid exactly when some round offers it.
* `admittedRounds_nodup_iff` — when a run pays no workload twice.
-/

namespace YeBlock

/-- One round: the resolvers as they answer then, and the candidate receipts. -/
structure Round where
  signatures : SignatureVerifier
  stake : StakeOracle
  manifests : ManifestResolver
  candidates : List ExecutionReceipt

namespace Round

/-- The round's validator, once the workloads of the receipts `paid` are finalized. -/
def validator (round : Round) (paid : List ExecutionReceipt) : ReceiptValidator where
  signatures := round.signatures
  stake := round.stake
  manifests := round.manifests
  finalized := ⟨fun workloadId => workloadId ∈ paid.map ExecutionReceipt.workloadId⟩

/-- The first three conditions: signature, stake, manifest. -/
def passes (round : Round) (r : ExecutionReceipt) : Bool :=
  round.signatures.verify r.operatorSignature r.signingPreimage &&
    round.stake.stakeIsCurrent r.operatorIdentity r.timestampMs &&
    round.manifests.resolvesToLiveManifest r.modelIdentity

/-- The workloads of the candidates that pass the first three conditions. -/
def offers (round : Round) : List ContentId :=
  (round.candidates.filter round.passes).map ExecutionReceipt.workloadId

end Round

/-- The receipts admitted over a run of rounds, each round finalizing the workloads
of what it admitted. -/
def admittedRounds (rounds : List Round) : List ExecutionReceipt :=
  rounds.foldl (fun paid round => paid ++ (round.validator paid).admitReceipts round.candidates) []

theorem admittedRounds_append_singleton (rounds : List Round) (round : Round) :
    admittedRounds (rounds ++ [round]) = admittedRounds rounds ++
      (round.validator (admittedRounds rounds)).admitReceipts round.candidates := by
  simp [admittedRounds]

/-- A round admits what it offers, less the workloads already finalized. -/
theorem map_workloadId_admitReceipts (round : Round) (paid : List ExecutionReceipt) :
    ((round.validator paid).admitReceipts round.candidates).map ExecutionReceipt.workloadId =
      round.offers.filter fun w => w ∉ paid.map ExecutionReceipt.workloadId := by
  rw [Round.offers, List.filter_map, List.filter_filter, ReceiptValidator.admitReceipts]
  congr 2
  funext r
  by_cases h : r.workloadId ∈ paid.map ExecutionReceipt.workloadId
  · simp only [ReceiptValidator.isValid, Round.validator, Function.comp_apply, h, decide_true,
      not_true, decide_false, Bool.not_true, Bool.and_false, Bool.false_and]
  · simp only [ReceiptValidator.isValid, Round.validator, Round.passes, Function.comp_apply, h,
      decide_false, not_false_eq_true, decide_true, Bool.not_false, Bool.and_true, Bool.true_and]

/-- A workload is paid along a run exactly when some round offers it. -/
theorem mem_admittedRounds (rounds : List Round) (w : ContentId) :
    w ∈ (admittedRounds rounds).map ExecutionReceipt.workloadId ↔
      w ∈ rounds.flatMap Round.offers := by
  induction rounds using List.reverseRecOn with
  | nil => simp [admittedRounds]
  | append_singleton rounds round ih =>
      rw [admittedRounds_append_singleton, List.map_append, List.mem_append,
        map_workloadId_admitReceipts, List.mem_filter, decide_eq_true_eq, List.flatMap_append,
        List.mem_append, List.flatMap_singleton, ih]
      by_cases h : w ∈ rounds.flatMap Round.offers
      · simp only [h, true_or]
      · simp only [h, not_false_eq_true, and_true, false_or]

/-- A round adds to the run the workloads it offers that no earlier round offered. -/
theorem map_workloadId_append_singleton (rounds : List Round) (round : Round) :
    (admittedRounds (rounds ++ [round])).map ExecutionReceipt.workloadId =
      (admittedRounds rounds).map ExecutionReceipt.workloadId ++
        round.offers.filter fun w => w ∉ rounds.flatMap Round.offers := by
  rw [admittedRounds_append_singleton, List.map_append, map_workloadId_admitReceipts]
  congr 1
  apply List.filter_congr
  intro w _
  rw [decide_eq_decide, mem_admittedRounds]

/-- The step of the run: a round keeps the workloads distinct exactly when those it
adds are distinct among themselves. -/
theorem nodup_append_singleton_iff (rounds : List Round) (round : Round) :
    ((admittedRounds (rounds ++ [round])).map ExecutionReceipt.workloadId).Nodup ↔
      ((admittedRounds rounds).map ExecutionReceipt.workloadId).Nodup ∧
        (round.offers.filter fun w => w ∉ rounds.flatMap Round.offers).Nodup := by
  rw [map_workloadId_append_singleton, List.nodup_append']
  have hdisj : ((admittedRounds rounds).map ExecutionReceipt.workloadId).Disjoint
      (round.offers.filter fun w => w ∉ rounds.flatMap Round.offers) := by
    intro w hpaid hnew
    have hfresh : w ∉ rounds.flatMap Round.offers := by simpa using (List.mem_filter.mp hnew).2
    exact hfresh ((mem_admittedRounds rounds w).mp hpaid)
  simp only [hdisj, and_true]

/-- **When a run pays no workload twice**: exactly when no round offers twice a
workload that no earlier round offered. -/
theorem admittedRounds_nodup_iff (rounds : List Round) :
    ((admittedRounds rounds).map ExecutionReceipt.workloadId).Nodup ↔
      ∀ k (hk : k < rounds.length),
        (rounds[k].offers.filter fun w => w ∉ (rounds.take k).flatMap Round.offers).Nodup := by
  induction rounds using List.reverseRecOn with
  | nil => simp [admittedRounds]
  | append_singleton rounds round ih =>
      rw [nodup_append_singleton_iff, ih]
      constructor
      · rintro ⟨hold, hnew⟩ k hk
        rw [List.length_append, List.length_singleton] at hk
        rcases Nat.lt_succ_iff_lt_or_eq.mp hk with hlt | rfl
        · rw [List.getElem_append_left hlt, List.take_append_of_le_length (Nat.le_of_lt hlt)]
          exact hold k hlt
        · rw [List.getElem_concat_length rfl, List.take_left]
          exact hnew
      · intro h
        constructor
        · intro k hk
          have hk' := h k (by rw [List.length_append]; omega)
          rwa [List.getElem_append_left hk, List.take_append_of_le_length (Nat.le_of_lt hk)] at hk'
        · have hlast := h rounds.length (by simp)
          rwa [List.getElem_concat_length rfl, List.take_left] at hlast

/-- A round that repeats one receipt, with every resolver agreeing. -/
def repeatingRound : Round where
  signatures := ⟨fun _ _ => true⟩
  stake := ⟨fun _ _ => true⟩
  manifests := ⟨fun _ => true⟩
  candidates := [ownReceipt, ownReceipt]

/-- Both copies are admitted. -/
theorem workload_paid_twice :
    ¬ ∀ rounds : List Round,
      ((admittedRounds rounds).map ExecutionReceipt.workloadId).Nodup := by
  intro h
  have hpaid : (admittedRounds [repeatingRound]).map ExecutionReceipt.workloadId =
      ["sha3-256:01", "sha3-256:01"] := rfl
  have hnodup := h [repeatingRound]
  rw [hpaid] at hnodup
  exact absurd hnodup (by decide)

end YeBlock
