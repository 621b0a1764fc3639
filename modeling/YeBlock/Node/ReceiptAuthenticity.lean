import Mathlib.Algebra.Order.BigOperators.Group.List
import Mathlib.Data.List.Perm.Subperm
import YeBlock.Node.AdmissionRuns
import YeBlock.Node.SigningPreimage

/-!
# What is paid in an honest signer's name

Operators build receipts, anybody may hand receipts to a settlement client, and the client
pays what its validator admits.  The signature scheme is a parameter: in the name of an
honest signer nothing verifies but what that signer signed, and all it signs are the
preimages of the receipts it built.

The preimage determines its fields as soon as the receipt that was built names identities
without a zero character.  Nothing need be assumed of the receipt that is handed in: its
preimage has as many zero bytes, so its identities have none to spare.  Hence an admitted
receipt with an honest signer is one that signer built, but for the signature itself, and
it names its signer as the operator, though the validator does not compare the two.  Over a
run of rounds no receipt that was built is paid twice.

## Main definitions

* `BuildCall`, `builtReceipts` — a history of building.
* `SignatureVerifier.Unforgeable` — the assumption on the signature scheme.
* `admitted_authentic` — what is admitted in an honest name was built.
* `paid_at_most_built` — and is paid once.
-/

namespace YeBlock

/-! ## Building -/

/-- One call of `buildReceipt`. -/
structure BuildCall where
  signer : Signer
  workloadId : ContentId
  modelIdentity : ContentId
  bytesIn : ℤ
  bytesOut : ℤ
  latencyClass : LatencyClass
  timestampMs : Option ℤ
  now : ℤ

/-- Make the call. -/
def BuildCall.perform (c : BuildCall) : Except PyError ExecutionReceipt :=
  buildReceipt c.signer c.workloadId c.modelIdentity c.bytesIn c.bytesOut c.latencyClass
    c.timestampMs c.now

/-- The receipts that a history of calls built. -/
def builtReceipts (history : List BuildCall) : List ExecutionReceipt :=
  history.filterMap fun c => c.perform.toOption

/-- A built receipt names its signer as the operator. -/
theorem signer_of_mem_builtReceipts {history : List BuildCall} {b : ExecutionReceipt}
    (hb : b ∈ builtReceipts history) : b.operatorSignature.signer = b.operatorIdentity := by
  obtain ⟨c, _, hc⟩ := List.mem_filterMap.mp hb
  cases hperform : c.perform with
  | error e =>
      rw [hperform] at hc
      cases hc
  | ok r =>
      rw [hperform] at hc
      cases hc
      exact signer_buildReceipt hperform

/-- In the name of an honest party nothing verifies but the preimages of the receipts that
party built. -/
def SignatureVerifier.Unforgeable (v : SignatureVerifier) (honest : Identity → Bool)
    (history : List BuildCall) : Prop :=
  ∀ sig msg, honest sig.signer = true → v.verify sig msg = true →
    ∃ b ∈ builtReceipts history, b.operatorSignature.signer = sig.signer ∧
      b.signingPreimage = msg

namespace ExecutionReceipt

/-- The receipt without its signature. -/
def statement (r : ExecutionReceipt) : ExecutionReceipt :=
  { r with operatorSignature := { alg := "", signer := "", bytesHex := "" } }

/-- The zero bytes of the joined identities: two separators, and their own. -/
theorem count_zero_signedIds (r : ExecutionReceipt) :
    r.signedIds.count 0 = (utf8 r.workloadId).count 0 + (utf8 r.modelIdentity).count 0 +
      (utf8 r.operatorIdentity).count 0 + 2 := by
  simp only [signedIds, List.intercalate, List.intersperse, List.flatten_cons, List.flatten_nil,
    List.append_nil, List.count_append, List.count_singleton_self]
  omega

theorem nulFree_iff_count (r : ExecutionReceipt) : r.NulFree ↔ r.signedIds.count 0 = 2 := by
  rw [count_zero_signedIds, NulFree]
  simp only [List.forall_mem_cons, List.not_mem_nil, false_imp_iff, implies_true, and_true,
    ← zero_mem_utf8_iff, ← List.count_eq_zero]
  omega

/-- A receipt with the preimage of one whose identities contain no zero character is the
same but for its signature. -/
theorem statement_eq_of_signingPreimage {r b : ExecutionReceipt} (hb : b.NulFree)
    (h : b.signingPreimage = r.signingPreimage) : b.statement = r.statement := by
  obtain ⟨hids, hin, hout, hclass, htime⟩ := (signingPreimage_eq_iff b r).mp h
  have hr : r.NulFree := by
    rw [nulFree_iff_count] at hb ⊢
    rw [← hids, hb]
  obtain ⟨hworkload, hmodel, hoperator⟩ := (signedIds_inj hb hr).mp hids
  rw [statement, statement, hworkload, hmodel, hoperator, hin, hout, hclass, htime]

end ExecutionReceipt

/-! ## One validator -/

section Admission
variable {honest : Identity → Bool} {history : List BuildCall}

/-- A signature that verifies in an honest name is over a receipt that party built. -/
theorem built_of_verify {v : SignatureVerifier} (hv : v.Unforgeable honest history)
    (hids : ∀ b ∈ builtReceipts history, b.NulFree) {r : ExecutionReceipt}
    (hhonest : honest r.operatorSignature.signer = true)
    (hverify : v.verify r.operatorSignature r.signingPreimage = true) :
    ∃ b ∈ builtReceipts history, b.operatorSignature.signer = r.operatorSignature.signer ∧
      b.statement = r.statement := by
  obtain ⟨b, hb, hsigner, hpreimage⟩ := hv _ _ hhonest hverify
  exact ⟨b, hb, hsigner, ExecutionReceipt.statement_eq_of_signingPreimage (hids b hb) hpreimage⟩

theorem verify_of_isValid {v : ReceiptValidator} {r : ExecutionReceipt}
    (h : v.isValid r = true) :
    v.signatures.verify r.operatorSignature r.signingPreimage = true := by
  simp only [ReceiptValidator.isValid, Bool.and_eq_true] at h
  exact h.1.1.1

/-- **Nothing is admitted in an honest name but what was built**: a receipt that is admitted
with an honest signer names that signer as the operator, and is, but for its signature, a
receipt the signer built.  Nothing is assumed of the receipts handed in. -/
theorem admitted_authentic (v : ReceiptValidator)
    (hv : v.signatures.Unforgeable honest history)
    (hids : ∀ b ∈ builtReceipts history, b.NulFree) (candidates : List ExecutionReceipt) :
    ∀ r ∈ v.admitReceipts candidates, honest r.operatorSignature.signer = true →
      r.operatorIdentity = r.operatorSignature.signer ∧
        ∃ b ∈ builtReceipts history, b.operatorSignature.signer = r.operatorSignature.signer ∧
          r = { b with operatorSignature := r.operatorSignature } := by
  intro r hr hhonest
  have hverify := verify_of_isValid (List.mem_filter.mp hr).2
  obtain ⟨b, hb, hsigner, hsame⟩ := built_of_verify hv hids hhonest hverify
  have hfields : r = { b with operatorSignature := r.operatorSignature } := by
    cases r
    cases b
    simpa [ExecutionReceipt.statement, eq_comm] using hsame
  refine ⟨?_, b, hb, hsigner, hfields⟩
  have hoperator : r.operatorIdentity = b.operatorIdentity := by
    rw [hfields]
  rw [hoperator, ← hsigner, signer_of_mem_builtReceipts hb]

/-! ## Runs -/

/-- A run that is handed no workload twice in one round pays none twice. -/
theorem nodup_admittedRounds {rounds : List Round}
    (h : ∀ round ∈ rounds, (round.candidates.map ExecutionReceipt.workloadId).Nodup) :
    ((admittedRounds rounds).map ExecutionReceipt.workloadId).Nodup := by
  induction rounds using List.reverseRecOn with
  | nil => simp [admittedRounds]
  | append_singleton rounds round ih =>
      rw [nodup_append_singleton_iff]
      refine ⟨ih fun r hr => h r (List.mem_append_left _ hr), ?_⟩
      have hcandidates := h round (by simp)
      exact (hcandidates.sublist (List.filter_sublist.map _)).filter _

/-- What a run pays was admitted in some round. -/
theorem verify_of_mem_admittedRounds {rounds : List Round} {r : ExecutionReceipt}
    (hr : r ∈ admittedRounds rounds) :
    ∃ round ∈ rounds, round.signatures.verify r.operatorSignature r.signingPreimage = true := by
  induction rounds using List.reverseRecOn with
  | nil => cases hr
  | append_singleton rounds round ih =>
      rw [admittedRounds_append_singleton, List.mem_append] at hr
      rcases hr with hr | hr
      · obtain ⟨round', hmem, hverify⟩ := ih hr
        exact ⟨round', List.mem_append_left _ hmem, hverify⟩
      · exact ⟨round, by simp, verify_of_isValid (List.mem_filter.mp hr).2⟩

/-- **Every built receipt is paid at most once**: over a run of rounds, whatever receipts are
handed in but no workload twice in one round, the receipts paid with an honest signer are,
but for their signatures, among those built, each as often as it was built at most.  So
whatever a receipt is priced at, the price of those paid is within that of those built. -/
theorem paid_at_most_built (rounds : List Round)
    (hv : ∀ round ∈ rounds, round.signatures.Unforgeable honest history)
    (hids : ∀ b ∈ builtReceipts history, b.NulFree)
    (hcandidates : ∀ round ∈ rounds, (round.candidates.map ExecutionReceipt.workloadId).Nodup) :
    let paid := (admittedRounds rounds).filter fun r => honest r.operatorSignature.signer
    (paid.map ExecutionReceipt.statement).Subperm
        ((builtReceipts history).map ExecutionReceipt.statement) ∧
      ∀ price : ExecutionReceipt → ℕ, (paid.map fun r => price r.statement).sum ≤
        ((builtReceipts history).map fun b => price b.statement).sum := by
  intro paid
  have hnodup : (paid.map ExecutionReceipt.statement).Nodup := by
    have hworkloads := (nodup_admittedRounds hcandidates).sublist
      ((List.filter_sublist (p := fun r => honest r.operatorSignature.signer)).map
        ExecutionReceipt.workloadId)
    apply List.Nodup.of_map ExecutionReceipt.workloadId
    rw [List.map_map]
    exact hworkloads
  have hsubset : paid.map ExecutionReceipt.statement ⊆
      (builtReceipts history).map ExecutionReceipt.statement := by
    intro s hs
    obtain ⟨r, hr, rfl⟩ := List.mem_map.mp hs
    obtain ⟨hmem, hhonest⟩ := List.mem_filter.mp hr
    obtain ⟨round, hround, hverify⟩ := verify_of_mem_admittedRounds hmem
    obtain ⟨b, hb, _, hsame⟩ := built_of_verify (hv round hround) hids hhonest hverify
    rw [← hsame]
    exact List.mem_map_of_mem hb
  have hsubperm := List.subperm_of_subset hnodup hsubset
  refine ⟨hsubperm, fun price => ?_⟩
  obtain ⟨l, hperm, hsublist⟩ := hsubperm
  have hprice := (hsublist.map price).sum_le_sum fun _ _ => Nat.zero_le _
  rw [(hperm.map price).sum_eq, List.map_map, List.map_map] at hprice
  exact hprice

end Admission

/-! ## The walkthrough's operator -/

/-- The call that built the receipt of `op-a`. -/
def ownCall : BuildCall :=
  { signer := { identity := "op-a", alg := "ml-dsa-65", sign := fun _ => "6f70" },
    workloadId := "sha3-256:01", modelIdentity := "sha3-256:02", bytesIn := 512, bytesOut := 2048,
    latencyClass := .interactive, timestampMs := some 1000, now := 0 }

/-- In a world in which that signature is the only one, nothing else verifies. -/
theorem unforgeable_ownCall :
    (exactValidator ownReceipt).signatures.Unforgeable (fun id => id = "op-a") [ownCall] := by
  intro sig msg _ hverify
  have hgenuine := (sound_exactValidator ownReceipt sig msg).mp hverify
  rw [genuineOnly] at hgenuine
  split at hgenuine
  · next h => exact ⟨ownReceipt, List.mem_singleton_self _, Option.some.inj hgenuine, h.2.1.symm⟩
  · cases hgenuine

theorem admitted_authentic_own :
    ownReceipt.operatorIdentity = "op-a" ∧
      ∃ b ∈ builtReceipts [ownCall], b.operatorSignature.signer = "op-a" ∧
        ownReceipt = { b with operatorSignature := ownReceipt.operatorSignature } :=
  admitted_authentic (exactValidator ownReceipt) unforgeable_ownCall (by decide)
    [ownReceipt, forgedReceipt] ownReceipt
    (List.mem_filter.mpr ⟨List.mem_cons_self, isValid_exactValidator ownReceipt⟩) (by decide)

/-- A round that is handed the one receipt. -/
def ownRound : Round where
  signatures := (exactValidator ownReceipt).signatures
  stake := ⟨fun _ _ => true⟩
  manifests := ⟨fun _ => true⟩
  candidates := [ownReceipt]

theorem paid_at_most_built_own :
    let paid := (admittedRounds [ownRound, ownRound]).filter fun r =>
      decide (r.operatorSignature.signer = "op-a")
    (paid.map ExecutionReceipt.statement).Subperm
        ((builtReceipts [ownCall]).map ExecutionReceipt.statement) ∧
      ∀ price : ExecutionReceipt → ℕ, (paid.map fun r => price r.statement).sum ≤
        ((builtReceipts [ownCall]).map fun b => price b.statement).sum :=
  paid_at_most_built [ownRound, ownRound] (by simpa [ownRound] using unforgeable_ownCall)
    (by decide) (by simp [ownRound])

end YeBlock
