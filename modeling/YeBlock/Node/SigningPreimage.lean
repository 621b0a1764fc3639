import YeBlock.Node.Receipts

/-!
# What a receipt's signature commits to

The operator signs the join of the receipt's fields, so the signature commits to
exactly what the join determines.  The byte counts, the latency class and the
timestamp come last and contain no zero byte, so each is determined; the three
identities before them are determined as far as their own join is, and one by one when
none of them contains a zero character.

The algorithm tag is not among the fields.  The documentation demands that it be part
of the signed payload; a receipt with any other tag has the same preimage.

## Main definitions

* `ExecutionReceipt.SameSigned` — agreement on what is signed.
* `signingPreimage_eq_iff` — the preimage determines exactly that.
* `signed_facts_determined` — and every field, for identities without a zero character.
* `alg_committed_iff` — between which receipts the preimage commits to the tag.
-/

namespace YeBlock

open Lib

namespace ExecutionReceipt

/-- The three identities a receipt names, as they are signed. -/
def signedIds (r : ExecutionReceipt) : Bytes :=
  [0].intercalate [utf8 r.workloadId, utf8 r.modelIdentity, utf8 r.operatorIdentity]

/-- Agreement on what is signed: the joined identities and every later field. -/
def SameSigned (r r' : ExecutionReceipt) : Prop :=
  r.signedIds = r'.signedIds ∧ r.bytesIn = r'.bytesIn ∧ r.bytesOut = r'.bytesOut ∧
    r.latencyClass = r'.latencyClass ∧ r.timestampMs = r'.timestampMs

/-- The fields after the identities. -/
def signedTail (r : ExecutionReceipt) : List Bytes :=
  [ utf8 (toString r.bytesIn), utf8 (toString r.bytesOut), utf8 r.latencyClass.value,
    utf8 (toString r.timestampMs) ]

theorem zero_notMem_signedTail (r : ExecutionReceipt) : ∀ x ∈ r.signedTail, 0 ∉ x := by
  have hclass : 0 ∉ utf8 r.latencyClass.value := by
    cases r.latencyClass <;> decide
  simp only [signedTail, List.forall_mem_cons, List.not_mem_nil, false_imp_iff, implies_true,
    and_true]
  exact ⟨zero_notMem_utf8_toString _, zero_notMem_utf8_toString _, hclass,
    zero_notMem_utf8_toString _⟩

theorem value_latencyClass_inj {c c' : LatencyClass} : c.value = c'.value ↔ c = c' := by
  cases c <;> cases c' <;> decide

theorem signedTail_eq_iff (r r' : ExecutionReceipt) :
    r.signedTail = r'.signedTail ↔
      r.bytesIn = r'.bytesIn ∧ r.bytesOut = r'.bytesOut ∧ r.latencyClass = r'.latencyClass ∧
        r.timestampMs = r'.timestampMs := by
  simp only [signedTail, List.cons.injEq, and_true, utf8_inj, toString_int_inj,
    value_latencyClass_inj]

/-- **What the signature commits to**: two receipts have the same preimage exactly
when they agree on what is signed. -/
theorem signingPreimage_eq_iff (r r' : ExecutionReceipt) :
    r.signingPreimage = r'.signingPreimage ↔ r.SameSigned r' := by
  have hsplit : ∀ r : ExecutionReceipt, r.signingPreimage =
      [0].intercalate ([utf8 "yeblock-lim/receipt/v1", utf8 r.workloadId, utf8 r.modelIdentity,
        utf8 r.operatorIdentity] ++ r.signedTail) := fun _ => rfl
  have hids : ∀ r : ExecutionReceipt, [0].intercalate [utf8 "yeblock-lim/receipt/v1",
      utf8 r.workloadId, utf8 r.modelIdentity, utf8 r.operatorIdentity] =
        utf8 "yeblock-lim/receipt/v1" ++ [0] ++ r.signedIds :=
    fun _ => List.intercalate_cons_cons
  have hlen : r.signedTail.length = r'.signedTail.length := rfl
  rw [hsplit r, hsplit r', intercalate_append_inj (by simp) (by simp) hlen
    r.zero_notMem_signedTail r'.zero_notMem_signedTail, hids r, hids r',
    List.append_cancel_left_eq, signedTail_eq_iff]
  rfl

/-- No identity of the receipt contains a zero character. -/
def NulFree (r : ExecutionReceipt) : Prop :=
  ∀ id ∈ [r.workloadId, r.modelIdentity, r.operatorIdentity], '\x00' ∉ id.toList

instance (r : ExecutionReceipt) : Decidable r.NulFree := inferInstanceAs (Decidable (∀ id ∈ _, _))

/-- Identities without the separator are determined by their join. -/
theorem signedIds_inj {r r' : ExecutionReceipt} (h : r.NulFree) (h' : r'.NulFree) :
    r.signedIds = r'.signedIds ↔ r.workloadId = r'.workloadId ∧
      r.modelIdentity = r'.modelIdentity ∧ r.operatorIdentity = r'.operatorIdentity := by
  have hfields : ∀ r : ExecutionReceipt, r.NulFree →
      ∀ x ∈ [utf8 r.workloadId, utf8 r.modelIdentity, utf8 r.operatorIdentity], 0 ∉ x := by
    intro r hr
    rw [← List.map_singleton, ← List.map_cons, ← List.map_cons, List.forall_mem_map]
    intro id hid
    rw [zero_mem_utf8_iff]
    exact hr id hid
  rw [signedIds, signedIds, intercalate_inj (by simp) (by simp) (hfields r h) (hfields r' h')]
  simp only [List.cons.injEq, and_true, utf8_inj]

/-- **The preimage determines the signed facts**: receipts whose identities contain no
zero character and that have the same preimage agree on every signed field. -/
theorem signed_facts_determined {r r' : ExecutionReceipt} (h : r.NulFree) (h' : r'.NulFree)
    (heq : r.signingPreimage = r'.signingPreimage) :
    r.workloadId = r'.workloadId ∧ r.modelIdentity = r'.modelIdentity ∧
      r.operatorIdentity = r'.operatorIdentity ∧ r.bytesIn = r'.bytesIn ∧
      r.bytesOut = r'.bytesOut ∧ r.latencyClass = r'.latencyClass ∧
      r.timestampMs = r'.timestampMs := by
  obtain ⟨hids, htail⟩ := (signingPreimage_eq_iff r r').mp heq
  obtain ⟨hworkload, hmodel, hoperator⟩ := (signedIds_inj h h').mp hids
  exact ⟨hworkload, hmodel, hoperator, htail⟩

/-- The receipt under another algorithm tag. -/
def retag (r : ExecutionReceipt) (alg : String) : ExecutionReceipt :=
  { r with operatorSignature := { r.operatorSignature with alg } }

/-- The preimage does not see the tag. -/
theorem signingPreimage_retag (r : ExecutionReceipt) (alg : String) :
    (r.retag alg).signingPreimage = r.signingPreimage := rfl

/-- A receipt and its copy under another tag agree on the signed facts. -/
theorem signed_facts_retag :
    let r' := ownReceipt.retag "ed25519"
    ownReceipt.workloadId = r'.workloadId ∧ ownReceipt.modelIdentity = r'.modelIdentity ∧
      ownReceipt.operatorIdentity = r'.operatorIdentity ∧ ownReceipt.bytesIn = r'.bytesIn ∧
      ownReceipt.bytesOut = r'.bytesOut ∧ ownReceipt.latencyClass = r'.latencyClass ∧
      ownReceipt.timestampMs = r'.timestampMs :=
  signed_facts_determined (by decide) (by decide) (signingPreimage_retag _ _).symm

/-- **When the preimage commits to the tag**: exactly between receipts that do not
agree on everything signed, unless they carry the same tag. -/
theorem alg_committed_iff (r r' : ExecutionReceipt) :
    (r.signingPreimage = r'.signingPreimage →
        r.operatorSignature.alg = r'.operatorSignature.alg) ↔
      (¬ r.SameSigned r' ∨ r.operatorSignature.alg = r'.operatorSignature.alg) := by
  rw [signingPreimage_eq_iff, imp_iff_not_or]

/-- A built receipt and its downgraded copy have the same preimage. -/
theorem downgraded_receipt_collides :
    ¬ ∀ r r' : ExecutionReceipt, r.signingPreimage = r'.signingPreimage →
      r.operatorSignature.alg = r'.operatorSignature.alg := by
  intro h
  have hcollide := h ownReceipt (ownReceipt.retag "ed25519") (signingPreimage_retag _ _).symm
  exact absurd hcollide (by decide)

end ExecutionReceipt
end YeBlock
