import YeBlock.Basic
import YeBlock.Node.Wire

/-!
# Execution receipts: building and validity

A receipt is the unit of payment.  An operator signs one for each inference, and a
settlement client accepts it if four conditions hold, each answered by a resolver
outside this code: the signature verifies, the operator's stake is current, the model
has a live royalty manifest, and the workload is not finalized yet.

The resolvers are parameters of the model.  The verifier answers for the party named
inside the signature, the stake oracle for the operator named in the receipt.  Nothing
compares the two, so an accepted receipt is its operator's exactly when the two fields
agree; `buildReceipt` makes them agree.

## Main definitions

* `ExecutionReceipt.signingPreimage`, `buildReceipt` — what is signed, and by whom.
* `ReceiptValidator.isValid`, `ReceiptValidator.admitReceipts` — the four conditions.
* `isValid_bound_iff` — when an accepted receipt is its operator's.
* `signedBy_of_buildReceipt` — an accepted receipt that was built is its operator's.
-/

namespace YeBlock

/-! ## Receipts -/

inductive LatencyClass
  | interactive
  | batch
  | bulk
  deriving DecidableEq, Repr

/-- The wire name of a latency class. -/
def LatencyClass.value : LatencyClass → String
  | .interactive => "interactive"
  | .batch => "batch"
  | .bulk => "bulk"

/-- A signature that verifies against its own algorithm tag. -/
structure ForwardSecureSignature where
  alg : String
  signer : Identity
  bytesHex : String
  deriving DecidableEq

structure ExecutionReceipt where
  workloadId : ContentId
  modelIdentity : ContentId
  operatorIdentity : Identity
  bytesIn : ℤ
  bytesOut : ℤ
  latencyClass : LatencyClass
  timestampMs : ℤ
  operatorSignature : ForwardSecureSignature
  deriving DecidableEq

/-- The bytes the operator signs: the domain tag and the fields in fixed order,
joined by a zero byte. -/
def ExecutionReceipt.signingPreimage (self : ExecutionReceipt) : Bytes :=
  [0].intercalate
    [ utf8 "yeblock-lim/receipt/v1",
      utf8 self.workloadId,
      utf8 self.modelIdentity,
      utf8 self.operatorIdentity,
      utf8 (toString self.bytesIn),
      utf8 (toString self.bytesOut),
      utf8 self.latencyClass.value,
      utf8 (toString self.timestampMs) ]

/-- The operator's signing backend. -/
structure Signer where
  identity : Identity
  alg : String
  sign : Bytes → String

/-- Assemble and sign a receipt.  `now` is the clock, in milliseconds, read when the
caller gives no timestamp. -/
def buildReceipt (signer : Signer) (workloadId modelIdentity : ContentId) (bytesIn bytesOut : ℤ)
    (latencyClass : LatencyClass) (timestampMs : Option ℤ) (now : ℤ) :
    Except PyError ExecutionReceipt :=
  if bytesIn < 0 ∨ bytesOut < 0 then
    .error (.valueError "byte counts must be non-negative")
  else
    let unsigned : ExecutionReceipt :=
      { workloadId, modelIdentity, operatorIdentity := signer.identity, bytesIn, bytesOut,
        latencyClass, timestampMs := timestampMs.getD now,
        operatorSignature := { alg := signer.alg, signer := signer.identity, bytesHex := "" } }
    let sig := signer.sign unsigned.signingPreimage
    .ok { unsigned with
      operatorSignature := { alg := signer.alg, signer := signer.identity, bytesHex := sig } }

/-! ## Validity -/

structure SignatureVerifier where
  verify : ForwardSecureSignature → Bytes → Bool

structure StakeOracle where
  stakeIsCurrent : Identity → ℤ → Bool

structure ManifestResolver where
  resolvesToLiveManifest : ContentId → Bool

structure FinalizedSet where
  alreadyFinalized : ContentId → Bool

/-- Validity logic over the four resolvers. -/
structure ReceiptValidator where
  signatures : SignatureVerifier
  stake : StakeOracle
  manifests : ManifestResolver
  finalized : FinalizedSet

namespace ReceiptValidator

def isValid (self : ReceiptValidator) (r : ExecutionReceipt) : Bool :=
  self.signatures.verify r.operatorSignature r.signingPreimage &&
    self.stake.stakeIsCurrent r.operatorIdentity r.timestampMs &&
    self.manifests.resolvesToLiveManifest r.modelIdentity &&
    !self.finalized.alreadyFinalized r.workloadId

/-- The source's `admit`: filter a candidate list down to the receipts a bundle may
carry. -/
def admitReceipts (self : ReceiptValidator) (receipts : List ExecutionReceipt) :
    List ExecutionReceipt :=
  receipts.filter self.isValid

end ReceiptValidator

/-! ## Whose receipt it is -/

section Binding
variable (genuineSigner : String → Bytes → String → Option Identity)

/-- The verifier accepts a signature exactly when its bytes were made, under its
algorithm tag and over the message, by the party it names. -/
def SignatureVerifier.Sound (v : SignatureVerifier) : Prop :=
  ∀ sig msg, v.verify sig msg = true ↔ genuineSigner sig.alg msg sig.bytesHex = some sig.signer

/-- The party that made the signature of a receipt over its preimage. -/
def ExecutionReceipt.signedBy (r : ExecutionReceipt) : Option Identity :=
  genuineSigner r.operatorSignature.alg r.signingPreimage r.operatorSignature.bytesHex

variable {genuineSigner}

/-- The four conditions, with the signature condition read off the genuine signer. -/
theorem isValid_iff (v : ReceiptValidator) (hv : v.signatures.Sound genuineSigner)
    (r : ExecutionReceipt) :
    v.isValid r = true ↔
      r.signedBy genuineSigner = some r.operatorSignature.signer ∧
        v.stake.stakeIsCurrent r.operatorIdentity r.timestampMs = true ∧
        v.manifests.resolvesToLiveManifest r.modelIdentity = true ∧
        v.finalized.alreadyFinalized r.workloadId = false := by
  have hverify : v.signatures.verify r.operatorSignature r.signingPreimage = true ↔
      r.signedBy genuineSigner = some r.operatorSignature.signer := hv _ _
  simp only [ReceiptValidator.isValid, Bool.and_eq_true, hverify, Bool.not_eq_true', and_assoc]

/-- **When an accepted receipt is its operator's**: exactly when a receipt that
passes the four checks names its operator as the signer. -/
theorem isValid_bound_iff (v : ReceiptValidator) (hv : v.signatures.Sound genuineSigner)
    (r : ExecutionReceipt) :
    (v.isValid r = true → r.signedBy genuineSigner = some r.operatorIdentity) ↔
      (r.signedBy genuineSigner = some r.operatorSignature.signer →
        v.stake.stakeIsCurrent r.operatorIdentity r.timestampMs = true →
        v.manifests.resolvesToLiveManifest r.modelIdentity = true →
        v.finalized.alreadyFinalized r.workloadId = false →
        r.operatorSignature.signer = r.operatorIdentity) := by
  rw [isValid_iff v hv]
  constructor
  · intro h hsigned hstake hmanifest hfinal
    have hoperator := h ⟨hsigned, hstake, hmanifest, hfinal⟩
    exact Option.some.inj (hsigned.symm.trans hoperator)
  · rintro h ⟨hsigned, hstake, hmanifest, hfinal⟩
    rw [hsigned, h hsigned hstake hmanifest hfinal]

section Built
variable {signer : Signer} {workloadId modelIdentity : ContentId} {bytesIn bytesOut : ℤ}
  {latencyClass : LatencyClass} {timestampMs : Option ℤ} {now : ℤ} {r : ExecutionReceipt}

/-- A built receipt names its operator as the signer. -/
theorem signer_buildReceipt
    (h : buildReceipt signer workloadId modelIdentity bytesIn bytesOut latencyClass timestampMs
      now = .ok r) : r.operatorSignature.signer = r.operatorIdentity := by
  rw [buildReceipt] at h
  split at h
  · cases h
  · cases h
    rfl

/-- A built receipt that is accepted was signed by its operator. -/
theorem signedBy_of_buildReceipt
    (h : buildReceipt signer workloadId modelIdentity bytesIn bytesOut latencyClass timestampMs
      now = .ok r) (v : ReceiptValidator) (hv : v.signatures.Sound genuineSigner)
    (hvalid : v.isValid r = true) : r.signedBy genuineSigner = some r.operatorIdentity := by
  have hsigned := ((isValid_iff v hv r).mp hvalid).1
  rwa [signer_buildReceipt h] at hsigned

end Built

end Binding

/-- A world in which the signature of `r` is the only one ever made. -/
def genuineOnly (r : ExecutionReceipt) (alg : String) (message : Bytes) (bytesHex : String) :
    Option Identity :=
  if alg = r.operatorSignature.alg ∧ message = r.signingPreimage ∧
      bytesHex = r.operatorSignature.bytesHex then
    some r.operatorSignature.signer
  else
    none

/-- A validator for that world, which finds every stake and manifest in order. -/
def exactValidator (r : ExecutionReceipt) : ReceiptValidator where
  signatures := ⟨fun sig msg => genuineOnly r sig.alg msg sig.bytesHex = some sig.signer⟩
  stake := ⟨fun _ _ => true⟩
  manifests := ⟨fun _ => true⟩
  finalized := ⟨fun _ => false⟩

theorem sound_exactValidator (r : ExecutionReceipt) :
    (exactValidator r).signatures.Sound (genuineOnly r) := fun _ _ => decide_eq_true_iff

theorem signedBy_genuineOnly (r : ExecutionReceipt) :
    r.signedBy (genuineOnly r) = some r.operatorSignature.signer := by
  simp [ExecutionReceipt.signedBy, genuineOnly]

theorem isValid_exactValidator (r : ExecutionReceipt) : (exactValidator r).isValid r = true := by
  have hverify :
      (exactValidator r).signatures.verify r.operatorSignature r.signingPreimage = true :=
    (sound_exactValidator r _ _).mpr (signedBy_genuineOnly r)
  rw [ReceiptValidator.isValid, hverify]
  rfl

/-- A receipt that `op-a` signed and that names `op-a`. -/
def ownReceipt : ExecutionReceipt :=
  { workloadId := "sha3-256:01", modelIdentity := "sha3-256:02", operatorIdentity := "op-a",
    bytesIn := 512, bytesOut := 2048, latencyClass := .interactive, timestampMs := 1000,
    operatorSignature := { alg := "ml-dsa-65", signer := "op-a", bytesHex := "6f70" } }

/-- The same receipt, signed by another party under its own name. -/
def forgedReceipt : ExecutionReceipt :=
  { ownReceipt with
    operatorSignature := { alg := "ml-dsa-65", signer := "mallory", bytesHex := "6d61" } }

/-- The operator's own receipt is accepted, and is its own. -/
theorem own_receipt_bound :
    (exactValidator ownReceipt).isValid ownReceipt = true ∧
      ownReceipt.signedBy (genuineOnly ownReceipt) = some "op-a" :=
  ⟨isValid_exactValidator ownReceipt,
    (isValid_bound_iff (exactValidator ownReceipt) (sound_exactValidator ownReceipt)
      ownReceipt).mpr (fun _ _ _ _ => rfl) (isValid_exactValidator ownReceipt)⟩

/-- The forged receipt is accepted in the name of `op-a`, who never signed it. -/
theorem forged_receipt_accepted :
    ¬ ∀ (genuineSigner : String → Bytes → String → Option Identity) (v : ReceiptValidator),
      v.signatures.Sound genuineSigner → ∀ r : ExecutionReceipt,
        v.isValid r = true → r.signedBy genuineSigner = some r.operatorIdentity := by
  intro h
  have hbound := h (genuineOnly forgedReceipt) (exactValidator forgedReceipt)
    (sound_exactValidator forgedReceipt) forgedReceipt (isValid_exactValidator forgedReceipt)
  rw [signedBy_genuineOnly] at hbound
  exact absurd hbound (by decide)

end YeBlock
