import Mathlib.Data.Finset.Insert
import YeBlock.Basic
import YeBlock.Lib.Dict
import YeBlock.Lib.KeyDerivation
import YeBlock.Lib.Sha3Eval
import YeBlock.Node.Wire

/-!
# Hybrid key establishment

A channel's session key comes from two key encapsulations, a classical and a post-quantum
one: their secrets, one after the other, and the handshake's transcript go through a
two-stage key derivation over HMAC-SHA3-256.  The two primitives are supplied by a backend
and are parameters of the model; the randomness that a backend draws is an argument.

Neither the concatenation of the secrets nor the transcript carries a length, so a key
determines the secrets as one string.  Handshakes with the same classical secret have the
same key exactly when they have the same post-quantum secret and the same transcript.

HMAC fills a short key up with zeros, so it is not injective in keys of any length, and
what is assumed of it is assumed on the inputs of the handshakes at hand.

## Main definitions

* `Kem`, `HybridKem`, `HybridKem.encapsulate`, `HybridKem.decapsulate` — the source's.
* `combine`, `combine_eq_iff` — the session key, and what it determines.
* `KeysSeparate`, `keysSeparate_of_sha3` — what is assumed of HMAC, and when SHA3-256 gives it.
* `Kem.Opens` — what is assumed of the backends.
* `Handshake`, `exists_handshake` — what an initiator ran.
* `channel_agreement_and_separation` — when both sides, and two handshakes, share a key.
-/

namespace YeBlock

open Lib

def defaultKemTag : String := "x25519+ml-kem-768"

/-- The recognized tags. -/
def hybridTags : Finset String := {"x25519+ml-kem-768"}

def classicalHalf : Dict String String where
  items := [("x25519+ml-kem-768", "x25519")]
  nodup_keys := by decide

def pqHalf : Dict String String where
  items := [("x25519+ml-kem-768", "ml-kem-768")]
  nodup_keys := by decide

theorem defaultKemTag_mem : defaultKemTag ∈ hybridTags := by decide

/-- The halves of a recognized tag are always found. -/
theorem halves_of_mem_hybridTags : ∀ tag ∈ hybridTags,
    classicalHalf.get? tag ≠ none ∧ pqHalf.get? tag ≠ none := by decide

/-- One leg of a hybrid encapsulation. -/
structure KemShare where
  ciphertext : Bytes
  sharedSecret : Bytes
  deriving DecidableEq

/-- A single primitive, classical or post-quantum.  Encapsulating draws randomness, its
first argument here; either operation may raise. -/
structure Kem where
  tag : String
  encapsulate : Bytes → Bytes → Except PyError KemShare
  decapsulate : Bytes → Bytes → Except PyError Bytes

/-- The wire object an initiator sends. -/
structure HybridEncapsulation where
  kem : String
  classicalCt : Bytes
  pqCt : Bytes
  deriving DecidableEq

/-! ## The session key -/

/-- `hmac.new(key, msg, hashlib.sha3_256).digest()`; the hash takes blocks of 136 bytes. -/
def hmacSha3_256 (key msg : Bytes) : Bytes := hmac sha3_256 136 key msg

/-- The label of the first stage. -/
def hybridKemLabel : Bytes := utf8 "yeblock-lim/hybrid-kem/v1"

/-- Combine two shared secrets into one session key. -/
def combine (classicalSecret pqSecret transcript : Bytes) : Bytes :=
  let ikm := classicalSecret ++ pqSecret
  let prk := hmacSha3_256 hybridKemLabel ikm
  hmacSha3_256 prk (transcript ++ [0x01])

theorem combine_eq (classicalSecret pqSecret transcript : Bytes) :
    combine classicalSecret pqSecret transcript =
      extractExpand hmacSha3_256 hybridKemLabel (classicalSecret ++ pqSecret) transcript := rfl

/-- HMAC does not confuse the inputs of two session keys. -/
def KeysSeparate (ikm transcript ikm' transcript' : Bytes) : Prop :=
  DerivationsSeparate hmacSha3_256 hybridKemLabel ikm transcript ikm' transcript'

/-- **What a session key determines**: the secrets, joined, and the transcript. -/
theorem combine_eq_iff {cs qs t cs' qs' t' : Bytes}
    (h : KeysSeparate (cs ++ qs) t (cs' ++ qs') t') :
    combine cs qs t = combine cs' qs' t' ↔ cs ++ qs = cs' ++ qs' ∧ t = t' := by
  rw [combine_eq, combine_eq]
  exact extractExpand_eq_iff h

/-- The same secrets under two transcripts, when the keys differ. -/
theorem keysSeparate_of_combine_ne {cs qs t t' : Bytes} (h : combine cs qs t ≠ combine cs qs t') :
    KeysSeparate (cs ++ qs) t (cs ++ qs) t' where
  extract := by simp
  expand := by
    rw [Set.injOn_pair]
    intro heq
    exact absurd heq h

/-- A short key and the same key with a zero more are one key to HMAC. -/
theorem hmacSha3_256_append_zero {key : Bytes} (h : key.length < 136) (msg : Bytes) :
    hmacSha3_256 (key ++ [0]) msg = hmacSha3_256 key msg := by
  have hblock : keyBlock sha3_256 136 (key ++ [0]) = keyBlock sha3_256 136 key := by
    obtain ⟨n, hn⟩ : ∃ n, 136 - key.length = n + 1 := Nat.exists_eq_succ_of_ne_zero (by omega)
    have hlong : (key ++ [0]).length ≤ 136 := by simpa using h
    have hrest : 136 - (key ++ [0]).length = n := by
      rw [List.length_append, List.length_singleton]
      omega
    rw [keyBlock_of_length_le hlong, keyBlock_of_length_le h.le, hn, hrest, List.replicate_succ,
      List.append_assoc, List.singleton_append]
  simp only [hmacSha3_256, hmac, hmacOuter, hmacInner, maskedKey, hblock]

/-- **HMAC does not confuse two session keys' inputs where SHA3-256 does not**: the label is
one key, and the extracted keys are digests. -/
theorem keysSeparate_of_sha3 {ikm t ikm' t' : Bytes}
    (hextract : HashesSeparate sha3_256 136 hybridKemLabel ikm hybridKemLabel ikm')
    (hexpand : HashesSeparate sha3_256 136 (hmacSha3_256 hybridKemLabel ikm) (t ++ [0x01])
      (hmacSha3_256 hybridKemLabel ikm') (t' ++ [0x01])) : KeysSeparate ikm t ikm' t' := by
  have hlabel : hybridKemLabel.length ≤ 136 := by decide +kernel
  have hdigest : ∀ ikm, (hmacSha3_256 hybridKemLabel ikm).length = 32 := fun _ =>
    length_sha3_256 _
  have hfits : ∀ ikm, (hmacSha3_256 hybridKemLabel ikm).length ≤ 136 := by
    intro ikm
    rw [hdigest]
    decide
  constructor
  case extract => exact hmac_injOn hlabel hlabel rfl hextract
  case expand =>
    exact hmac_injOn (hfits ikm) (hfits ikm') ((hdigest ikm).trans (hdigest ikm').symm) hexpand

/-! ## The hybrid -/

/-- A classical and a post-quantum primitive under a recognized tag whose halves they are. -/
structure HybridKem where
  classical : Kem
  pq : Kem
  tag : String
  tag_mem : tag ∈ hybridTags
  classical_tag : classicalHalf.get? tag = some classical.tag
  pq_tag : pqHalf.get? tag = some pq.tag

namespace HybridKem

/-- The constructor's checks. -/
def new (classical postQuantum : Kem) (tag : String := defaultKemTag) :
    Except PyError HybridKem :=
  if htag : tag ∈ hybridTags then
    if hhalves : classicalHalf.get? tag = some classical.tag ∧
        pqHalf.get? tag = some postQuantum.tag then
      .ok
        { classical, pq := postQuantum, tag, tag_mem := htag, classical_tag := hhalves.1
          pq_tag := hhalves.2 }
    else
      .error (.valueError s!"backend KEMs do not match hybrid tag {pyRepr tag}")
  else
    .error (.valueError s!"unsupported hybrid KEM tag: {pyRepr tag}")

/-- The constructor accepts every hybrid. -/
theorem new_eq (self : HybridKem) : new self.classical self.pq self.tag = .ok self := by
  rw [new, dif_pos self.tag_mem, dif_pos ⟨self.classical_tag, self.pq_tag⟩]

/-- Initiator side: produce the wire encapsulation and the derived session key. -/
def encapsulate (self : HybridKem)
    (classicalCoins pqCoins recipientClassicalPk recipientPqPk transcript : Bytes) :
    Except PyError (HybridEncapsulation × Bytes) := do
  let c ← self.classical.encapsulate classicalCoins recipientClassicalPk
  let q ← self.pq.encapsulate pqCoins recipientPqPk
  let sessionKey := combine c.sharedSecret q.sharedSecret transcript
  return ({ kem := self.tag, classicalCt := c.ciphertext, pqCt := q.ciphertext }, sessionKey)

/-- Recipient side: recover the same session key from the encapsulation. -/
def decapsulate (self : HybridKem) (enc : HybridEncapsulation)
    (classicalSk pqSk transcript : Bytes) : Except PyError Bytes := do
  if enc.kem ≠ self.tag then
    throw (.valueError s!"KEM tag mismatch: offer={pyRepr enc.kem} self={pyRepr self.tag}")
  let classicalSecret ← self.classical.decapsulate enc.classicalCt classicalSk
  let pqSecret ← self.pq.decapsulate enc.pqCt pqSk
  return combine classicalSecret pqSecret transcript

/-- What an encapsulation that does not raise returns. -/
theorem encapsulate_eq_ok_iff (self : HybridKem)
    (classicalCoins pqCoins recipientClassicalPk recipientPqPk transcript : Bytes)
    (enc : HybridEncapsulation) (sessionKey : Bytes) :
    self.encapsulate classicalCoins pqCoins recipientClassicalPk recipientPqPk transcript =
        .ok (enc, sessionKey) ↔
      ∃ c q, self.classical.encapsulate classicalCoins recipientClassicalPk = .ok c ∧
        self.pq.encapsulate pqCoins recipientPqPk = .ok q ∧
        enc = { kem := self.tag, classicalCt := c.ciphertext, pqCt := q.ciphertext } ∧
        sessionKey = combine c.sharedSecret q.sharedSecret transcript := by
  rw [encapsulate]
  cases self.classical.encapsulate classicalCoins recipientClassicalPk with
  | error e => simp [bind, Except.bind]
  | ok c =>
      cases self.pq.encapsulate pqCoins recipientPqPk with
      | error e => simp [bind, Except.bind]
      | ok q => simp [bind, Except.bind, pure, Except.pure, eq_comm]

/-- What a decapsulation returns, from what the two primitives return. -/
theorem decapsulate_eq {self : HybridKem} {enc : HybridEncapsulation} (htag : enc.kem = self.tag)
    {classicalSk pqSk classicalSecret pqSecret : Bytes}
    (hclassical : self.classical.decapsulate enc.classicalCt classicalSk = .ok classicalSecret)
    (hpq : self.pq.decapsulate enc.pqCt pqSk = .ok pqSecret) (transcript : Bytes) :
    self.decapsulate enc classicalSk pqSk transcript =
      .ok (combine classicalSecret pqSecret transcript) := by
  rw [decapsulate, if_neg (not_not_intro htag), hclassical, hpq]
  rfl

end HybridKem

/-! ## Handshakes -/

/-- The secret key opens what `sender` encapsulates to the public key: whatever was drawn,
decapsulating the ciphertext gives the secret that encapsulating gave.  A key pair of one
backend is the case in which it is both. -/
def Kem.Opens (receiver sender : Kem) (recipientPublicKey recipientSecretKey : Bytes) : Prop :=
  ∀ coins share, sender.encapsulate coins recipientPublicKey = .ok share →
    receiver.decapsulate share.ciphertext recipientSecretKey = .ok share.sharedSecret

/-- What an initiator ran: its hybrid, what was drawn, the recipient's public keys and the
transcript, the two legs, and what `encapsulate` returned. -/
structure Handshake where
  kem : HybridKem
  classicalCoins : Bytes
  pqCoins : Bytes
  recipientClassicalPk : Bytes
  recipientPqPk : Bytes
  transcript : Bytes
  classicalShare : KemShare
  pqShare : KemShare
  enc : HybridEncapsulation
  sessionKey : Bytes
  classical_eq : kem.classical.encapsulate classicalCoins recipientClassicalPk = .ok classicalShare
  pq_eq : kem.pq.encapsulate pqCoins recipientPqPk = .ok pqShare
  run_eq : kem.encapsulate classicalCoins pqCoins recipientClassicalPk recipientPqPk transcript =
    .ok (enc, sessionKey)

/-- Every encapsulation that does not raise is a handshake. -/
theorem exists_handshake {kem : HybridKem}
    {classicalCoins pqCoins recipientClassicalPk recipientPqPk transcript : Bytes}
    {enc : HybridEncapsulation} {sessionKey : Bytes}
    (hrun : kem.encapsulate classicalCoins pqCoins recipientClassicalPk recipientPqPk transcript =
      .ok (enc, sessionKey)) :
    ∃ h : Handshake, h.kem = kem ∧ h.recipientClassicalPk = recipientClassicalPk ∧
      h.recipientPqPk = recipientPqPk ∧ h.transcript = transcript ∧ h.enc = enc ∧
      h.sessionKey = sessionKey := by
  obtain ⟨c, q, hc, hq, -, -⟩ := (kem.encapsulate_eq_ok_iff _ _ _ _ _ _ _).mp hrun
  exact ⟨⟨kem, classicalCoins, pqCoins, recipientClassicalPk, recipientPqPk, transcript, c, q, enc,
    sessionKey, hc, hq, hrun⟩, rfl, rfl, rfl, rfl, rfl, rfl⟩

namespace Handshake

/-- The two secrets, joined. -/
def ikm (h : Handshake) : Bytes := h.classicalShare.sharedSecret ++ h.pqShare.sharedSecret

/-- What is sent, and the key, from the two legs. -/
theorem enc_sessionKey_eq (h : Handshake) :
    h.enc = ⟨h.kem.tag, h.classicalShare.ciphertext, h.pqShare.ciphertext⟩ ∧
      h.sessionKey =
        combine h.classicalShare.sharedSecret h.pqShare.sharedSecret h.transcript := by
  obtain ⟨c, q, hc, hq, henc, hkey⟩ := (h.kem.encapsulate_eq_ok_iff _ _ _ _ _ _ _).mp h.run_eq
  rw [h.classical_eq, Except.ok.injEq] at hc
  rw [h.pq_eq, Except.ok.injEq] at hq
  subst hc hq
  exact ⟨henc, hkey⟩

/-- What a recipient of the same tag with the right keys returns. -/
theorem decapsulate_eq (h : Handshake) {receiver : HybridKem} (htag : receiver.tag = h.kem.tag)
    {classicalSk pqSk : Bytes}
    (hclassical : receiver.classical.Opens h.kem.classical h.recipientClassicalPk classicalSk)
    (hpq : receiver.pq.Opens h.kem.pq h.recipientPqPk pqSk) (transcript : Bytes) :
    receiver.decapsulate h.enc classicalSk pqSk transcript =
      .ok (combine h.classicalShare.sharedSecret h.pqShare.sharedSecret transcript) := by
  rw [h.enc_sessionKey_eq.1]
  exact HybridKem.decapsulate_eq htag.symm (hclassical _ _ h.classical_eq) (hpq _ _ h.pq_eq) _

end Handshake

/-- **Agreement and separation**: a recipient of the same tag with the right keys recovers
the initiator's session key exactly when the transcripts are the same, and two handshakes
with the same classical secret have the same session key exactly when their post-quantum
secrets and their transcripts are the same. -/
theorem channel_agreement_and_separation (h : Handshake) {receiver : HybridKem}
    (htag : receiver.tag = h.kem.tag) {classicalSk pqSk : Bytes}
    (hclassical : receiver.classical.Opens h.kem.classical h.recipientClassicalPk classicalSk)
    (hpq : receiver.pq.Opens h.kem.pq h.recipientPqPk pqSk) {t' : Bytes}
    (hown : KeysSeparate h.ikm h.transcript h.ikm t') {h' : Handshake}
    (hsecret : h.classicalShare.sharedSecret = h'.classicalShare.sharedSecret)
    (hother : KeysSeparate h.ikm h.transcript h'.ikm h'.transcript) :
    (receiver.decapsulate h.enc classicalSk pqSk t' = .ok h.sessionKey ↔ h.transcript = t') ∧
      (h.sessionKey = h'.sessionKey ↔
        h.pqShare.sharedSecret = h'.pqShare.sharedSecret ∧ h.transcript = h'.transcript) := by
  constructor
  · rw [h.decapsulate_eq htag hclassical hpq, h.enc_sessionKey_eq.2, Except.ok.injEq, eq_comm,
      combine_eq_iff hown, and_iff_right rfl]
  · rw [h.enc_sessionKey_eq.2, h'.enc_sessionKey_eq.2, combine_eq_iff hother, hsecret,
      List.append_cancel_left_eq]

/-- A backend whose ciphertext is the key and the secret drawn, one after the other. -/
def prefixKem (tag : String) : Kem where
  tag
  encapsulate coins recipientPk := .ok { ciphertext := recipientPk ++ coins, sharedSecret := coins }
  decapsulate ciphertext secretKey := .ok (ciphertext.drop secretKey.length)

theorem prefixKem_opens (tag : String) (key : Bytes) :
    (prefixKem tag).Opens (prefixKem tag) key key := by
  intro coins share h
  cases h
  simp [prefixKem]

/-- Both primitives from that backend. -/
def prefixHybrid : HybridKem where
  classical := prefixKem "x25519"
  pq := prefixKem "ml-kem-768"
  tag := defaultKemTag
  tag_mem := by decide
  classical_tag := by decide
  pq_tag := by decide

/-- A handshake with the owner of the two keys, the secrets drawn being `[7]` and `[8]`. -/
def prefixHandshake (classicalKey pqKey transcript : Bytes) : Handshake where
  kem := prefixHybrid
  classicalCoins := [7]
  pqCoins := [8]
  recipientClassicalPk := classicalKey
  recipientPqPk := pqKey
  transcript
  classicalShare := { ciphertext := classicalKey ++ [7], sharedSecret := [7] }
  pqShare := { ciphertext := pqKey ++ [8], sharedSecret := [8] }
  enc := { kem := defaultKemTag, classicalCt := classicalKey ++ [7], pqCt := pqKey ++ [8] }
  sessionKey := combine [7] [8] transcript
  classical_eq := rfl
  pq_eq := rfl
  run_eq := rfl

theorem keysSeparate_prefix : KeysSeparate ([7] ++ [8]) [3] ([7] ++ [8]) [4] := by
  apply keysSeparate_of_combine_ne
  simp only [combine, hmacSha3_256, sha3_256_eq_eval]
  decide +kernel

/-- Under another transcript neither the recipient nor another handshake has the key. -/
theorem channel_agreement_and_separation_prefix :
    prefixHybrid.decapsulate (prefixHandshake [1] [2] [3]).enc [1] [2] [4] ≠
        .ok (prefixHandshake [1] [2] [3]).sessionKey ∧
      (prefixHandshake [1] [2] [3]).sessionKey ≠ (prefixHandshake [5] [6] [4]).sessionKey := by
  have htag : prefixHybrid.tag = (prefixHandshake [1] [2] [3]).kem.tag := rfl
  have hsecret : (prefixHandshake [1] [2] [3]).classicalShare.sharedSecret =
      (prefixHandshake [5] [6] [4]).classicalShare.sharedSecret := rfl
  obtain ⟨hown, hkeys⟩ := channel_agreement_and_separation (prefixHandshake [1] [2] [3])
    htag (prefixKem_opens _ [1]) (prefixKem_opens _ [2]) keysSeparate_prefix hsecret
    keysSeparate_prefix
  constructor
  · rw [Ne, hown]
    decide
  · rw [Ne, hkeys]
    decide

end YeBlock
