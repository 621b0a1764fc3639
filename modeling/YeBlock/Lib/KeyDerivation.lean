import Mathlib.Data.Set.Function
import Mathlib.Data.List.Basic

/-!
# Keyed hashes and key derivation

HMAC turns a hash into a keyed hash: the key, filled up with zeros to a block, goes before
the message under one mask, and the digest is hashed again behind the key under another.
Because of the zeros it is not injective in keys of any length, but on keys of one length
that fit in a block it confuses nothing that the hash does not confuse.

Keys are derived in two stages: one keyed hash of the secret under a fixed label, and one of
the context under the result.  The derived key determines the secret and the context as far
as the keyed hash is injective on the inputs that it was given.

## Main definitions

* `hmac hash blockSize key msg` — the keyed hash; `hmac_injOn` — on what it is injective.
* `extractExpand mac label secret context` — the derived key.
* `DerivationsSeparate` — the keyed hash is injective on the inputs of two derivations.
* `extractExpand_eq_iff` — the derived key determines what it was derived from.
-/

namespace Lib

/-! ## HMAC -/

section Hmac
variable (hash : List UInt8 → List UInt8) (blockSize : ℕ)

/-- The key as a block: a longer key is hashed, and zeros fill the block. -/
def keyBlock (key : List UInt8) : List UInt8 :=
  let short := if blockSize < key.length then hash key else key
  short ++ List.replicate (blockSize - short.length) 0

/-- The key under a mask. -/
def maskedKey (mask : UInt8) (key : List UInt8) : List UInt8 :=
  (keyBlock hash blockSize key).map (· ^^^ mask)

/-- What is hashed first. -/
def hmacInner (key msg : List UInt8) : List UInt8 := maskedKey hash blockSize 0x36 key ++ msg

/-- What is hashed last. -/
def hmacOuter (key msg : List UInt8) : List UInt8 :=
  maskedKey hash blockSize 0x5c key ++ hash (hmacInner hash blockSize key msg)

/-- HMAC. -/
def hmac (key msg : List UInt8) : List UInt8 := hash (hmacOuter hash blockSize key msg)

/-- The hash is injective on what HMAC gives to it for two keys and messages. -/
structure HashesSeparate (key msg key' msg' : List UInt8) : Prop where
  inner : Set.InjOn hash {hmacInner hash blockSize key msg, hmacInner hash blockSize key' msg'}
  outer : Set.InjOn hash {hmacOuter hash blockSize key msg, hmacOuter hash blockSize key' msg'}

variable {hash blockSize} {key key' : List UInt8}

theorem keyBlock_of_length_le (h : key.length ≤ blockSize) :
    keyBlock hash blockSize key = key ++ List.replicate (blockSize - key.length) 0 := by
  rw [keyBlock, if_neg h.not_gt]

@[simp] theorem length_maskedKey (h : key.length ≤ blockSize) (mask : UInt8) :
    (maskedKey hash blockSize mask key).length = blockSize := by
  rw [maskedKey, keyBlock_of_length_le h]
  simp [h]

section Short
variable (h : key.length ≤ blockSize) (h' : key'.length ≤ blockSize)
include h h'

/-- A mask changes nothing in what the key determines. -/
theorem maskedKey_inj (hlen : key.length = key'.length) (mask : UInt8) :
    maskedKey hash blockSize mask key = maskedKey hash blockSize mask key' ↔ key = key' := by
  have hmask : Function.Injective fun b : UInt8 => b ^^^ mask := by
    refine Function.Involutive.injective fun b => ?_
    rw [UInt8.xor_assoc, UInt8.xor_self, UInt8.xor_zero]
  rw [maskedKey, maskedKey, List.map_inj_right fun _ _ heq => hmask heq, keyBlock_of_length_le h,
    keyBlock_of_length_le h', hlen, List.append_left_inj]

/-- **HMAC is injective where the hash is**, on keys of one length that fit in a block. -/
theorem hmac_injOn (hlen : key.length = key'.length) {msg msg' : List UInt8}
    (hhash : HashesSeparate hash blockSize key msg key' msg') :
    Set.InjOn (Function.uncurry (hmac hash blockSize)) {(key, msg), (key', msg')} := by
  have hinner := Set.injOn_pair.mp hhash.inner
  have houter := Set.injOn_pair.mp hhash.outer
  rw [Set.injOn_pair]
  have hlength : ∀ mask, (maskedKey hash blockSize mask key).length =
      (maskedKey hash blockSize mask key').length := by
    intro mask
    rw [length_maskedKey h, length_maskedKey h']
  intro heq
  obtain ⟨hkeys, hdigests⟩ := List.append_inj (houter heq) (hlength 0x5c)
  obtain ⟨_, hmsgs⟩ := List.append_inj (hinner hdigests) (hlength 0x36)
  exact Prod.ext ((maskedKey_inj h h' hlen 0x5c).mp hkeys) hmsgs

end Short

end Hmac

/-! ## Two stages -/

section Derivation
variable (mac : List UInt8 → List UInt8 → List UInt8) (label : List UInt8)

/-- Extract a key from the secret under the label, and expand it with the context. -/
def extractExpand (secret context : List UInt8) : List UInt8 :=
  mac (mac label secret) (context ++ [0x01])

/-- The keyed hash is injective on what two derivations give to it, stage by stage. -/
structure DerivationsSeparate (secret context secret' context' : List UInt8) : Prop where
  extract : Set.InjOn (Function.uncurry mac) {(label, secret), (label, secret')}
  expand : Set.InjOn (Function.uncurry mac)
    {(mac label secret, context ++ [0x01]), (mac label secret', context' ++ [0x01])}

variable {mac label} {secret context secret' context' : List UInt8}

/-- **A derived key determines the secret and the context.** -/
theorem extractExpand_eq_iff (h : DerivationsSeparate mac label secret context secret' context') :
    extractExpand mac label secret context = extractExpand mac label secret' context' ↔
      secret = secret' ∧ context = context' := by
  constructor
  · intro heq
    obtain ⟨hextracted, hcontext⟩ := Prod.mk.inj (Set.injOn_pair.mp h.expand heq)
    obtain ⟨_, hsecret⟩ := Prod.mk.inj (Set.injOn_pair.mp h.extract hextracted)
    exact ⟨hsecret, List.append_cancel_right hcontext⟩
  · rintro ⟨rfl, rfl⟩
    rfl

end Derivation

end Lib
