import Mathlib.Data.List.Induction

/-!
# SHA3-256

The hash as a function on byte strings: a state is the list of its 25 lanes, lane `(x, y)`
at position `x + 5 * y`, and a round is the five step maps one after the other.  The message
is padded to whole blocks, every block is added to the state and the state is permuted, and
the digest is the first four lanes.

## Main definitions

* `Keccak.permute` — the permutation of the state, 24 rounds of it.
* `Keccak.pad`, `Keccak.blocks` — the message as blocks of the rate.
* `sha3_256` — the hash; `length_sha3_256` — its digests have 32 bytes.
-/

namespace Lib
namespace Keccak

/-- Eight bytes of the state. -/
abbrev Lane := BitVec 64

/-- The 25 lanes. -/
abbrev State := List Lane

/-! ## The permutation -/

/-- Lane `(x, y)`, both coordinates taken modulo 5. -/
def lane (s : State) (x y : ℕ) : Lane := s.getD (x % 5 + 5 * (y % 5)) 0

/-- The state with the given lanes. -/
def tabulate (f : ℕ → ℕ → Lane) : State := (List.range 25).map fun i => f (i % 5) (i / 5)

@[simp] theorem length_tabulate (f : ℕ → ℕ → Lane) : (tabulate f).length = 25 := by
  simp [tabulate]

/-- The parity of a column. -/
def parity (s : State) (x : ℕ) : Lane :=
  lane s x 0 ^^^ lane s x 1 ^^^ lane s x 2 ^^^ lane s x 3 ^^^ lane s x 4

/-- Add to every lane the parities of the column before it and, rotated, of the one after. -/
def theta (s : State) : State :=
  tabulate fun x y => lane s x y ^^^ parity s (x + 4) ^^^ (parity s (x + 1)).rotateLeft 1

/-- By how much each lane is rotated. -/
def rotations : List ℕ :=
  [ 0,  1, 62, 28, 27,
   36, 44,  6, 55, 20,
    3, 10, 43, 25, 39,
   41, 45, 15, 21,  8,
   18,  2, 61, 56, 14]

/-- Rotate every lane. -/
def rho (s : State) : State := List.zipWith BitVec.rotateLeft s rotations

/-- Move the lanes. -/
def pi (s : State) : State := tabulate fun x y => lane s (x + 3 * y) x

/-- Combine every lane with the next two of its row. -/
def chi (s : State) : State :=
  tabulate fun x y => lane s x y ^^^ (~~~ lane s (x + 1) y &&& lane s (x + 2) y)

/-- Add the constant of the round to the first lane. -/
def iota (rc : Lane) (s : State) : State := s.modifyHead fun w => w ^^^ rc

/-- The constants, one a round. -/
def roundConstants : List Lane :=
  [0x0000000000000001, 0x0000000000008082, 0x800000000000808A, 0x8000000080008000,
   0x000000000000808B, 0x0000000080000001, 0x8000000080008081, 0x8000000000008009,
   0x000000000000008A, 0x0000000000000088, 0x0000000080008009, 0x000000008000000A,
   0x000000008000808B, 0x800000000000008B, 0x8000000000008089, 0x8000000000008003,
   0x8000000000008002, 0x8000000000000080, 0x000000000000800A, 0x800000008000000A,
   0x8000000080008081, 0x8000000000008080, 0x0000000080000001, 0x8000000080008008]

/-- One round. -/
def round (s : State) (rc : Lane) : State := iota rc (chi (pi (rho (theta s))))

@[simp] theorem length_round (s : State) (rc : Lane) : (round s rc).length = 25 := by
  simp [round, iota, chi]

/-- The permutation of the state. -/
def permute (s : State) : State := roundConstants.foldl round s

/-- Whatever it is given, the last round returns a whole state. -/
@[simp] theorem length_permute (s : State) : (permute s).length = 25 := by
  rw [permute, roundConstants]
  simp only [List.foldl_cons, List.foldl_nil, length_round]

/-! ## Absorbing a message -/

/-- Eight bytes as a lane, the first one lowest. -/
def laneOfBytes (bs : List UInt8) : Lane :=
  bs.foldr (fun b w => w <<< 8 ||| b.toBitVec.setWidth 64) 0

/-- The bytes of a lane, the lowest one first. -/
def bytesOfLane (w : Lane) : List UInt8 :=
  (List.range 8).map fun i => ⟨(w >>> (8 * i)).setWidth 8⟩

@[simp] theorem length_bytesOfLane (w : Lane) : (bytesOfLane w).length = 8 := by
  simp [bytesOfLane]

/-- How many bytes a block has: the state less twice the digest. -/
def rate : ℕ := 136

/-- The message up to the next whole block: a suffix, zeros, and a last bit. -/
def pad (data : List UInt8) : List UInt8 :=
  let room := rate - data.length % rate
  if room = 1 then data ++ [0x86]
  else data ++ 0x06 :: List.replicate (room - 2) 0 ++ [0x80]

/-- The blocks of a padded message. -/
def blocks (bs : List UInt8) : List (List UInt8) :=
  (List.range (bs.length / rate)).map fun i => (bs.drop (rate * i)).take rate

/-- A block as a state; past its end the lanes are zero. -/
def stateOfBlock (bs : List UInt8) : State :=
  (List.range 25).map fun i => laneOfBytes ((bs.drop (8 * i)).take 8)

/-- Add a block to the state and permute it. -/
def absorb (s : State) (bs : List UInt8) : State :=
  permute (List.zipWith (fun w v => w ^^^ v) s (stateOfBlock bs))

/-- The state after a message. -/
def sponge (data : List UInt8) : State := (blocks (pad data)).foldl absorb (List.replicate 25 0)

theorem length_sponge (data : List UInt8) : (sponge data).length = 25 := by
  rw [sponge]
  induction blocks (pad data) using List.reverseRecOn with
  | nil => simp
  | append_singleton bs b _ => simp [absorb]

end Keccak

open Keccak

/-- SHA3-256: the first four lanes of the state after the message. -/
def sha3_256 (data : List UInt8) : List UInt8 := ((sponge data).take 4).flatMap bytesOfLane

/-- A digest has 32 bytes. -/
@[simp] theorem length_sha3_256 (data : List UInt8) : (sha3_256 data).length = 32 := by
  rw [sha3_256, List.length_flatMap]
  simp only [length_bytesOfLane, List.map_const', List.length_take, length_sponge,
    List.sum_replicate_nat]
  rfl

end Lib
