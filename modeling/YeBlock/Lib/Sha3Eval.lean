import Mathlib.Data.List.GetD
import YeBlock.Lib.Sha3

/-!
# Evaluating SHA3-256

The step maps a second time, for the digests of given strings: a word is a natural, and a
state goes through a step as a list, in one pass, where the first definitions look every
lane up.  Each step on the values of the lanes gives the values of the lanes after the step.

## Main definitions

* `Keccak.values` — the values of the lanes.
* `Keccak.permuteNat`, `values_permute` — the permutation on values.
* `evalSha3_256`, `sha3_256_eq_eval` — the hash by way of them.
-/

namespace Lib
namespace Keccak

/-- The values of the lanes. -/
def values (s : State) : List ℕ := s.map BitVec.toNat

/-! ## The permutation -/

/-- The value of a rotated lane. -/
def rotateNat (w n : ℕ) : ℕ := w <<< (n % 64) % 0x10000000000000000 ||| w >>> (64 - n % 64)

/-- The parities of the columns. -/
def paritiesNat : List ℕ → List ℕ
  | [a00, a10, a20, a30, a40, a01, a11, a21, a31, a41, a02, a12, a22, a32, a42,
     a03, a13, a23, a33, a43, a04, a14, a24, a34, a44] =>
    [a00 ^^^ a01 ^^^ a02 ^^^ a03 ^^^ a04, a10 ^^^ a11 ^^^ a12 ^^^ a13 ^^^ a14,
     a20 ^^^ a21 ^^^ a22 ^^^ a23 ^^^ a24, a30 ^^^ a31 ^^^ a32 ^^^ a33 ^^^ a34,
     a40 ^^^ a41 ^^^ a42 ^^^ a43 ^^^ a44]
  | _ => []

/-- Add a lane to every column. -/
def addColumnsNat (d0 d1 d2 d3 d4 : ℕ) : List ℕ → List ℕ
  | a :: b :: c :: d :: e :: s =>
    (a ^^^ d0) :: (b ^^^ d1) :: (c ^^^ d2) :: (d ^^^ d3) :: (e ^^^ d4) ::
      addColumnsNat d0 d1 d2 d3 d4 s
  | _ => []

def thetaNat (s : List ℕ) : List ℕ :=
  match paritiesNat s with
  | [c0, c1, c2, c3, c4] =>
    addColumnsNat (c4 ^^^ rotateNat c1 1) (c0 ^^^ rotateNat c2 1) (c1 ^^^ rotateNat c3 1)
      (c2 ^^^ rotateNat c4 1) (c3 ^^^ rotateNat c0 1) s
  | _ => []

def rhoNat (s : List ℕ) : List ℕ := List.zipWith rotateNat s rotations

def piNat : List ℕ → List ℕ
  | [a00, a10, a20, a30, a40, a01, a11, a21, a31, a41, a02, a12, a22, a32, a42,
     a03, a13, a23, a33, a43, a04, a14, a24, a34, a44] =>
    [a00, a11, a22, a33, a44, a30, a41, a02, a13, a24, a10, a21, a32, a43, a04,
     a40, a01, a12, a23, a34, a20, a31, a42, a03, a14]
  | _ => []

/-- A lane combined with the two given next ones. -/
def mixNat (w u v : ℕ) : ℕ := w ^^^ ((0xFFFFFFFFFFFFFFFF - u) &&& v)

/-- Row by row. -/
def chiNat : List ℕ → List ℕ
  | a :: b :: c :: d :: e :: s =>
    mixNat a b c :: mixNat b c d :: mixNat c d e :: mixNat d e a :: mixNat e a b :: chiNat s
  | _ => []

def iotaNat (rc : ℕ) (s : List ℕ) : List ℕ := s.modifyHead fun w => w ^^^ rc

def roundNat (s : List ℕ) (rc : Lane) : List ℕ :=
  iotaNat rc.toNat (chiNat (piNat (rhoNat (thetaNat s))))

def permuteNat (s : List ℕ) : List ℕ := roundConstants.foldl roundNat s

theorem tabulate_eq (f : ℕ → ℕ → Lane) : tabulate f =
    [f 0 0, f 1 0, f 2 0, f 3 0, f 4 0, f 0 1, f 1 1, f 2 1, f 3 1, f 4 1,
     f 0 2, f 1 2, f 2 2, f 3 2, f 4 2, f 0 3, f 1 3, f 2 3, f 3 3, f 4 3,
     f 0 4, f 1 4, f 2 4, f 3 4, f 4 4] := rfl

/-- A whole state is the table of its lanes. -/
theorem tabulate_lane {s : State} (h : s.length = 25) : tabulate (lane s) = s := by
  apply List.ext_getElem
  · simp [h]
  · intro i hi hi'
    have hplace : i % 5 % 5 + 5 * (i / 5 % 5) = i := by omega
    simp only [tabulate, lane, List.getElem_map, List.getElem_range, hplace]
    exact List.getD_eq_getElem _ _ hi'

@[simp] theorem lane_tabulate (f : ℕ → ℕ → Lane) (x y : ℕ) :
    lane (tabulate f) x y = f (x % 5) (y % 5) := by
  have hplace : x % 5 + 5 * (y % 5) < 25 := by omega
  have hx : (x % 5 + 5 * (y % 5)) % 5 = x % 5 := by omega
  have hy : (x % 5 + 5 * (y % 5)) / 5 = y % 5 := by omega
  simp [lane, tabulate, hplace, hx, hy]

theorem values_rho (s : State) : values (rho s) = rhoNat (values s) := by
  have hrotate : ∀ (w : Lane) n, (w.rotateLeft n).toNat = rotateNat w.toNat n := by
    simp [rotateNat, BitVec.toNat_rotateLeft]
  simp [rho, rhoNat, values, List.map_zipWith, List.zipWith_map_left, hrotate]

theorem values_iota (rc : Lane) (s : State) : values (iota rc s) = iotaNat rc.toNat (values s) := by
  cases s <;> simp [iota, iotaNat, values]

section Steps
variable {s : State} (h : s.length = 25)
include h

theorem values_theta : values (theta s) = thetaNat (values s) := by
  -- A table of unknown lanes: every lookup is then one of them, and both sides are lists.
  rw [← tabulate_lane h, theta]
  generalize lane s = f
  simp only [parity, lane_tabulate]
  simp [tabulate_eq, values, thetaNat, paritiesNat, addColumnsNat, rotateNat,
    BitVec.toNat_rotateLeft, Nat.xor_assoc]

theorem values_pi : values (pi s) = piNat (values s) := by
  rw [← tabulate_lane h, pi]
  simp only [lane_tabulate]
  simp [tabulate_eq, values, piNat]

theorem values_chi : values (chi s) = chiNat (values s) := by
  rw [← tabulate_lane h, chi]
  simp only [lane_tabulate]
  simp [tabulate_eq, values, chiNat, mixNat]

theorem values_round (rc : Lane) : values (round s rc) = roundNat (values s) rc := by
  have hrho : (rho (theta s)).length = 25 := by simp [rho, theta, rotations]
  rw [round, values_iota, values_chi (by simp [pi]), values_pi hrho, values_rho, values_theta h,
    roundNat]

end Steps

/-- A fold over states is the fold of their values, if each step is and leaves whole states. -/
theorem values_foldl {β : Type*} {f : State → β → State} {g : List ℕ → β → List ℕ}
    (hlen : ∀ s b, (f s b).length = 25)
    (hstep : ∀ s b, s.length = 25 → values (f s b) = g (values s) b) (bs : List β) :
    ∀ s : State, s.length = 25 → values (bs.foldl f s) = bs.foldl g (values s) := by
  induction bs with
  | nil => simp
  | cons b bs ih =>
      intro s h
      rw [List.foldl_cons, List.foldl_cons, ih (f s b) (hlen s b), hstep s b h]

/-- **The permutation on values.** -/
theorem values_permute {s : State} (h : s.length = 25) :
    values (permute s) = permuteNat (values s) :=
  values_foldl length_round (fun _ rc h => values_round h rc) roundConstants s h

/-! ## Absorbing a message -/

/-- The value of eight bytes. -/
def laneNat (bs : List UInt8) : ℕ :=
  bs.foldr (fun b w => w <<< 8 % 0x10000000000000000 ||| b.toNat) 0

/-- The values of the next lanes. -/
def lanesNat : ℕ → List UInt8 → List ℕ
  | 0, _ => []
  | n + 1, bs => laneNat (bs.take 8) :: lanesNat n (bs.drop 8)

def absorbNat (s : List ℕ) (bs : List UInt8) : List ℕ :=
  permuteNat (List.zipWith (fun w v => w ^^^ v) s (lanesNat 25 bs))

def spongeNat (data : List UInt8) : List ℕ :=
  (blocks (pad data)).foldl absorbNat (List.replicate 25 0)

theorem toNat_laneOfBytes (bs : List UInt8) : (laneOfBytes bs).toNat = laneNat bs := by
  have hstep : ∀ (b : UInt8) (w : Lane), w.toNat <<< 8 % 0x10000000000000000 ||| b.toNat =
      (w <<< 8 ||| b.toBitVec.setWidth 64).toNat := by
    simp
  exact (List.foldr_hom BitVec.toNat hstep).symm

theorem lanesNat_eq (n : ℕ) (bs : List UInt8) :
    lanesNat n bs = (List.range n).map fun i => laneNat ((bs.drop (8 * i)).take 8) := by
  induction n generalizing bs with
  | zero => simp [lanesNat]
  | succ n ih =>
      rw [List.range_succ_eq_map, lanesNat, ih]
      simp [Nat.mul_succ, Nat.add_comm]

theorem values_stateOfBlock (bs : List UInt8) : values (stateOfBlock bs) = lanesNat 25 bs := by
  rw [lanesNat_eq, values, stateOfBlock, List.map_map]
  simp [toNat_laneOfBytes]

theorem values_absorb {s : State} (h : s.length = 25) (bs : List UInt8) :
    values (absorb s bs) = absorbNat (values s) bs := by
  have hblock : (stateOfBlock bs).length = 25 := by simp [stateOfBlock]
  rw [absorb, values_permute (by simp [h, hblock]), absorbNat, ← values_stateOfBlock]
  simp [values, List.map_zipWith, List.zipWith_map]

theorem values_sponge (data : List UInt8) : values (sponge data) = spongeNat data :=
  values_foldl (fun _ _ => length_permute _) (fun _ bs h => values_absorb h bs) _ _ (by simp)

end Keccak

open Keccak

/-- SHA3-256, evaluated on naturals. -/
def evalSha3_256 (data : List UInt8) : List UInt8 :=
  ((spongeNat data).take 4).flatMap fun w => bytesOfLane (BitVec.ofNat 64 w)

/-- **The hash is what the evaluation gives.** -/
theorem sha3_256_eq_eval : sha3_256 = evalSha3_256 := by
  funext data
  rw [sha3_256, evalSha3_256, ← values_sponge, values, ← List.map_take, List.flatMap_map]
  simp

example : sha3_256 [] =
    [0xa7, 0xff, 0xc6, 0xf8, 0xbf, 0x1e, 0xd7, 0x66, 0x51, 0xc1, 0x47, 0x56, 0xa0, 0x61, 0xd6,
     0x62, 0xf5, 0x80, 0xff, 0x4d, 0xe4, 0x3b, 0x49, 0xfa, 0x82, 0xd8, 0x0a, 0x4b, 0x80, 0xf8,
     0x43, 0x4a] := by
  rw [sha3_256_eq_eval]
  decide +kernel

end Lib
