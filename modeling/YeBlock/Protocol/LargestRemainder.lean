import YeBlock.Basic
import YeBlock.Lib.Apportion

/-!
# `largest_remainder`, the integer split under every settlement

The routine floors every exact share and hands the leftover units, one at a time,
to the entries of largest remainder.  It is written with list accesses that raise
when an index is out of range; `largestRemainder_eq` shows that for weights of
positive total it never does, and returns `Apportion.shares`.

## Main definitions

* `largestRemainder gross weightsBps` — the source's routine.
* `largestRemainder_eq` — it returns the largest-remainder apportionment.
* `largestRemainder_pair` — splitting off `w` basis points rounds half up.
-/

namespace YeBlock

open Lib

/-- One turn of the loop over the leftover units: `floors[remainders[k][1]] += 1`. -/
def grantUnit (remainders : List (ℤ × ℕ)) (floors : List ℤ) (k : ℕ) :
    Except PyError (List ℤ) := do
  let entry ← getItem remainders k
  let floor ← getItem floors entry.2
  return floors.set entry.2 (floor + 1)

/-- Split `gross` into integer parts proportional to `weightsBps`: floor every
share, then hand the leftover units one by one to the largest remainders, ties
broken by index.  Weights of non-positive total receive nothing. -/
def largestRemainder (gross : ℤ) (weightsBps : List ℤ) : Except PyError (List ℤ) :=
  let totalW := weightsBps.sum
  if totalW ≤ 0 then
    .ok (List.replicate weightsBps.length 0)
  else
    let floors := weightsBps.map fun w => (gross * w).fdiv totalW
    let remainders := weightsBps.zipIdx.map fun e => ((gross * e.1).fmod totalW, e.2)
    let leftover := gross - floors.sum
    let remainders := sortBy (fun t => toLex (-t.1, t.2)) remainders
    (List.range leftover.toNat).foldlM (grantUnit remainders) floors

/-- The loop hands out as many units as it has turns, in the order of the ranking. -/
theorem foldlM_grantUnit {remainders : List (ℤ × ℕ)} {floors : List ℤ}
    (hidx : ∀ e ∈ remainders, e.2 < floors.length) {n : ℕ} (hn : n ≤ remainders.length) :
    (List.range n).foldlM (grantUnit remainders) floors =
      .ok (bump floors ((remainders.map Prod.snd).take n)) := by
  induction n with
  | zero => simp [pure, Except.pure]
  | succ n ih =>
      have hlt : n < remainders.length := hn
      have hpos : remainders[n].2 < (bump floors ((remainders.map Prod.snd).take n)).length := by
        rw [length_bump]
        exact hidx _ (List.getElem_mem hlt)
      have htake : (remainders.map Prod.snd).take (n + 1) =
          (remainders.map Prod.snd).take n ++ [remainders[n].2] := by
        simp [List.take_add_one, List.getElem?_eq_getElem hlt]
      rw [List.range_succ, List.foldlM_append, ih (by omega), htake, bump_append_singleton _ _ hpos]
      simp [bind, Except.bind, grantUnit, getItem_of_lt hlt, getItem_of_lt hpos, pure, Except.pure]

/-- **The routine never raises** on weights of positive total, and returns the
largest-remainder apportionment. -/
theorem largestRemainder_eq (gross : ℤ) {ws : List ℤ} (hW : 0 < ws.sum) :
    largestRemainder gross ws = .ok (Apportion.shares gross ws) := by
  have hfloors : (ws.map fun w => (gross * w).fdiv ws.sum) = Apportion.floors gross ws := by
    simp [Apportion.floors, Int.fdiv_eq_ediv_of_nonneg _ hW.le]
  have hrem : (ws.zipIdx.map fun e => ((gross * e.1).fmod ws.sum, e.2)) =
      Apportion.remainders gross ws := by
    simp [Apportion.remainders, Int.fmod_eq_emod_of_nonneg _ hW.le]
  have hidx : ∀ e ∈ sortBy (fun t => toLex (-t.1, t.2)) (Apportion.remainders gross ws),
      e.2 < (Apportion.floors gross ws).length := by
    intro e he
    rw [Apportion.length_floors]
    exact Apportion.lt_length_of_mem_ranking gross ws (List.mem_map_of_mem he)
  have hlen : (Apportion.leftover gross ws).toNat ≤
      (sortBy (fun t => toLex (-t.1, t.2)) (Apportion.remainders gross ws)).length := by
    have hlt := Apportion.leftover_lt_length gross hW
    simp only [length_sortBy, Apportion.remainders, List.length_map, List.length_zipIdx]
    omega
  simp only [largestRemainder, hW.not_ge, if_false, hfloors, hrem]
  exact foldlM_grantUnit hidx hlen

/-- Splitting `w` basis points off an amount rounds half up. -/
theorem largestRemainder_pair (gross w : ℤ) :
    largestRemainder gross [w, basisPoints - w] =
      .ok [roundHalfUp (gross * w) basisPoints, gross - roundHalfUp (gross * w) basisPoints] := by
  rw [largestRemainder_eq gross (by simp [basisPoints]),
    Apportion.shares_pair gross w (by simp [basisPoints])]

example : largestRemainder 1000003 [7500, 2500] = .ok [750002, 250001] := by decide

end YeBlock
