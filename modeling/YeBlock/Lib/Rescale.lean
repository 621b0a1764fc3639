import Mathlib.Algebra.Order.Field.Basic
import Mathlib.Tactic.Linarith
import YeBlock.Lib.Lists

/-!
# Min-max rescaling

A value is rescaled by the extremes of a pool of values, the smallest of them to zero
and the largest to one.  A pool without spread carries no signal, and everything is
rescaled to zero.  The result depends on the pool as a set, not on its order, and not on
the unit the values are measured in.

Lowering one entry of a pool moves the extremes, and with them every rescaled value, but
the distance by which the others lie above that entry never falls.  An entry that is
withheld, and taken for the highest of the others, is a raised one, unless it was above
them all.

## Main definitions

* `rescale lo hi v` — the place of `v` between `lo` and `hi`.
* `lowest l`, `highest l` — the extremes of a pool, zero if it is empty.
* `rescaleIn l v` — the place of `v` in the pool `l`.
* `rescaleIn_eq_of_mem_iff`, `rescaleIn_affine` — what the place does not depend on.
* `rescaleIn_sub_le`, `rescaleIn_highest_sub_le` — the distance to a lowered entry.
* `rescaleIn_withheld_le_iff` — when the distance to a withheld one does not fall.
-/

namespace Lib

variable {K : Type*} [Field K] [LinearOrder K]

/-- The place of `v` between `lo` and `hi`, zero if there is no room between them. -/
def rescale (lo hi v : K) : K := if hi = lo then 0 else (v - lo) / (hi - lo)

/-- The place of `v` between the extremes of the pool `l`. -/
def rescaleIn (l : List K) (v : K) : K := rescale (l.min?.getD 0) (l.max?.getD 0) v

/-- The smallest value of a pool, zero if it is empty. -/
def lowest (l : List K) : K := l.min?.getD 0

/-- The largest value of a pool, zero if it is empty. -/
def highest (l : List K) : K := l.max?.getD 0

theorem rescaleIn_eq (l : List K) (v : K) :
    rescaleIn l v = rescale (lowest l) (highest l) v := rfl

/-- The place depends on the pool as a set. -/
theorem rescaleIn_eq_of_mem_iff {l l' : List K} (h : ∀ a, a ∈ l ↔ a ∈ l') (v : K) :
    rescaleIn l v = rescaleIn l' v := by
  rw [rescaleIn, rescaleIn, min?_eq_of_mem_iff h, max?_eq_of_mem_iff h]

theorem rescaleIn_eq_of_perm {l l' : List K} (h : l.Perm l') (v : K) :
    rescaleIn l v = rescaleIn l' v := rescaleIn_eq_of_mem_iff (fun _ => h.mem_iff) v

/-! ## Extremes -/

section Extremes
variable {l : List K} {v : K}

theorem min?_eq_lowest (h : l ≠ []) : l.min? = some (lowest l) := by
  obtain ⟨lo, hlo⟩ := Option.isSome_iff_exists.mp (List.isSome_min?_iff.mpr h)
  rw [lowest, hlo, Option.getD_some]

theorem max?_eq_highest (h : l ≠ []) : l.max? = some (highest l) := by
  obtain ⟨hi, hhi⟩ := Option.isSome_iff_exists.mp (List.isSome_max?_iff.mpr h)
  rw [highest, hhi, Option.getD_some]

theorem lowest_le (h : v ∈ l) : lowest l ≤ v :=
  (List.min?_eq_some_iff.mp (min?_eq_lowest (List.ne_nil_of_mem h))).2 v h

theorem le_highest (h : v ∈ l) : v ≤ highest l :=
  (List.max?_eq_some_iff.mp (max?_eq_highest (List.ne_nil_of_mem h))).2 v h

theorem lowest_mem (h : l ≠ []) : lowest l ∈ l :=
  (List.min?_eq_some_iff.mp (min?_eq_lowest h)).1

theorem highest_mem (h : l ≠ []) : highest l ∈ l :=
  (List.max?_eq_some_iff.mp (max?_eq_highest h)).1

theorem lowest_cons (h : l ≠ []) (v : K) : lowest (v :: l) = min v (lowest l) := by
  rw [lowest, List.min?_cons, min?_eq_lowest h]
  rfl

theorem highest_cons (h : l ≠ []) (v : K) : highest (v :: l) = max v (highest l) := by
  rw [highest, List.max?_cons, max?_eq_highest h]
  rfl

end Extremes

/-- A value between the extremes of a pool moves neither. -/
theorem rescaleIn_cons_of_mem {l : List K} (h : l ≠ []) {x : K} (hx : lowest l ≤ x)
    (hx' : x ≤ highest l) (v : K) : rescaleIn (x :: l) v = rescaleIn l v := by
  rw [rescaleIn_eq, rescaleIn_eq, lowest_cons h, highest_cons h, min_eq_right hx, max_eq_right hx']

/-- A pool of one value carries no signal. -/
theorem rescaleIn_of_flat {l : List K} {a : K} (h : ∀ b ∈ l, b = a) (v : K) :
    rescaleIn l v = 0 := by
  refine if_pos ?_
  by_cases hl : l = []
  · subst hl
    rfl
  · rw [min?_eq_lowest hl, max?_eq_highest hl, Option.getD_some, Option.getD_some,
      h _ (lowest_mem hl), h _ (highest_mem hl)]

/-! ## Order and unit -/

/-- Two places differ as the values do, in units of the spread. -/
theorem rescale_sub (lo hi v w : K) :
    rescale lo hi w - rescale lo hi v = (w - v) / (hi - lo) := by
  rw [rescale, rescale]
  split
  · next hflat => simp [hflat]
  · rw [← sub_div, sub_sub_sub_cancel_right]

section Order
variable [IsStrictOrderedRing K] {lo hi v w : K}

theorem rescale_mono (h : lo ≤ hi) (hvw : v ≤ w) : rescale lo hi v ≤ rescale lo hi w := by
  rw [← sub_nonneg, rescale_sub]
  exact div_nonneg (sub_nonneg.mpr hvw) (sub_nonneg.mpr h)

/-- The places between the extremes fill the unit interval. -/
theorem rescale_mem (hv : lo ≤ v) (hv' : v ≤ hi) :
    0 ≤ rescale lo hi v ∧ rescale lo hi v ≤ 1 := by
  rw [rescale]
  split
  · exact ⟨le_rfl, zero_le_one⟩
  · have hspread := sub_nonneg.mpr (hv.trans hv')
    exact ⟨div_nonneg (sub_nonneg.mpr hv) hspread,
      div_le_one_of_le₀ (sub_le_sub_right hv' lo) hspread⟩

theorem rescaleIn_mem {l : List K} (h : v ∈ l) : 0 ≤ rescaleIn l v ∧ rescaleIn l v ≤ 1 :=
  rescale_mem (lowest_le h) (le_highest h)

theorem rescaleIn_mono {l : List K} (hvw : v ≤ w) : rescaleIn l v ≤ rescaleIn l w := by
  refine rescale_mono ?_ hvw
  cases l with
  | nil => exact le_rfl
  | cons a l => exact (lowest_le List.mem_cons_self).trans (le_highest List.mem_cons_self)

theorem rescale_affine {a : K} (ha : 0 < a) (b : K) :
    rescale (a * lo + b) (a * hi + b) (a * v + b) = rescale lo hi v := by
  have hflat : a * hi + b = a * lo + b ↔ hi = lo := by
    rw [add_left_inj, mul_right_inj' ha.ne']
  simp only [rescale, hflat, add_sub_add_right_eq_sub, ← mul_sub, mul_div_mul_left _ _ ha.ne']

/-- **The unit does not matter**: a change of scale and origin leaves every place. -/
theorem rescaleIn_affine {a : K} (ha : 0 < a) (b : K) (l : List K) (v : K) :
    rescaleIn (l.map fun u => a * u + b) (a * v + b) = rescaleIn l v := by
  have hmono : Monotone fun u : K => a * u + b := fun u u' h =>
    add_le_add_left (mul_le_mul_of_nonneg_left h ha.le) b
  rw [rescaleIn, rescaleIn, min?_map_of_monotone hmono, max?_map_of_monotone hmono]
  by_cases hl : l = []
  · subst hl
    simp [rescale]
  · rw [min?_eq_lowest hl, max?_eq_highest hl]
    exact rescale_affine ha b

end Order

/-! ## Lowering one entry -/

section Lower
variable [IsStrictOrderedRing K] {lo hi x x' y : K}

/-- A part of a growing whole whose rest does not grow is no smaller a share. -/
theorem share_le {part part' whole whole' : K} (hpart : part ≤ whole) (hwhole : 0 ≤ whole)
    (hgrow : whole ≤ whole') (hrest : whole' - part' ≤ whole - part) (hpart' : 0 ≤ part') :
    part / whole ≤ part' / whole' := by
  rcases hwhole.eq_or_lt with hzero | hpos
  · rw [← hzero, div_zero]
    exact div_nonneg hpart' (hwhole.trans hgrow)
  · rw [div_le_div_iff₀ hpos (hpos.trans_le hgrow)]
    have hcross := mul_nonneg (sub_nonneg.mpr hgrow) (sub_nonneg.mpr hpart)
    have hscaled := mul_le_mul_of_nonneg_right hrest hwhole
    linarith

/-- The distance from `x` to a value between the extremes of the others, in units of the
spread of them all, never falls when `x` is lowered. -/
theorem distance_le (hlo : lo ≤ y) (hhi : y ≤ hi) (h : x' ≤ x) :
    (y - x) / (max x hi - min x lo) ≤ (y - x') / (max x' hi - min x' lo) := by
  have hspread : ∀ x, 0 ≤ max x hi - min x lo := fun x =>
    sub_nonneg.mpr ((min_le_right x lo).trans ((hlo.trans hhi).trans (le_max_right x hi)))
  rcases le_total x y with hxy | hyx
  · -- below `y`: the highest value stays, and what lies between the lowest one and `x` shrinks
    have hx'y := h.trans hxy
    rw [max_eq_right (hxy.trans hhi), max_eq_right (hx'y.trans hhi)]
    have hover : x' - min x' lo ≤ x - min x lo := by
      rcases min_cases x lo with ⟨hm, _⟩ | ⟨hm, _⟩ <;>
        rcases min_cases x' lo with ⟨hm', _⟩ | ⟨hm', _⟩ <;> rw [hm, hm'] <;> linarith
    have hmin : min x' lo ≤ min x lo := min_le_min_right lo h
    have hwhole := hspread x
    rw [max_eq_right (hxy.trans hhi)] at hwhole
    refine share_le ?_ hwhole (by linarith) (by linarith) (sub_nonneg.mpr hx'y)
    linarith [min_le_left x lo]
  · rcases le_total x' y with hx'y | hyx'
    · exact (div_nonpos_of_nonpos_of_nonneg (sub_nonpos.mpr hyx) (hspread x)).trans
        (div_nonneg (sub_nonneg.mpr hx'y) (hspread x'))
    · -- above `y`: the lowest value stays, and what lies between `x` and the highest one grows
      rw [min_eq_right (hlo.trans hyx), min_eq_right (hlo.trans hyx'), ← neg_sub x y,
        ← neg_sub x' y, neg_div, neg_div, neg_le_neg_iff]
      have hover : max x hi - x ≤ max x' hi - x' := by
        rcases max_cases x hi with ⟨hm, _⟩ | ⟨hm, _⟩ <;>
          rcases max_cases x' hi with ⟨hm', _⟩ | ⟨hm', _⟩ <;> rw [hm, hm'] <;> linarith
      have hmax : max x' hi ≤ max x hi := max_le_max_right hi h
      have hwhole := hspread x'
      rw [min_eq_right (hlo.trans hyx')] at hwhole
      refine share_le ?_ hwhole (by linarith) (by linarith) (sub_nonneg.mpr hyx)
      linarith [le_max_left x' hi]

/-- **The others keep their distance to a lowered entry.** -/
theorem rescaleIn_sub_le {rest : List K} (hy : y ∈ rest) (h : x' ≤ x) :
    rescaleIn (x :: rest) y - rescaleIn (x :: rest) x ≤
      rescaleIn (x' :: rest) y - rescaleIn (x' :: rest) x' := by
  have hne := List.ne_nil_of_mem hy
  simp only [rescaleIn_eq, rescale_sub, lowest_cons hne, highest_cons hne]
  exact distance_le (lowest_le hy) (le_highest hy) h

/-- The highest value of the pool keeps its distance too, though it may be the lowered
entry itself. -/
theorem rescaleIn_highest_sub_le (rest : List K) (h : x' ≤ x) :
    rescaleIn (x :: rest) (highest (x :: rest)) - rescaleIn (x :: rest) x ≤
      rescaleIn (x' :: rest) (highest (x' :: rest)) - rescaleIn (x' :: rest) x' := by
  have hafter : 0 ≤ rescaleIn (x' :: rest) (highest (x' :: rest)) - rescaleIn (x' :: rest) x' :=
    sub_nonneg.mpr (rescaleIn_mono (le_highest List.mem_cons_self))
  by_cases hrest : rest = []
  · subst hrest
    have hself : highest [x] = x := rfl
    rwa [hself, sub_self]
  · rw [highest_cons hrest]
    rcases le_total x (highest rest) with hle | hge
    · rw [highest_cons hrest, max_eq_right (h.trans hle)] at hafter ⊢
      rw [max_eq_right hle]
      exact rescaleIn_sub_le (highest_mem hrest) h
    · rwa [max_eq_left hge, sub_self]

/-- **A withheld entry gains nothing** where it is not above all the others: the highest of
them in its stead lies no closer to a value of theirs. -/
theorem rescaleIn_withheld_le {rest : List K} (hy : y ∈ rest) (h : x ≤ highest rest) :
    rescaleIn rest y - rescaleIn rest (highest rest) ≤
      rescaleIn (x :: rest) y - rescaleIn (x :: rest) x := by
  have hmem := highest_mem (List.ne_nil_of_mem hy)
  have hpool : ∀ v, rescaleIn (highest rest :: rest) v = rescaleIn rest v :=
    rescaleIn_eq_of_mem_iff fun a => by
      rw [List.mem_cons, or_iff_right_of_imp fun ha => ha ▸ hmem]
  simpa only [hpool] using rescaleIn_sub_le hy h

/-- The lowest value of a pool with a spread is as far below the highest one as can be. -/
theorem rescaleIn_lowest_withheld_le {rest : List K} (hlow : ∀ v ∈ rest, y ≤ v)
    (hspread : ∃ v ∈ rest, y < v) (hy : y ∈ rest) :
    rescaleIn rest y - rescaleIn rest (highest rest) ≤
      rescaleIn (x :: rest) y - rescaleIn (x :: rest) x := by
  have hlowest : lowest rest = y :=
    (lowest_le hy).antisymm (hlow _ (lowest_mem (List.ne_nil_of_mem hy)))
  obtain ⟨v, hv, hyv⟩ := hspread
  have hroom : highest rest - y ≠ 0 := (sub_pos.mpr (hyv.trans_le (le_highest hv))).ne'
  have hwide : rescaleIn rest y - rescaleIn rest (highest rest) = -1 := by
    rw [rescaleIn_eq, rescaleIn_eq, rescale_sub, hlowest, ← neg_sub, neg_div, div_self hroom]
  have hself := (rescaleIn_mem (List.mem_cons_self (a := x) (l := rest))).2
  have hother := (rescaleIn_mem (List.mem_cons_of_mem x hy)).1
  rw [hwide]
  linarith

/-- **When a withheld entry gains nothing** on a value of the others: it is not above them
all, or the value is their lowest and they have a spread. -/
theorem rescaleIn_withheld_le_iff {rest : List K} (hy : y ∈ rest) :
    rescaleIn rest y - rescaleIn rest (highest rest) ≤
        rescaleIn (x :: rest) y - rescaleIn (x :: rest) x ↔
      (∃ v ∈ rest, x ≤ v) ∨ ((∀ v ∈ rest, y ≤ v) ∧ ∃ v ∈ rest, y < v) := by
  constructor
  · intro h
    rw [or_iff_not_imp_left]
    intro habove
    have hne := List.ne_nil_of_mem hy
    have hx : highest rest < x := not_le.mp fun hle => habove ⟨_, highest_mem hne, hle⟩
    have hlo := lowest_le hy
    have hhi := le_highest hy
    have hlox : lowest rest < x := (hlo.trans hhi).trans_lt hx
    rw [rescaleIn_eq, rescaleIn_eq, rescaleIn_eq, rescaleIn_eq, rescale_sub, rescale_sub,
      lowest_cons hne, highest_cons hne, max_eq_left hx.le, min_eq_right hlox.le] at h
    have hbehind : (y - x) / (x - lowest rest) < 0 :=
      div_neg_of_neg_of_pos (sub_neg.mpr (hhi.trans_lt hx)) (sub_pos.mpr hlox)
    have hspread : lowest rest < highest rest := by
      refine (hlo.trans hhi).lt_of_ne fun hflat => ?_
      rw [sub_eq_zero.mpr hflat.symm, div_zero] at h
      exact absurd h hbehind.not_ge
    have hlowest : y = lowest rest := by
      rw [div_le_div_iff₀ (sub_pos.mpr hspread) (sub_pos.mpr hlox)] at h
      by_contra hrest
      have hprod := mul_pos (sub_pos.mpr hx) (sub_pos.mpr (hlo.lt_of_ne (Ne.symm hrest)))
      linarith
    rw [hlowest]
    exact ⟨fun v hv => lowest_le hv, _, highest_mem hne, hspread⟩
  · rintro (⟨v, hv, hxv⟩ | ⟨hlow, hspread⟩)
    · exact rescaleIn_withheld_le hy (hxv.trans (le_highest hv))
    · exact rescaleIn_lowest_withheld_le hlow hspread hy

end Lower

end Lib
