import YeBlock.Lib.RoundingError
import YeBlock.Protocol.RoyaltyWaterfall

/-!
# The waterfall without rounding

What a royalty waterfall is meant to pay is a fixed share of the gross to each identity: the
products of the shares along every way from the artifact down its lineage, added up.  Here is
that waterfall over the rationals, on the same registries, with the same guards.

The settlement in whole units follows it.  Every division it makes is off by at most half a
unit for each entry, and later divisions only pass on what earlier ones were off.  So the
payouts of a settlement, added up over any set of identities, are off by at most half a unit
for each entry of each division made, whatever the gross and whatever the lineage: shared
ancestors, revisits, cycles, unknown and too deep artifacts included.

## Main definitions

* `exactRoyalties` — the payments without rounding; `exactShare` — an identity's share.
* `entriesDivided` — the entries of the divisions a settlement makes.
* `two_mul_spread_royalties_le` — the payments are that close.
* `distribute_tracks_shares` — so are the payouts.
-/

namespace YeBlock

open Lib

/-! ## The exact waterfall -/

namespace Manifest

/-- The payments of a local split, without rounding. -/
def exactSplit (m : Manifest) (x : ℚ) : List (Identity × ℚ) :=
  m.splits.map fun e => (e.1, x * e.2 / basisPoints)

/-- The part that stays with the artifact, without rounding. -/
def exactKeeps (m : Manifest) (x : ℚ) : ℚ :=
  x * (basisPoints - m.parentShareBps : ℤ) / basisPoints

/-- What every parent is sent, without rounding. -/
def exactPerParent (m : Manifest) (x : ℚ) : ℚ :=
  x * m.parentShareBps / basisPoints / m.parents.length

end Manifest

/-- The payments the lineage of `artifact` receives of `x`, without rounding. -/
def exactRoyalties (registry : Dict ContentId Manifest) (levels : ℕ) (seen : Finset ContentId)
    (artifact : ContentId) (x : ℚ) : List (Identity × ℚ) :=
  match registry.get? artifact with
  | none => [(artifact, x)]
  | some m =>
    match levels with
    | 0 => m.exactSplit x
    | levels + 1 =>
      if artifact ∈ seen ∨ m.parentShareBps = 0 then
        m.exactSplit x
      else
        m.exactSplit (m.exactKeeps x) ++ m.parents.flatMap fun parent =>
          exactRoyalties registry levels (insert artifact seen) parent (m.exactPerParent x)

/-- The share of the gross of `artifact` that is meant for an identity. -/
def exactShare (registry : Dict ContentId Manifest) (artifact : ContentId) (payee : Identity) : ℚ :=
  totalOf payee (exactRoyalties registry maxLineageDepth ∅ artifact 1)

/-- How many entries the divisions of a settlement have: two for every division into what
stays and what goes upstream, one for every split entry and every parent. -/
def entriesDivided (registry : Dict ContentId Manifest) (levels : ℕ) (seen : Finset ContentId)
    (artifact : ContentId) : ℕ :=
  match registry.get? artifact with
  | none => 0
  | some m =>
    match levels with
    | 0 => m.splits.length
    | levels + 1 =>
      if artifact ∈ seen ∨ m.parentShareBps = 0 then
        m.splits.length
      else
        2 + m.splits.length + m.parents.length +
          (m.parents.map fun parent =>
            entriesDivided registry levels (insert artifact seen) parent).sum

section Equations
variable {registry : Dict ContentId Manifest} {artifact : ContentId} {m : Manifest}
  {seen : Finset ContentId}

theorem exactRoyalties_unknown (levels : ℕ) (x : ℚ) (hget : registry.get? artifact = none) :
    exactRoyalties registry levels seen artifact x = [(artifact, x)] := by
  rw [exactRoyalties, hget]

theorem exactRoyalties_leaf {levels : ℕ} (x : ℚ) (hget : registry.get? artifact = some m)
    (hleaf : levels = 0 ∨ artifact ∈ seen ∨ m.parentShareBps = 0) :
    exactRoyalties registry levels seen artifact x = m.exactSplit x := by
  rw [exactRoyalties, hget]
  cases levels with
  | zero => rfl
  | succ levels => exact if_pos (hleaf.resolve_left (Nat.succ_ne_zero levels))

theorem exactRoyalties_node (levels : ℕ) (x : ℚ) (hget : registry.get? artifact = some m)
    (hseen : artifact ∉ seen) (hshare : m.parentShareBps ≠ 0) :
    exactRoyalties registry (levels + 1) seen artifact x =
      m.exactSplit (m.exactKeeps x) ++ m.parents.flatMap fun parent =>
        exactRoyalties registry levels (insert artifact seen) parent (m.exactPerParent x) := by
  rw [exactRoyalties, hget]
  exact if_neg (not_or.mpr ⟨hseen, hshare⟩)

theorem entriesDivided_unknown (levels : ℕ) (hget : registry.get? artifact = none) :
    entriesDivided registry levels seen artifact = 0 := by
  rw [entriesDivided, hget]

theorem entriesDivided_leaf {levels : ℕ} (hget : registry.get? artifact = some m)
    (hleaf : levels = 0 ∨ artifact ∈ seen ∨ m.parentShareBps = 0) :
    entriesDivided registry levels seen artifact = m.splits.length := by
  rw [entriesDivided, hget]
  cases levels with
  | zero => rfl
  | succ levels => exact if_pos (hleaf.resolve_left (Nat.succ_ne_zero levels))

theorem entriesDivided_node (levels : ℕ) (hget : registry.get? artifact = some m)
    (hseen : artifact ∉ seen) (hshare : m.parentShareBps ≠ 0) :
    entriesDivided registry (levels + 1) seen artifact =
      2 + m.splits.length + m.parents.length +
        (m.parents.map fun parent =>
          entriesDivided registry levels (insert artifact seen) parent).sum := by
  rw [entriesDivided, hget]
  exact if_neg (not_or.mpr ⟨hseen, hshare⟩)

end Equations

/-! ## Shares of the gross -/

namespace Manifest
variable (m : Manifest)

theorem exactSplit_mul (c x : ℚ) :
    m.exactSplit (c * x) = (m.exactSplit x).map fun e => (e.1, c * e.2) := by
  rw [exactSplit, exactSplit, List.map_map]
  refine List.map_congr_left fun e _ => ?_
  simp only [Function.comp_apply]
  ring_nf

theorem exactKeeps_mul (c x : ℚ) : m.exactKeeps (c * x) = c * m.exactKeeps x := by
  rw [exactKeeps, exactKeeps]
  ring

theorem exactPerParent_mul (c x : ℚ) : m.exactPerParent (c * x) = c * m.exactPerParent x := by
  rw [exactPerParent, exactPerParent]
  ring

theorem sum_exactSplit (x : ℚ) : ((m.exactSplit x).map Prod.snd).sum = x := by
  have hsplits : (m.splits.map fun e => (e.2 : ℚ)).sum = basisPoints := by
    have h := congrArg (Int.cast (R := ℚ)) m.sum_splits
    rwa [Int.cast_list_sum, List.map_map] at h
  have hterm : ((m.exactSplit x).map Prod.snd) =
      m.splits.map fun e => x / basisPoints * (e.2 : ℚ) := by
    rw [exactSplit, List.map_map]
    refine List.map_congr_left fun e _ => ?_
    simp only [Function.comp_apply]
    ring
  have hpos : (basisPoints : ℚ) ≠ 0 := by norm_num [basisPoints]
  rw [hterm, List.sum_map_mul_left, hsplits, div_mul_cancel₀ _ hpos]

/-- What stays and what the parents are sent is everything. -/
theorem exactKeeps_add (hp : m.parents ≠ []) (x : ℚ) :
    m.exactKeeps x + m.parents.length * m.exactPerParent x = x := by
  have hlength : (m.parents.length : ℚ) ≠ 0 := by
    exact_mod_cast (List.length_pos_of_ne_nil hp).ne'
  have hpos : (basisPoints : ℚ) ≠ 0 := by norm_num [basisPoints]
  rw [exactKeeps, exactPerParent]
  push_cast
  field_simp
  ring

end Manifest

/-- **Induction over a lineage**: what holds of an unknown artifact and of a leaf, and of a
node if it holds of every artifact one level down, holds everywhere. -/
theorem lineage_induction (registry : Dict ContentId Manifest)
    {P : ℕ → Finset ContentId → ContentId → Prop}
    (unknown : ∀ levels seen artifact, registry.get? artifact = none → P levels seen artifact)
    (leaf : ∀ levels seen artifact m, registry.get? artifact = some m →
      levels = 0 ∨ artifact ∈ seen ∨ m.parentShareBps = 0 → P levels seen artifact)
    (node : ∀ levels seen artifact m, registry.get? artifact = some m → artifact ∉ seen →
      m.parentShareBps ≠ 0 → (∀ parent, P levels (insert artifact seen) parent) →
      P (levels + 1) seen artifact) (levels : ℕ) :
    ∀ seen artifact, P levels seen artifact := by
  induction levels with
  | zero =>
      intro seen artifact
      cases hget : registry.get? artifact with
      | none => exact unknown _ _ _ hget
      | some m => exact leaf _ _ _ m hget (.inl rfl)
  | succ levels ih =>
      intro seen artifact
      cases hget : registry.get? artifact with
      | none => exact unknown _ _ _ hget
      | some m =>
          by_cases hleaf : artifact ∈ seen ∨ m.parentShareBps = 0
          · exact leaf _ _ _ m hget (.inr hleaf)
          · rw [not_or] at hleaf
            exact node _ _ _ m hget hleaf.1 hleaf.2 (ih _)

/-- The exact payments scale with the gross. -/
theorem exactRoyalties_mul (registry : Dict ContentId Manifest) (c : ℚ) (levels : ℕ)
    (seen : Finset ContentId) (artifact : ContentId) : ∀ x,
      exactRoyalties registry levels seen artifact (c * x) =
        (exactRoyalties registry levels seen artifact x).map fun e => (e.1, c * e.2) := by
  refine lineage_induction registry (P := fun levels seen artifact => ∀ x,
    exactRoyalties registry levels seen artifact (c * x) =
      (exactRoyalties registry levels seen artifact x).map fun e => (e.1, c * e.2))
    ?_ ?_ ?_ levels seen artifact
  · intro levels seen artifact hget x
    rw [exactRoyalties_unknown _ _ hget, exactRoyalties_unknown _ _ hget, List.map_singleton]
  · intro levels seen artifact m hget hleaf x
    rw [exactRoyalties_leaf _ hget hleaf, exactRoyalties_leaf _ hget hleaf, m.exactSplit_mul]
  · intro levels seen artifact m hget hseen hshare ih x
    rw [exactRoyalties_node _ _ hget hseen hshare, exactRoyalties_node _ _ hget hseen hshare,
      m.exactKeeps_mul, m.exactSplit_mul, m.exactPerParent_mul, List.map_append, List.map_flatMap]
    simp only [ih]

/-- Nothing is lost without rounding either. -/
theorem sum_exactRoyalties (registry : Dict ContentId Manifest) (levels : ℕ)
    (seen : Finset ContentId) (artifact : ContentId) : ∀ x,
      ((exactRoyalties registry levels seen artifact x).map Prod.snd).sum = x := by
  refine lineage_induction registry (P := fun levels seen artifact => ∀ x,
    ((exactRoyalties registry levels seen artifact x).map Prod.snd).sum = x)
    ?_ ?_ ?_ levels seen artifact
  · intro levels seen artifact hget x
    simp [exactRoyalties_unknown _ _ hget]
  · intro levels seen artifact m hget hleaf x
    rw [exactRoyalties_leaf _ hget hleaf, m.sum_exactSplit]
  · intro levels seen artifact m hget hseen hshare ih x
    rw [exactRoyalties_node _ _ hget hseen hshare, List.map_append, List.sum_append,
      m.sum_exactSplit, List.map_flatMap, sum_flatMap]
    simp only [ih]
    rw [List.map_const', List.sum_replicate, nsmul_eq_mul,
      m.exactKeeps_add (m.parents_ne_nil hshare)]

/-- What the gross is shared by: the exact payouts are the shares of the gross. -/
theorem totalOf_exactRoyalties (registry : Dict ContentId Manifest) (artifact : ContentId)
    (x : ℚ) (payee : Identity) :
    totalOf payee (exactRoyalties registry maxLineageDepth ∅ artifact x) =
      x * exactShare registry artifact payee := by
  have hscaled := totalOf_map_hom (AddMonoidHom.mulLeft x) payee
    (exactRoyalties registry maxLineageDepth ∅ artifact 1)
  rw [exactShare, ← mul_one x, exactRoyalties_mul, mul_one]
  exact hscaled

/-! ## How close the settlement is -/

/-- Payments in whole units, read as rationals. -/
def asRationals (es : List (Identity × ℤ)) : List (Identity × ℚ) :=
  es.map fun e => (e.1, (e.2 : ℚ))

theorem totalOf_asRationals (payee : Identity) (es : List (Identity × ℤ)) :
    totalOf payee (asRationals es) = totalOf payee es :=
  totalOf_map_hom (Int.castAddHom ℚ) payee es

@[simp] theorem asRationals_append (es es' : List (Identity × ℤ)) :
    asRationals (es ++ es') = asRationals es ++ asRationals es' := List.map_append

/-- No manifest of the registry has a negative split entry. -/
def SplitsNonneg (registry : Dict ContentId Manifest) : Prop :=
  ∀ a m, registry.get? a = some m → ∀ e ∈ m.splits, 0 ≤ e.2

section Close
variable {m : Manifest} (payees : Finset Identity)

theorem Manifest.exactSplit_nonneg (hm : ∀ e ∈ m.splits, 0 ≤ e.2) {x : ℚ} (hx : 0 ≤ x) :
    ∀ e ∈ m.exactSplit x, 0 ≤ e.2 := by
  intro e he
  obtain ⟨s, hs, rfl⟩ := List.mem_map.mp he
  have hbps : (0 : ℚ) ≤ s.2 := by exact_mod_cast hm s hs
  exact div_nonneg (mul_nonneg hx hbps) (by norm_num [basisPoints])

theorem Manifest.exactKeeps_nonneg (m : Manifest) {x : ℚ} (hx : 0 ≤ x) : 0 ≤ m.exactKeeps x := by
  have hkept : (0 : ℚ) ≤ (basisPoints - m.parentShareBps : ℤ) := by
    exact_mod_cast m.kept_in_range.1
  exact div_nonneg (mul_nonneg hx hkept) (by norm_num [basisPoints])

theorem Manifest.exactPerParent_nonneg (m : Manifest) {x : ℚ} (hx : 0 ≤ x) :
    0 ≤ m.exactPerParent x := by
  have hshare : (0 : ℚ) ≤ m.parentShareBps := by exact_mod_cast m.share_in_range.1
  exact div_nonneg (div_nonneg (mul_nonneg hx hshare) (by norm_num [basisPoints]))
    (Nat.cast_nonneg _)

/-- The exact payments of a gross that is not negative are not negative. -/
theorem exactRoyalties_nonneg {registry : Dict ContentId Manifest} (hsplits : SplitsNonneg registry)
    (levels : ℕ) (seen : Finset ContentId) (artifact : ContentId) : ∀ x, 0 ≤ x →
      ∀ e ∈ exactRoyalties registry levels seen artifact x, 0 ≤ e.2 := by
  refine lineage_induction registry (P := fun levels seen artifact => ∀ x, 0 ≤ x →
    ∀ e ∈ exactRoyalties registry levels seen artifact x, 0 ≤ e.2) ?_ ?_ ?_ levels seen artifact
  · intro levels seen artifact hget x hx e he
    rw [exactRoyalties_unknown _ _ hget, List.mem_singleton] at he
    rw [he]
    exact hx
  · intro levels seen artifact m hget hleaf x hx e he
    rw [exactRoyalties_leaf _ hget hleaf] at he
    exact m.exactSplit_nonneg (hsplits artifact m hget) hx e he
  · intro levels seen artifact m hget hseen hshare ih x hx e he
    rw [exactRoyalties_node _ _ hget hseen hshare, List.mem_append, List.mem_flatMap] at he
    rcases he with he | ⟨parent, _, he⟩
    · exact m.exactSplit_nonneg (hsplits artifact m hget) (m.exactKeeps_nonneg hx) e he
    · exact ih parent _ (m.exactPerParent_nonneg hx) e he

/-- A local split is off by half a unit for each entry, beside what it is given. -/
theorem two_mul_spread_localRoyalties_le (hm : ∀ e ∈ m.splits, 0 ≤ e.2) {gross : ℤ}
    (hgross : 0 ≤ gross) {x : ℚ} (hx : 0 ≤ x) :
    2 * spread payees (asRationals (m.localRoyalties gross)) (m.exactSplit x) ≤
      2 * |(gross : ℚ) - x| + m.splits.length := by
  rcases hgross.eq_or_lt with rfl | hpos
  · have hnone := spread_nil_left_le payees (m.exactSplit_nonneg hm hx)
    rw [m.sum_exactSplit] at hnone
    have hlocal : asRationals (m.localRoyalties 0) = [] := by
      simp [asRationals, Manifest.localRoyalties]
    have hlength : (0 : ℚ) ≤ m.splits.length := Nat.cast_nonneg _
    rw [hlocal, Int.cast_zero, zero_sub, abs_neg, abs_of_nonneg hx]
    linarith
  · have hlength : m.splits.length ≤
        (Apportion.shares gross (m.splits.map Prod.snd)).length := by simp
    have hpaid : asRationals (m.localRoyalties gross) =
        (m.splits.zip (Apportion.shares gross (m.splits.map Prod.snd))).map
          fun e => (e.1.1, (e.2 : ℚ)) := by
      rw [asRationals, Manifest.localRoyalties, if_neg hpos.not_ge, List.zip_map_left, List.map_map]
      rfl
    have hexact : m.exactSplit x =
        (m.splits.zip (Apportion.shares gross (m.splits.map Prod.snd))).map
          fun e => (e.1.1, x * e.1.2 / (m.splits.map Prod.snd).sum) := by
      rw [m.sum_splits, Manifest.exactSplit]
      conv_lhs => rw [← List.map_fst_zip hlength, List.map_map]
      rfl
    have hround := Apportion.sum_abs_shares_sub_le gross m.splits Prod.snd m.sum_splits_pos hm x
    have hspread := spread_map_le payees
      (m.splits.zip (Apportion.shares gross (m.splits.map Prod.snd))) (fun e => e.1.1)
      (fun e => (e.2 : ℚ)) (fun e => x * e.1.2 / (m.splits.map Prod.snd).sum)
    rw [hpaid, hexact]
    linarith

/-- What stays and what goes upstream are off by one unit in total, beside what is divided. -/
theorem two_mul_keeps_error_le (m : Manifest) (hp : m.parents ≠ []) (gross : ℤ) (x : ℚ) :
    2 * |(m.keeps gross : ℚ) - m.exactKeeps x| +
        2 * |((gross - m.keeps gross : ℤ) : ℚ) - m.parents.length * m.exactPerParent x| ≤
      2 * |(gross : ℚ) - x| + 2 := by
  have hsum : [basisPoints - m.parentShareBps, m.parentShareBps].sum = basisPoints := by simp
  have hnonneg : ∀ w ∈ [basisPoints - m.parentShareBps, m.parentShareBps], 0 ≤ w := by
    simpa using ⟨m.share_in_range.2, m.share_in_range.1⟩
  have hshares : Apportion.shares gross [basisPoints - m.parentShareBps, m.parentShareBps] =
      [m.keeps gross, gross - m.keeps gross] := by
    have h := Apportion.shares_pair gross (basisPoints - m.parentShareBps) basisPoints_pos
    rwa [sub_sub_cancel] at h
  have hupstream : (m.parents.length : ℚ) * m.exactPerParent x =
      x * m.parentShareBps / basisPoints := by
    have hlength : (m.parents.length : ℚ) ≠ 0 := by
      exact_mod_cast (List.length_pos_of_ne_nil hp).ne'
    rw [Manifest.exactPerParent, mul_div_cancel₀ _ hlength]
  have herror := Apportion.sum_abs_shares_sub_le gross
    [basisPoints - m.parentShareBps, m.parentShareBps] id (by simp [basisPoints_pos]) hnonneg x
  rw [List.map_id, hshares, hsum] at herror
  rw [hupstream, Manifest.exactKeeps]
  simp only [List.zip_cons_cons, List.zip_nil_right, List.map_cons, List.map_nil, List.sum_cons,
    List.sum_nil, List.length_cons, List.length_nil, id] at herror
  norm_num at herror ⊢
  linarith

/-- The parents' parts are off by half a unit for each, beside what goes upstream. -/
theorem two_mul_upstream_error_le (m : Manifest) (hp : m.parents ≠ []) (gross : ℤ) (x : ℚ) :
    2 * ((m.upstream gross).map fun e => |(e.2 : ℚ) - x|).sum ≤
      m.parents.length + 2 * |((gross - m.keeps gross : ℤ) : ℚ) - m.parents.length * x| := by
  have hlength : (m.parents.length : ℚ) ≠ 0 := by
    exact_mod_cast (List.length_pos_of_ne_nil hp).ne'
  have herror := Apportion.sum_abs_shares_sub_le (gross - m.keeps gross) m.parents (fun _ => 1)
    (by simpa using sum_replicate_one_pos hp) (fun _ _ => zero_le_one) (m.parents.length * x)
  have hterm : ∀ y : ℤ, |(y : ℚ) - m.parents.length * x * (1 : ℤ) / (m.parents.length : ℤ)| =
      |(y : ℚ) - x| := by
    intro y
    rw [Int.cast_one, mul_one, Int.cast_natCast, mul_div_cancel_left₀ _ hlength]
  rw [List.map_const', List.sum_replicate, nsmul_one] at herror
  simp only [hterm] at herror
  rw [Manifest.upstream]
  linarith

/-- Of nothing, nothing is paid: what is missing is the whole of `x`. -/
theorem two_mul_spread_royalties_zero_le {registry : Dict ContentId Manifest}
    (hsplits : SplitsNonneg registry) (levels : ℕ) (seen : Finset ContentId)
    (artifact : ContentId) {x : ℚ} (hx : 0 ≤ x) :
    2 * spread payees (asRationals (royalties registry levels seen artifact 0))
        (exactRoyalties registry levels seen artifact x) ≤
      2 * |((0 : ℤ) : ℚ) - x| + entriesDivided registry levels seen artifact := by
  have hnone := spread_nil_left_le payees
    (exactRoyalties_nonneg hsplits levels seen artifact x hx)
  have hentries : (0 : ℚ) ≤ entriesDivided registry levels seen artifact := Nat.cast_nonneg _
  rw [sum_exactRoyalties] at hnone
  rw [royalties_of_nonpos _ _ _ _ le_rfl, Int.cast_zero, zero_sub, abs_neg, abs_of_nonneg hx]
  exact (mul_le_mul_of_nonneg_left hnone zero_le_two).trans (le_add_of_nonneg_right hentries)

/-- What goes upstream is off by half a unit for each parent, beside what is divided there and
what each parent's lineage is off. -/
theorem two_mul_spread_upstream_le (m : Manifest) (hp : m.parents ≠ []) (gross : ℤ) (x : ℚ)
    (paid : ContentId → ℤ → List (Identity × ℤ)) (exact : ContentId → List (Identity × ℚ))
    (entries : ContentId → ℕ)
    (h : ∀ e ∈ m.upstream gross, 2 * spread payees (asRationals (paid e.1 e.2)) (exact e.1) ≤
      2 * |(e.2 : ℚ) - x| + entries e.1) :
    2 * spread payees (asRationals ((m.upstream gross).flatMap fun e => paid e.1 e.2))
        (m.parents.flatMap exact) ≤
      2 * |((gross - m.keeps gross : ℤ) : ℚ) - m.parents.length * x| + m.parents.length +
        (m.parents.map entries).sum := by
  have hfst : (m.upstream gross).map Prod.fst = m.parents := List.map_fst_zip (by simp)
  -- the parents, as they are met in the loop over what each is sent
  have hexact : m.parents.flatMap exact = (m.upstream gross).flatMap fun e => exact e.1 := by
    rw [← hfst, List.flatMap_map]
  have hentries : ((m.parents.map entries).sum : ℚ) =
      ((m.upstream gross).map fun e => (entries e.1 : ℚ)).sum := by
    rw [← hfst, List.map_map, Nat.cast_list_sum, List.map_map]
    rfl
  have hpaid : asRationals ((m.upstream gross).flatMap fun e => paid e.1 e.2) =
      (m.upstream gross).flatMap fun e => asRationals (paid e.1 e.2) := List.map_flatMap
  have heach : 2 * spread payees ((m.upstream gross).flatMap fun e => asRationals (paid e.1 e.2))
      ((m.upstream gross).flatMap fun e => exact e.1) ≤
        2 * ((m.upstream gross).map fun e => |(e.2 : ℚ) - x|).sum +
          ((m.upstream gross).map fun e => (entries e.1 : ℚ)).sum := by
    rw [← List.sum_map_mul_left, ← List.sum_map_add]
    refine (mul_le_mul_of_nonneg_left (spread_flatMap_le payees _ _ _) zero_le_two).trans ?_
    rw [← List.sum_map_mul_left]
    exact List.sum_le_sum h
  have hparts := two_mul_upstream_error_le m hp gross x
  rw [hpaid, hexact, hentries]
  linarith

/-- **The settlement follows the exact waterfall**: from an amount `gross` the payments of a
lineage are at most `|gross - x|` away from the exact payments of `x`, and half a unit for
each entry of each division made. -/
theorem two_mul_spread_royalties_le {registry : Dict ContentId Manifest}
    (hsplits : SplitsNonneg registry) (levels : ℕ) (seen : Finset ContentId)
    (artifact : ContentId) : ∀ (gross : ℤ) (x : ℚ), 0 ≤ gross → 0 ≤ x →
      2 * spread payees (asRationals (royalties registry levels seen artifact gross))
          (exactRoyalties registry levels seen artifact x) ≤
        2 * |(gross : ℚ) - x| + entriesDivided registry levels seen artifact := by
  refine lineage_induction registry (P := fun levels seen artifact => ∀ (gross : ℤ) (x : ℚ),
    0 ≤ gross → 0 ≤ x →
      2 * spread payees (asRationals (royalties registry levels seen artifact gross))
          (exactRoyalties registry levels seen artifact x) ≤
        2 * |(gross : ℚ) - x| + entriesDivided registry levels seen artifact)
    ?unknown ?leaf ?node levels seen artifact
  case unknown =>
    intro levels seen artifact hget gross x hgross hx
    rcases hgross.eq_or_lt with rfl | hpos
    · exact two_mul_spread_royalties_zero_le payees hsplits levels seen artifact hx
    · rw [royalties_unknown levels hpos hget, exactRoyalties_unknown _ _ hget,
        entriesDivided_unknown _ hget, Nat.cast_zero, add_zero]
      exact mul_le_mul_of_nonneg_left (spread_singleton_le payees _ _ _) zero_le_two
  case leaf =>
    intro levels seen artifact m hget hleaf gross x hgross hx
    rw [royalties_leaf hget hleaf, exactRoyalties_leaf _ hget hleaf,
      entriesDivided_leaf hget hleaf]
    exact two_mul_spread_localRoyalties_le payees (hsplits artifact m hget) hgross hx
  case node =>
    intro levels seen artifact m hget hseen hshare ih gross x hgross hx
    rcases hgross.eq_or_lt with rfl | hpos
    · exact two_mul_spread_royalties_zero_le payees hsplits (levels + 1) seen artifact hx
    have hp := m.parents_ne_nil hshare
    have hlocal := two_mul_spread_localRoyalties_le payees (hsplits artifact m hget)
      (m.keeps_bounds hgross).1 (m.exactKeeps_nonneg hx)
    have hkeeps := two_mul_keeps_error_le m hp gross x
    have hupstream := two_mul_spread_upstream_le payees m hp gross (m.exactPerParent x)
      (royalties registry levels (insert artifact seen))
      (fun parent => exactRoyalties registry levels (insert artifact seen) parent
        (m.exactPerParent x))
      (entriesDivided registry levels (insert artifact seen))
      fun e he => ih e.1 e.2 _ (m.upstream_nonneg hp hgross e he) (m.exactPerParent_nonneg hx)
    rw [royalties_node levels hpos hget hseen hshare, exactRoyalties_node _ _ hget hseen hshare,
      entriesDivided_node _ hget hseen hshare, asRationals_append]
    have hsplit := spread_append_le payees (asRationals (m.localRoyalties (m.keeps gross)))
      (m.exactSplit (m.exactKeeps x))
      (asRationals ((m.upstream gross).flatMap fun e =>
        royalties registry levels (insert artifact seen) e.1 e.2))
      (m.parents.flatMap fun parent =>
        exactRoyalties registry levels (insert artifact seen) parent (m.exactPerParent x))
    simp only [Nat.cast_add, Nat.cast_ofNat]
    linarith

end Close

/-- **Every payout tracks a fixed share of the gross**: on a registry without negative split
entries, for every artifact and every gross that is not negative, the payouts over any set of
identities are off from these identities' shares of the gross by at most half a unit for each
entry of each division made, in total. -/
theorem distribute_tracks_shares {registry : Dict ContentId Manifest}
    (hsplits : SplitsNonneg registry) (artifact : ContentId) (gross : ℤ) (h : 0 ≤ gross) :
    ∃ payouts, distribute artifact gross registry = .ok payouts ∧
      ∀ payees : Finset Identity,
        2 * ∑ payee ∈ payees,
            |(payouts.getD payee 0 : ℚ) - gross * exactShare registry artifact payee| ≤
          entriesDivided registry maxLineageDepth ∅ artifact := by
  refine ⟨_, distribute_eq registry maxLineageDepth 0 ∅ artifact gross rfl, ?_⟩
  intro payees
  have hspread := two_mul_spread_royalties_le payees hsplits maxLineageDepth ∅ artifact gross
    gross h (by exact_mod_cast h)
  rw [sub_self, abs_zero, mul_zero, zero_add] at hspread
  simpa only [spread, totalOf_asRationals, totalOf_exactRoyalties, Dict.getD_tally,
    Dict.getD_empty, zero_add] using hspread

theorem splitsNonneg_loraRegistry : SplitsNonneg loraRegistry := by
  have hrows : ∀ e ∈ loraRegistry.items, ∀ row ∈ e.2.splits, 0 ≤ row.2 := by decide
  intro artifact m hget
  exact hrows _ (Dict.mem_items_of_get? hget)

theorem distribute_tracks_shares_lora :
    ∃ payouts, distribute "lora-legal" 1000003 loraRegistry = .ok payouts ∧
      ∀ payees : Finset Identity,
        2 * ∑ payee ∈ payees,
            |(payouts.getD payee 0 : ℚ) - 1000003 * exactShare loraRegistry "lora-legal" payee| ≤
          (10 : ℕ) :=
  distribute_tracks_shares splitsNonneg_loraRegistry "lora-legal" 1000003 (by decide)

end YeBlock
