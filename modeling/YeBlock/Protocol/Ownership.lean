import YeBlock.Lib.Merging
import YeBlock.Protocol.ExactWaterfall

/-!
# Identities of one owner

Anyone can take on identities, so an owner can have its part of a split under one of them or
spread over many, and an artifact can list its parents in any order.  The waterfall is blind
to that: without rounding every owner is sent exactly the same, down every lineage.  The
settlements in whole units follow the exact waterfall, so they differ by what rounding makes
of the entries divided, and by nothing else.

## Main definitions

* `Regrouped` — two registries whose lineages are the same and whose splits give every owner
  the same.
* `totalOf_byOwner_exactRoyalties` — without rounding the owners get the same.
* `regrouping_is_harmless` — how far the settlements are apart.
-/

namespace YeBlock

open Lib

variable {ω : Type*} [DecidableEq ω]

/-- Two manifests with the same parents in some order and the same share for them, whose splits
give every owner the same. -/
structure Manifest.SameToOwners (owner : Identity → ω) (m m' : Manifest) : Prop where
  parents : m.parents.Perm m'.parents
  parentShareBps : m.parentShareBps = m'.parentShareBps
  owned : ∀ o, totalOf o (byOwner owner m.splits) = totalOf o (byOwner owner m'.splits)

/-- Two registries of the same artifacts, each with manifests that are the same to owners. -/
def Regrouped (owner : Identity → ω) (registry registry' : Dict ContentId Manifest) : Prop :=
  ∀ a, Option.Rel (Manifest.SameToOwners owner) (registry.get? a) (registry'.get? a)

section Regrouped
variable {owner : Identity → ω} {registry registry' : Dict ContentId Manifest}
  (h : Regrouped owner registry registry') {artifact : ContentId}
include h

theorem Regrouped.unknown (hget : registry.get? artifact = none) :
    registry'.get? artifact = none := by
  have hrel := h artifact
  rw [hget] at hrel
  cases hget' : registry'.get? artifact with
  | none => rfl
  | some m' => simp [hget'] at hrel

theorem Regrouped.known {m : Manifest} (hget : registry.get? artifact = some m) :
    ∃ m', registry'.get? artifact = some m' ∧ m.SameToOwners owner m' := by
  have hrel := h artifact
  rw [hget] at hrel
  cases hget' : registry'.get? artifact with
  | none => simp [hget'] at hrel
  | some m' =>
      rw [hget', Option.rel_some_some] at hrel
      exact ⟨m', rfl, hrel⟩

end Regrouped

/-! ## Without rounding -/

section SameToOwners
variable {owner : Identity → ω} {m m' : Manifest}

/-- An owner is sent its part of a split. -/
theorem Manifest.totalOf_byOwner_exactSplit (m : Manifest) (x : ℚ) (o : ω) :
    totalOf o (byOwner owner (m.exactSplit x)) =
      x / basisPoints * (totalOf o (byOwner owner m.splits) : ℤ) := by
  have hterm : m.exactSplit x = m.splits.map fun e =>
      (e.1, (AddMonoidHom.mulLeft (x / basisPoints)).comp (Int.castAddHom ℚ) e.2) := by
    refine List.map_congr_left fun e _ => ?_
    simp [div_mul_eq_mul_div]
  rw [hterm, byOwner_map, totalOf_map_hom]
  simp

variable (h : m.SameToOwners owner m')
include h

theorem Manifest.SameToOwners.exactSplit (x : ℚ) (o : ω) :
    totalOf o (byOwner owner (m.exactSplit x)) = totalOf o (byOwner owner (m'.exactSplit x)) := by
  rw [m.totalOf_byOwner_exactSplit, m'.totalOf_byOwner_exactSplit, h.owned]

theorem Manifest.SameToOwners.exactKeeps (x : ℚ) : m.exactKeeps x = m'.exactKeeps x := by
  rw [Manifest.exactKeeps, Manifest.exactKeeps, h.parentShareBps]

theorem Manifest.SameToOwners.exactPerParent (x : ℚ) :
    m.exactPerParent x = m'.exactPerParent x := by
  rw [Manifest.exactPerParent, Manifest.exactPerParent, h.parentShareBps, h.parents.length_eq]

end SameToOwners

/-- **Without rounding owners get the same** from a lineage, however they are grouped. -/
theorem totalOf_byOwner_exactRoyalties {owner : Identity → ω}
    {registry registry' : Dict ContentId Manifest} (h : Regrouped owner registry registry')
    (levels : ℕ) (seen : Finset ContentId) (artifact : ContentId) : ∀ (x : ℚ) (o : ω),
      totalOf o (byOwner owner (exactRoyalties registry levels seen artifact x)) =
        totalOf o (byOwner owner (exactRoyalties registry' levels seen artifact x)) := by
  refine lineage_induction registry (P := fun levels seen artifact => ∀ (x : ℚ) (o : ω),
    totalOf o (byOwner owner (exactRoyalties registry levels seen artifact x)) =
      totalOf o (byOwner owner (exactRoyalties registry' levels seen artifact x)))
    ?unknown ?leaf ?node levels seen artifact
  case unknown =>
    intro levels seen artifact hget x o
    rw [exactRoyalties_unknown _ _ hget, exactRoyalties_unknown _ _ (h.unknown hget)]
  case leaf =>
    intro levels seen artifact m hget hleaf x o
    obtain ⟨m', hget', hsame⟩ := h.known hget
    rw [exactRoyalties_leaf _ hget hleaf,
      exactRoyalties_leaf _ hget' (hsame.parentShareBps ▸ hleaf), hsame.exactSplit]
  case node =>
    intro levels seen artifact m hget hseen hshare ih x o
    obtain ⟨m', hget', hsame⟩ := h.known hget
    rw [exactRoyalties_node _ _ hget hseen hshare,
      exactRoyalties_node _ _ hget' hseen (hsame.parentShareBps ▸ hshare), byOwner_append,
      byOwner_append, totalOf_append, totalOf_append, byOwner_flatMap, byOwner_flatMap,
      totalOf_flatMap, totalOf_flatMap, hsame.exactSplit, hsame.exactKeeps, hsame.exactPerParent]
    simp only [ih]
    rw [(hsame.parents.map _).sum_eq]

/-! ## In whole units -/

/-- What owners are sent is off by half a unit for each entry divided, in total. -/
theorem two_mul_spread_byOwner_royalties_le (owner : Identity → ω) (owners : Finset ω)
    {registry : Dict ContentId Manifest} (hsplits : SplitsNonneg registry) (artifact : ContentId)
    {gross : ℤ} (hgross : 0 ≤ gross) :
    2 * spread owners
        (byOwner owner (asRationals (royalties registry maxLineageDepth ∅ artifact gross)))
        (byOwner owner (exactRoyalties registry maxLineageDepth ∅ artifact gross)) ≤
      entriesDivided registry maxLineageDepth ∅ artifact := by
  refine (mul_le_mul_of_nonneg_left (spread_byOwner_le owner owners _ _) zero_le_two).trans ?_
  refine (two_mul_spread_royalties_le _ hsplits maxLineageDepth ∅ artifact gross gross hgross
    (by exact_mod_cast hgross)).trans ?_
  simp

/-- The whole units an owner is sent, as a rational. -/
theorem totalOf_byOwner_asRationals (owner : Identity → ω) (o : ω) (es : List (Identity × ℤ)) :
    totalOf o (byOwner owner (asRationals es)) = (totalOf o (byOwner owner es) : ℤ) := by
  rw [asRationals, byOwner_map owner (fun n : ℤ => (n : ℚ))]
  exact totalOf_map_hom (Int.castAddHom ℚ) o _

/-- **It does not matter under how many identities an owner is paid**: on registries without
negative split entries that are the same to owners, from every artifact and every gross that is
not negative, what any set of owners is paid in one settlement and in the other differs by at
most half a unit for each entry of each division made in either, in total. -/
theorem regrouping_is_harmless (owner : Identity → ω)
    {registry registry' : Dict ContentId Manifest} (hsplits : SplitsNonneg registry)
    (hsplits' : SplitsNonneg registry') (h : Regrouped owner registry registry')
    (artifact : ContentId) (gross : ℤ) (hgross : 0 ≤ gross) :
    ∃ payouts payouts', distribute artifact gross registry = .ok payouts ∧
      distribute artifact gross registry' = .ok payouts' ∧
      ∀ owners : Finset ω,
        2 * ∑ o ∈ owners, |totalOf o (byOwner owner payouts.items) -
            totalOf o (byOwner owner payouts'.items)| ≤
          (entriesDivided registry maxLineageDepth ∅ artifact +
            entriesDivided registry' maxLineageDepth ∅ artifact : ℤ) := by
  refine ⟨_, _, distribute_eq registry maxLineageDepth 0 ∅ artifact gross rfl,
    distribute_eq registry' maxLineageDepth 0 ∅ artifact gross rfl, fun owners => ?_⟩
  have hclose := two_mul_spread_byOwner_royalties_le owner owners hsplits artifact hgross
  have hclose' := two_mul_spread_byOwner_royalties_le owner owners hsplits' artifact hgross
  rw [spread_congr_right owners
    (totalOf_byOwner_exactRoyalties h maxLineageDepth ∅ artifact gross)] at hclose
  rw [spread_comm] at hclose'
  have htriangle := spread_triangle owners
    (byOwner owner (asRationals (royalties registry maxLineageDepth ∅ artifact gross)))
    (byOwner owner (exactRoyalties registry' maxLineageDepth ∅ artifact gross))
    (byOwner owner (asRationals (royalties registry' maxLineageDepth ∅ artifact gross)))
  have hpaid : 2 * spread owners
      (byOwner owner (asRationals (royalties registry maxLineageDepth ∅ artifact gross)))
      (byOwner owner (asRationals (royalties registry' maxLineageDepth ∅ artifact gross))) ≤
      entriesDivided registry maxLineageDepth ∅ artifact +
        entriesDivided registry' maxLineageDepth ∅ artifact := by
    linarith
  simp only [spread, totalOf_byOwner_asRationals] at hpaid
  simp only [totalOf_byOwner_tally]
  exact_mod_cast hpaid

/-- An artifact on top of the walkthrough's lineage, with two parents. -/
def styleManifest : Manifest where
  artifact := "lora-style"
  author := "dana"
  splits := [("dana", 7000), ("lp-pool", 3000)]
  parents := ["lora-legal", "lora-formal"]
  parentShareBps := 4000
  sum_splits := by decide
  share_in_range := by decide
  parents_of_share := by decide

/-- The same, with dana's part under two identities. -/
def aliasManifest : Manifest where
  artifact := "lora-style"
  author := "dana"
  splits := [("dana", 2999), ("lp-pool", 3000), ("dana-2", 4001)]
  parents := ["lora-formal", "lora-legal"]
  parentShareBps := 4000
  sum_splits := by decide
  share_in_range := by decide
  parents_of_share := by decide

/-- Both of dana's identities are hers; every other identity is its own owner. -/
def aliasOwner (x : Identity) : Identity := if x = "dana-2" then "dana" else x

theorem sameToOwners_alias : styleManifest.SameToOwners aliasOwner aliasManifest := by
  refine ⟨.swap _ _ _, rfl, fun o => ?_⟩
  simp only [byOwner, aliasOwner, styleManifest, aliasManifest]
  by_cases ho : "dana" = o
  · simp [totalOf_cons, ho]
    omega
  · simp [totalOf_cons, ho]

theorem regrouped_alias : Regrouped aliasOwner (loraRegistry.set "lora-style" styleManifest)
    (loraRegistry.set "lora-style" aliasManifest) := by
  intro a
  rw [Dict.get?_set, Dict.get?_set]
  by_cases ha : a = "lora-style"
  · rw [if_pos ha, if_pos ha]
    exact .some sameToOwners_alias
  · rw [if_neg ha, if_neg ha]
    cases loraRegistry.get? a with
    | none => exact .none
    | some m => exact .some ⟨.refl _, rfl, fun _ => rfl⟩

/-- A further artifact whose split entries are not negative. -/
theorem SplitsNonneg.set {registry : Dict ContentId Manifest} (h : SplitsNonneg registry)
    {m : Manifest} (hm : ∀ e ∈ m.splits, 0 ≤ e.2) (artifact : ContentId) :
    SplitsNonneg (registry.set artifact m) := by
  intro a m' hget
  rw [Dict.get?_set] at hget
  split at hget
  · rwa [← Option.some.inj hget]
  · exact h a m' hget

theorem regrouping_is_harmless_alias :
    ∃ payouts payouts',
      distribute "lora-style" 1000003 (loraRegistry.set "lora-style" styleManifest) =
        .ok payouts ∧
      distribute "lora-style" 1000003 (loraRegistry.set "lora-style" aliasManifest) =
        .ok payouts' ∧
      ∀ owners : Finset Identity,
        2 * ∑ o ∈ owners, |totalOf o (byOwner aliasOwner payouts.items) -
            totalOf o (byOwner aliasOwner payouts'.items)| ≤ ((21 : ℕ) + (22 : ℕ) : ℤ) :=
  regrouping_is_harmless aliasOwner (splitsNonneg_loraRegistry.set (by decide) "lora-style")
    (splitsNonneg_loraRegistry.set (by decide) "lora-style") regrouped_alias "lora-style" 1000003
    (by decide)

end YeBlock
