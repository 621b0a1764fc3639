import YeBlock.Lib.HouseMonotone
import YeBlock.Protocol.IdeaRevenue

/-!
# More revenue never pays anyone less

Two distributions of one artifact are compared, of a smaller and of a larger gross.  Both
take the same branches, except that the smaller one may stop at an amount of nothing, so
they can be carried in step through the recursion: what a manifest keeps and what it sends
upstream both follow the gross upwards, the parents' parts are a division by equal
weights, and a local split into at most two is safe as well.  One into three need not be.

## Main definitions

* `PaysNoLess` — the payouts of one call are at most those of another.
* `SplitsInTwo` — registries whose manifests have at most two split rows, none negative.
* `totalOf_royalties_mono` — the payments of a larger gross.
* `revenue_monotone` — the law, for the waterfall and for the revenue of ideas.
-/

namespace YeBlock

open Lib

/-- Both calls return, and nobody is paid less by the second. -/
def PaysNoLess (r r' : Except PyError (Dict Identity ℤ)) : Prop :=
  ∃ payouts payouts', r = .ok payouts ∧ r' = .ok payouts' ∧
    ∀ id, payouts.getD id 0 ≤ payouts'.getD id 0

/-- Every manifest has at most two split rows, none of them negative. -/
def SplitsInTwo (registry : Dict ContentId Manifest) : Prop :=
  ∀ artifact m, registry.get? artifact = some m →
    m.splits.length ≤ 2 ∧ ∀ e ∈ m.splits, 0 ≤ e.2

namespace Manifest
variable (m : Manifest) {gross gross' : ℤ}

/-- A local split of more pays nobody less. -/
theorem totalOf_localRoyalties_mono (hsplits : Apportion.HouseMonotone (m.splits.map Prod.snd))
    (hnonneg : ∀ e ∈ m.splits, 0 ≤ e.2) (h : gross ≤ gross') (id : Identity) :
    totalOf id (m.localRoyalties gross) ≤ totalOf id (m.localRoyalties gross') := by
  by_cases hgross : gross ≤ 0
  · have hzero : m.localRoyalties gross = [] := if_pos hgross
    rw [hzero, totalOf_nil]
    by_cases hgross' : gross' ≤ 0
    · have hzero' : m.localRoyalties gross' = [] := if_pos hgross'
      rw [hzero', totalOf_nil]
    · exact totalOf_nonneg id (m.localRoyalties_nonneg hnonneg (not_le.mp hgross').le)
  · have hgross' : ¬ gross' ≤ 0 := by omega
    rw [localRoyalties, localRoyalties, if_neg hgross, if_neg hgross']
    exact totalOf_le_of_forall₂ id (forall₂_zip _ (hsplits gross gross' h))

/-- What a manifest keeps follows the gross upwards, and so does what it sends upstream. -/
theorem keeps_mono (h : gross ≤ gross') :
    m.keeps gross ≤ m.keeps gross' ∧ m.keeps gross' - m.keeps gross ≤ gross' - gross :=
  roundHalfUp_part_mono basisPoints_pos m.kept_in_range h

/-- Every parent's part follows the gross upwards. -/
theorem upstream_mono (h : gross ≤ gross') :
    List.Forall₂ (fun e e' => e.1 = e'.1 ∧ e.2 ≤ e'.2) (m.upstream gross) (m.upstream gross') := by
  have hkeeps := (m.keeps_mono h).2
  exact forall₂_zip _ (Apportion.houseMonotone_replicate _ _ _ (by omega))

end Manifest

section Payments
variable {registry : Dict ContentId Manifest}
  (hsplits : ∀ artifact m, registry.get? artifact = some m →
    Apportion.HouseMonotone (m.splits.map Prod.snd) ∧ ∀ e ∈ m.splits, 0 ≤ e.2)
include hsplits

/-- No payment is negative. -/
theorem totalOf_royalties_nonneg (levels : ℕ) (seen : Finset ContentId) (artifact : ContentId)
    (gross : ℤ) (id : Identity) :
    0 ≤ totalOf id (royalties registry levels seen artifact gross) := by
  by_cases hgross : gross ≤ 0
  · rw [royalties_of_nonpos registry levels seen artifact hgross, totalOf_nil]
  · have hrows : ∀ id bps, ReachesRow registry levels seen artifact id bps → 0 ≤ bps :=
      fun _ _ hrow => reachesRow_nonneg (fun a m hget => (hsplits a m hget).2) hrow
    exact totalOf_nonneg id
      (nonneg_of_mem_royalties registry levels seen artifact gross hrows (not_le.mp hgross).le)

/-- **A larger gross pays nobody less**, at every depth and for every set of artifacts
seen. -/
theorem totalOf_royalties_mono (levels : ℕ) (seen : Finset ContentId) (artifact : ContentId)
    (gross : ℤ) : ∀ gross', gross ≤ gross' → ∀ id,
      totalOf id (royalties registry levels seen artifact gross) ≤
        totalOf id (royalties registry levels seen artifact gross') := by
  refine royalties_induction registry
    (P := fun levels seen artifact gross l => ∀ gross', gross ≤ gross' → ∀ id,
      totalOf id l ≤ totalOf id (royalties registry levels seen artifact gross'))
    ?_ ?_ ?_ ?_ levels seen artifact gross
  · intro levels seen artifact _ _ gross' _ id
    exact totalOf_royalties_nonneg hsplits levels seen artifact gross' id
  · intro levels seen artifact gross hgross hget gross' h id
    rw [royalties_unknown levels (hgross.trans_le h) hget]
    exact totalOf_le_of_forall₂ id (.cons ⟨rfl, h⟩ .nil)
  · intro levels seen artifact gross m _ hget hleaf gross' h id
    obtain ⟨hmono, hnonneg⟩ := hsplits artifact m hget
    rw [royalties_leaf hget hleaf]
    exact m.totalOf_localRoyalties_mono hmono hnonneg h id
  · intro levels seen artifact gross m hgross hget hseen hshare ih gross' h id
    obtain ⟨hmono, hnonneg⟩ := hsplits artifact m hget
    rw [royalties_node levels (hgross.trans_le h) hget hseen hshare, totalOf_append,
      totalOf_append, totalOf_flatMap, totalOf_flatMap]
    refine add_le_add (m.totalOf_localRoyalties_mono hmono hnonneg (m.keeps_mono h).1 id) ?_
    apply List.Forall₂.sum_le_sum
    rw [List.forall₂_map_left_iff, List.forall₂_map_right_iff]
    refine (m.upstream_mono h).imp fun e e' he => ?_
    rw [← he.1]
    exact ih e.1 e.2 e'.2 he.2 id

theorem distribute_paysNoLess (artifact : ContentId) {gross gross' : ℤ} (h : gross ≤ gross') :
    PaysNoLess (distribute artifact gross registry) (distribute artifact gross' registry) := by
  refine ⟨_, _, distribute_eq registry maxLineageDepth 0 ∅ artifact gross rfl,
    distribute_eq registry maxLineageDepth 0 ∅ artifact gross' rfl, fun id => ?_⟩
  simp only [Dict.getD_tally, Dict.getD_empty, zero_add]
  exact totalOf_royalties_mono hsplits maxLineageDepth ∅ artifact gross gross' h id

end Payments

/-- Splits in two are safe. -/
theorem SplitsInTwo.houseMonotone {registry : Dict ContentId Manifest} (h : SplitsInTwo registry) :
    ∀ artifact m, registry.get? artifact = some m →
      Apportion.HouseMonotone (m.splits.map Prod.snd) ∧ ∀ e ∈ m.splits, 0 ≤ e.2 := by
  intro artifact m hget
  obtain ⟨hlen, hnonneg⟩ := h artifact m hget
  refine ⟨Apportion.houseMonotone_of_length_le_two (by simpa using hlen) m.sum_splits_pos ?_,
    hnonneg⟩
  intro w hw
  obtain ⟨e, he, rfl⟩ := List.mem_map.mp hw
  exact hnonneg e he

/-- The projection of a capsule registry has one row for each manifest. -/
theorem exists_lineageRegistry_splitsInTwo (capsules : Dict ContentId IdeaCapsule) :
    ∃ registry, lineageRegistry capsules = .ok registry ∧ SplitsInTwo registry := by
  obtain ⟨registry, hregistry, hget⟩ := lineageRegistry_eq_ok capsules
  refine ⟨registry, hregistry, fun artifact m hm => ?_⟩
  refine ⟨?_, lineage_splits_nonneg hget artifact m hm⟩
  obtain ⟨c, rfl⟩ := exists_capsule hget hm
  exact Nat.one_le_ofNat

/-- **More revenue never pays anyone less**: over a registry whose manifests have at most
two split rows, none negative, cyclic or not, nobody's payout falls when the gross rises.
The projection of a capsule registry is such a registry, so nobody's revenue from an idea
falls either. -/
theorem revenue_monotone {registry : Dict ContentId Manifest} (hsplits : SplitsInTwo registry)
    (artifact : ContentId) {gross gross' : ℤ} (h : gross ≤ gross') :
    PaysNoLess (distribute artifact gross registry) (distribute artifact gross' registry) ∧
      ∀ capsules : Dict ContentId IdeaCapsule,
        (∃ registry, lineageRegistry capsules = .ok registry ∧ SplitsInTwo registry) ∧
          PaysNoLess (ideaRevenue artifact gross capsules)
            (ideaRevenue artifact gross' capsules) := by
  refine ⟨distribute_paysNoLess hsplits.houseMonotone artifact h, fun capsules => ?_⟩
  obtain ⟨registry', hregistry, hsplits'⟩ := exists_lineageRegistry_splitsInTwo capsules
  refine ⟨⟨registry', hregistry, hsplits'⟩, ?_⟩
  rw [ideaRevenue, ideaRevenue, hregistry]
  exact distribute_paysNoLess hsplits'.houseMonotone artifact h

theorem splitsInTwo_loraRegistry : SplitsInTwo loraRegistry := by
  have hrows : ∀ e ∈ loraRegistry.items,
      e.2.splits.length ≤ 2 ∧ ∀ row ∈ e.2.splits, 0 ≤ row.2 := by decide
  intro artifact m hget
  exact hrows _ (Dict.mem_items_of_get? hget)

theorem revenue_monotone_lora :
    PaysNoLess (distribute "lora-legal" 1000002 loraRegistry)
        (distribute "lora-legal" 1000003 loraRegistry) ∧
      ∀ capsules : Dict ContentId IdeaCapsule,
        (∃ registry, lineageRegistry capsules = .ok registry ∧ SplitsInTwo registry) ∧
          PaysNoLess (ideaRevenue "lora-legal" 1000002 capsules)
            (ideaRevenue "lora-legal" 1000003 capsules) :=
  revenue_monotone splitsInTwo_loraRegistry "lora-legal" (by decide)

end YeBlock
