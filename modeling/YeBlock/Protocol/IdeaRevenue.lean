import YeBlock.Protocol.IdeaMarket
import YeBlock.Protocol.PayoutSigns

/-!
# Revenue of an idea's lineage

What an executed idea keeps earning is distributed over its lineage by the royalty
waterfall.  The projection of a capsule registry into manifests passes every check of
the manifest constructor, whatever the parents of the capsules are, and reads at an
identity the manifest of the capsule registered there.

## Main definitions

* `lineageRegistry`, `ideaRevenue` — the source's.
* `IdeaCapsule.manifest` — the manifest of a capsule.
* `lineageRegistry_eq_ok` — the projection never raises, and what it holds.
* `ideaRevenue_pays` — the payouts, and the author's part of them.
-/

namespace YeBlock

open Lib

/-- The share that a derived idea sends to its parents. -/
def parentShareBps : ℤ := 2000

/-- Project a capsule registry into royalty manifests. -/
def lineageRegistry (capsules : Dict ContentId IdeaCapsule) :
    Except PyError (Dict ContentId Manifest) :=
  capsules.items.foldlM (fun registry e => do
    let manifest ← Manifest.new e.1 e.2.author [(e.2.author, basisPoints)] e.2.parents
      (if e.2.parents = [] then 0 else parentShareBps)
    return registry.set e.1 manifest) ∅

/-- Distribute downstream revenue for a capsule across its idea lineage. -/
def ideaRevenue (capsuleId : ContentId) (gross : ℤ) (capsules : Dict ContentId IdeaCapsule) :
    Except PyError (Dict Identity ℤ) := do
  distribute capsuleId gross (← lineageRegistry capsules)

/-! ## The projection -/

namespace IdeaCapsule

/-- The share a capsule sends upstream: none without parents. -/
def parentShareBps (c : IdeaCapsule) : ℤ :=
  if c.parents = [] then 0 else YeBlock.parentShareBps

theorem parentShareBps_in_range (c : IdeaCapsule) :
    0 ≤ c.parentShareBps ∧ c.parentShareBps ≤ basisPoints := by
  rw [parentShareBps]
  split <;> decide

theorem parents_of_parentShareBps (c : IdeaCapsule) (h : 0 < c.parentShareBps) :
    c.parents ≠ [] := by
  intro hnil
  rw [parentShareBps, if_pos hnil] at h
  exact absurd h (lt_irrefl 0)

/-- The manifest of a capsule registered under `id`: all of the local split to its
author. -/
def manifest (c : IdeaCapsule) (id : ContentId) : Manifest where
  artifact := id
  author := c.author
  splits := [(c.author, basisPoints)]
  parents := c.parents
  parentShareBps := c.parentShareBps
  sum_splits := List.sum_singleton
  share_in_range := c.parentShareBps_in_range
  parents_of_share := c.parents_of_parentShareBps

@[simp] theorem manifest_parents (c : IdeaCapsule) (id : ContentId) :
    (c.manifest id).parents = c.parents := rfl

@[simp] theorem manifest_parentShareBps (c : IdeaCapsule) (id : ContentId) :
    (c.manifest id).parentShareBps = c.parentShareBps := rfl

/-- The author receives the whole of a local split. -/
theorem localRoyalties_manifest (c : IdeaCapsule) (id : ContentId) {gross : ℤ} (h : 0 < gross) :
    (c.manifest id).localRoyalties gross = [(c.author, gross)] := by
  have hshares : Apportion.shares gross ([(c.author, basisPoints)].map Prod.snd) = [gross] :=
    Apportion.shares_singleton gross basisPoints_pos
  rw [Manifest.localRoyalties, if_neg h.not_ge]
  simp only [manifest, hshares]
  rfl

/-- The part of the gross that a capsule keeps for its author. -/
theorem keeps_manifest (c : IdeaCapsule) (id : ContentId) (gross : ℤ) :
    (c.manifest id).keeps gross =
      if c.parents = [] then gross else roundHalfUp (gross * 8000) 10000 := by
  rw [Manifest.keeps, manifest_parentShareBps, parentShareBps]
  split
  · rw [sub_zero, mul_comm]
    exact roundHalfUp_mul_left gross basisPoints_pos
  · rfl

end IdeaCapsule

/-- **The projection never raises**: it holds the manifest of every capsule under the
identity the capsule is registered with, and nothing else. -/
theorem lineageRegistry_eq_ok (capsules : Dict ContentId IdeaCapsule) :
    ∃ registry, lineageRegistry capsules = .ok registry ∧
      ∀ id, registry.get? id = (capsules.get? id).map fun c => c.manifest id := by
  have hbody : ∀ e ∈ capsules.items, ∀ registry : Dict ContentId Manifest,
      (do let manifest ← Manifest.new e.1 e.2.author [(e.2.author, basisPoints)] e.2.parents
            (if e.2.parents = [] then 0 else parentShareBps)
          return registry.set e.1 manifest : Except PyError (Dict ContentId Manifest)) =
        pure (registry.set e.1 (e.2.manifest e.1)) := by
    intro e _ registry
    have hnew := Manifest.new_eq (e.2.manifest e.1)
    exact congrArg (fun r => r >>= fun manifest => pure (registry.set e.1 manifest)) hnew
  refine ⟨_, foldlM_eq_foldl capsules.items hbody ∅, fun id => ?_⟩
  rw [Dict.get?_foldl_set (fun e : ContentId × IdeaCapsule => e.2.manifest e.1)
    capsules.nodup_keys, Dict.get?_empty, Option.or_none]
  rfl

/-! ## What the lineage is paid -/

/-- Manifests without negative rows make a distribution reach none. -/
theorem reachesRow_nonneg {registry : Dict ContentId Manifest}
    (h : ∀ artifact m, registry.get? artifact = some m → ∀ e ∈ m.splits, 0 ≤ e.2)
    {levels : ℕ} {seen : Finset ContentId} {artifact : ContentId} {id : Identity} {bps : ℤ}
    (hrow : ReachesRow registry levels seen artifact id bps) : 0 ≤ bps := by
  induction hrow with
  | unknown => decide
  | leaf hget _ hrow => exact h _ _ hget _ hrow
  | kept hget _ hrow => exact h _ _ hget _ hrow
  | upstream _ _ _ _ _ ih => exact ih

section Lineage
variable {capsules : Dict ContentId IdeaCapsule} {registry : Dict ContentId Manifest}
  (hget : ∀ id, registry.get? id = (capsules.get? id).map fun c => c.manifest id)
include hget

theorem exists_capsule {artifact : ContentId} {m : Manifest}
    (h : registry.get? artifact = some m) : ∃ c : IdeaCapsule, m = c.manifest artifact := by
  rw [hget] at h
  obtain ⟨c, _, rfl⟩ := Option.map_eq_some_iff.mp h
  exact ⟨c, rfl⟩

theorem lineage_splits_nonneg (artifact : ContentId) (m : Manifest)
    (h : registry.get? artifact = some m) : ∀ e ∈ m.splits, 0 ≤ e.2 := by
  obtain ⟨c, rfl⟩ := exists_capsule hget h
  intro e he
  rw [List.mem_singleton.mp he]
  exact basisPoints_pos.le

/-- No payment of an idea's lineage is negative. -/
theorem lineage_royalties_nonneg (levels : ℕ) (seen : Finset ContentId) (artifact : ContentId)
    {gross : ℤ} (h : 0 ≤ gross) : ∀ e ∈ royalties registry levels seen artifact gross, 0 ≤ e.2 :=
  nonneg_of_mem_royalties registry levels seen artifact gross
    (fun _ _ hrow => reachesRow_nonneg (lineage_splits_nonneg hget) hrow) h

/-- **The author's part**: no less than the capsule keeps, whatever the other payments
of the lineage are. -/
theorem keeps_le_totalOf_author {levels : ℕ} {id : ContentId} {c : IdeaCapsule}
    (hc : capsules.get? id = some c) {gross : ℤ} (hgross : 0 < gross) :
    (c.manifest id).keeps gross ≤
      totalOf c.author (royalties registry (levels + 1) ∅ id gross) := by
  have hm : registry.get? id = some (c.manifest id) := by
    rw [hget, hc]
    rfl
  have hlocal : ∀ kept, 0 ≤ kept →
      kept ≤ totalOf c.author ((c.manifest id).localRoyalties kept) := by
    intro kept hkept
    rcases hkept.eq_or_lt with rfl | hpos
    · simp [Manifest.localRoyalties]
    · simp [c.localRoyalties_manifest id hpos, totalOf_cons]
  have hbounds := (c.manifest id).keeps_bounds hgross.le
  by_cases hshare : (c.manifest id).parentShareBps = 0
  · rw [royalties_leaf hm (.inr (.inr hshare))]
    exact hbounds.2.trans (hlocal gross hgross.le)
  · have hrest : ∀ e ∈ ((c.manifest id).upstream gross).flatMap fun e =>
        royalties registry levels (insert id ∅) e.1 e.2, 0 ≤ e.2 := by
      intro e he
      obtain ⟨p, hp, he⟩ := List.mem_flatMap.mp he
      have hp0 := (c.manifest id).upstream_nonneg ((c.manifest id).parents_ne_nil hshare)
        hgross.le p hp
      exact lineage_royalties_nonneg hget levels _ p.1 hp0 e he
    rw [royalties_node levels hgross hm (Finset.notMem_empty id) hshare, totalOf_append]
    exact (hlocal _ hbounds.1).trans (le_add_of_nonneg_right (totalOf_nonneg c.author hrest))

end Lineage

/-- **What an idea's lineage is paid**, over every capsule registry: the call returns,
the payouts are not negative and sum to the gross, and the author of a registered capsule
receives its local share at least. -/
theorem ideaRevenue_pays (capsules : Dict ContentId IdeaCapsule) (capsuleId : ContentId)
    (gross : ℤ) (h : 0 ≤ gross) :
    ∃ payouts, ideaRevenue capsuleId gross capsules = .ok payouts ∧
      (∀ amount ∈ payouts.values, 0 ≤ amount) ∧ payouts.sum = gross ∧
        ∀ c, capsules.get? capsuleId = some c →
          (if c.parents = [] then gross else roundHalfUp (gross * 8000) 10000) ≤
            payouts.getD c.author 0 := by
  obtain ⟨registry, hregistry, hget⟩ := lineageRegistry_eq_ok capsules
  have hdist := distribute_eq registry maxLineageDepth 0 ∅ capsuleId gross rfl
  have hnonneg := lineage_royalties_nonneg hget maxLineageDepth ∅ capsuleId h
  refine ⟨_, ?_, Dict.values_tally_nonneg hnonneg, ?_, ?_⟩
  · rw [ideaRevenue, hregistry]
    exact hdist
  · rw [Dict.sum_tally, Dict.sum_empty, zero_add, sum_royalties registry _ _ _ _ h]
  · intro c hc
    rw [← c.keeps_manifest capsuleId, Dict.getD_tally, Dict.getD_empty, zero_add]
    rcases h.eq_or_lt with rfl | hpos
    · exact ((c.manifest capsuleId).keeps_bounds le_rfl).2.trans (totalOf_nonneg c.author hnonneg)
    · exact keeps_le_totalOf_author hget hc hpos

/-- The capsules of the walkthrough: one idea, and one derived from it. -/
def petcareCapsules : Dict ContentId IdeaCapsule :=
  ((∅ : Dict ContentId IdeaCapsule).set "idea-petcare-app" petcareCapsule).set "idea-petcare-pro"
    ((IdeaCapsule.new "idea-petcare-pro" "erik" 0 0 ["idea-petcare-app"]).toOption.get (by decide))

theorem ideaRevenue_pays_petcare :
    ∃ payouts, ideaRevenue "idea-petcare-pro" 500001 petcareCapsules = .ok payouts ∧
      (∀ amount ∈ payouts.values, 0 ≤ amount) ∧ payouts.sum = 500001 ∧
        ∀ c, petcareCapsules.get? "idea-petcare-pro" = some c →
          (if c.parents = [] then 500001 else roundHalfUp (500001 * 8000) 10000) ≤
            payouts.getD c.author 0 :=
  ideaRevenue_pays petcareCapsules "idea-petcare-pro" 500001 (by decide)

end YeBlock
