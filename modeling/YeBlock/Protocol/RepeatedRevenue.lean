import YeBlock.Protocol.ExactWaterfall
import YeBlock.Protocol.IdeaRevenue

/-!
# Revenue that keeps coming

An artifact that keeps earning is settled again and again, each time by the same waterfall.
Its shares do not change, so over a sequence of settlements every identity is due its share
of all the revenue, and what rounding keeps from it grows with the number of settlements
only.  How much a settlement is off by is bounded by the shape of the registry: how many
split entries and how many parents a manifest has, at most.

## Main definitions

* `ShapedBy` — the bounds on a registry; `entriesBound` — the entries divided within them.
* `settlements`, `paidOver` — the payouts of a sequence of settlements, added up.
* `repeated_settlement` — they are the shares of all the revenue.
* `chunking_is_harmless` — two ways in which the revenue of an idea can come in.
-/

namespace YeBlock

open Lib

/-! ## The shape of a registry -/

/-- No manifest has more split entries than `splits`, nor more parents than `parents`. -/
def ShapedBy (splits parents : ℕ) (registry : Dict ContentId Manifest) : Prop :=
  ∀ a m, registry.get? a = some m → m.splits.length ≤ splits ∧ m.parents.length ≤ parents

/-- How many entries a settlement divides among, at most. -/
def entriesBound (splits parents : ℕ) : ℕ → ℕ
  | 0 => splits
  | levels + 1 => 2 + splits + parents + parents * entriesBound splits parents levels

theorem splits_le_entriesBound (splits parents levels : ℕ) :
    splits ≤ entriesBound splits parents levels := by
  cases levels with
  | zero => exact le_rfl
  | succ levels =>
      rw [entriesBound]
      omega

theorem entriesDivided_le {registry : Dict ContentId Manifest} {splits parents : ℕ}
    (hshape : ShapedBy splits parents registry) (levels : ℕ) (seen : Finset ContentId)
    (artifact : ContentId) :
    entriesDivided registry levels seen artifact ≤ entriesBound splits parents levels := by
  refine lineage_induction registry (P := fun levels seen artifact =>
    entriesDivided registry levels seen artifact ≤ entriesBound splits parents levels)
    ?unknown ?leaf ?node levels seen artifact
  case unknown =>
    intro levels seen artifact hget
    rw [entriesDivided_unknown _ hget]
    exact Nat.zero_le _
  case leaf =>
    intro levels seen artifact m hget hleaf
    rw [entriesDivided_leaf hget hleaf]
    exact (hshape artifact m hget).1.trans (splits_le_entriesBound splits parents levels)
  case node =>
    intro levels seen artifact m hget hseen hshare ih
    obtain ⟨hsplits, hparents⟩ := hshape artifact m hget
    have hchildren : (m.parents.map fun parent =>
        entriesDivided registry levels (insert artifact seen) parent).sum ≤
        parents * entriesBound splits parents levels := by
      have hsum := List.sum_le_card_nsmul (m.parents.map fun parent =>
        entriesDivided registry levels (insert artifact seen) parent)
        (entriesBound splits parents levels) (by simpa using fun p _ => ih p)
      rw [List.length_map, nsmul_eq_mul, Nat.cast_id] at hsum
      exact hsum.trans (Nat.mul_le_mul_right _ hparents)
    rw [entriesDivided_node _ hget hseen hshare, entriesBound]
    omega

/-! ## A sequence of settlements -/

/-- What an identity is paid in a sequence of settlements. -/
def paidOver (rounds : List (Dict Identity ℤ)) (payee : Identity) : ℤ :=
  (rounds.map fun payouts => payouts.getD payee 0).sum

section Rounds
variable {registry : Dict ContentId Manifest} {splits parents : ℕ} (payees : Finset Identity)

/-- The payouts of a sequence of settlements. -/
def settlements (registry : Dict ContentId Manifest) (artifact : ContentId)
    (grosses : List ℤ) : List (Dict Identity ℤ) :=
  grosses.map fun gross => (∅ : Dict Identity ℤ).tally
    (royalties registry maxLineageDepth ∅ artifact gross)

/-- The settlements of a sequence of grosses all return. -/
theorem mapM_distribute (registry : Dict ContentId Manifest) (artifact : ContentId)
    (grosses : List ℤ) :
    grosses.mapM (fun gross => distribute artifact gross registry) =
      .ok (settlements registry artifact grosses) := by
  have heach : (fun gross => distribute artifact gross registry) =
      fun gross => pure ((∅ : Dict Identity ℤ).tally
        (royalties registry maxLineageDepth ∅ artifact gross)) := by
    funext gross
    exact distribute_eq registry maxLineageDepth 0 ∅ artifact gross rfl
  rw [heach, List.mapM_pure]
  rfl

/-- **One more settlement is off by one settlement's error more.** -/
theorem two_mul_spread_rounds_le (hsplits : SplitsNonneg registry)
    (hshape : ShapedBy splits parents registry) (levels : ℕ) (artifact : ContentId)
    {grosses : List ℤ} (h : ∀ gross ∈ grosses, 0 ≤ gross) :
    2 * spread payees
        (grosses.flatMap fun gross => asRationals (royalties registry levels ∅ artifact gross))
        (grosses.flatMap fun gross : ℤ => exactRoyalties registry levels ∅ artifact gross) ≤
      grosses.length * entriesBound splits parents levels := by
  have hentries : (entriesDivided registry levels ∅ artifact : ℚ) ≤
      entriesBound splits parents levels :=
    Nat.cast_le.mpr (entriesDivided_le hshape levels ∅ artifact)
  have hround : ∀ gross ∈ grosses, 2 * spread payees
      (asRationals (royalties registry levels ∅ artifact gross))
      (exactRoyalties registry levels ∅ artifact gross) ≤
        entriesBound splits parents levels := by
    intro gross hgross
    have hone := two_mul_spread_royalties_le payees hsplits levels ∅ artifact gross gross
      (h gross hgross) (Int.cast_nonneg (h gross hgross))
    rw [sub_self, abs_zero, mul_zero, zero_add] at hone
    exact hone.trans hentries
  have hrounds := List.sum_le_sum hround
  rw [List.sum_map_mul_left, List.map_const', List.sum_replicate, nsmul_eq_mul] at hrounds
  have hflat := spread_flatMap_le payees grosses
    (fun gross => asRationals (royalties registry levels ∅ artifact gross))
    (fun gross : ℤ => exactRoyalties registry levels ∅ artifact gross)
  linarith

/-- What a sequence of settlements pays an identity, as a total over the payments. -/
theorem paidOver_tally (payments : ℤ → List (Identity × ℤ)) (grosses : List ℤ)
    (payee : Identity) :
    (paidOver (grosses.map fun gross => (∅ : Dict Identity ℤ).tally (payments gross)) payee : ℚ) =
      totalOf payee (grosses.flatMap fun gross => asRationals (payments gross)) := by
  rw [totalOf_flatMap, paidOver, List.map_map, Int.cast_list_sum, List.map_map]
  congr 1
  refine List.map_congr_left fun gross _ => ?_
  simp [totalOf_asRationals, Dict.getD_tally]

/-- What an identity is due of a sequence of grosses. -/
theorem totalOf_exact_rounds (registry : Dict ContentId Manifest) (artifact : ContentId)
    (grosses : List ℤ) (payee : Identity) :
    totalOf payee (grosses.flatMap fun gross : ℤ =>
        exactRoyalties registry maxLineageDepth ∅ artifact gross) =
      (grosses.sum : ℚ) * exactShare registry artifact payee := by
  simp only [totalOf_flatMap, totalOf_exactRoyalties]
  rw [List.sum_map_mul_right, Int.cast_list_sum]

/-- What a sequence of settlements pays, and what is due. -/
theorem two_mul_paidOver_sub_le (hsplits : SplitsNonneg registry)
    (hshape : ShapedBy splits parents registry) (artifact : ContentId) {grosses : List ℤ}
    (h : ∀ gross ∈ grosses, 0 ≤ gross) :
    2 * ∑ payee ∈ payees,
        |(paidOver (settlements registry artifact grosses) payee : ℚ) -
          grosses.sum * exactShare registry artifact payee| ≤
      grosses.length * entriesBound splits parents maxLineageDepth := by
  have hspread := two_mul_spread_rounds_le payees hsplits hshape maxLineageDepth artifact h
  simpa only [spread, settlements, paidOver_tally, totalOf_exact_rounds] using hspread

end Rounds

/-- **Repeated settlements pay the shares of all the revenue**: on a registry without
negative split entries, for every artifact and every sequence of grosses that are not
negative, the settlements return, and what any set of identities is paid in all of them is
off from their shares of the sum by at most half a unit for each settlement and each entry
that a registry of this shape divides among. -/
theorem repeated_settlement {registry : Dict ContentId Manifest} {splits parents : ℕ}
    (hsplits : SplitsNonneg registry) (hshape : ShapedBy splits parents registry)
    (artifact : ContentId) (grosses : List ℤ) (h : ∀ gross ∈ grosses, 0 ≤ gross) :
    ∃ rounds, grosses.mapM (fun gross => distribute artifact gross registry) = .ok rounds ∧
      ∀ payees : Finset Identity,
        2 * ∑ payee ∈ payees,
            |(paidOver rounds payee : ℚ) - grosses.sum * exactShare registry artifact payee| ≤
          grosses.length * entriesBound splits parents maxLineageDepth :=
  ⟨_, mapM_distribute registry artifact grosses,
    fun payees => two_mul_paidOver_sub_le payees hsplits hshape artifact h⟩

theorem shapedBy_loraRegistry : ShapedBy 2 1 loraRegistry := by
  have hshape : ∀ e ∈ loraRegistry.items, e.2.splits.length ≤ 2 ∧ e.2.parents.length ≤ 1 := by
    decide
  intro artifact m hget
  exact hshape _ (Dict.mem_items_of_get? hget)

theorem repeated_settlement_lora :
    ∃ rounds, [1000003, 7].mapM (fun gross => distribute "lora-legal" gross loraRegistry) =
        .ok rounds ∧
      ∀ payees : Finset Identity,
        2 * ∑ payee ∈ payees,
            |(paidOver rounds payee : ℚ) -
              ([1000003, 7] : List ℤ).sum * exactShare loraRegistry "lora-legal" payee| ≤
          ([1000003, 7] : List ℤ).length * entriesBound 2 1 maxLineageDepth :=
  repeated_settlement splitsNonneg_loraRegistry shapedBy_loraRegistry "lora-legal" [1000003, 7]
    (by decide)

/-! ## The revenue of an idea -/

/-- The lineage of capsules with so many parents at most has one split entry for each. -/
theorem lineage_shape {capsules : Dict ContentId IdeaCapsule}
    {registry : Dict ContentId Manifest} {parents : ℕ}
    (hget : ∀ id, registry.get? id = (capsules.get? id).map fun c => c.manifest id)
    (hparents : ∀ id c, capsules.get? id = some c → c.parents.length ≤ parents) :
    ShapedBy 1 parents registry := by
  intro artifact m hm
  rw [hget] at hm
  obtain ⟨c, hc, rfl⟩ := Option.map_eq_some_iff.mp hm
  exact ⟨le_rfl, hparents artifact c hc⟩

/-- **It makes no difference how an idea's revenue comes in**, but for rounding: if no
capsule of a registry has more than `parents` parents, two sequences of revenues of one sum
both settle, and over any set of identities what they pay differs by at most half a unit for
each settlement and each entry that a lineage of this shape divides among. -/
theorem chunking_is_harmless (capsules : Dict ContentId IdeaCapsule) (parents : ℕ)
    (hparents : ∀ id c, capsules.get? id = some c → c.parents.length ≤ parents)
    (capsuleId : ContentId) (grosses grosses' : List ℤ) (h : ∀ gross ∈ grosses, 0 ≤ gross)
    (h' : ∀ gross ∈ grosses', 0 ≤ gross) (hsum : grosses.sum = grosses'.sum) :
    ∃ rounds rounds',
      grosses.mapM (fun gross => ideaRevenue capsuleId gross capsules) = .ok rounds ∧
      grosses'.mapM (fun gross => ideaRevenue capsuleId gross capsules) = .ok rounds' ∧
        ∀ payees : Finset Identity,
          2 * ∑ payee ∈ payees, |paidOver rounds payee - paidOver rounds' payee| ≤
            (grosses.length + grosses'.length) * entriesBound 1 parents maxLineageDepth := by
  obtain ⟨registry, hregistry, hget⟩ := lineageRegistry_eq_ok capsules
  have hsplits : SplitsNonneg registry := lineage_splits_nonneg hget
  have hshape := lineage_shape hget hparents
  have hcalls : (fun gross => ideaRevenue capsuleId gross capsules) =
      fun gross => distribute capsuleId gross registry := by
    funext gross
    rw [ideaRevenue, hregistry]
    rfl
  refine ⟨_, _, by rw [hcalls, mapM_distribute], by rw [hcalls, mapM_distribute], fun payees => ?_⟩
  have hclose := two_mul_paidOver_sub_le payees hsplits hshape capsuleId h
  have hclose' := two_mul_paidOver_sub_le payees hsplits hshape capsuleId h'
  rw [← hsum] at hclose'
  have hboth : ∀ payee ∈ payees,
      |(paidOver (settlements registry capsuleId grosses) payee : ℚ) -
          paidOver (settlements registry capsuleId grosses') payee| ≤
        |(paidOver (settlements registry capsuleId grosses) payee : ℚ) -
            grosses.sum * exactShare registry capsuleId payee| +
          |(paidOver (settlements registry capsuleId grosses') payee : ℚ) -
            grosses.sum * exactShare registry capsuleId payee| := by
    intro payee _
    rw [abs_sub_comm (paidOver (settlements registry capsuleId grosses') payee : ℚ)]
    exact abs_sub_le _ _ _
  have htotal := Finset.sum_le_sum hboth
  rw [Finset.sum_add_distrib] at htotal
  have hrational : 2 * ∑ payee ∈ payees,
      |(paidOver (settlements registry capsuleId grosses) payee : ℚ) -
        paidOver (settlements registry capsuleId grosses') payee| ≤
      (grosses.length + grosses'.length) * entriesBound 1 parents maxLineageDepth := by
    linarith
  exact_mod_cast hrational

theorem parents_petcareCapsules (id : ContentId) (c : IdeaCapsule)
    (h : petcareCapsules.get? id = some c) : c.parents.length ≤ 1 := by
  have hparents : ∀ e ∈ petcareCapsules.items, e.2.parents.length ≤ 1 := by decide
  exact hparents _ (Dict.mem_items_of_get? h)

theorem chunking_is_harmless_petcare :
    ∃ rounds rounds',
      [500001].mapM (fun gross => ideaRevenue "idea-petcare-pro" gross petcareCapsules) =
          .ok rounds ∧
        [500000, 1].mapM (fun gross => ideaRevenue "idea-petcare-pro" gross petcareCapsules) =
          .ok rounds' ∧
        ∀ payees : Finset Identity,
          2 * ∑ payee ∈ payees, |paidOver rounds payee - paidOver rounds' payee| ≤
            (([500001] : List ℤ).length + ([500000, 1] : List ℤ).length) *
              entriesBound 1 1 maxLineageDepth :=
  chunking_is_harmless petcareCapsules 1 parents_petcareCapsules "idea-petcare-pro" [500001]
    [500000, 1] (by decide) (by decide) (by decide)

end YeBlock
