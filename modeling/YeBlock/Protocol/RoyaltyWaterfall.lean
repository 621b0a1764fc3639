import Mathlib.Data.Finset.Insert
import YeBlock.Lib.Dict
import YeBlock.Lib.Raise
import YeBlock.Protocol.LargestRemainder

/-!
# The royalty waterfall

The gross royalty of an artifact flows down its derivation lineage: a fixed share
goes upstream to the parents and is distributed there by the same rule, the rest is
split locally by the manifest.  Registries are untrusted, so the recursion treats an
unknown, revisited or too deep artifact as a leaf.

Over the recursive program stands its meaning without exceptions and accumulators:
`royalties` lists the single payments a lineage receives, in order, by structural
recursion on the levels left below the depth cap.  `distribute_eq` says that the
program never raises and returns the totals of that list; what is true of the list
is then true of the payouts.

## Main definitions

* `Manifest`, `Manifest.new` — manifests, and the constructor that checks them.
* `distribute`, `splitLocal` — the distribution rule.
* `royalties` — the payments a lineage receives.
* `distribute_eq` — the program totals those payments.
* `distribute_conserves` — the payouts sum to the gross.
-/

namespace YeBlock

open Lib

/-- The defensive bound on derivation depth. -/
def maxLineageDepth : ℕ := 8

/-- A royalty manifest: local payout slices that sum to one hundred percent, and the
share that flows upstream before the local split, if there is an upstream. -/
structure Manifest where
  artifact : ContentId
  author : Identity
  splits : List (Identity × ℤ)
  parents : List ContentId := []
  parentShareBps : ℤ := 0
  sum_splits : (splits.map Prod.snd).sum = basisPoints
  share_in_range : 0 ≤ parentShareBps ∧ parentShareBps ≤ basisPoints
  parents_of_share : 0 < parentShareBps → parents ≠ []

namespace Manifest

/-- The constructor's checks, in order. -/
def new (artifact : ContentId) (author : Identity) (splits : List (Identity × ℤ))
    (parents : List ContentId := []) (parentShareBps : ℤ := 0) : Except PyError Manifest :=
  let total := (splits.map Prod.snd).sum
  if hsum : total = basisPoints then
    if hrange : 0 ≤ parentShareBps ∧ parentShareBps ≤ basisPoints then
      if hparents : 0 < parentShareBps → parents ≠ [] then
        .ok ⟨artifact, author, splits, parents, parentShareBps, hsum, hrange, hparents⟩
      else
        .error (.valueError s!"manifest {artifact}: parent share set but no parents")
    else
      .error (.valueError s!"manifest {artifact}: parent_share_bps out of range")
  else
    .error (.valueError
      s!"manifest {artifact}: splits sum to {total}, expected {basisPoints}")

/-- The constructor accepts every manifest. -/
theorem new_eq (m : Manifest) :
    new m.artifact m.author m.splits m.parents m.parentShareBps = .ok m := by
  rw [new, dif_pos m.sum_splits, dif_pos m.share_in_range, dif_pos m.parents_of_share]

end Manifest

/-- Apply a manifest's local split table to `gross` and accumulate. -/
def splitLocal (manifest : Manifest) (gross : ℤ) (into : Dict Identity ℤ) :
    Except PyError (Dict Identity ℤ) :=
  if gross ≤ 0 then
    .ok into
  else do
    let identities := manifest.splits.map Prod.fst
    let weights := manifest.splits.map Prod.snd
    let amounts ← largestRemainder gross weights
    return into.tally (identities.zip amounts)

/-- Distribute `gross` across the lineage of `artifact`, recursively. -/
def distribute (artifact : ContentId) (gross : ℤ) (registry : Dict ContentId Manifest)
    (depth : ℕ := 0) (seen : Finset ContentId := ∅) : Except PyError (Dict Identity ℤ) :=
  if gross ≤ 0 then
    .ok ∅
  else
    match registry.get? artifact with
    -- no manifest at all: the artifact id itself receives the funds
    | none => .ok ((∅ : Dict Identity ℤ).add artifact gross)
    | some manifest =>
      if artifact ∈ seen ∨ maxLineageDepth ≤ depth ∨ manifest.parentShareBps = 0 then
        splitLocal manifest gross ∅
      else do
        let (localGross, parentsGross) ← unpackPair (← largestRemainder gross
          [basisPoints - manifest.parentShareBps, manifest.parentShareBps])
        let payouts ← splitLocal manifest localGross ∅
        if 0 < parentsGross ∧ manifest.parents ≠ [] then
          let perParent ← largestRemainder parentsGross (List.replicate manifest.parents.length 1)
          let childSeen := insert artifact seen
          (manifest.parents.zip perParent).foldlM (fun payouts e => do
            let sub ← distribute e.1 e.2 registry (depth + 1) childSeen
            return payouts.tally sub.items) payouts
        else
          return payouts
  termination_by maxLineageDepth - depth
  decreasing_by omega

/-! ## The payments a lineage receives -/

namespace Manifest

/-- The payments of a local split. -/
def localRoyalties (m : Manifest) (gross : ℤ) : List (Identity × ℤ) :=
  if gross ≤ 0 then
    []
  else
    (m.splits.map Prod.fst).zip (Apportion.shares gross (m.splits.map Prod.snd))

/-- What a manifest keeps of `gross` for its local split. -/
def keeps (m : Manifest) (gross : ℤ) : ℤ :=
  roundHalfUp (gross * (basisPoints - m.parentShareBps)) basisPoints

/-- What a manifest sends upstream, parent by parent. -/
def upstream (m : Manifest) (gross : ℤ) : List (ContentId × ℤ) :=
  m.parents.zip
    (Apportion.shares (gross - m.keeps gross) (List.replicate m.parents.length 1))

end Manifest

/-- The payments the lineage of `artifact` receives, in order, with `levels` levels
left below the depth cap. -/
def royalties (registry : Dict ContentId Manifest) (levels : ℕ) (seen : Finset ContentId)
    (artifact : ContentId) (gross : ℤ) : List (Identity × ℤ) :=
  if gross ≤ 0 then
    []
  else
    match registry.get? artifact with
    | none => [(artifact, gross)]
    | some m =>
      match levels with
      | 0 => m.localRoyalties gross
      | levels + 1 =>
        if artifact ∈ seen ∨ m.parentShareBps = 0 then
          m.localRoyalties gross
        else
          m.localRoyalties (m.keeps gross) ++ (m.upstream gross).flatMap fun e =>
            royalties registry levels (insert artifact seen) e.1 e.2

/-- Equal weights, one for each parent, have a positive total. -/
theorem sum_replicate_one_pos {α : Type} {parents : List α} (h : parents ≠ []) :
    0 < (List.replicate parents.length (1 : ℤ)).sum := by
  have hlen := List.length_pos_of_ne_nil h
  simpa using hlen

namespace Manifest
variable (m : Manifest)

theorem sum_splits_pos : 0 < (m.splits.map Prod.snd).sum := by
  rw [m.sum_splits]
  exact basisPoints_pos

/-- A manifest that sends a share upstream has parents. -/
theorem parents_ne_nil (h : m.parentShareBps ≠ 0) : m.parents ≠ [] := by
  have hnonneg := m.share_in_range.1
  apply m.parents_of_share
  omega

/-- The split into the local and the upstream part. -/
theorem largestRemainder_keeps (gross : ℤ) :
    largestRemainder gross [basisPoints - m.parentShareBps, m.parentShareBps] =
      .ok [m.keeps gross, gross - m.keeps gross] := by
  have h := largestRemainder_pair gross (basisPoints - m.parentShareBps)
  rwa [sub_sub_cancel] at h

theorem kept_in_range :
    0 ≤ basisPoints - m.parentShareBps ∧ basisPoints - m.parentShareBps ≤ basisPoints :=
  ⟨sub_nonneg.mpr m.share_in_range.2, sub_le_self _ m.share_in_range.1⟩

/-- A manifest keeps a part of what it is given. -/
theorem keeps_bounds {gross : ℤ} (h : 0 ≤ gross) : 0 ≤ m.keeps gross ∧ m.keeps gross ≤ gross :=
  roundHalfUp_part_bounds basisPoints_pos m.kept_in_range h

/-- Every parent is sent a part of what goes upstream. -/
theorem upstream_nonneg (hp : m.parents ≠ []) {gross : ℤ} (h : 0 ≤ gross) :
    ∀ e ∈ m.upstream gross, 0 ≤ e.2 := by
  intro e he
  have hkeeps := (m.keeps_bounds h).2
  have hup : 0 ≤ gross - m.keeps gross := by omega
  refine Apportion.shares_nonneg _ (sum_replicate_one_pos hp) hup ?_ e.2 (List.of_mem_zip he).2
  intro w hw
  rw [List.eq_of_mem_replicate hw]
  exact zero_le_one

/-- The parents are sent all that goes upstream. -/
theorem sum_upstream (hp : m.parents ≠ []) (gross : ℤ) :
    ((m.upstream gross).map Prod.snd).sum = gross - m.keeps gross := by
  rw [upstream, List.map_snd_zip (by simp), Apportion.sum_shares _ (sum_replicate_one_pos hp)]

/-- The local payments sum to the amount split. -/
theorem sum_localRoyalties {gross : ℤ} (h : 0 ≤ gross) :
    ((m.localRoyalties gross).map Prod.snd).sum = gross := by
  rw [localRoyalties]
  split
  · next hle =>
      rw [List.map_nil, List.sum_nil]
      omega
  · rw [List.map_snd_zip (by simp), Apportion.sum_shares _ m.sum_splits_pos]

end Manifest

theorem royalties_of_nonpos (registry : Dict ContentId Manifest) (levels : ℕ)
    (seen : Finset ContentId) (artifact : ContentId) {gross : ℤ} (h : gross ≤ 0) :
    royalties registry levels seen artifact gross = [] := by
  rw [royalties, if_pos h]

section Equations
variable {registry : Dict ContentId Manifest} {artifact : ContentId} {m : Manifest} {gross : ℤ}
  {seen : Finset ContentId}

theorem royalties_unknown (levels : ℕ) (hgross : 0 < gross)
    (hget : registry.get? artifact = none) :
    royalties registry levels seen artifact gross = [(artifact, gross)] := by
  rw [royalties, if_neg hgross.not_ge, hget]

/-- A leaf splits all it is given: at the depth cap, on a revisit, or without an
upstream share. -/
theorem royalties_leaf {levels : ℕ} (hget : registry.get? artifact = some m)
    (hleaf : levels = 0 ∨ artifact ∈ seen ∨ m.parentShareBps = 0) :
    royalties registry levels seen artifact gross = m.localRoyalties gross := by
  rw [royalties, hget]
  split
  · next hle => rw [Manifest.localRoyalties, if_pos hle]
  · cases levels with
    | zero => rfl
    | succ levels => exact if_pos (hleaf.resolve_left (Nat.succ_ne_zero levels))

theorem royalties_node (levels : ℕ) (hgross : 0 < gross) (hget : registry.get? artifact = some m)
    (hseen : artifact ∉ seen) (hshare : m.parentShareBps ≠ 0) :
    royalties registry (levels + 1) seen artifact gross =
      m.localRoyalties (m.keeps gross) ++ (m.upstream gross).flatMap fun e =>
        royalties registry levels (insert artifact seen) e.1 e.2 := by
  rw [royalties, if_neg hgross.not_ge, hget]
  exact if_neg (not_or.mpr ⟨hseen, hshare⟩)

end Equations

/-- **Induction over a distribution**: what holds of an amount of nothing, of an unknown
artifact and of a leaf, and of a node if it holds of whatever its parents are given,
holds of every call. -/
theorem royalties_induction (registry : Dict ContentId Manifest)
    {P : ℕ → Finset ContentId → ContentId → ℤ → List (Identity × ℤ) → Prop}
    (nonpos : ∀ levels seen artifact gross, gross ≤ 0 → P levels seen artifact gross [])
    (unknown : ∀ levels seen artifact gross, 0 < gross → registry.get? artifact = none →
      P levels seen artifact gross [(artifact, gross)])
    (leaf : ∀ levels seen artifact gross m, 0 < gross → registry.get? artifact = some m →
      levels = 0 ∨ artifact ∈ seen ∨ m.parentShareBps = 0 →
      P levels seen artifact gross (m.localRoyalties gross))
    (node : ∀ levels seen artifact gross m, 0 < gross → registry.get? artifact = some m →
      artifact ∉ seen → m.parentShareBps ≠ 0 →
      (∀ parent amount, P levels (insert artifact seen) parent amount
        (royalties registry levels (insert artifact seen) parent amount)) →
      P (levels + 1) seen artifact gross (m.localRoyalties (m.keeps gross) ++
        (m.upstream gross).flatMap fun e =>
          royalties registry levels (insert artifact seen) e.1 e.2)) (levels : ℕ) :
    ∀ seen artifact gross,
      P levels seen artifact gross (royalties registry levels seen artifact gross) := by
  -- whatever is not a node
  have hends : ∀ levels seen artifact gross,
      (0 < gross → ∀ m, registry.get? artifact = some m →
        levels = 0 ∨ artifact ∈ seen ∨ m.parentShareBps = 0) →
      P levels seen artifact gross (royalties registry levels seen artifact gross) := by
    intro levels seen artifact gross hleaf
    by_cases hgross : gross ≤ 0
    · rw [royalties_of_nonpos _ _ _ _ hgross]
      exact nonpos _ _ _ _ hgross
    · cases hget : registry.get? artifact with
      | none =>
          rw [royalties_unknown levels (not_le.mp hgross) hget]
          exact unknown _ _ _ _ (not_le.mp hgross) hget
      | some m =>
          have hm := hleaf (not_le.mp hgross) m hget
          rw [royalties_leaf hget hm]
          exact leaf _ _ _ _ m (not_le.mp hgross) hget hm
  induction levels with
  | zero =>
      intro seen artifact gross
      exact hends 0 seen artifact gross fun _ _ _ => .inl rfl
  | succ levels ih =>
      intro seen artifact gross
      by_cases hnode : 0 < gross ∧ ∃ m, registry.get? artifact = some m ∧
          artifact ∉ seen ∧ m.parentShareBps ≠ 0
      · obtain ⟨hgross, m, hget, hseen, hshare⟩ := hnode
        rw [royalties_node levels hgross hget hseen hshare]
        exact node _ _ _ _ m hgross hget hseen hshare (ih _)
      · refine hends (levels + 1) seen artifact gross fun hgross m hget => .inr ?_
        by_contra hleaf
        exact hnode ⟨hgross, m, hget, not_or.mp hleaf⟩

/-- **Nothing is lost and nothing is paid twice**: the payments of a lineage sum to
the gross, whatever the registry, at every depth and for every set of artifacts seen. -/
theorem sum_royalties (registry : Dict ContentId Manifest) (levels : ℕ)
    (seen : Finset ContentId) (artifact : ContentId) (gross : ℤ) : 0 ≤ gross →
      ((royalties registry levels seen artifact gross).map Prod.snd).sum = gross := by
  refine royalties_induction registry
    (P := fun _ _ _ gross l => 0 ≤ gross → (l.map Prod.snd).sum = gross) ?_ ?_ ?_ ?_ levels seen
    artifact gross
  · intro _ _ _ gross hle h
    simp [le_antisymm hle h]
  · intro _ _ artifact gross _ _ _
    simp
  · intro _ _ _ gross m _ _ _ h
    exact m.sum_localRoyalties h
  · intro levels seen artifact gross m _ _ _ hshare ih h
    have hp := m.parents_ne_nil hshare
    have hchild : ∀ e ∈ m.upstream gross,
        ((royalties registry levels (insert artifact seen) e.1 e.2).map Prod.snd).sum = e.2 :=
      fun e he => ih e.1 e.2 (m.upstream_nonneg hp h e he)
    rw [List.map_append, List.sum_append, m.sum_localRoyalties (m.keeps_bounds h).1,
      List.map_flatMap, sum_flatMap, List.map_congr_left hchild, m.sum_upstream hp]
    omega

/-! ## The program totals those payments -/

theorem splitLocal_eq (m : Manifest) (gross : ℤ) (into : Dict Identity ℤ) :
    splitLocal m gross into = .ok (into.tally (m.localRoyalties gross)) := by
  rw [splitLocal, Manifest.localRoyalties]
  split
  · rfl
  · simp only [largestRemainder_eq gross m.sum_splits_pos]
    rfl

/-- What is sent upstream from nothing is nothing. -/
theorem flatMap_upstream_of_nonpos (registry : Dict ContentId Manifest) (levels : ℕ)
    (seen : Finset ContentId) {m : Manifest} (hp : m.parents ≠ []) {gross : ℤ}
    (h : 0 ≤ gross) (hup : gross - m.keeps gross ≤ 0) :
    (m.upstream gross).flatMap (fun e => royalties registry levels seen e.1 e.2) = [] := by
  have hnonneg : ∀ x ∈ (m.upstream gross).map Prod.snd, 0 ≤ x := by
    intro x hx
    obtain ⟨e, he, rfl⟩ := List.mem_map.mp hx
    exact m.upstream_nonneg hp h e he
  rw [List.flatMap_eq_nil_iff]
  intro e he
  have hle := List.single_le_sum hnonneg e.2 (List.mem_map_of_mem he)
  rw [m.sum_upstream hp] at hle
  exact royalties_of_nonpos registry levels seen e.1 (by omega)

/-- The loop over the parents, once every call in it is known to return the totals of
its own payments. -/
theorem foldlM_distribute {registry : Dict ContentId Manifest} {levels depth : ℕ}
    {seen : Finset ContentId}
    (hsub : ∀ artifact gross, distribute artifact gross registry depth seen =
      .ok ((∅ : Dict Identity ℤ).tally (royalties registry levels seen artifact gross)))
    (l : List (ContentId × ℤ)) (payouts : Dict Identity ℤ) :
    l.foldlM (fun payouts e => do
        let sub ← distribute e.1 e.2 registry depth seen
        return payouts.tally sub.items) payouts =
      .ok (payouts.tally (l.flatMap fun e => royalties registry levels seen e.1 e.2)) := by
  rw [← Dict.foldl_tally]
  refine foldlM_eq_foldl l (fun e _ payouts => ?_) payouts
  rw [hsub, ← Dict.tally_items_tally payouts]
  rfl

/-- A node, once every call on a parent is known to return the totals of its own
payments: the local payments come first, then the parents'. -/
theorem distribute_node {registry : Dict ContentId Manifest} {levels depth : ℕ}
    {seen : Finset ContentId} {artifact : ContentId} {m : Manifest} {gross : ℤ}
    (hget : registry.get? artifact = some m) (hgross : 0 < gross)
    (hdepth : depth < maxLineageDepth) (hseen : artifact ∉ seen) (hshare : m.parentShareBps ≠ 0)
    (hsub : ∀ parent amount,
      distribute parent amount registry (depth + 1) (insert artifact seen) =
        .ok ((∅ : Dict Identity ℤ).tally
          (royalties registry levels (insert artifact seen) parent amount))) :
    distribute artifact gross registry depth seen =
      .ok ((∅ : Dict Identity ℤ).tally (m.localRoyalties (m.keeps gross) ++
        (m.upstream gross).flatMap fun e =>
          royalties registry levels (insert artifact seen) e.1 e.2)) := by
  have hp := m.parents_ne_nil hshare
  have hloop := foldlM_distribute hsub (m.upstream gross)
  rw [distribute, if_neg (not_le.mpr hgross), hget]
  simp only [hseen, not_le.mpr hdepth, hshare, or_self, if_false]
  rw [m.largestRemainder_keeps, Dict.tally_append]
  simp only [bind, Except.bind, unpackPair_pair, splitLocal_eq] at hloop ⊢
  by_cases hup : 0 < gross - m.keeps gross
  · rw [if_pos ⟨hup, hp⟩, largestRemainder_eq _ (sum_replicate_one_pos hp)]
    exact hloop _
  · rw [if_neg fun h => hup h.1,
      flatMap_upstream_of_nonpos registry levels _ hp (by omega) (by omega)]
    rfl

/-- **The program never raises**, and returns the totals of the payments. -/
theorem distribute_eq (registry : Dict ContentId Manifest) (levels : ℕ) :
    ∀ (depth : ℕ) (seen : Finset ContentId) (artifact : ContentId) (gross : ℤ),
      maxLineageDepth - depth = levels →
        distribute artifact gross registry depth seen =
          .ok ((∅ : Dict Identity ℤ).tally (royalties registry levels seen artifact gross)) := by
  induction levels with
  | zero =>
      intro depth seen artifact gross hdepth
      have hcap : maxLineageDepth ≤ depth := by omega
      rw [distribute, royalties]
      split
      · rfl
      · cases registry.get? artifact with
        | none => rfl
        | some m => simp only [hcap, true_or, or_true, if_true, splitLocal_eq]
  | succ levels ih =>
      intro depth seen artifact gross hdepth
      have hlt : depth < maxLineageDepth := by omega
      by_cases hgross : gross ≤ 0
      · rw [distribute, if_pos hgross, royalties_of_nonpos registry _ _ _ hgross]
        rfl
      cases hget : registry.get? artifact with
      | none =>
          rw [distribute, royalties, if_neg hgross, if_neg hgross, hget]
          rfl
      | some m =>
          by_cases hleaf : artifact ∈ seen ∨ m.parentShareBps = 0
          · rw [distribute, royalties, if_neg hgross, if_neg hgross, hget]
            simp only [hleaf, not_le.mpr hlt, false_or, if_true]
            exact splitLocal_eq m gross ∅
          · rw [not_or] at hleaf
            rw [royalties, if_neg hgross, hget]
            simp only [hleaf.1, hleaf.2, or_self, if_false]
            refine distribute_node hget (by omega) hlt hleaf.1 hleaf.2 ?_
            intro parent amount
            exact ih (depth + 1) (insert artifact seen) parent amount (by omega)

/-- **Royalty conservation**: on every registry, every artifact and every gross that is
not negative, the program returns, and the payouts sum to the gross. -/
theorem distribute_conserves (registry : Dict ContentId Manifest) (artifact : ContentId)
    (gross : ℤ) (h : 0 ≤ gross) :
    ∃ payouts, distribute artifact gross registry = .ok payouts ∧ payouts.sum = gross := by
  refine ⟨_, distribute_eq registry maxLineageDepth 0 ∅ artifact gross rfl, ?_⟩
  rw [Dict.sum_tally, Dict.sum_empty, zero_add, sum_royalties registry _ _ _ _ h]

/-- The lineage of the walkthrough: legal derives from formal, formal from a base style. -/
def loraRegistry : Dict ContentId Manifest where
  items :=
    [("lora-legal",
      { artifact := "lora-legal", author := "alice",
        splits := [("alice", 8000), ("lp-pool", 2000)],
        parents := ["lora-formal"], parentShareBps := 2500,
        sum_splits := by decide, share_in_range := by decide, parents_of_share := by decide }),
    ("lora-formal",
      { artifact := "lora-formal", author := "bob", splits := [("bob", 10000)],
        parents := ["lora-base-style"], parentShareBps := 1000,
        sum_splits := by decide, share_in_range := by decide, parents_of_share := by decide }),
    ("lora-base-style",
      { artifact := "lora-base-style", author := "carol", splits := [("carol", 10000)],
        sum_splits := by decide, share_in_range := by decide, parents_of_share := by decide })]
  nodup_keys := by decide

theorem distribute_conserves_lora :
    ∃ payouts, distribute "lora-legal" 1000003 loraRegistry = .ok payouts ∧
      payouts.sum = 1000003 :=
  distribute_conserves loraRegistry "lora-legal" 1000003 (by decide)

end YeBlock
