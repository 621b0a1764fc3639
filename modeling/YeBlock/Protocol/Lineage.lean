import YeBlock.Lib.Chains
import YeBlock.Protocol.RoyaltyWaterfall

/-!
# What a distribution sees of the lineage

The parent links of a registry form an arbitrary graph, with shared ancestors and
possibly with cycles.  A distribution walks it from the root, at most eight links deep.

`royalties_congr` says that it reads the registry only at artifacts so reachable, and
`payee_of_mem_royalties` that it pays only identities named there.  `plainDistribute` is
the recursion without the depth cap and without the check for revisited artifacts; on a
cycle it would run forever, so it is given the number of nested calls it may make.
Where every chain from the root is short enough the guards never fire, nine calls
suffice, and the two agree.

## Main definitions

* `ParentLink registry` — the parent links of a registry.
* `distribute_lineage_only` — the payouts depend on the lineage alone.
* `plainDistribute` — the recursion without guards.
* `Sound`, `distribute_eq_plain` — where the guards never fire, the two agree.
-/

namespace YeBlock

open Lib

/-- The manifest of `artifact` lists `parent` among its parents. -/
def ParentLink (registry : Dict ContentId Manifest) (artifact parent : ContentId) : Prop :=
  ∃ m, registry.get? artifact = some m ∧ parent ∈ m.parents

theorem Manifest.mem_parents_of_mem_upstream {m : Manifest} {gross : ℤ} {e : ContentId × ℤ}
    (h : e ∈ m.upstream gross) : e.1 ∈ m.parents := (List.of_mem_zip h).1

theorem Manifest.mem_splits_of_mem_localRoyalties {m : Manifest} {gross : ℤ} {e : Identity × ℤ}
    (h : e ∈ m.localRoyalties gross) : e.1 ∈ m.splits.map Prod.fst := by
  rw [localRoyalties] at h
  split at h
  · cases h
  · exact (List.of_mem_zip h).1

/-! ## Only the lineage matters -/

/-- **The payments read the registry only at the artifacts in reach.** -/
theorem royalties_congr {registry registry' : Dict ContentId Manifest} (levels : ℕ)
    (seen : Finset ContentId) (artifact : ContentId) (gross : ℤ) :
    (∀ n b, n ≤ levels → Links (ParentLink registry) n artifact b →
        registry.get? b = registry'.get? b) →
      royalties registry levels seen artifact gross =
        royalties registry' levels seen artifact gross := by
  refine royalties_induction registry
    (P := fun levels seen artifact gross l =>
      (∀ n b, n ≤ levels → Links (ParentLink registry) n artifact b →
        registry.get? b = registry'.get? b) → l = royalties registry' levels seen artifact gross)
    ?_ ?_ ?_ ?_ levels seen artifact gross
  · intro levels seen artifact gross hgross _
    exact (royalties_of_nonpos registry' levels seen artifact hgross).symm
  · intro levels seen artifact gross hgross hget h
    have hhere := h 0 artifact (Nat.zero_le _) (.nil artifact)
    exact (royalties_unknown levels hgross (hhere ▸ hget)).symm
  · intro levels seen artifact gross m _ hget hleaf h
    have hhere := h 0 artifact (Nat.zero_le _) (.nil artifact)
    exact (royalties_leaf (hhere ▸ hget) hleaf).symm
  · intro levels seen artifact gross m hgross hget hseen hshare ih h
    have hhere := h 0 artifact (Nat.zero_le _) (.nil artifact)
    rw [royalties_node levels hgross (hhere ▸ hget) hseen hshare]
    congr 1
    apply List.flatMap_congr
    intro e he
    apply ih
    intro n b hn hb
    have hlink : ParentLink registry artifact e.1 :=
      ⟨m, hget, Manifest.mem_parents_of_mem_upstream he⟩
    exact h (n + 1) b (Nat.succ_le_succ hn) (.cons hlink hb)

/-- The identities that `b` names as payees: those of its splits, or itself if it is
not registered. -/
def NamedAt (registry : Dict ContentId Manifest) (b : ContentId) (payee : Identity) : Prop :=
  (∃ m, registry.get? b = some m ∧ payee ∈ m.splits.map Prod.fst) ∨
    (registry.get? b = none ∧ payee = b)

/-- **Every payee is named in reach.** -/
theorem payee_of_mem_royalties {registry : Dict ContentId Manifest} (levels : ℕ)
    (seen : Finset ContentId) (artifact : ContentId) (gross : ℤ) :
    ∀ e ∈ royalties registry levels seen artifact gross, ∃ n b, n ≤ levels ∧
      Links (ParentLink registry) n artifact b ∧ NamedAt registry b e.1 := by
  refine royalties_induction registry
    (P := fun levels _ artifact _ l => ∀ e ∈ l, ∃ n b, n ≤ levels ∧
      Links (ParentLink registry) n artifact b ∧ NamedAt registry b e.1)
    ?_ ?_ ?_ ?_ levels seen artifact gross
  · intro _ _ _ _ _ e he
    cases he
  · intro levels _ artifact gross _ hget e he
    rw [List.mem_singleton] at he
    exact ⟨0, artifact, Nat.zero_le _, .nil artifact, .inr ⟨hget, by rw [he]⟩⟩
  · intro levels _ artifact gross m _ hget _ e he
    exact ⟨0, artifact, Nat.zero_le _, .nil artifact,
      .inl ⟨m, hget, Manifest.mem_splits_of_mem_localRoyalties he⟩⟩
  · intro levels _ artifact gross m _ hget _ _ ih e he
    rcases List.mem_append.mp he with hkept | hup
    · exact ⟨0, artifact, Nat.zero_le _, .nil artifact,
        .inl ⟨m, hget, Manifest.mem_splits_of_mem_localRoyalties hkept⟩⟩
    · obtain ⟨p, hp, he⟩ := List.mem_flatMap.mp hup
      obtain ⟨n, b, hn, hb, hpayee⟩ := ih _ _ e he
      have hlink : ParentLink registry artifact p.1 :=
        ⟨m, hget, Manifest.mem_parents_of_mem_upstream hp⟩
      exact ⟨n + 1, b, Nat.succ_le_succ hn, .cons hlink hb, hpayee⟩

/-- **Settlement depends only on the lineage**: registries that agree on every artifact
at most eight parent links away give the same payouts, and every identity paid is named
by an artifact so reachable. -/
theorem distribute_lineage_only {registry registry' : Dict ContentId Manifest}
    {artifact : ContentId}
    (h : ∀ n b, n ≤ maxLineageDepth → Links (ParentLink registry) n artifact b →
      registry.get? b = registry'.get? b) (gross : ℤ) :
    distribute artifact gross registry = distribute artifact gross registry' ∧
      ∀ payouts, distribute artifact gross registry = .ok payouts → ∀ payee ∈ payouts.keys,
        ∃ n b, n ≤ maxLineageDepth ∧ Links (ParentLink registry) n artifact b ∧
          NamedAt registry b payee := by
  have heq := distribute_eq registry maxLineageDepth 0 ∅ artifact gross rfl
  constructor
  · rw [heq, distribute_eq registry' maxLineageDepth 0 ∅ artifact gross rfl,
      royalties_congr maxLineageDepth ∅ artifact gross h]
  · intro payouts hpayouts payee hpayee
    rw [heq, Except.ok.injEq] at hpayouts
    subst hpayouts
    rw [Dict.mem_keys_tally] at hpayee
    obtain ⟨e, he, rfl⟩ := List.mem_map.mp (hpayee.resolve_left (by simp))
    exact payee_of_mem_royalties maxLineageDepth ∅ artifact gross e he

/-- The two links of the walkthrough's lineage. -/
theorem parentLink_loraRegistry {a b : ContentId} (h : ParentLink loraRegistry a b) :
    (a = "lora-legal" ∧ b = "lora-formal") ∨ (a = "lora-formal" ∧ b = "lora-base-style") := by
  obtain ⟨m, hget, hb⟩ := h
  have hmem := Dict.mem_items_of_get? hget
  simp only [loraRegistry, List.mem_cons, Prod.mk.injEq, List.not_mem_nil, or_false] at hmem
  rcases hmem with ⟨rfl, rfl⟩ | ⟨rfl, rfl⟩ | ⟨rfl, rfl⟩
  · exact .inl ⟨rfl, by simpa using hb⟩
  · exact .inr ⟨rfl, by simpa using hb⟩
  · cases hb

/-- A manifest that lists itself and the root of the walkthrough as parents. -/
def strayManifest : Manifest :=
  { artifact := "lora-stray", author := "mallory", splits := [("mallory", 10000)],
    parents := ["lora-stray", "lora-legal"], parentShareBps := 5000,
    sum_splits := by decide, share_in_range := by decide, parents_of_share := by decide }

/-- Registering it changes nothing for the lineage, which never reaches it. -/
theorem distribute_lineage_only_lora :
    distribute "lora-legal" 1000003 loraRegistry =
        distribute "lora-legal" 1000003 (loraRegistry.set "lora-stray" strayManifest) ∧
      ∀ payouts, distribute "lora-legal" 1000003 loraRegistry = .ok payouts →
        ∀ payee ∈ payouts.keys, ∃ n b, n ≤ maxLineageDepth ∧
          Links (ParentLink loraRegistry) n "lora-legal" b ∧ NamedAt loraRegistry b payee := by
  apply distribute_lineage_only
  intro n b _ h
  have hstep : ∀ a b, a ≠ "lora-stray" → ParentLink loraRegistry a b → b ≠ "lora-stray" := by
    intro a b _ hab
    rcases parentLink_loraRegistry hab with ⟨_, rfl⟩ | ⟨_, rfl⟩ <;> decide
  have hne : b ≠ "lora-stray" := h.preserves (P := (· ≠ "lora-stray")) hstep (by decide)
  rw [Dict.get?_set, if_neg hne]

/-! ## The recursion without guards -/

/-- Distribute `gross` across the lineage of `artifact` with neither the depth cap nor
the check for revisited artifacts, in at most `fuel` nested calls; `none` when these are
not enough. -/
def plainDistribute (registry : Dict ContentId Manifest) :
    ℕ → ContentId → ℤ → ExceptT PyError Option (Dict Identity ℤ)
  | 0, _, _ => ExceptT.mk none
  | fuel + 1, artifact, gross =>
    if gross ≤ 0 then
      return ∅
    else
      match registry.get? artifact with
      | none => return (∅ : Dict Identity ℤ).add artifact gross
      | some manifest =>
        if manifest.parentShareBps = 0 then
          splitLocal manifest gross ∅
        else do
          let (localGross, parentsGross) ← unpackPair (← largestRemainder gross
            [basisPoints - manifest.parentShareBps, manifest.parentShareBps])
          let payouts ← splitLocal manifest localGross ∅
          if 0 < parentsGross ∧ manifest.parents ≠ [] then
            let perParent ← largestRemainder parentsGross
              (List.replicate manifest.parents.length 1)
            (manifest.parents.zip perParent).foldlM (fun payouts e => do
              let sub ← plainDistribute registry fuel e.1 e.2
              return payouts.tally sub.items) payouts
          else
            return payouts

/-- The loop of the plain recursion, once every call in it is known to return the totals
of its own payments. -/
theorem foldlM_plainDistribute {registry : Dict ContentId Manifest} {levels fuel : ℕ}
    {seen : Finset ContentId} (l : List (ContentId × ℤ))
    (hsub : ∀ e ∈ l, plainDistribute registry fuel e.1 e.2 =
      pure ((∅ : Dict Identity ℤ).tally (royalties registry levels seen e.1 e.2)))
    (payouts : Dict Identity ℤ) :
    l.foldlM (fun payouts e => do
        let sub ← plainDistribute registry fuel e.1 e.2
        return payouts.tally sub.items) payouts =
      pure (payouts.tally (l.flatMap fun e => royalties registry levels seen e.1 e.2)) := by
  rw [← Dict.foldl_tally]
  refine foldlM_eq_foldl l (fun e he payouts => ?_) payouts
  rw [hsub e he, pure_bind, Dict.tally_items_tally]

/-- A node of the plain recursion, once every call on a parent is known to return the
totals of its own payments. -/
theorem plainDistribute_node {registry : Dict ContentId Manifest} {levels fuel : ℕ}
    {seen : Finset ContentId} {artifact : ContentId} {m : Manifest} {gross : ℤ}
    (hget : registry.get? artifact = some m) (hgross : 0 < gross) (hshare : m.parentShareBps ≠ 0)
    (hsub : ∀ parent ∈ m.parents, ∀ amount, plainDistribute registry fuel parent amount =
      pure ((∅ : Dict Identity ℤ).tally (royalties registry levels seen parent amount))) :
    plainDistribute registry (fuel + 1) artifact gross =
      pure ((∅ : Dict Identity ℤ).tally (m.localRoyalties (m.keeps gross) ++
        (m.upstream gross).flatMap fun e => royalties registry levels seen e.1 e.2)) := by
  have hp := m.parents_ne_nil hshare
  have hloop := foldlM_plainDistribute (m.upstream gross) fun e he =>
    hsub e.1 (Manifest.mem_parents_of_mem_upstream he) e.2
  rw [plainDistribute, if_neg hgross.not_ge, hget]
  simp only [hshare, if_false]
  rw [m.largestRemainder_keeps, Dict.tally_append]
  have hlift : ∀ {α : Type} (x : α), (liftM (Except.ok x : Except PyError α) :
      ExceptT PyError Option α) = pure x := fun _ => rfl
  simp only [hlift, pure_bind, unpackPair_pair, splitLocal_eq] at hloop ⊢
  by_cases hup : 0 < gross - m.keeps gross
  · rw [if_pos ⟨hup, hp⟩, largestRemainder_eq _ (sum_replicate_one_pos hp)]
    exact hloop _
  · rw [if_neg fun h => hup h.1,
      flatMap_upstream_of_nonpos registry levels _ hp (by omega) (by omega)]
    rfl

/-- Every chain from the artifact fits into the levels left, and none leads back to
anything seen. -/
structure Sound (registry : Dict ContentId Manifest) (levels : ℕ) (seen : Finset ContentId)
    (artifact : ContentId) : Prop where
  bounded : ∀ n b, Links (ParentLink registry) n artifact b → n ≤ levels
  unseen : ∀ s ∈ seen, ∀ n, ¬ Links (ParentLink registry) n artifact s

namespace Sound
variable {registry : Dict ContentId Manifest} {levels : ℕ} {seen : Finset ContentId}
  {artifact : ContentId}

/-- No guard fires: a leaf is one because nothing goes upstream. -/
theorem share_eq_zero (h : Sound registry levels seen artifact) {m : Manifest}
    (hget : registry.get? artifact = some m)
    (hleaf : levels = 0 ∨ artifact ∈ seen ∨ m.parentShareBps = 0) : m.parentShareBps = 0 := by
  rcases hleaf with rfl | hrevisit | hshare
  · -- a share would need a parent, and so a chain of one link
    by_contra hshare
    obtain ⟨p, hp⟩ := List.exists_mem_of_ne_nil _ (m.parents_ne_nil hshare)
    have hlink : ParentLink registry artifact p := ⟨m, hget, hp⟩
    exact absurd (h.bounded 1 p (.cons hlink (.nil p))) (by decide)
  · exact absurd (.nil artifact) (h.unseen artifact hrevisit 0)
  · exact hshare

/-- The parents are sound with a level less, and the artifact seen. -/
theorem parent (h : Sound registry (levels + 1) seen artifact) {parent : ContentId}
    (hlink : ParentLink registry artifact parent) :
    Sound registry levels (insert artifact seen) parent := by
  constructor
  · intro n b hb
    have hle := h.bounded (n + 1) b (.cons hlink hb)
    omega
  · intro s hs n hn
    rw [Finset.mem_insert] at hs
    rcases hs with rfl | hs
    · have hloop := Links.no_loop h.bounded (.nil s) (.cons hlink hn)
      omega
    · exact h.unseen s hs (n + 1) (.cons hlink hn)

end Sound

/-- **The guards never fire on a sound lineage**: the plain recursion returns the totals
of the payments. -/
theorem plainDistribute_eq (registry : Dict ContentId Manifest) (levels : ℕ)
    (seen : Finset ContentId) (artifact : ContentId) (gross : ℤ) :
    ∀ fuel, levels < fuel → Sound registry levels seen artifact →
      plainDistribute registry fuel artifact gross =
        pure ((∅ : Dict Identity ℤ).tally (royalties registry levels seen artifact gross)) := by
  refine royalties_induction registry
    (P := fun levels seen artifact gross l =>
      ∀ fuel, levels < fuel → Sound registry levels seen artifact →
        plainDistribute registry fuel artifact gross = pure ((∅ : Dict Identity ℤ).tally l))
    ?_ ?_ ?_ ?_ levels seen artifact gross
  · intro _ _ _ gross hgross fuel hfuel _
    obtain ⟨fuel, rfl⟩ := Nat.exists_eq_add_one.mpr (Nat.zero_lt_of_lt hfuel)
    rw [plainDistribute, if_pos hgross]
    rfl
  · intro _ _ _ gross hgross hget fuel hfuel _
    obtain ⟨fuel, rfl⟩ := Nat.exists_eq_add_one.mpr (Nat.zero_lt_of_lt hfuel)
    rw [plainDistribute, if_neg hgross.not_ge, hget]
    rfl
  · intro levels seen artifact gross m hgross hget hleaf fuel hfuel hsound
    obtain ⟨fuel, rfl⟩ := Nat.exists_eq_add_one.mpr (Nat.zero_lt_of_lt hfuel)
    rw [plainDistribute, if_neg hgross.not_ge, hget]
    simp only [hsound.share_eq_zero hget hleaf, if_true]
    rw [splitLocal_eq]
    rfl
  · intro levels seen artifact gross m hgross hget _ hshare ih fuel hfuel hsound
    obtain ⟨fuel, rfl⟩ := Nat.exists_eq_add_one.mpr (Nat.zero_lt_of_lt hfuel)
    apply plainDistribute_node hget hgross hshare
    intro parent hparent amount
    exact ih parent amount fuel (by omega) (hsound.parent ⟨m, hget, hparent⟩)

/-- **The guards are inert on sound lineages**: if every chain of parent links from the
root has at most eight links, the plain recursion ends within nine nested calls, and
however many more it may make, it returns what the distribution returns. -/
theorem distribute_eq_plain {registry : Dict ContentId Manifest} {artifact : ContentId}
    (h : ∀ n b, Links (ParentLink registry) n artifact b → n ≤ maxLineageDepth) (gross : ℤ) :
    ∀ fuel, maxLineageDepth < fuel → (plainDistribute registry fuel artifact gross).run =
      some (distribute artifact gross registry) := by
  intro fuel hfuel
  rw [distribute_eq registry maxLineageDepth 0 ∅ artifact gross rfl,
    plainDistribute_eq registry maxLineageDepth ∅ artifact gross fuel hfuel
      ⟨h, fun _ hs => by cases hs⟩]
  rfl

/-- The distribution of the walkthrough is the plain recursion. -/
theorem distribute_eq_plain_lora :
    (plainDistribute loraRegistry 9 "lora-legal" 1000003).run =
      some (distribute "lora-legal" 1000003 loraRegistry) := by
  let rank : ContentId → ℕ := fun a =>
    if a = "lora-legal" then 2 else if a = "lora-formal" then 1 else 0
  have hrank : ∀ a b, ParentLink loraRegistry a b → rank b < rank a := by
    intro a b h
    rcases parentLink_loraRegistry h with ⟨rfl, rfl⟩ | ⟨rfl, rfl⟩ <;> decide
  refine distribute_eq_plain (fun n b h => ?_) 1000003 9 (by decide)
  exact (h.length_le_rank hrank).trans (by decide)

end YeBlock
