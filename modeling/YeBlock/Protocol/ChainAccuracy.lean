import YeBlock.Lib.Cascade
import YeBlock.Lib.Quota
import YeBlock.Protocol.RoyaltyWaterfall

/-!
# How accurately a chain of derivations is paid

In a lineage without branches every artifact derives from at most one other, and pays one
identity.  The gross then flows down a chain: what the distribution pays is what the stages
of a cascade keep, artifact by artifact, with the depth cap as the last level.  Each
payment is therefore off its exact amount by half a unit for every artifact it has passed.

## Main definitions

* `Manifest.PaysOnly` — a manifest that pays one identity.
* `SingleChain registry root chain` — the lineage of `root` is the chain of ancestors `chain`.
* `totalOf_royalties_chain` — a distribution over a chain is a cascade.
* `distribute_tracks_chain` — how far the payouts are off.
-/

namespace YeBlock

open Lib

namespace Manifest

/-- All of the local split goes to one identity; rows without weight do not matter. -/
def PaysOnly (m : Manifest) (payee : Identity) : Prop := ∀ e ∈ m.splits, e.1 = payee ∨ e.2 = 0

/-- Its local payments to the payee are everything, and nobody else receives anything. -/
theorem PaysOnly.totalOf_localRoyalties {m : Manifest} {payee : Identity} (h : m.PaysOnly payee)
    {gross : ℤ} (hgross : 0 ≤ gross) (id : Identity) :
    totalOf id (m.localRoyalties gross) = if payee = id then gross else 0 := by
  have hothers : ∀ e ∈ m.localRoyalties gross, e.1 = payee ∨ e.2 = 0 := by
    intro e he
    rw [localRoyalties] at he
    split at he
    · cases he
    · obtain ⟨i, hi⟩ := List.mem_iff_getElem?.mp he
      obtain ⟨hid, hamount⟩ := List.getElem?_zip_eq_some.mp hi
      rw [List.getElem?_map] at hid
      obtain ⟨row, hrow, hrowid⟩ := Option.map_eq_some_iff.mp hid
      have hweight : (m.splits.map Prod.snd)[i]? = some row.2 := by simp [hrow]
      rcases h row (List.mem_of_getElem? hrow) with hpayee | hzero
      · exact .inl (hrowid.symm.trans hpayee)
      · rw [hzero] at hweight
        rw [Apportion.getElem?_shares gross hweight,
          Apportion.partAt_zero m.sum_splits_pos hweight] at hamount
        exact .inr (Option.some.inj hamount).symm
  split
  · next heq =>
      subst heq
      rw [totalOf_eq_sum hothers, m.sum_localRoyalties hgross]
  · next hne =>
      refine totalOf_eq_zero_of_values fun e he hid => ?_
      exact (hothers e he).resolve_left fun hpayee => hne (hpayee.symm.trans hid)

end Manifest

/-- One artifact of a chain: who it pays, and the share it sends upstream. -/
structure Ancestor where
  artifact : ContentId
  payee : Identity
  shareBps : ℤ

/-- The lineage of an artifact is a single chain: each registered artifact has at most one
parent and pays one identity.  An artifact that is not registered receives its amount
itself. -/
inductive SingleChain (registry : Dict ContentId Manifest) : ContentId → List Ancestor → Prop
  | unregistered {artifact : ContentId} (hget : registry.get? artifact = none) :
      SingleChain registry artifact [⟨artifact, artifact, 0⟩]
  | origin {artifact : ContentId} {m : Manifest} {payee : Identity}
      (hget : registry.get? artifact = some m) (hparents : m.parents = [])
      (hpays : m.PaysOnly payee) :
      SingleChain registry artifact [⟨artifact, payee, m.parentShareBps⟩]
  | derived {artifact parent : ContentId} {m : Manifest} {payee : Identity}
      {chain : List Ancestor} (hget : registry.get? artifact = some m)
      (hparents : m.parents = [parent]) (hpays : m.PaysOnly payee)
      (rest : SingleChain registry parent chain) :
      SingleChain registry artifact (⟨artifact, payee, m.parentShareBps⟩ :: chain)

/-! ## A distribution over a chain is a cascade -/

/-- What the payees of a chain keep of the gross, ancestor by ancestor. -/
def chainKeeps (levels : ℕ) (gross : ℤ) (chain : List Ancestor) : List (Identity × ℤ) :=
  (chain.map Ancestor.payee).zip
    (cascade basisPoints levels gross (chain.map Ancestor.shareBps))

/-- An ancestor that passes nothing on keeps everything. -/
theorem totalOf_chainKeeps_of_last (levels : ℕ) (gross : ℤ) {a : Ancestor} (chain : List Ancestor)
    (h : levels = 0 ∨ a.shareBps = 0) (id : Identity) :
    totalOf id (chainKeeps levels gross (a :: chain)) = if a.payee = id then gross else 0 := by
  have hrest : totalOf id ((chain.map Ancestor.payee).zip
      (List.replicate (chain.map Ancestor.shareBps).length (0 : ℤ))) = 0 :=
    totalOf_eq_zero_of_values fun e he _ => List.eq_of_mem_replicate (List.of_mem_zip he).2
  rw [chainKeeps, List.map_cons, List.map_cons, cascade_of_last basisPoints_pos _ _ _ h,
    List.zip_cons_cons, totalOf_cons, hrest, add_zero]

theorem totalOf_chainKeeps_zero (levels : ℕ) (chain : List Ancestor) (id : Identity) :
    totalOf id (chainKeeps levels 0 chain) = 0 := by
  rw [chainKeeps, cascade_zero basisPoints_pos]
  exact totalOf_eq_zero_of_values fun e he _ => List.eq_of_mem_replicate (List.of_mem_zip he).2

/-- A single parent is sent everything that goes upstream. -/
theorem Manifest.upstream_singleton {m : Manifest} {parent : ContentId}
    (h : m.parents = [parent]) (gross : ℤ) :
    m.upstream gross = [(parent, gross - m.keeps gross)] := by
  have hshares : Apportion.shares (gross - m.keeps gross) [1] = [gross - m.keeps gross] :=
    Apportion.shares_singleton _ one_pos
  rw [upstream, h, List.length_singleton, List.replicate_one, hshares]
  rfl

/-- In a chain without repetitions, the rest is new to whatever the chain was new to and its
first artifact. -/
theorem notMem_insert_of_fresh {a : Ancestor} {chain : List Ancestor} {seen : Finset ContentId}
    (hfresh : ∀ b ∈ a :: chain, b.artifact ∉ seen)
    (hnodup : ((a :: chain).map Ancestor.artifact).Nodup) :
    ∀ b ∈ chain, b.artifact ∉ insert a.artifact seen := by
  intro b hb hmem
  rw [List.map_cons, List.nodup_cons] at hnodup
  rcases Finset.mem_insert.mp hmem with heq | hmem
  · exact hnodup.1 (List.mem_map.mpr ⟨b, hb, heq⟩)
  · exact hfresh b (List.mem_cons_of_mem _ hb) hmem

section Chain
variable {registry : Dict ContentId Manifest}

/-- **A distribution over a chain is a cascade**: it pays everybody what the cascade gives
them. -/
theorem totalOf_royalties_chain {artifact : ContentId} {chain : List Ancestor}
    (hchain : SingleChain registry artifact chain) (id : Identity) :
    ∀ (levels : ℕ) (seen : Finset ContentId) (gross : ℤ), 0 ≤ gross →
      (∀ a ∈ chain, a.artifact ∉ seen) → (chain.map Ancestor.artifact).Nodup →
      totalOf id (royalties registry levels seen artifact gross) =
        totalOf id (chainKeeps levels gross chain) := by
  induction hchain with
  | @unregistered artifact hget =>
      intro levels seen gross hgross _ _
      rw [totalOf_chainKeeps_of_last levels gross [] (.inr rfl)]
      rcases hgross.eq_or_lt with rfl | hpos
      · simp [royalties_of_nonpos]
      · simp [royalties_unknown levels hpos hget, totalOf_cons]
  | @origin artifact m payee hget hparents hpays =>
      intro levels seen gross hgross _ _
      have hshare : m.parentShareBps = 0 := by
        by_contra hshare
        exact m.parents_ne_nil hshare hparents
      rw [royalties_leaf hget (.inr (.inr hshare)), hpays.totalOf_localRoyalties hgross,
        totalOf_chainKeeps_of_last levels gross [] (.inr hshare)]
  | @derived artifact parent m payee chain hget hparents hpays rest ih =>
      intro levels seen gross hgross hfresh hnodup
      by_cases hlast : levels = 0 ∨ m.parentShareBps = 0
      · rw [royalties_leaf hget (hlast.imp_right .inr), hpays.totalOf_localRoyalties hgross,
          totalOf_chainKeeps_of_last levels gross chain hlast]
      obtain ⟨hlevels, hshare⟩ := not_or.mp hlast
      obtain ⟨levels, rfl⟩ := Nat.exists_eq_succ_of_ne_zero hlevels
      rcases hgross.eq_or_lt with rfl | hpos
      · rw [royalties_of_nonpos _ _ _ _ le_rfl, totalOf_chainKeeps_zero, totalOf_nil]
      have hseen : artifact ∉ seen := hfresh _ List.mem_cons_self
      obtain ⟨hkeeps, hpassed⟩ := m.keeps_bounds hgross
      have hrest := ih levels (insert artifact seen) (gross - m.keeps gross) (by omega)
        (notMem_insert_of_fresh hfresh hnodup) hnodup.of_cons
      rw [royalties_node levels hpos hget hseen hshare, m.upstream_singleton hparents,
        List.flatMap_singleton, totalOf_append, hpays.totalOf_localRoyalties hkeeps, hrest]
      conv_rhs => rw [chainKeeps, List.map_cons, List.map_cons, cascade, List.zip_cons_cons,
        totalOf_cons]
      rfl

/-- What the identity of the `k`-th ancestor is paid. -/
theorem totalOf_chainKeeps {levels : ℕ} {gross : ℤ} {chain : List Ancestor}
    (hpayees : (chain.map Ancestor.payee).Nodup) {k : ℕ} {a : Ancestor} {part : ℤ}
    (hk : chain[k]? = some a)
    (hpart : (cascade basisPoints levels gross (chain.map Ancestor.shareBps))[k]? = some part) :
    totalOf a.payee (chainKeeps levels gross chain) = part := by
  have hkeys : ((chainKeeps levels gross chain).map Prod.fst) = chain.map Ancestor.payee :=
    List.map_fst_zip (by simp)
  have hnodup : ((chainKeeps levels gross chain).map Prod.fst).Nodup := hkeys ▸ hpayees
  have hmem : (a.payee, part) ∈ chainKeeps levels gross chain := by
    refine List.mem_of_getElem? (i := k) (List.getElem?_zip_eq_some.mpr ⟨?_, hpart⟩)
    simp [hk]
  exact totalOf_eq_of_lookup hnodup (lookup_eq_some_of_mem hnodup hmem)

end Chain

theorem SingleChain.share_in_range {registry : Dict ContentId Manifest} {artifact : ContentId}
    {chain : List Ancestor} (h : SingleChain registry artifact chain) :
    ∀ s ∈ chain.map Ancestor.shareBps, 0 ≤ s ∧ s ≤ basisPoints := by
  induction h with
  | unregistered _ =>
      intro s hs
      rw [List.mem_singleton.mp hs]
      exact ⟨le_rfl, basisPoints_pos.le⟩
  | @origin _ m _ _ _ _ =>
      intro s hs
      rw [List.mem_singleton.mp hs]
      exact m.share_in_range
  | @derived _ _ m _ _ _ _ _ _ ih =>
      intro s hs
      rcases List.mem_cons.mp hs with rfl | hs
      · exact m.share_in_range
      · exact ih s hs

/-- The exact amount that reaches the `k`-th ancestor of a chain. -/
def exactReach (gross : ℤ) (chain : List Ancestor) (k : ℕ) : ℚ :=
  gross * ((chain.take k).map Ancestor.shareBps).prod / 10000 ^ k

/-- **Royalties track the exact waterfall down a chain**: the identity of the `k`-th
ancestor is paid within `(k + 1) / 2` units of the part of `exactReach` it does not pass
on, where the eighth passes on nothing; and nobody further away is paid. -/
theorem distribute_tracks_chain {registry : Dict ContentId Manifest} {root : ContentId}
    {chain : List Ancestor} (hchain : SingleChain registry root chain)
    (hartifacts : (chain.map Ancestor.artifact).Nodup) (hpayees : (chain.map Ancestor.payee).Nodup)
    {gross : ℤ} (hgross : 0 ≤ gross) :
    ∃ payouts, distribute root gross registry = .ok payouts ∧
      ∀ k a, chain[k]? = some a →
        (k < 8 → |(payouts.getD a.payee 0 : ℚ) -
          exactReach gross chain k * (10000 - a.shareBps) / 10000| ≤ (k + 1) / 2) ∧
        (k = 8 → |(payouts.getD a.payee 0 : ℚ) - exactReach gross chain k| ≤ (k + 1) / 2) ∧
        (8 < k → payouts.getD a.payee 0 = 0) := by
  refine ⟨_, distribute_eq registry maxLineageDepth 0 ∅ root gross rfl, fun k a hk => ?_⟩
  obtain ⟨part, hpart⟩ : ∃ part, (cascade basisPoints maxLineageDepth gross
      (chain.map Ancestor.shareBps))[k]? = some part := by
    obtain ⟨hlt, _⟩ := List.getElem?_eq_some_iff.mp hk
    exact ⟨_, List.getElem?_eq_getElem (by simpa using hlt)⟩
  have hshare : (chain.map Ancestor.shareBps)[k]? = some a.shareBps := by simp [hk]
  have hpaid := totalOf_royalties_chain hchain a.payee maxLineageDepth ∅ gross hgross
    (fun _ _ => Finset.notMem_empty _) hartifacts
  rw [totalOf_chainKeeps hpayees hk hpart] at hpaid
  rw [Dict.getD_tally, Dict.getD_empty, zero_add, hpaid]
  have hreach : reaching basisPoints gross (chain.map Ancestor.shareBps) k =
      exactReach gross chain k := by
    rw [reaching, exactReach, List.map_take]
    rfl
  obtain ⟨hwithin, hbeyond⟩ := abs_cascade_sub_le basisPoints_pos hchain.share_in_range
    maxLineageDepth gross gross 0 (by simp) k a.shareBps part hshare hpart
  rw [keeping, hreach, zero_add] at hwithin
  refine ⟨fun hlt => ?_, fun heq => ?_, fun hlt => hbeyond hlt⟩
  · have hne : k ≠ maxLineageDepth := hlt.ne
    rw [if_neg hne] at hwithin
    exact hwithin hlt.le
  · have hlast : k = maxLineageDepth := heq
    rw [if_pos hlast] at hwithin
    exact hwithin hlast.le

/-- The part of the walkthrough's lineage that pays single identities. -/
def formalChain : List Ancestor :=
  [⟨"lora-formal", "bob", 1000⟩, ⟨"lora-base-style", "carol", 0⟩]

theorem singleChain_formal : SingleChain loraRegistry "lora-formal" formalChain := by
  have hpays : ∀ e ∈ loraRegistry.items, ∀ id, e.2.splits = [(id, 10000)] → e.2.PaysOnly id := by
    intro e _ id hsplits row hrow
    rw [hsplits, List.mem_singleton] at hrow
    exact .inl (by rw [hrow])
  have hformal : loraRegistry.items[1] ∈ loraRegistry.items := List.getElem_mem _
  have hbase : loraRegistry.items[2] ∈ loraRegistry.items := List.getElem_mem _
  exact .derived rfl rfl (hpays _ hformal "bob" rfl) (.origin rfl rfl (hpays _ hbase "carol" rfl))

theorem distribute_tracks_chain_formal :
    ∃ payouts, distribute "lora-formal" 250001 loraRegistry = .ok payouts ∧
      ∀ k a, formalChain[k]? = some a →
        (k < 8 → |(payouts.getD a.payee 0 : ℚ) -
          exactReach 250001 formalChain k * (10000 - a.shareBps) / 10000| ≤ (k + 1) / 2) ∧
        (k = 8 → |(payouts.getD a.payee 0 : ℚ) - exactReach 250001 formalChain k| ≤ (k + 1) / 2) ∧
        (8 < k → payouts.getD a.payee 0 = 0) :=
  distribute_tracks_chain singleChain_formal (by decide) (by decide) (by decide)

end YeBlock
