import Mathlib.Algebra.BigOperators.Group.List.Lemmas
import Mathlib.Algebra.Order.BigOperators.GroupWithZero.List
import YeBlock.Protocol.RoyaltyWaterfall

/-!
# The signs of royalty payouts

The manifest constructor checks that the splits sum to one hundred percent, and the
upstream share's range, but not the sign of a single split.  A distribution therefore
pays a negative amount to an identity whose split is negative.

`ReachesRow` says which split rows a distribution reaches.  If none of them is negative,
no payout is.  Conversely an amount that every division of the lineage divides evenly
gives each reached row a positive multiple of its weight, so a negative row of an
identity that is not also paid by a positive one makes a negative payout.

## Main definitions

* `ReachesRow` — the split rows a distribution reaches.
* `nonneg_of_mem_royalties` — rows that are not negative make payments that are not.
* `PaysRows`, `royalties_exact` — payments that are multiples of the rows.
* `payouts_in_range_iff` — when no payout is negative.
-/

namespace YeBlock

open Lib

/-- The split rows a distribution reaches, with `levels` levels left below the depth
cap: those of its leaves, those of the manifests that keep a share, and, for an artifact
without a manifest, all of it to the artifact. -/
inductive ReachesRow (registry : Dict ContentId Manifest) :
    ℕ → Finset ContentId → ContentId → Identity → ℤ → Prop
  | unknown {levels : ℕ} {seen : Finset ContentId} {artifact : ContentId}
      (hget : registry.get? artifact = none) :
      ReachesRow registry levels seen artifact artifact basisPoints
  | leaf {levels : ℕ} {seen : Finset ContentId} {artifact : ContentId} {m : Manifest}
      {id : Identity} {bps : ℤ} (hget : registry.get? artifact = some m)
      (hleaf : levels = 0 ∨ artifact ∈ seen ∨ m.parentShareBps = 0)
      (hrow : (id, bps) ∈ m.splits) : ReachesRow registry levels seen artifact id bps
  | kept {levels : ℕ} {seen : Finset ContentId} {artifact : ContentId} {m : Manifest}
      {id : Identity} {bps : ℤ} (hget : registry.get? artifact = some m)
      (hshare : m.parentShareBps < basisPoints) (hrow : (id, bps) ∈ m.splits) :
      ReachesRow registry levels seen artifact id bps
  | upstream {levels : ℕ} {seen : Finset ContentId} {artifact parent : ContentId} {m : Manifest}
      {id : Identity} {bps : ℤ} (hget : registry.get? artifact = some m) (hseen : artifact ∉ seen)
      (hshare : m.parentShareBps ≠ 0) (hparent : parent ∈ m.parents)
      (hrow : ReachesRow registry levels (insert artifact seen) parent id bps) :
      ReachesRow registry (levels + 1) seen artifact id bps

/-- No payout is negative or exceeds the gross. -/
def PayoutsInRange (registry : Dict ContentId Manifest) (artifact : ContentId) : Prop :=
  ∀ gross, 0 ≤ gross → ∀ payouts, distribute artifact gross registry = .ok payouts →
    ∀ v ∈ payouts.values, 0 ≤ v ∧ v ≤ gross

/-! ## Rows that are not negative -/

namespace Manifest
variable (m : Manifest)

theorem localRoyalties_nonneg (h : ∀ e ∈ m.splits, 0 ≤ e.2) {gross : ℤ} (hgross : 0 ≤ gross) :
    ∀ e ∈ m.localRoyalties gross, 0 ≤ e.2 := by
  intro e he
  rw [localRoyalties] at he
  split at he
  · cases he
  · refine Apportion.shares_nonneg gross m.sum_splits_pos hgross ?_ e.2 (List.of_mem_zip he).2
    intro w hw
    obtain ⟨row, hrow, rfl⟩ := List.mem_map.mp hw
    exact h row hrow

/-- A manifest that sends everything upstream keeps nothing. -/
theorem keeps_eq_zero (h : basisPoints ≤ m.parentShareBps) (gross : ℤ) : m.keeps gross = 0 := by
  have heq : m.parentShareBps = basisPoints := le_antisymm m.share_in_range.2 h
  rw [keeps, heq, sub_self, mul_zero]
  decide

end Manifest

/-- **Rows that are not negative make payments that are not.** -/
theorem nonneg_of_mem_royalties (registry : Dict ContentId Manifest) (levels : ℕ)
    (seen : Finset ContentId) (artifact : ContentId) (gross : ℤ) :
    (∀ id bps, ReachesRow registry levels seen artifact id bps → 0 ≤ bps) → 0 ≤ gross →
      ∀ e ∈ royalties registry levels seen artifact gross, 0 ≤ e.2 := by
  refine royalties_induction registry
    (P := fun levels seen artifact gross l =>
      (∀ id bps, ReachesRow registry levels seen artifact id bps → 0 ≤ bps) → 0 ≤ gross →
        ∀ e ∈ l, 0 ≤ e.2) ?_ ?_ ?_ ?_ levels seen artifact gross
  · intro _ _ _ _ _ _ _ e he
    cases he
  · intro _ _ artifact gross _ _ _ hgross e he
    rw [List.mem_singleton.mp he]
    exact hgross
  · intro _ _ artifact gross m _ hget hleaf hrows hgross
    exact m.localRoyalties_nonneg (fun row hrow => hrows _ _ (.leaf hget hleaf hrow)) hgross
  · intro levels seen artifact gross m _ hget hseen hshare ih hrows hgross e he
    rcases List.mem_append.mp he with hkept | hup
    · by_cases hall : m.parentShareBps < basisPoints
      · exact m.localRoyalties_nonneg (fun row hrow => hrows _ _ (.kept hget hall hrow))
          (m.keeps_bounds hgross).1 e hkept
      · rw [m.keeps_eq_zero (not_lt.mp hall)] at hkept
        cases hkept
    · obtain ⟨p, hp, he⟩ := List.mem_flatMap.mp hup
      have hparent : p.1 ∈ m.parents := (List.of_mem_zip hp).1
      exact ih p.1 p.2 (fun id bps hrow => hrows id bps (.upstream hget hseen hshare hparent hrow))
        (m.upstream_nonneg (m.parents_ne_nil hshare) hgross p hp) e he

/-- Payouts that are not negative are parts of the gross. -/
theorem payoutsInRange_of_nonneg {registry : Dict ContentId Manifest} {artifact : ContentId}
    (h : ∀ id bps, ReachesRow registry maxLineageDepth ∅ artifact id bps → 0 ≤ bps) :
    PayoutsInRange registry artifact := by
  intro gross hgross payouts hpayouts v hv
  rw [distribute_eq registry maxLineageDepth 0 ∅ artifact gross rfl, Except.ok.injEq] at hpayouts
  subst hpayouts
  have hnonneg := Dict.values_tally_nonneg
    (nonneg_of_mem_royalties registry maxLineageDepth ∅ artifact gross h hgross)
  refine ⟨hnonneg v hv, ?_⟩
  calc v ≤ ((∅ : Dict Identity ℤ).tally
        (royalties registry maxLineageDepth ∅ artifact gross)).sum :=
        List.single_le_sum hnonneg v hv
    _ = gross := by
        rw [Dict.sum_tally, Dict.sum_empty, zero_add, sum_royalties registry _ _ _ _ hgross]

/-! ## Amounts that divide evenly -/

namespace Manifest
variable (m : Manifest)

theorem localRoyalties_exact {c : ℤ} (hc : 0 < c) :
    m.localRoyalties (basisPoints * c) = m.splits.map fun e => (e.1, c * e.2) := by
  have hshares := Apportion.shares_sum_mul m.sum_splits_pos c
  rw [m.sum_splits, List.map_map] at hshares
  have hpos : ¬ basisPoints * c ≤ 0 := not_le.mpr (mul_pos (by decide) hc)
  rw [localRoyalties, if_neg hpos, hshares, List.zip_map']
  rfl

theorem keeps_exact (c : ℤ) :
    m.keeps (basisPoints * c) = c * (basisPoints - m.parentShareBps) := by
  rw [keeps, mul_assoc]
  exact roundHalfUp_mul_left _ (by decide)

theorem upstream_exact (hp : m.parents ≠ []) {gross c : ℤ}
    (h : gross - m.keeps gross = m.parents.length * c) :
    m.upstream gross = m.parents.map fun parent => (parent, c) := by
  have hshares := Apportion.shares_sum_mul (sum_replicate_one_pos hp) c
  have hsum : (List.replicate m.parents.length (1 : ℤ)).sum = m.parents.length := by simp
  have hmap : (List.replicate m.parents.length (1 : ℤ)).map (fun w => c * w) =
      m.parents.map fun _ => c := by simp
  rw [hsum, hmap] at hshares
  rw [upstream, h, hshares, List.map_prod_left_eq_zip]

end Manifest

/-- The payments are the rows, each multiplied by something positive. -/
def PaysRows (Row : Identity → ℤ → Prop) (l : List (Identity × ℤ)) : Prop :=
  (∀ e ∈ l, ∃ bps c, 0 < c ∧ Row e.1 bps ∧ e.2 = c * bps) ∧
    ∀ id bps, Row id bps → ∃ c, 0 < c ∧ (id, c * bps) ∈ l

namespace PaysRows
variable {Row Row' : Identity → ℤ → Prop} {l l' : List (Identity × ℤ)}

theorem nil : PaysRows (fun _ _ => False) [] :=
  ⟨fun _ he => (List.not_mem_nil he).elim, fun _ _ h => h.elim⟩

theorem of_map (rows : List (Identity × ℤ)) {c : ℤ} (hc : 0 < c) :
    PaysRows (fun id bps => (id, bps) ∈ rows) (rows.map fun e => (e.1, c * e.2)) := by
  constructor
  · intro e he
    obtain ⟨row, hrow, rfl⟩ := List.mem_map.mp he
    exact ⟨row.2, c, hc, hrow, rfl⟩
  · intro id bps hrow
    exact ⟨c, hc, List.mem_map.mpr ⟨(id, bps), hrow, rfl⟩⟩

theorem congr (h : ∀ id bps, Row id bps ↔ Row' id bps) (hl : PaysRows Row l) :
    PaysRows Row' l := by
  simpa only [PaysRows, h] using hl

theorem append (h : PaysRows Row l) (h' : PaysRows Row' l') :
    PaysRows (fun id bps => Row id bps ∨ Row' id bps) (l ++ l') := by
  constructor
  · intro e he
    rcases List.mem_append.mp he with he | he
    · obtain ⟨bps, c, hc, hrow, heq⟩ := h.1 e he
      exact ⟨bps, c, hc, .inl hrow, heq⟩
    · obtain ⟨bps, c, hc, hrow, heq⟩ := h'.1 e he
      exact ⟨bps, c, hc, .inr hrow, heq⟩
  · rintro id bps (hrow | hrow)
    · obtain ⟨c, hc, hmem⟩ := h.2 id bps hrow
      exact ⟨c, hc, List.mem_append_left _ hmem⟩
    · obtain ⟨c, hc, hmem⟩ := h'.2 id bps hrow
      exact ⟨c, hc, List.mem_append_right _ hmem⟩

theorem flatMap {γ : Type} {R : γ → Identity → ℤ → Prop} {f : γ → List (Identity × ℤ)}
    {ps : List γ} (h : ∀ p ∈ ps, PaysRows (R p) (f p)) :
    PaysRows (fun id bps => ∃ p ∈ ps, R p id bps) (ps.flatMap f) := by
  constructor
  · intro e he
    obtain ⟨p, hp, he⟩ := List.mem_flatMap.mp he
    obtain ⟨bps, c, hc, hrow, heq⟩ := (h p hp).1 e he
    exact ⟨bps, c, hc, ⟨p, hp, hrow⟩, heq⟩
  · rintro id bps ⟨p, hp, hrow⟩
    obtain ⟨c, hc, hmem⟩ := (h p hp).2 id bps hrow
    exact ⟨c, hc, List.mem_flatMap.mpr ⟨p, hp, hmem⟩⟩

end PaysRows

/-- What a manifest keeps, of an amount that divides evenly, goes to its rows; it keeps
nothing when everything goes upstream. -/
theorem Manifest.paysRows_kept (m : Manifest) {c : ℤ} (hc : 0 < c) :
    PaysRows (fun id bps => m.parentShareBps < basisPoints ∧ (id, bps) ∈ m.splits)
      (m.localRoyalties (m.keeps (basisPoints * (basisPoints * c)))) := by
  by_cases hkeep : m.parentShareBps < basisPoints
  · have hrest : 0 < basisPoints - m.parentShareBps := sub_pos.mpr hkeep
    rw [m.keeps_exact, mul_assoc, m.localRoyalties_exact (mul_pos hc hrest)]
    exact (PaysRows.of_map m.splits (mul_pos hc hrest)).congr fun id bps => by simp [hkeep]
  · rw [m.keeps_eq_zero (not_lt.mp hkeep)]
    exact PaysRows.nil.congr fun id bps => by simp [hkeep]

/-! ## The rows of a call -/

section Rows
variable {registry : Dict ContentId Manifest} {levels : ℕ} {seen : Finset ContentId}
  {artifact : ContentId} {m : Manifest} (hget : registry.get? artifact = some m)
  (id : Identity) (bps : ℤ)
include hget

theorem reachesRow_leaf_iff (hleaf : levels = 0 ∨ artifact ∈ seen ∨ m.parentShareBps = 0) :
    ReachesRow registry levels seen artifact id bps ↔ (id, bps) ∈ m.splits := by
  constructor
  · intro h
    cases h with
    | unknown hnone =>
        rw [hget] at hnone
        cases hnone
    | leaf hget' _ hrow =>
        obtain rfl := Option.some.inj (hget.symm.trans hget')
        exact hrow
    | kept hget' _ hrow =>
        obtain rfl := Option.some.inj (hget.symm.trans hget')
        exact hrow
    | upstream hget' hseen hshare _ _ =>
        obtain rfl := Option.some.inj (hget.symm.trans hget')
        simp [hseen, hshare] at hleaf
  · exact .leaf hget hleaf

theorem reachesRow_node_iff (hseen : artifact ∉ seen) (hshare : m.parentShareBps ≠ 0) :
    ReachesRow registry (levels + 1) seen artifact id bps ↔
      (m.parentShareBps < basisPoints ∧ (id, bps) ∈ m.splits) ∨
        ∃ parent ∈ m.parents, ReachesRow registry levels (insert artifact seen) parent id bps := by
  constructor
  · intro h
    cases h with
    | unknown hnone =>
        rw [hget] at hnone
        cases hnone
    | leaf hget' hleaf _ =>
        obtain rfl := Option.some.inj (hget.symm.trans hget')
        simp [hseen, hshare] at hleaf
    | kept hget' hkeep hrow =>
        obtain rfl := Option.some.inj (hget.symm.trans hget')
        exact .inl ⟨hkeep, hrow⟩
    | upstream hget' _ _ hparent hrow =>
        obtain rfl := Option.some.inj (hget.symm.trans hget')
        exact .inr ⟨_, hparent, hrow⟩
  · rintro (⟨hkeep, hrow⟩ | ⟨parent, hparent, hrow⟩)
    · exact .kept hget hkeep hrow
    · exact .upstream hget hseen hshare hparent hrow

end Rows

/-! ## Every reached row is paid -/

/-- A number that one hundred percent and every number of parents divide. -/
structure CommonUnit (registry : Dict ContentId Manifest) (D : ℤ) : Prop where
  pos : 0 < D
  basisPoints_dvd : basisPoints ∣ D
  parents_dvd : ∀ artifact m, registry.get? artifact = some m → m.parents ≠ [] →
    (m.parents.length : ℤ) ∣ D

/-- There is one: one hundred percent times the product of the numbers of parents. -/
theorem exists_commonUnit (registry : Dict ContentId Manifest) :
    ∃ D, CommonUnit registry D := by
  let counts : List ℤ := registry.values.map fun m => max 1 m.parents.length
  have hcounts : 0 < counts.prod := by
    apply List.prod_pos
    intro x hx
    obtain ⟨m, _, rfl⟩ := List.mem_map.mp hx
    exact lt_max_of_lt_left one_pos
  refine ⟨basisPoints * counts.prod, mul_pos (by decide) hcounts, Dvd.intro _ rfl, ?_⟩
  intro artifact m hget hp
  have hlen : (1 : ℤ) ≤ m.parents.length := by exact_mod_cast List.length_pos_of_ne_nil hp
  have hmem : (m.parents.length : ℤ) ∈ counts := by
    refine List.mem_map.mpr ⟨m, ?_, max_eq_right hlen⟩
    exact List.mem_map_of_mem (f := Prod.snd) (Dict.mem_items_of_get? hget)
  exact (List.dvd_prod hmem).mul_left _

/-- An unknown artifact and a leaf, given a multiple of one hundred percent. -/
theorem royalties_exact_leaf {registry : Dict ContentId Manifest} {levels : ℕ}
    {seen : Finset ContentId} {artifact : ContentId} {c : ℤ} (hc : 0 < c)
    (hleaf : ∀ m, registry.get? artifact = some m →
      levels = 0 ∨ artifact ∈ seen ∨ m.parentShareBps = 0) :
    PaysRows (ReachesRow registry levels seen artifact)
      (royalties registry levels seen artifact (basisPoints * c)) := by
  cases hget : registry.get? artifact with
  | none =>
      rw [royalties_unknown levels (mul_pos (by decide) hc) hget]
      constructor
      · intro e he
        rw [List.mem_singleton.mp he]
        exact ⟨basisPoints, c, hc, .unknown hget, mul_comm _ _⟩
      · intro id bps hrow
        cases hrow with
        | unknown _ => exact ⟨c, hc, by simp [mul_comm]⟩
        | leaf hget' _ _ | kept hget' _ _ | upstream hget' _ _ _ _ =>
            rw [hget] at hget'
            cases hget'
  | some m =>
      rw [royalties_leaf hget (hleaf m hget), m.localRoyalties_exact hc]
      exact (PaysRows.of_map m.splits hc).congr fun id bps =>
        (reachesRow_leaf_iff hget id bps (hleaf m hget)).symm

/-- A node, given an amount that leaves a multiple of `u` to every parent. -/
theorem royalties_exact_node {registry : Dict ContentId Manifest} {D : ℤ}
    (hD : CommonUnit registry D) {levels : ℕ} {seen : Finset ContentId} {artifact : ContentId}
    {m : Manifest} (hget : registry.get? artifact = some m) (hseen : artifact ∉ seen)
    (hshare : m.parentShareBps ≠ 0) {u t : ℤ} (hu : 0 < u) (ht : 0 < t)
    (ih : ∀ parent t, 0 < t → PaysRows (ReachesRow registry levels (insert artifact seen) parent)
      (royalties registry levels (insert artifact seen) parent (u * t))) :
    PaysRows (ReachesRow registry (levels + 1) seen artifact)
      (royalties registry (levels + 1) seen artifact (u * (D * D) * t)) := by
  have hp := m.parents_ne_nil hshare
  have hs : 0 < m.parentShareBps := lt_of_le_of_ne m.share_in_range.1 (Ne.symm hshare)
  obtain ⟨a, ha⟩ := hD.basisPoints_dvd
  obtain ⟨b, hb⟩ := hD.parents_dvd artifact m hget hp
  have hapos : 0 < a := pos_of_mul_pos_right (ha ▸ hD.pos) basisPoints_pos.le
  have hbpos : 0 < b := pos_of_mul_pos_right (hb ▸ hD.pos) (Int.natCast_nonneg _)
  have hgross : u * (D * D) * t = basisPoints * (basisPoints * (a * a * u * t)) := by
    rw [ha]
    ring
  have hup : u * (D * D) * t - m.keeps (u * (D * D) * t) =
      m.parents.length * (u * (a * b * t * m.parentShareBps)) := by
    calc u * (D * D) * t - m.keeps (u * (D * D) * t)
        = basisPoints * a * (a * u * t * m.parentShareBps) := by
          rw [hgross, m.keeps_exact]
          ring
      _ = m.parents.length * b * (a * u * t * m.parentShareBps) := by rw [← ha, hb]
      _ = m.parents.length * (u * (a * b * t * m.parentShareBps)) := by ring
  have hlocal := m.paysRows_kept (c := a * a * u * t) (by positivity)
  rw [← hgross] at hlocal
  have hparents : ∀ parent ∈ m.parents,
      PaysRows (ReachesRow registry levels (insert artifact seen) parent)
        (royalties registry levels (insert artifact seen) parent
          (u * (a * b * t * m.parentShareBps))) :=
    fun parent _ => ih parent _ (by positivity)
  have hDpos := hD.pos
  rw [royalties_node levels (by positivity) hget hseen hshare, m.upstream_exact hp hup,
    List.flatMap_map]
  exact (hlocal.append (PaysRows.flatMap hparents)).congr fun id bps =>
    (reachesRow_node_iff hget id bps hseen hshare).symm

/-- **An even amount pays every reached row**, and nothing else, a positive multiple
of its weight. -/
theorem royalties_exact {registry : Dict ContentId Manifest} {D : ℤ}
    (hD : CommonUnit registry D) (levels : ℕ) :
    ∀ (seen : Finset ContentId) (artifact : ContentId) (t : ℤ), 0 < t →
      PaysRows (ReachesRow registry levels seen artifact)
        (royalties registry levels seen artifact (D ^ (2 * levels + 1) * t)) := by
  have hleaf : ∀ (n levels : ℕ) (seen : Finset ContentId) (artifact : ContentId) (t : ℤ), 0 < t →
      (∀ m, registry.get? artifact = some m →
        levels = 0 ∨ artifact ∈ seen ∨ m.parentShareBps = 0) →
      PaysRows (ReachesRow registry levels seen artifact)
        (royalties registry levels seen artifact (D ^ (n + 1) * t)) := by
    intro n levels seen artifact t ht hleaf
    obtain ⟨a, ha⟩ := hD.basisPoints_dvd
    have hDpos := hD.pos
    have hapos : 0 < a := pos_of_mul_pos_right (ha ▸ hD.pos) (by decide)
    have hgross : D ^ (n + 1) * t = basisPoints * (D ^ n * a * t) := by
      rw [pow_succ]
      nth_rewrite 2 [ha]
      ring
    rw [hgross]
    exact royalties_exact_leaf (by positivity) hleaf
  induction levels with
  | zero =>
      intro seen artifact t ht
      exact hleaf 0 0 seen artifact t ht fun _ _ => .inl rfl
  | succ levels ih =>
      intro seen artifact t ht
      by_cases hnode : ∃ m, registry.get? artifact = some m ∧ artifact ∉ seen ∧
          m.parentShareBps ≠ 0
      · obtain ⟨m, hget, hseen, hshare⟩ := hnode
        have hpow : D ^ (2 * (levels + 1) + 1) * t = D ^ (2 * levels + 1) * (D * D) * t := by ring
        rw [hpow]
        exact royalties_exact_node hD hget hseen hshare (pow_pos hD.pos _) ht
          fun parent t ht => ih _ parent t ht
      · refine hleaf (2 * (levels + 1)) (levels + 1) seen artifact t ht fun m hget => .inr ?_
        by_contra hno
        exact hnode ⟨m, hget, not_or.mp hno⟩

/-! ## When no payout is negative -/

/-- No identity is paid by a negative row and by a positive one. -/
def Unmixed (registry : Dict ContentId Manifest) (artifact : ContentId) : Prop :=
  ∀ id bps bps', ReachesRow registry maxLineageDepth ∅ artifact id bps →
    ReachesRow registry maxLineageDepth ∅ artifact id bps' → ¬ (bps < 0 ∧ 0 < bps')

/-- A negative row of an identity without positive ones makes a negative payout. -/
theorem nonneg_of_payoutsInRange {registry : Dict ContentId Manifest} {artifact : ContentId}
    (hunmixed : Unmixed registry artifact) (h : PayoutsInRange registry artifact) :
    ∀ id bps, ReachesRow registry maxLineageDepth ∅ artifact id bps → 0 ≤ bps := by
  intro id bps hrow
  by_contra hneg
  obtain ⟨D, hD⟩ := exists_commonUnit registry
  obtain ⟨hpays, hpaid⟩ := royalties_exact hD maxLineageDepth ∅ artifact 1 one_pos
  generalize hgross : D ^ (2 * maxLineageDepth + 1) * 1 = gross at hpays hpaid
  have hpos : 0 ≤ gross := by
    rw [← hgross, mul_one]
    exact (pow_pos hD.pos _).le
  obtain ⟨c, hc, hmem⟩ := hpaid id bps hrow
  have hnonpos : ∀ e ∈ royalties registry maxLineageDepth ∅ artifact gross,
      e.1 = id → e.2 ≤ 0 := by
    intro e he hid
    obtain ⟨bps', c', hc', hrow', heq⟩ := hpays e he
    rw [hid] at hrow'
    have hbps' : bps' ≤ 0 := not_lt.mp fun hlt => hunmixed id bps bps' hrow hrow' ⟨by omega, hlt⟩
    rw [heq]
    exact mul_nonpos_of_nonneg_of_nonpos hc'.le hbps'
  have htotal : totalOf id (royalties registry maxLineageDepth ∅ artifact gross) < 0 :=
    totalOf_neg hnonpos hmem (mul_neg_of_pos_of_neg hc (not_le.mp hneg))
  have hrange := h gross hpos _ (distribute_eq registry maxLineageDepth 0 ∅ artifact gross rfl)
    _ (Dict.totalOf_mem_values_tally hmem)
  exact absurd hrange.1 htotal.not_ge

/-- **When no payout is negative**: if no split row the distribution reaches is; and
where no identity is paid by a negative and by a positive row, only then. -/
theorem payouts_in_range_iff (registry : Dict ContentId Manifest) (artifact : ContentId) :
    ((∀ id bps, ReachesRow registry maxLineageDepth ∅ artifact id bps → 0 ≤ bps) →
        PayoutsInRange registry artifact) ∧
      (Unmixed registry artifact → (PayoutsInRange registry artifact ↔
        ∀ id bps, ReachesRow registry maxLineageDepth ∅ artifact id bps → 0 ≤ bps)) :=
  ⟨payoutsInRange_of_nonneg, fun hunmixed =>
    ⟨nonneg_of_payoutsInRange hunmixed, payoutsInRange_of_nonneg⟩⟩

/-- A manifest the constructor accepts, in which one party owes another. -/
def debtManifest : Manifest :=
  (Manifest.new "lora-debt" "alice" [("alice", 11000), ("bob", -1000)]).toOption.get (by decide)

/-- Of a gross of 100 it pays 110 to one party and takes 10 from the other. -/
theorem debtManifest_overpays :
    ¬ ∀ (registry : Dict ContentId Manifest) (artifact : ContentId),
      PayoutsInRange registry artifact := by
  intro h
  have hpayouts : distribute "lora-debt" 100 ((∅ : Dict _ _).set "lora-debt" debtManifest) =
      .ok ((∅ : Dict Identity ℤ).tally [("alice", 110), ("bob", -10)]) := by
    rw [distribute_eq _ maxLineageDepth 0 ∅ "lora-debt" 100 rfl]
    decide
  have hrange := h _ "lora-debt" 100 (by decide) _ hpayouts (-10) (by decide)
  exact absurd hrange.1 (by decide)

end YeBlock
