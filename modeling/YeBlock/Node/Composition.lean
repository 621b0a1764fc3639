import YeBlock.Basic
import YeBlock.Lib.Dict
import YeBlock.Lib.Lists
import YeBlock.Lib.Sha3Eval
import YeBlock.Node.Wire

/-!
# Model identity

A model is a base with a set of adapters and a mix weight for some of them, and its
identity is the hash of a canonical encoding: the base, the sorted adapters and the
sorted weights, joined by NUL, with a unit separator inside the two lists and an `=`
between an adapter and its weight.  Identities of the documented form contain none of
the three separators, so the encoding determines the base, the set and the map.

An adapter without a weight is documented to have the weight 1000, but the encoding
holds the entries as they are given: the same mix, once with the weight left out and
once with 1000 written down, has two identities.

## Main definitions

* `contentId`, `canonicalLoraOrder`, `CompositionParams.canonicalBytes`,
  `deriveModelIdentity` — the derivation.
* `modelIdPreimage_eq_iff` — what the encoding determines.
* `model_identity_injective` — the same of the identity, as far as the hash is free of
  collisions.
* `one_identity_iff` — between which weights the same mix has one identity.
-/

namespace YeBlock

open Lib

/-! ## Content identities -/

/-- The hash of an identity that does not say otherwise. -/
def defaultHashTag : String := "sha3-256"

/-- The identity of a byte string: its hash, tagged by the hash function. -/
def contentId (data : Bytes) (hashTag : String := defaultHashTag) :
    Except PyError ContentId := do
  let digest ←
    if hashTag = "sha3-256" then
      pure (hex (sha3_256 data))
    else if hashTag = "blake3-256" then
      throw (.notImplementedError "blake3-256 supplied by the node crypto backend")
    else
      throw (.valueError s!"unknown hash tag: {pyRepr hashTag}")
  return s!"{hashTag}:{digest}"

/-- The hash functions an identity may name. -/
def hashTags : List String := ["sha3-256", "blake3-256"]

/-- The documented form, `<hash-tag>:<lowercase hex>`. -/
def IsContentId (cid : ContentId) : Prop :=
  ∃ tag ∈ hashTags, ∃ digest : Bytes, digest.length = 32 ∧ cid = s!"{tag}:{hex digest}"

/-- An identity that is not empty and contains no separator of the encoding. -/
structure WellFormed (cid : ContentId) : Prop where
  ne_empty : cid ≠ ""
  no_nul : '\x00' ∉ cid.toList
  no_unit : '\x1f' ∉ cid.toList
  no_eq : '=' ∉ cid.toList

/-- The identity by SHA3-256. -/
def sha3Id (data : Bytes) : ContentId := s!"sha3-256:{hex (sha3_256 data)}"

theorem contentId_default (data : Bytes) : contentId data = .ok (sha3Id data) := rfl

/-- An identity is determined by its digest. -/
theorem contentId_eq_iff (data data' : Bytes) :
    contentId data = contentId data' ↔ sha3_256 data = sha3_256 data' := by
  rw [contentId_default, contentId_default, Except.ok.injEq]
  simp [sha3Id, toString, hex_inj]

theorem isContentId_contentId {data : Bytes} {hashTag : String} {cid : ContentId}
    (h : contentId data hashTag = .ok cid) : IsContentId cid := by
  unfold contentId at h
  split at h
  · next htag =>
      subst htag
      cases h
      exact ⟨"sha3-256", by decide, sha3_256 data, length_sha3_256 data, rfl⟩
  · split at h <;> cases h

theorem mem_alphabet_of_isContentId {cid : ContentId} (h : IsContentId cid) {c : Char}
    (hc : c ∈ cid.toList) : c ∈ "0123456789abcdefhkls-:".toList := by
  obtain ⟨tag, htag, digest, _, rfl⟩ := h
  have htext : (s!"{tag}:{hex digest}").toList = tag.toList ++ ':' :: (hex digest).toList := by
    simp [toString]
  rw [htext, List.mem_append, List.mem_cons] at hc
  rcases hc with hc | hc | hc
  · have htags : ∀ tag ∈ hashTags, ∀ c ∈ tag.toList, c ∈ "0123456789abcdefhkls-:".toList := by
      simp [hashTags]
    exact htags tag htag c hc
  · rw [hc]
    decide
  · obtain ⟨n, hn, rfl⟩ := exists_digit_of_mem_hex hc
    have hdigits : ∀ i : Fin 16, Nat.digitChar i ∈ "0123456789abcdefhkls-:".toList := by decide
    exact hdigits ⟨n, hn⟩

/-- **The documented form avoids every separator.** -/
theorem IsContentId.wellFormed {cid : ContentId} (h : IsContentId cid) : WellFormed cid := by
  constructor
  · intro hempty
    obtain ⟨tag, _, digest, _, rfl⟩ := h
    exact absurd (congrArg String.toList hempty) (by simp [toString])
  · intro hc
    exact absurd (mem_alphabet_of_isContentId h hc) (by decide)
  · intro hc
    exact absurd (mem_alphabet_of_isContentId h hc) (by decide)
  · intro hc
    exact absurd (mem_alphabet_of_isContentId h hc) (by decide)

/-! ## Composition parameters -/

/-- The mix weights of adapters, in milli-units. -/
structure CompositionParams where
  alphaMilli : Dict ContentId ℤ
  weights_nonneg : ∀ e ∈ alphaMilli.items, 0 ≤ e.2

namespace CompositionParams

/-- The constructor: no weight is negative. -/
def new (alphaMilli : Dict ContentId ℤ := ∅) : Except PyError CompositionParams :=
  match h : alphaMilli.items.find? fun e => e.2 < 0 with
  | some e => .error (.valueError s!"alpha_milli[{pyRepr e.1}] must be a non-negative integer")
  | none => .ok ⟨alphaMilli, by simpa using h⟩

/-- No weight given. -/
instance : Inhabited CompositionParams := ⟨⟨∅, by simp⟩⟩

/-- The canonical encoding: the entries `cid=weight` in the order of the identities. -/
def canonicalBytes (p : CompositionParams) : Bytes :=
  let pairs := (sortBy id p.alphaMilli.keys).map fun cid => s!"{cid}={p.alphaMilli.getD cid 0}"
  utf8 ("\x1f".intercalate pairs)

end CompositionParams

/-! ## The derivation -/

/-- What the identity of a model commits to, and the identity. -/
structure ModelIdentity where
  base : ContentId
  loras : List ContentId
  params : CompositionParams
  id : ContentId

/-- The adapters in ascending order, each once. -/
def canonicalLoraOrder (loras : List ContentId) : List ContentId := sortBy id loras.dedup

/-- The bytes that are hashed. -/
def modelIdPreimage (base : ContentId) (ordered : List ContentId) (params : CompositionParams) :
    Bytes :=
  [0].intercalate
    [ utf8 "yeblock-lim/model-id/v1",
      utf8 base,
      [0x1f].intercalate (ordered.map utf8),
      params.canonicalBytes ]

/-- The identity of a base with adapters; weights that are not given are none. -/
def deriveModelIdentity (base : ContentId) (loras : List ContentId)
    (params : Option CompositionParams := none) : Except PyError ModelIdentity := do
  let params := params.getD default
  let ordered := canonicalLoraOrder loras
  let id ← contentId (modelIdPreimage base ordered params)
  return { base, loras := ordered, params, id }

theorem deriveModelIdentity_eq (base : ContentId) (loras : List ContentId)
    (params : CompositionParams) :
    deriveModelIdentity base loras (some params) = .ok
      { base, loras := canonicalLoraOrder loras, params,
        id := sha3Id (modelIdPreimage base (canonicalLoraOrder loras) params) } := rfl

theorem deriveModelIdentity_none (base : ContentId) (loras : List ContentId) :
    deriveModelIdentity base loras = deriveModelIdentity base loras (some default) := rfl

/-- An identity is itself a content identity. -/
theorem wellFormed_id {base : ContentId} {loras : List ContentId} {params : CompositionParams}
    {m : ModelIdentity} (h : deriveModelIdentity base loras (some params) = .ok m) :
    WellFormed m.id := by
  rw [deriveModelIdentity_eq, Except.ok.injEq] at h
  subst h
  exact (isContentId_contentId (contentId_default _)).wellFormed

/-! ## What the encoding determines -/

/-- The canonical order is that of the set. -/
theorem canonicalLoraOrder_eq_iff (loras loras' : List ContentId) :
    canonicalLoraOrder loras = canonicalLoraOrder loras' ↔ loras.toFinset = loras'.toFinset := by
  constructor
  · intro h
    ext cid
    have hmem : cid ∈ canonicalLoraOrder loras ↔ cid ∈ canonicalLoraOrder loras' := by rw [h]
    simpa [canonicalLoraOrder] using hmem
  · intro h
    exact sortBy_eq_of_perm (List.toFinset_eq_iff_perm_dedup.mp h) fun _ _ _ _ hkey => hkey

theorem mem_canonicalLoraOrder {cid : ContentId} {loras : List ContentId} :
    cid ∈ canonicalLoraOrder loras ↔ cid ∈ loras := by
  rw [canonicalLoraOrder, mem_sortBy, List.mem_dedup]

/-- The text of an entry. -/
def renderEntry (e : ContentId × ℤ) : String := s!"{e.1}={e.2}"

theorem toList_renderEntry (e : ContentId × ℤ) :
    (renderEntry e).toList = e.1.toList ++ '=' :: (toString e.2).toList := by
  simp [renderEntry, toString]

theorem renderEntry_inj {e e' : ContentId × ℤ} (he : WellFormed e.1) (he' : WellFormed e'.1) :
    renderEntry e = renderEntry e' ↔ e = e' := by
  rw [← String.toList_inj, toList_renderEntry, toList_renderEntry,
    append_cons_inj_left he.no_eq he'.no_eq, String.toList_inj, String.toList_inj,
    toString_int_inj, Prod.ext_iff]

/-- A separator other than `=` is in no entry. -/
theorem notMem_renderEntry {e : ContentId × ℤ} {c : Char} (hc : c ∉ e.1.toList) (heq : c ≠ '=')
    (hdigit : c.isDigit = false) (hminus : c ≠ '-') : c ∉ (renderEntry e).toList := by
  rw [toList_renderEntry, List.mem_append, List.mem_cons, not_or, not_or]
  exact ⟨hc, heq, notMem_toString hdigit hminus e.2⟩

namespace CompositionParams
variable (p p' : CompositionParams)

/-- The weights in the order of their adapters. -/
def entries : List (ContentId × ℤ) :=
  (sortBy id p.alphaMilli.keys).map fun cid => (cid, p.alphaMilli.getD cid 0)

theorem canonicalBytes_eq :
    p.canonicalBytes = utf8 ("\x1f".intercalate (p.entries.map renderEntry)) := by
  rw [entries, List.map_map]
  rfl

theorem mem_entries_iff {cid : ContentId} {weight : ℤ} :
    (cid, weight) ∈ p.entries ↔ p.alphaMilli.get? cid = some weight := by
  have hkey := p.alphaMilli.get?_eq_none_iff cid
  rw [entries, List.mem_map]
  constructor
  · rintro ⟨cid', hmem, heq⟩
    cases heq
    exact Dict.get?_eq_some_getD (mem_sortBy.mp hmem)
  · intro h
    refine ⟨cid, mem_sortBy.mpr ?_, by rw [Dict.getD, h]; rfl⟩
    by_contra hno
    rw [hkey.mpr hno] at h
    cases h

/-- The entries are those of the map. -/
theorem entries_eq_iff : p.entries = p'.entries ↔ p.alphaMilli.Same p'.alphaMilli := by
  constructor
  · intro h cid
    ext weight
    rw [← mem_entries_iff, ← mem_entries_iff, h]
  · intro h
    have hkeys : p.alphaMilli.keys.Perm p'.alphaMilli.keys := by
      refine (List.perm_ext_iff_of_nodup p.alphaMilli.nodup_keys p'.alphaMilli.nodup_keys).mpr ?_
      intro cid
      rw [← not_iff_not]
      exact (Dict.get?_eq_none_iff _ _).symm.trans (h cid ▸ Dict.get?_eq_none_iff _ _)
    have hsorted : sortBy id p.alphaMilli.keys = sortBy id p'.alphaMilli.keys :=
      sortBy_eq_of_perm hkeys fun _ _ _ _ hkey => hkey
    rw [entries, entries, hsorted]
    exact List.map_congr_left fun cid _ => by rw [h.getD_eq]

variable {p p'} (hp : ∀ cid ∈ p.alphaMilli.keys, WellFormed cid)
include hp

theorem wellFormed_of_mem_entries : ∀ e ∈ p.entries, WellFormed e.1 := by
  intro e he
  rw [entries, List.mem_map] at he
  obtain ⟨cid, hcid, rfl⟩ := he
  exact hp cid (mem_sortBy.mp hcid)

theorem zero_notMem_canonicalBytes : 0 ∉ p.canonicalBytes := by
  rw [canonicalBytes_eq, zero_mem_utf8_iff, String.toList_intercalate, List.map_map]
  apply notMem_intercalate (by decide)
  intro l hl
  obtain ⟨e, he, rfl⟩ := List.mem_map.mp hl
  exact notMem_renderEntry (wellFormed_of_mem_entries hp e he).no_nul (by simp) rfl (by simp)

theorem unit_notMem_entry : ∀ e ∈ p.entries,
    '\x1f' ∉ (renderEntry e).toList ∧ (renderEntry e).toList ≠ [] := by
  intro e he
  constructor
  · exact notMem_renderEntry (wellFormed_of_mem_entries hp e he).no_unit (by simp) rfl (by simp)
  · rw [toList_renderEntry]
    simp

/-- **The canonical bytes determine the map.** -/
theorem canonicalBytes_eq_iff (hp' : ∀ cid ∈ p'.alphaMilli.keys, WellFormed cid) :
    p.canonicalBytes = p'.canonicalBytes ↔ p.alphaMilli.Same p'.alphaMilli := by
  have hinj : ∀ e ∈ p.entries, ∀ e' ∈ p'.entries,
      (renderEntry e).toList = (renderEntry e').toList → e = e' := by
    intro e he e' he' heq
    rw [String.toList_inj] at heq
    exact (renderEntry_inj (wellFormed_of_mem_entries hp e he)
      (wellFormed_of_mem_entries hp' e' he')).mp heq
  rw [← entries_eq_iff, ← intercalate_map_inj (unit_notMem_entry hp) (unit_notMem_entry hp') hinj,
    canonicalBytes_eq, canonicalBytes_eq, utf8_inj, ← String.toList_inj,
    String.toList_intercalate, String.toList_intercalate, List.map_map, List.map_map]
  rfl

end CompositionParams

/-- Every identity a composition names avoids the separators. -/
structure WellFormedComposition (base : ContentId) (loras : List ContentId)
    (params : CompositionParams) : Prop where
  base : WellFormed base
  loras : ∀ cid ∈ loras, WellFormed cid
  params : ∀ cid ∈ params.alphaMilli.keys, WellFormed cid

/-- The same base, the same set of adapters and the same map of weights. -/
def SameComposition (base base' : ContentId) (loras loras' : List ContentId)
    (params params' : CompositionParams) : Prop :=
  base = base' ∧ loras.toFinset = loras'.toFinset ∧ params.alphaMilli.Same params'.alphaMilli

theorem WellFormed.zero_notMem {cid : ContentId} (h : WellFormed cid) : 0 ∉ utf8 cid := by
  rw [zero_mem_utf8_iff]
  exact h.no_nul

section Loras
variable {loras loras' : List ContentId} (h : ∀ cid ∈ loras, WellFormed cid)
include h

theorem zero_notMem_joinedLoras :
    0 ∉ [0x1f].intercalate ((canonicalLoraOrder loras).map utf8) := by
  apply notMem_intercalate (by decide)
  intro l hl
  obtain ⟨cid, hcid, rfl⟩ := List.mem_map.mp hl
  exact (h cid (mem_canonicalLoraOrder.mp hcid)).zero_notMem

/-- The joined adapters determine their set. -/
theorem joinedLoras_eq_iff (h' : ∀ cid ∈ loras', WellFormed cid) :
    [(0x1f : UInt8)].intercalate ((canonicalLoraOrder loras).map utf8) =
        [0x1f].intercalate ((canonicalLoraOrder loras').map utf8) ↔
      loras.toFinset = loras'.toFinset := by
  have hfields : ∀ ls : List ContentId, (∀ cid ∈ ls, WellFormed cid) →
      ∀ cid ∈ canonicalLoraOrder ls, 0x1f ∉ utf8 cid ∧ utf8 cid ≠ [] := by
    intro ls hls cid hcid
    have hwf := hls cid (mem_canonicalLoraOrder.mp hcid)
    constructor
    · rw [unit_mem_utf8_iff]
      exact hwf.no_unit
    · intro hnil
      exact hwf.ne_empty (utf8_inj.mp hnil)
  rw [intercalate_map_inj (hfields loras h) (hfields loras' h') fun _ _ _ _ => utf8_inj.mp,
    canonicalLoraOrder_eq_iff]

end Loras

theorem zero_notMem_fields {base : ContentId} {loras : List ContentId}
    {params : CompositionParams} (h : WellFormedComposition base loras params) :
    ∀ l ∈ [utf8 "yeblock-lim/model-id/v1", utf8 base,
      [0x1f].intercalate ((canonicalLoraOrder loras).map utf8), params.canonicalBytes], 0 ∉ l := by
  have htag : 0 ∉ utf8 "yeblock-lim/model-id/v1" := by simp [zero_mem_utf8_iff]
  simp [htag, h.base.zero_notMem, zero_notMem_joinedLoras h.loras,
    CompositionParams.zero_notMem_canonicalBytes h.params]

/-- **What the encoding determines**: the base, the set of adapters and the map of
weights. -/
theorem modelIdPreimage_eq_iff {base base' : ContentId} {loras loras' : List ContentId}
    {params params' : CompositionParams} (h : WellFormedComposition base loras params)
    (h' : WellFormedComposition base' loras' params') :
    modelIdPreimage base (canonicalLoraOrder loras) params =
        modelIdPreimage base' (canonicalLoraOrder loras') params' ↔
      SameComposition base base' loras loras' params params' := by
  rw [modelIdPreimage, modelIdPreimage, intercalate_inj (by simp) (by simp)
    (zero_notMem_fields h) (zero_notMem_fields h')]
  simp only [List.cons.injEq, true_and, and_true, utf8_inj, joinedLoras_eq_iff h.loras h'.loras,
    CompositionParams.canonicalBytes_eq_iff h.params h'.params, SameComposition]

/-! ## Identities -/

/-- The hash does not confuse the two byte strings. -/
def CollisionFree (x y : Bytes) : Prop := sha3_256 x = sha3_256 y → x = y

theorem CollisionFree.contentId_eq_iff {x y : Bytes} (h : CollisionFree x y) :
    contentId x = contentId y ↔ x = y := by
  rw [YeBlock.contentId_eq_iff]
  constructor
  · exact h
  · intro heq
    rw [heq]

/-- **Model identity is injective on compositions**: the encoding determines the base,
the set of adapters and the map of weights, and where the hash does not confuse two
encodings, so does the identity. -/
theorem model_identity_injective {base base' : ContentId} {loras loras' : List ContentId}
    {params params' : CompositionParams} (h : WellFormedComposition base loras params)
    (h' : WellFormedComposition base' loras' params') :
    (modelIdPreimage base (canonicalLoraOrder loras) params =
        modelIdPreimage base' (canonicalLoraOrder loras') params' ↔
      SameComposition base base' loras loras' params params') ∧
    (CollisionFree (modelIdPreimage base (canonicalLoraOrder loras) params)
        (modelIdPreimage base' (canonicalLoraOrder loras') params') →
      ∃ m m', deriveModelIdentity base loras (some params) = .ok m ∧
        deriveModelIdentity base' loras' (some params') = .ok m' ∧
        (m.id = m'.id ↔ SameComposition base base' loras loras' params params')) := by
  have hpreimage := modelIdPreimage_eq_iff h h'
  constructor
  · exact hpreimage
  · intro hfree
    refine ⟨_, _, deriveModelIdentity_eq base loras params,
      deriveModelIdentity_eq base' loras' params', ?_⟩
    rw [← hpreimage, ← hfree.contentId_eq_iff, contentId_default, contentId_default,
      Except.ok.injEq]

/-- A base and an adapter, by their identities. -/
def artifactBase : ContentId :=
  "sha3-256:9f86d081884c7d659a2feaa0c55ad015a3bf4f1b2b0b822cd15d6c15b0f00a08"

def artifactLora : ContentId :=
  "sha3-256:a7ffc6f8bf1ed76651c14756a061d662f580ff4de43b49fa82d80a4b80f8434a"

/-- The weight of the adapter, as it would be without an entry. -/
def unitWeight : CompositionParams :=
  (CompositionParams.new ((∅ : Dict _ _).set artifactLora 1000)).toOption.get (by decide)

theorem wellFormed_artifactBase : WellFormed artifactBase := by
  constructor <;> simp [artifactBase]

theorem wellFormed_artifactLora : WellFormed artifactLora := by
  constructor <;> simp [artifactLora]

theorem digest_unitWeight_ne :
    sha3_256 (modelIdPreimage artifactBase (canonicalLoraOrder [artifactLora]) default) ≠
      sha3_256 (modelIdPreimage artifactBase (canonicalLoraOrder [artifactLora]) unitWeight) := by
  rw [sha3_256_eq_eval]
  decide +kernel

/-- With the weight of the adapter left out and written down, it is not the same
composition. -/
theorem model_identity_injective_unitWeight :
    ∃ m m', deriveModelIdentity artifactBase [artifactLora] (some default) = .ok m ∧
      deriveModelIdentity artifactBase [artifactLora] (some unitWeight) = .ok m' ∧
      m.id ≠ m'.id := by
  have hloras : ∀ cid ∈ [artifactLora], WellFormed cid := by
    simp [wellFormed_artifactLora]
  have hnone : WellFormedComposition artifactBase [artifactLora] default :=
    ⟨wellFormed_artifactBase, hloras, by simp [default]⟩
  have hunit : WellFormedComposition artifactBase [artifactLora] unitWeight :=
    ⟨wellFormed_artifactBase, hloras, hloras⟩
  obtain ⟨m, m', hm, hm', hid⟩ := (model_identity_injective hnone hunit).2
    fun h => absurd h digest_unitWeight_ne
  refine ⟨m, m', hm, hm', ?_⟩
  rw [Ne, hid]
  intro hsame
  exact absurd (hsame.2.2 artifactLora) (by decide)

/-! ## The same mix -/

/-- The mix weight 1.0, in milli-units. -/
def alphaUnit : ℤ := 1000

/-- The documented weight of an adapter in the mix: 1.0 if it is absent. -/
def CompositionParams.weight (p : CompositionParams) (cid : ContentId) : ℤ :=
  p.alphaMilli.getD cid alphaUnit

/-- Every adapter has the same weight under both parameters. -/
def SameMix (loras : List ContentId) (params params' : CompositionParams) : Prop :=
  ∀ cid ∈ loras, params.weight cid = params'.weight cid

/-- If the two parameters give the same mix, the identities are the same. -/
def OneIdentity (base : ContentId) (loras : List ContentId)
    (params params' : CompositionParams) : Prop :=
  SameMix loras params params' →
    (deriveModelIdentity base loras (some params)).map (·.id) =
      (deriveModelIdentity base loras (some params')).map (·.id)

/-- With the base and the adapters fixed, the encoding is that of the weights. -/
theorem modelIdPreimage_params_iff (base : ContentId) (ordered : List ContentId)
    (params params' : CompositionParams) :
    modelIdPreimage base ordered params = modelIdPreimage base ordered params' ↔
      params.canonicalBytes = params'.canonicalBytes := by
  simp [modelIdPreimage, List.intercalate_cons_cons]

theorem map_id_deriveModelIdentity (base : ContentId) (loras : List ContentId)
    (params : CompositionParams) :
    (deriveModelIdentity base loras (some params)).map (·.id) =
      contentId (modelIdPreimage base (canonicalLoraOrder loras) params) := rfl

theorem canonicalBytes_eq_of_same {params params' : CompositionParams}
    (h : params.alphaMilli.Same params'.alphaMilli) :
    params.canonicalBytes = params'.canonicalBytes := by
  rw [CompositionParams.canonicalBytes_eq, CompositionParams.canonicalBytes_eq,
    (CompositionParams.entries_eq_iff params params').mpr h]

/-- **When the same mix has one identity**: if the maps have the same entries whenever
they give the same mix; and between identities of the documented form that the hash
does not confuse, only then. -/
theorem one_identity_iff (base : ContentId) (loras : List ContentId)
    (params params' : CompositionParams) :
    ((SameMix loras params params' → params.alphaMilli.Same params'.alphaMilli) →
        OneIdentity base loras params params') ∧
      ((∀ cid ∈ params.alphaMilli.keys, WellFormed cid) →
        (∀ cid ∈ params'.alphaMilli.keys, WellFormed cid) →
        CollisionFree (modelIdPreimage base (canonicalLoraOrder loras) params)
          (modelIdPreimage base (canonicalLoraOrder loras) params') →
        (OneIdentity base loras params params' ↔
          (SameMix loras params params' → params.alphaMilli.Same params'.alphaMilli))) := by
  constructor
  · intro hsame hmix
    rw [map_id_deriveModelIdentity, map_id_deriveModelIdentity, modelIdPreimage,
      canonicalBytes_eq_of_same (hsame hmix)]
    rfl
  · intro hkeys hkeys' hfree
    rw [OneIdentity, map_id_deriveModelIdentity, map_id_deriveModelIdentity,
      hfree.contentId_eq_iff, modelIdPreimage_params_iff,
      CompositionParams.canonicalBytes_eq_iff hkeys hkeys']

/-- The weight left out and written down is the same mix, with two identities. -/
theorem unitWeight_two_identities :
    ¬ ∀ (base : ContentId) (loras : List ContentId) (params params' : CompositionParams),
      OneIdentity base loras params params' := by
  intro h
  have hmix : SameMix [artifactLora] default unitWeight := by
    simp only [SameMix, List.mem_singleton, forall_eq]
    decide
  have hid := h artifactBase [artifactLora] default unitWeight hmix
  rw [map_id_deriveModelIdentity, map_id_deriveModelIdentity, contentId_eq_iff] at hid
  exact digest_unitWeight_ne hid

end YeBlock
