import Mathlib.Algebra.BigOperators.Group.List.Basic
import Mathlib.Algebra.Order.BigOperators.Group.List
import Mathlib.Data.List.Nodup

/-!
# Insertion-ordered dictionaries

A dictionary is a list of entries in insertion order in which every key occurs
once.  Assigning to a stored key rewrites its entry in place; assigning to a new
key appends one.  Two dictionaries are equal as maps when every lookup agrees,
whatever the insertion order.

The second half is about running totals, the one loop shape settlement code uses
a dictionary for: `d[k] = d.get(k, 0) + x` over a list of `(k, x)` entries.  Each
total is then a filtered sum of the list, which no reordering of the list changes.

## Main definitions

* `Dict κ ν` — entries in insertion order, with distinct keys.
* `Dict.get?`, `Dict.getD`, `Dict.set`, `Dict.erase` — lookup, assignment and removal.
* `Dict.mapValues` — every value put through a function.
* `Dict.Same` — equality as maps.
* `Dict.sum` — the sum of the values.
* `Dict.add`, `Dict.tally` — accumulate one entry, or a list of them.
* `totalOf k es` — what a list of entries gives to the key `k`.
-/

namespace Lib

universe u v

variable {κ : Type u} {ν : Type v}

/-! ## Association lists -/

section Upsert
variable [DecidableEq κ]

/-- Rewrite the entry of `k` in place, or append one if there is none. -/
def upsert (k : κ) (v : ν) : List (κ × ν) → List (κ × ν)
  | [] => [(k, v)]
  | e :: es => if e.1 = k then (k, v) :: es else e :: upsert k v es

theorem keys_upsert (k : κ) (v : ν) (es : List (κ × ν)) :
    (upsert k v es).map Prod.fst =
      if k ∈ es.map Prod.fst then es.map Prod.fst else es.map Prod.fst ++ [k] := by
  induction es with
  | nil => rfl
  | cons e es ih =>
      by_cases h : e.1 = k
      · simp [upsert, h]
      · have hne : k ≠ e.1 := Ne.symm h
        simp only [upsert, h, if_false, List.map_cons, ih, List.mem_cons, hne, false_or]
        split <;> simp

theorem nodup_keys_upsert (k : κ) (v : ν) {es : List (κ × ν)} (h : (es.map Prod.fst).Nodup) :
    ((upsert k v es).map Prod.fst).Nodup := by
  rw [keys_upsert]
  split
  · exact h
  · next hk => exact h.append (List.nodup_singleton k) (by simpa using hk)

private theorem lookup_cons_ite (k : κ) (e : κ × ν) (es : List (κ × ν)) :
    (e :: es).lookup k = if k = e.1 then some e.2 else es.lookup k := by
  obtain ⟨a, b⟩ := e
  rw [List.lookup_cons]
  by_cases h : k = a
  · simp [h]
  · have hk : (k == a) = false := beq_false_of_ne h
    simp [hk, h]

theorem lookup_upsert (k k' : κ) (v : ν) (es : List (κ × ν)) :
    (upsert k v es).lookup k' = if k' = k then some v else es.lookup k' := by
  induction es with
  | nil => simp [upsert, lookup_cons_ite]
  | cons e es ih =>
      by_cases he : e.1 = k
      · subst he
        by_cases h : k' = e.1 <;> simp [upsert, lookup_cons_ite, h]
      · simp only [upsert, he, if_false, lookup_cons_ite, ih]
        by_cases h : k' = e.1
        · simp [h, he]
        · simp [h]

/-- With distinct keys, every entry is the one its key finds. -/
theorem lookup_eq_some_of_mem {es : List (κ × ν)} (h : (es.map Prod.fst).Nodup) {e : κ × ν}
    (he : e ∈ es) : es.lookup e.1 = some e.2 := by
  induction es with
  | nil => cases he
  | cons a es ih =>
      rw [List.map_cons, List.nodup_cons] at h
      rw [lookup_cons_ite]
      rcases List.mem_cons.mp he with rfl | hmem
      · rw [if_pos rfl]
      · have hne : e.1 ≠ a.1 := by
          intro heq
          exact h.1 (heq ▸ List.mem_map_of_mem hmem)
        rw [if_neg hne, ih h.2 hmem]

theorem mem_of_lookup_eq_some {k : κ} {v : ν} {es : List (κ × ν)} (h : es.lookup k = some v) :
    (k, v) ∈ es := by
  induction es with
  | nil => cases h
  | cons e es ih =>
      rw [lookup_cons_ite] at h
      split at h
      · next heq =>
          obtain ⟨a, b⟩ := e
          cases h
          cases heq
          exact List.mem_cons_self
      · exact List.mem_cons_of_mem _ (ih h)

theorem lookup_eq_none_iff_notMem (k : κ) (es : List (κ × ν)) :
    es.lookup k = none ↔ k ∉ es.map Prod.fst := by
  induction es with
  | nil => simp
  | cons e es ih =>
      rw [lookup_cons_ite, List.map_cons, List.mem_cons, not_or]
      by_cases h : k = e.1
      · simp [h]
      · rw [if_neg h, ih, and_iff_right h]

theorem lookup_map_snd {ν' : Type*} (f : ν → ν') (k : κ) (es : List (κ × ν)) :
    (es.map fun e => (e.1, f e.2)).lookup k = (es.lookup k).map f := by
  induction es with
  | nil => rfl
  | cons e es ih =>
      rw [List.map_cons, lookup_cons_ite, lookup_cons_ite, ih]
      split <;> rfl

theorem lookup_filter_ne (k k' : κ) (es : List (κ × ν)) :
    (es.filter fun e => e.1 ≠ k).lookup k' = if k' = k then none else es.lookup k' := by
  induction es with
  | nil => simp
  | cons e es ih =>
      by_cases hek : e.1 = k
      · rw [List.filter_cons_of_neg (by simpa using hek), ih, lookup_cons_ite, hek]
        split <;> rfl
      · rw [List.filter_cons_of_pos (by simpa using hek), lookup_cons_ite, lookup_cons_ite, ih]
        by_cases hk : k' = e.1
        · simp [hk, hek]
        · simp [hk]

end Upsert

/-! ## Dictionaries -/

/-- A dictionary: its entries in insertion order, each key once. -/
structure Dict (κ : Type u) (ν : Type v) where
  items : List (κ × ν)
  nodup_keys : (items.map Prod.fst).Nodup

namespace Dict

/-- The empty dictionary. -/
def empty : Dict κ ν := ⟨[], List.nodup_nil⟩

instance : EmptyCollection (Dict κ ν) := ⟨empty⟩

instance : Inhabited (Dict κ ν) := ⟨empty⟩

instance [DecidableEq κ] [DecidableEq ν] : DecidableEq (Dict κ ν) := fun d d' =>
  decidable_of_iff (d.items = d'.items)
    ⟨fun h => by cases d; cases d'; cases h; rfl, fun h => h ▸ rfl⟩

/-- The keys, in insertion order. -/
def keys (d : Dict κ ν) : List κ := d.items.map Prod.fst

/-- The values, in insertion order of their keys. -/
def values (d : Dict κ ν) : List ν := d.items.map Prod.snd

@[simp] theorem items_empty : (∅ : Dict κ ν).items = [] := rfl

@[simp] theorem keys_empty : (∅ : Dict κ ν).keys = [] := rfl

variable [DecidableEq κ]

/-- The value stored under `k`, if any. -/
def get? (d : Dict κ ν) (k : κ) : Option ν := d.items.lookup k

/-- The value stored under `k`, or `dflt`. -/
def getD (d : Dict κ ν) (k : κ) (dflt : ν) : ν := (d.get? k).getD dflt

/-- Assign `v` to `k`. -/
def set (d : Dict κ ν) (k : κ) (v : ν) : Dict κ ν :=
  ⟨upsert k v d.items, nodup_keys_upsert k v d.nodup_keys⟩

@[simp] theorem get?_empty (k : κ) : (∅ : Dict κ ν).get? k = none := rfl

@[simp] theorem getD_empty (k : κ) (dflt : ν) : (∅ : Dict κ ν).getD k dflt = dflt := rfl

theorem get?_set (d : Dict κ ν) (k k' : κ) (v : ν) :
    (d.set k v).get? k' = if k' = k then some v else d.get? k' :=
  lookup_upsert k k' v d.items

theorem getD_set (d : Dict κ ν) (k k' : κ) (v dflt : ν) :
    (d.set k v).getD k' dflt = if k' = k then v else d.getD k' dflt := by
  by_cases h : k' = k <;> simp [getD, get?_set, h]

theorem mem_items_of_get? {d : Dict κ ν} {k : κ} {v : ν} (h : d.get? k = some v) :
    (k, v) ∈ d.items := mem_of_lookup_eq_some h

theorem get?_eq_none_iff (d : Dict κ ν) (k : κ) : d.get? k = none ↔ k ∉ d.keys :=
  lookup_eq_none_iff_notMem k d.items

theorem mem_keys_set (d : Dict κ ν) (k k' : κ) (v : ν) :
    k' ∈ (d.set k v).keys ↔ k' = k ∨ k' ∈ d.keys := by
  rw [← not_iff_not, ← get?_eq_none_iff, get?_set, not_or, ← get?_eq_none_iff]
  by_cases h : k' = k <;> simp [h]

/-- Assigning to distinct keys in turn: each holds what it was assigned. -/
theorem get?_foldl_set {ν' : Type*} (f : κ × ν → ν') {es : List (κ × ν)}
    (h : (es.map Prod.fst).Nodup) (d : Dict κ ν') (k : κ) :
    (es.foldl (fun d e => d.set e.1 (f e)) d).get? k =
      ((es.lookup k).map fun v => f (k, v)).or (d.get? k) := by
  induction es generalizing d with
  | nil => rfl
  | cons e es ih =>
      obtain ⟨hnew, hrest⟩ := List.nodup_cons.mp h
      rw [List.foldl_cons, ih hrest, get?_set, lookup_cons_ite]
      by_cases hk : k = e.1
      · subst hk
        have hnone : es.lookup e.1 = none := (lookup_eq_none_iff_notMem e.1 es).mpr hnew
        simp [hnone]
      · simp [hk]

/-- Every value put through `f`. -/
def mapValues {ν' : Type*} (f : ν → ν') (d : Dict κ ν) : Dict κ ν' where
  items := d.items.map fun e => (e.1, f e.2)
  nodup_keys := by
    rw [List.map_map]
    exact d.nodup_keys

theorem get?_mapValues {ν' : Type*} (f : ν → ν') (d : Dict κ ν) (k : κ) :
    (d.mapValues f).get? k = (d.get? k).map f := lookup_map_snd f k d.items

/-- The dictionary without `k`. -/
def erase (d : Dict κ ν) (k : κ) : Dict κ ν where
  items := d.items.filter fun e => e.1 ≠ k
  nodup_keys := d.nodup_keys.sublist (List.filter_sublist.map _)

theorem get?_erase (d : Dict κ ν) (k k' : κ) :
    (d.erase k).get? k' = if k' = k then none else d.get? k' :=
  lookup_filter_ne k k' d.items

/-- Equality as maps: every lookup agrees, whatever the insertion order. -/
def Same (d d' : Dict κ ν) : Prop := ∀ k, d.get? k = d'.get? k

@[refl] theorem Same.refl (d : Dict κ ν) : Same d d := fun _ => rfl

theorem Same.getD_eq {d d' : Dict κ ν} (h : Same d d') (k : κ) (dflt : ν) :
    d.getD k dflt = d'.getD k dflt := by rw [getD, getD, h k]

end Dict

/-! ## What a list of entries gives to one key -/

section TotalOf
variable [DecidableEq κ] [AddCommMonoid ν]

/-- The sum of the entries under the key `k`. -/
def totalOf (k : κ) (es : List (κ × ν)) : ν := ((es.filter fun e => e.1 = k).map Prod.snd).sum

@[simp] theorem totalOf_nil (k : κ) : totalOf k ([] : List (κ × ν)) = 0 := rfl

theorem totalOf_cons (k : κ) (e : κ × ν) (es : List (κ × ν)) :
    totalOf k (e :: es) = (if e.1 = k then e.2 else 0) + totalOf k es := by
  by_cases h : e.1 = k <;> simp [totalOf, h]

theorem totalOf_append (k : κ) (es es' : List (κ × ν)) :
    totalOf k (es ++ es') = totalOf k es + totalOf k es' := by
  simp [totalOf]

theorem totalOf_perm (k : κ) {es es' : List (κ × ν)} (h : es.Perm es') :
    totalOf k es = totalOf k es' :=
  ((h.filter _).map Prod.snd).sum_eq

theorem totalOf_eq_zero (k : κ) {es : List (κ × ν)} (h : k ∉ es.map Prod.fst) :
    totalOf k es = 0 := by
  induction es with
  | nil => rfl
  | cons e es ih =>
      simp only [List.map_cons, List.mem_cons, not_or] at h
      rw [totalOf_cons, if_neg (Ne.symm h.1), ih h.2, add_zero]

/-- Entries of a key that are all zero make a total of zero. -/
theorem totalOf_eq_zero_of_values {k : κ} {es : List (κ × ν)}
    (h : ∀ e ∈ es, e.1 = k → e.2 = 0) : totalOf k es = 0 := by
  apply List.sum_eq_zero
  intro x hx
  obtain ⟨e, he, rfl⟩ := List.mem_map.mp hx
  obtain ⟨hmem, hkey⟩ := List.mem_filter.mp he
  exact h e hmem (by simpa using hkey)

/-- A key that every other entry leaves alone is given everything. -/
theorem totalOf_eq_sum {k : κ} {es : List (κ × ν)} (h : ∀ e ∈ es, e.1 = k ∨ e.2 = 0) :
    totalOf k es = (es.map Prod.snd).sum := by
  induction es with
  | nil => rfl
  | cons e es ih =>
      have hrest := ih fun e' he' => h e' (List.mem_cons_of_mem e he')
      rw [totalOf_cons, hrest, List.map_cons, List.sum_cons]
      congr 1
      rcases h e List.mem_cons_self with hkey | hzero
      · exact if_pos hkey
      · rw [hzero, ite_self]

/-- With distinct keys, a key's total is the value it finds. -/
theorem totalOf_eq_of_lookup {k : κ} {v : ν} {es : List (κ × ν)} (h : (es.map Prod.fst).Nodup)
    (hk : es.lookup k = some v) : totalOf k es = v := by
  induction es with
  | nil => cases hk
  | cons e es ih =>
      rw [List.map_cons, List.nodup_cons] at h
      rw [lookup_cons_ite] at hk
      rw [totalOf_cons]
      split at hk
      · next heq =>
          subst heq
          rw [if_pos rfl, totalOf_eq_zero e.1 h.1, add_zero]
          exact Option.some.inj hk
      · next hne => rw [if_neg (Ne.symm hne), zero_add, ih h.2 hk]

theorem totalOf_nonneg [PartialOrder ν] [IsOrderedAddMonoid ν] (k : κ) {es : List (κ × ν)}
    (h : ∀ e ∈ es, 0 ≤ e.2) : 0 ≤ totalOf k es := by
  apply List.sum_nonneg
  intro x hx
  obtain ⟨e, he, rfl⟩ := List.mem_map.mp hx
  exact h e (List.mem_filter.mp he).1

/-- Entries that grow, key by key, make totals that grow. -/
theorem totalOf_le_of_forall₂ [PartialOrder ν] [IsOrderedAddMonoid ν] (k : κ)
    {es es' : List (κ × ν)} (h : List.Forall₂ (fun e e' => e.1 = e'.1 ∧ e.2 ≤ e'.2) es es') :
    totalOf k es ≤ totalOf k es' := by
  induction h with
  | nil => exact le_rfl
  | @cons e e' es es' he _ ih =>
      rw [totalOf_cons, totalOf_cons, he.1]
      refine add_le_add ?_ ih
      split
      · exact he.2
      · exact le_rfl

/-- What lists joined together give to a key. -/
theorem totalOf_flatMap {γ : Type*} (k : κ) (f : γ → List (κ × ν)) (l : List γ) :
    totalOf k (l.flatMap f) = (l.map fun c => totalOf k (f c)).sum := by
  induction l with
  | nil => rfl
  | cons c l ih =>
      rw [List.flatMap_cons, totalOf_append, ih, List.map_cons, List.sum_cons]

/-- Entries of one key that are not positive, one of them negative, give it a negative
total. -/
theorem totalOf_neg [PartialOrder ν] [IsOrderedCancelAddMonoid ν] {e : κ × ν} {es : List (κ × ν)}
    (h : ∀ e' ∈ es, e'.1 = e.1 → e'.2 ≤ 0) (he : e ∈ es) (hneg : e.2 < 0) : totalOf e.1 es < 0 := by
  have hmem : e ∈ es.filter fun e' => e'.1 = e.1 := List.mem_filter.mpr ⟨he, by simp⟩
  have hlt := List.sum_lt_sum Prod.snd (fun _ => (0 : ν)) (l := es.filter fun e' => e'.1 = e.1)
    (fun e' he' => h e' (List.mem_filter.mp he').1 (by simpa using (List.mem_filter.mp he').2))
    ⟨e, hmem, hneg⟩
  simpa [totalOf] using hlt

end TotalOf

/-! ## Running totals -/

namespace Dict
variable [AddCommMonoid ν]

/-- The sum of the values. -/
def sum (d : Dict κ ν) : ν := d.values.sum

@[simp] theorem sum_empty : (∅ : Dict κ ν).sum = 0 := rfl

variable [DecidableEq κ]

/-- Add `x` to the total of `k`, which starts at zero. -/
def add (d : Dict κ ν) (k : κ) (x : ν) : Dict κ ν := d.set k (d.getD k 0 + x)

/-- Add every entry to the total of its key, in order. -/
def tally (d : Dict κ ν) (es : List (κ × ν)) : Dict κ ν := es.foldl (fun d e => d.add e.1 e.2) d

@[simp] theorem tally_nil (d : Dict κ ν) : d.tally [] = d := rfl

@[simp] theorem tally_cons (d : Dict κ ν) (e : κ × ν) (es : List (κ × ν)) :
    d.tally (e :: es) = (d.add e.1 e.2).tally es := rfl

theorem tally_append (d : Dict κ ν) (es es' : List (κ × ν)) :
    d.tally (es ++ es') = (d.tally es).tally es' := by
  simp [tally]

theorem foldl_tally {γ : Type*} (f : γ → List (κ × ν)) (l : List γ) (d : Dict κ ν) :
    l.foldl (fun d c => d.tally (f c)) d = d.tally (l.flatMap f) := by
  induction l generalizing d with
  | nil => rfl
  | cons c l ih => rw [List.foldl_cons, ih, List.flatMap_cons, tally_append]

theorem getD_add (d : Dict κ ν) (k k' : κ) (x : ν) :
    (d.add k x).getD k' 0 = d.getD k' 0 + if k = k' then x else 0 := by
  rw [add, getD_set]
  by_cases h : k = k'
  · simp [h]
  · simp [h, Ne.symm h]

/-- The total of `k` after a tally. -/
theorem getD_tally (d : Dict κ ν) (es : List (κ × ν)) (k : κ) :
    (d.tally es).getD k 0 = d.getD k 0 + totalOf k es := by
  induction es generalizing d with
  | nil => simp
  | cons e es ih => rw [tally_cons, ih, getD_add, totalOf_cons, add_assoc]

theorem mem_keys_tally (d : Dict κ ν) (es : List (κ × ν)) (k : κ) :
    k ∈ (d.tally es).keys ↔ k ∈ d.keys ∨ k ∈ es.map Prod.fst := by
  induction es generalizing d with
  | nil => simp
  | cons e es ih =>
      rw [tally_cons, ih, add, mem_keys_set, List.map_cons, List.mem_cons]
      tauto

theorem get?_eq_some_getD {d : Dict κ ν} {k : κ} (h : k ∈ d.keys) :
    d.get? k = some (d.getD k 0) := by
  cases hk : d.get? k with
  | none => exact absurd h ((d.get?_eq_none_iff k).mp hk)
  | some v => simp [getD, hk]

/-- **A tally is a map of filtered sums**: a key is present when it was before or
occurs in the list, and then holds the old total plus what the list gives it. -/
theorem get?_tally (d : Dict κ ν) (es : List (κ × ν)) (k : κ) :
    (d.tally es).get? k =
      if k ∈ d.keys ∨ k ∈ es.map Prod.fst then some (d.getD k 0 + totalOf k es) else none := by
  split
  · next h => rw [get?_eq_some_getD ((d.mem_keys_tally es k).mpr h), getD_tally]
  · next h => exact (get?_eq_none_iff _ k).mpr fun hk => h ((d.mem_keys_tally es k).mp hk)

/-- Tallies agree at a key on which the lists agree. -/
theorem get?_tally_congr (d : Dict κ ν) {es es' : List (κ × ν)} {k : κ}
    (hmem : k ∈ es.map Prod.fst ↔ k ∈ es'.map Prod.fst) (htotal : totalOf k es = totalOf k es') :
    (d.tally es).get? k = (d.tally es').get? k := by
  simp only [get?_tally, hmem, htotal]

/-- The order of the entries does not matter. -/
theorem tally_perm (d : Dict κ ν) {es es' : List (κ × ν)} (h : es.Perm es') :
    (d.tally es).Same (d.tally es') :=
  fun k => get?_tally_congr d (h.map Prod.fst).mem_iff (totalOf_perm k h)

/-- The keys of a list, each in the place of its first occurrence after those of `ks`. -/
def extendKeys (ks : List κ) (l : List κ) : List κ :=
  l.foldl (fun ks k => if k ∈ ks then ks else ks ++ [k]) ks

theorem mem_extendKeys (ks l : List κ) (k : κ) : k ∈ extendKeys ks l ↔ k ∈ ks ∨ k ∈ l := by
  induction l generalizing ks with
  | nil => simp [extendKeys]
  | cons a l ih =>
      have hstep : extendKeys ks (a :: l) = extendKeys (if a ∈ ks then ks else ks ++ [a]) l := rfl
      rw [hstep, ih]
      split
      · next h => grind
      · simp [or_assoc]

/-- Extending by the extension of `ks'` is extending by `ks'` and then by the list. -/
theorem extendKeys_extendKeys (ks ks' l : List κ) :
    extendKeys ks (extendKeys ks' l) = extendKeys (extendKeys ks ks') l := by
  induction l generalizing ks' with
  | nil => rfl
  | cons a l ih =>
      have hstep : ∀ js, extendKeys js (a :: l) =
          extendKeys (if a ∈ js then js else js ++ [a]) l := fun _ => rfl
      rw [hstep, hstep, ih]
      congr 1
      by_cases h : a ∈ ks'
      · rw [if_pos h, if_pos ((mem_extendKeys ks ks' a).mpr (.inr h))]
      · rw [if_neg h, extendKeys, List.foldl_append]
        rfl

theorem keys_add (d : Dict κ ν) (k : κ) (x : ν) :
    (d.add k x).keys = if k ∈ d.keys then d.keys else d.keys ++ [k] :=
  keys_upsert k _ d.items

/-- A tally keeps the keys in the order of their first entries. -/
theorem keys_tally (d : Dict κ ν) (es : List (κ × ν)) :
    (d.tally es).keys = extendKeys d.keys (es.map Prod.fst) := by
  induction es generalizing d with
  | nil => rfl
  | cons e es ih =>
      rw [tally_cons, ih, keys_add]
      rfl

/-- Two dictionaries with the same keys in the same order and the same lookups are equal. -/
theorem eq_of_keys_of_same {d d' : Dict κ ν} (hkeys : d.keys = d'.keys) (h : d.Same d') :
    d = d' := by
  have hitems : ∀ d : Dict κ ν, d.items = d.keys.map fun k => (k, d.getD k 0) := by
    intro d
    have hget : ∀ e ∈ d.items, d.getD e.1 0 = e.2 := by
      intro e he
      rw [getD, get?, lookup_eq_some_of_mem d.nodup_keys he, Option.getD_some]
    rw [keys, List.map_map]
    calc d.items = d.items.map id := (List.map_id _).symm
      _ = d.items.map ((fun k => (k, d.getD k 0)) ∘ Prod.fst) :=
        List.map_congr_left fun e he => by simp [hget e he]
  have hget : d.items = d'.items := by
    rw [hitems d, hitems d', hkeys]
    exact List.map_congr_left fun k _ => by rw [h.getD_eq]
  cases d
  cases d'
  cases hget
  rfl

/-- What the entries of a dictionary give to a key is the value stored under it. -/
theorem totalOf_items (d : Dict κ ν) (k : κ) : totalOf k d.items = d.getD k 0 := by
  cases hk : d.get? k with
  | none =>
      rw [totalOf_eq_zero k ((d.get?_eq_none_iff k).mp hk), getD, hk, Option.getD_none]
  | some v =>
      rw [getD, hk, Option.getD_some]
      exact totalOf_eq_of_lookup d.nodup_keys hk

/-- **Merging a tally is tallying its list**: totals collected apart and then merged
are the totals collected in place. -/
theorem tally_items_tally (d : Dict κ ν) (es : List (κ × ν)) :
    d.tally ((∅ : Dict κ ν).tally es).items = d.tally es := by
  have hkeys : ((∅ : Dict κ ν).tally es).items.map Prod.fst = extendKeys [] (es.map Prod.fst) :=
    keys_tally ∅ es
  apply eq_of_keys_of_same
  · rw [keys_tally, keys_tally, hkeys, extendKeys_extendKeys]
    rfl
  · intro k
    simp only [get?_tally, hkeys, mem_extendKeys, totalOf_items, getD_tally, getD_empty, zero_add,
      List.not_mem_nil, false_or]

private theorem sum_upsert_lookup (k : κ) (x : ν) (es : List (κ × ν)) :
    ((upsert k ((es.lookup k).getD 0 + x) es).map Prod.snd).sum = (es.map Prod.snd).sum + x := by
  induction es with
  | nil => simp [upsert]
  | cons e es ih =>
      by_cases h : e.1 = k
      · subst h
        simp [upsert, lookup_cons_ite, add_right_comm]
      · simp only [upsert, h, if_false, lookup_cons_ite, Ne.symm h, List.map_cons, List.sum_cons]
        rw [ih, add_assoc]

theorem sum_add (d : Dict κ ν) (k : κ) (x : ν) : (d.add k x).sum = d.sum + x :=
  sum_upsert_lookup k x d.items

/-- **A tally loses nothing**: the values grow by exactly what the list carries. -/
theorem sum_tally (d : Dict κ ν) (es : List (κ × ν)) :
    (d.tally es).sum = d.sum + (es.map Prod.snd).sum := by
  induction es generalizing d with
  | nil => simp
  | cons e es ih => rw [tally_cons, ih, sum_add, List.map_cons, List.sum_cons, add_assoc]

theorem exists_getD_of_mem_values {d : Dict κ ν} {v : ν} (h : v ∈ d.values) :
    ∃ k ∈ d.keys, d.getD k 0 = v := by
  obtain ⟨e, he, rfl⟩ := List.mem_map.mp h
  refine ⟨e.1, List.mem_map_of_mem he, ?_⟩
  rw [getD, get?, lookup_eq_some_of_mem d.nodup_keys he, Option.getD_some]

/-- What a list gives to a key is a total. -/
theorem totalOf_mem_values_tally {e : κ × ν} {es : List (κ × ν)} (h : e ∈ es) :
    totalOf e.1 es ∈ ((∅ : Dict κ ν).tally es).values := by
  have hkey : e.1 ∈ es.map Prod.fst := List.mem_map_of_mem h
  have hget : ((∅ : Dict κ ν).tally es).get? e.1 = some (totalOf e.1 es) := by
    rw [get?_tally, if_pos (.inr hkey), getD_empty, zero_add]
  exact List.mem_map_of_mem (mem_items_of_get? hget)

/-- Non-negative entries make non-negative totals. -/
theorem values_tally_nonneg [PartialOrder ν] [IsOrderedAddMonoid ν] {es : List (κ × ν)}
    (h : ∀ e ∈ es, 0 ≤ e.2) : ∀ v ∈ ((∅ : Dict κ ν).tally es).values, 0 ≤ v := by
  intro v hv
  obtain ⟨k, _, rfl⟩ := exists_getD_of_mem_values hv
  rw [getD_tally, getD_empty, zero_add]
  exact totalOf_nonneg k h

end Dict
end Lib
