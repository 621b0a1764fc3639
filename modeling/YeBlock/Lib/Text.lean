import Mathlib
import YeBlock.Lib.Lists

/-!
# Text on the wire

A canonical encoding writes its fields as text, joins them by a separator, and is
read by nobody: all that matters is what the bytes determine.  Fields that avoid the
separator are determined by their join; when only the last fields avoid it, those are
determined, and of the others the join is.

A separator below 128 is in the UTF-8 bytes of a string exactly when it is one of its
characters, so the join can be studied on bytes or on text.  Decimals consist of
digits and a sign, and determine the integer; hexadecimal consists of two digits a
byte, and determines the bytes.

## Main definitions

* `intercalate_inj`, `intercalate_inj_of_ne_nil` — a join determines its fields.
* `intercalate_map_inj` — and what they encode.
* `intercalate_append_inj` — a join determines its last fields.
* `mem_toUTF8_iff` — a separator in the bytes is a separator in the text.
* `isDigit_or_of_mem_toString` — the characters of a decimal.
* `hex` — lowercase hexadecimal; `hex_inj` — it determines the bytes.
-/

namespace Lib

/-! ## Fields and separators -/

section Separator
variable {α : Type*} {sep : α}

/-- The first separator ends the first field. -/
theorem append_cons_inj_left {x y l l' : List α} (hx : sep ∉ x) (hy : sep ∉ y) :
    x ++ sep :: l = y ++ sep :: l' ↔ x = y ∧ l = l' := by
  induction x generalizing y with
  | nil =>
      cases y with
      | nil => simp
      | cons b y =>
          have hne : sep ≠ b := fun h => hy (h ▸ List.mem_cons_self)
          simp [hne]
  | cons a x ih =>
      rw [List.mem_cons, not_or] at hx
      cases y with
      | nil => simp [Ne.symm hx.1]
      | cons b y =>
          rw [List.mem_cons, not_or] at hy
          simp only [List.cons_append, List.cons.injEq, ih hx.2 hy.2, and_assoc]

/-- The last separator begins the last field. -/
theorem append_cons_inj_right {x y l l' : List α} (hx : sep ∉ x) (hy : sep ∉ y) :
    l ++ sep :: x = l' ++ sep :: y ↔ l = l' ∧ x = y := by
  have hrev : x.reverse ++ sep :: l.reverse = y.reverse ++ sep :: l'.reverse ↔
      x.reverse = y.reverse ∧ l.reverse = l'.reverse :=
    append_cons_inj_left (fun h => hx (List.mem_reverse.mp h)) fun h => hy (List.mem_reverse.mp h)
  rw [← List.reverse_inj]
  simpa [and_comm] using hrev

theorem intercalate_append_singleton {ls : List (List α)} (h : ls ≠ []) (x : List α) :
    [sep].intercalate (ls ++ [x]) = [sep].intercalate ls ++ sep :: x := by
  induction ls with
  | nil => exact absurd rfl h
  | cons l ls ih =>
      cases ls with
      | nil => simp
      | cons l' ls =>
          have htail := ih (by simp)
          simp only [List.cons_append, List.intercalate_cons_cons] at htail ⊢
          simp only [htail, List.append_assoc]

/-- **A join determines its last fields**, however the earlier ones may contain the
separator, and then the join of the earlier ones. -/
theorem intercalate_append_inj {ls ls' : List (List α)} (hls : ls ≠ []) (hls' : ls' ≠ [])
    {xs ys : List (List α)} (hlen : xs.length = ys.length) (hxs : ∀ x ∈ xs, sep ∉ x)
    (hys : ∀ y ∈ ys, sep ∉ y) :
    [sep].intercalate (ls ++ xs) = [sep].intercalate (ls' ++ ys) ↔
      [sep].intercalate ls = [sep].intercalate ls' ∧ xs = ys := by
  induction xs using List.reverseRecOn generalizing ys with
  | nil =>
      obtain rfl : ys = [] := List.length_eq_zero_iff.mp hlen.symm
      simp
  | append_singleton xs x ih =>
      cases ys using List.reverseRecOn with
      | nil => simp at hlen
      | append_singleton ys y =>
          have hlen' : xs.length = ys.length := by simpa using hlen
          have hrest := ih hlen' (fun x hx => hxs x (by simp [hx])) fun y hy => hys y (by simp [hy])
          rw [← List.append_assoc, ← List.append_assoc,
            intercalate_append_singleton (by simp [hls]),
            intercalate_append_singleton (by simp [hls']),
            append_cons_inj_right (hxs x (by simp)) (hys y (by simp)), hrest, and_assoc,
            List.append_singleton_inj]

section Inj
variable [DecidableEq α] {ls ls' : List (List α)}

/-- **A join determines its fields** when they avoid the separator and there are some. -/
theorem intercalate_inj (hls : ls ≠ []) (hls' : ls' ≠ []) (h : ∀ l ∈ ls, sep ∉ l)
    (h' : ∀ l ∈ ls', sep ∉ l) : [sep].intercalate ls = [sep].intercalate ls' ↔ ls = ls' := by
  constructor
  · intro heq
    rw [← List.splitOn_intercalate sep h hls, heq, List.splitOn_intercalate sep h' hls']
  · rintro rfl
    rfl

/-- Of fields that avoid the separator and are not empty, none and some look different. -/
theorem intercalate_inj_of_ne_nil (h : ∀ l ∈ ls, sep ∉ l) (h' : ∀ l ∈ ls', sep ∉ l)
    (hne : ∀ l ∈ ls, l ≠ []) (hne' : ∀ l ∈ ls', l ≠ []) :
    [sep].intercalate ls = [sep].intercalate ls' ↔ ls = ls' := by
  have hnil : ∀ ms : List (List α), (∀ l ∈ ms, l ≠ []) →
      ([sep].intercalate ms = [] ↔ ms = []) := by
    intro ms hms
    cases ms with
    | nil => simp
    | cons m ms =>
        have hm := hms m List.mem_cons_self
        cases ms <;> simp [hm]
  by_cases hls : ls = []
  · subst hls
    rw [List.intercalate_nil, eq_comm, hnil ls' hne', eq_comm]
  by_cases hls' : ls' = []
  · subst hls'
    rw [List.intercalate_nil, hnil ls hne]
  exact intercalate_inj hls hls' h h'

/-- **A join determines what its fields encode**, when no field is empty or contains the
separator. -/
theorem intercalate_map_inj {γ : Type*} {f : γ → List α} {l l' : List γ}
    (h : ∀ a ∈ l, sep ∉ f a ∧ f a ≠ []) (h' : ∀ a ∈ l', sep ∉ f a ∧ f a ≠ [])
    (hf : ∀ a ∈ l, ∀ b ∈ l', f a = f b → a = b) :
    [sep].intercalate (l.map f) = [sep].intercalate (l'.map f) ↔ l = l' := by
  rw [intercalate_inj_of_ne_nil (List.forall_mem_map.mpr fun a ha => (h a ha).1)
    (List.forall_mem_map.mpr fun a ha => (h' a ha).1)
    (List.forall_mem_map.mpr fun a ha => (h a ha).2)
    (List.forall_mem_map.mpr fun a ha => (h' a ha).2), map_inj_of_forall hf]

end Inj

/-- What is neither the separator nor in a field is not in the join. -/
theorem notMem_intercalate {c : α} (hc : c ≠ sep) {ls : List (List α)} (h : ∀ l ∈ ls, c ∉ l) :
    c ∉ [sep].intercalate ls := by
  induction ls with
  | nil => simp
  | cons l ls ih =>
      have hrest := ih fun l' hl' => h l' (List.mem_cons_of_mem l hl')
      cases ls with
      | nil => simpa using h l
      | cons l' ls =>
          rw [List.intercalate_cons_cons]
          simp [h l List.mem_cons_self, hc, hrest]

end Separator

/-! ## UTF-8 -/

theorem toList_toUTF8 (s : String) :
    s.toUTF8.data.toList = s.toList.flatMap String.utf8EncodeChar := by
  rw [String.toUTF8, ← String.utf8Encode_toList, List.utf8Encode, List.toList_data_toByteArray]

theorem toList_toUTF8_inj {s t : String} :
    s.toUTF8.data.toList = t.toUTF8.data.toList ↔ s = t := by
  rw [Array.toList_inj, ← ByteArray.ext_iff]
  exact String.toByteArray_inj

/-- A byte below 128 encodes one character, itself. -/
theorem mem_utf8EncodeChar_iff {b : UInt8} (hb : b.toNat < 128) (c : Char) :
    b ∈ String.utf8EncodeChar c ↔ b.toNat = c.toNat := by
  have hlow : ∀ x m : UInt8, 128 ≤ m.toNat → b ≠ x ||| m := by
    rintro x m hm rfl
    rw [UInt8.toNat_or] at hb
    exact absurd (hm.trans Nat.right_le_or) hb.not_ge
  have hlarge : 127 < c.toNat → b.toNat ≠ c.toNat := by omega
  have hc : c.val.toNat = c.toNat := rfl
  rcases c.utf8Size_eq with h | h | h | h
  · have hle := UInt32.le_iff_toNat_le.mp (Char.utf8Size_eq_one_iff.mp h)
    simp only [UInt32.reduceToNat, hc] at hle
    rw [String.utf8EncodeChar_eq_singleton h, List.mem_singleton, ← UInt8.toNat_inj,
      UInt32.toNat_toUInt8, hc, Nat.mod_eq_of_lt (by omega)]
  · have hlt := UInt32.lt_iff_toNat_lt.mp (Char.utf8Size_eq_two_iff.mp h).1
    simp only [UInt32.reduceToNat, hc] at hlt
    simp [String.utf8EncodeChar_eq_cons_cons h, hlow, hlarge hlt]
  · have hlt := UInt32.lt_iff_toNat_lt.mp (Char.utf8Size_eq_three_iff.mp h).1
    simp only [UInt32.reduceToNat, hc] at hlt
    simp [String.utf8EncodeChar_eq_cons_cons_cons h, hlow, hlarge (by omega)]
  · have hlt := UInt32.lt_iff_toNat_lt.mp (Char.utf8Size_eq_four_iff.mp h)
    simp only [UInt32.reduceToNat, hc] at hlt
    simp [String.utf8EncodeChar_eq_cons_cons_cons_cons h, hlow, hlarge (by omega)]

/-- **A byte below 128 is in the encoding of a text exactly when it is one of its
characters.** -/
theorem mem_toUTF8_iff {sep : Char} (hsep : sep.toNat < 128) (s : String) :
    UInt8.ofNat sep.toNat ∈ s.toUTF8.data.toList ↔ sep ∈ s.toList := by
  have hmod : sep.toNat % 2 ^ 8 = sep.toNat := Nat.mod_eq_of_lt (by omega)
  have hb : (UInt8.ofNat sep.toNat).toNat < 128 := by rwa [UInt8.toNat_ofNat', hmod]
  rw [toList_toUTF8, List.mem_flatMap]
  simp only [mem_utf8EncodeChar_iff hb, UInt8.toNat_ofNat', hmod, Char.toNat_inj]
  simp

/-! ## Decimals -/

/-- A decimal consists of digits and a sign. -/
theorem isDigit_or_of_mem_toString (n : ℤ) {c : Char} (h : c ∈ (toString n).toList) :
    c.isDigit ∨ c = '-' := by
  have hnat : ∀ m : ℕ, c ∈ m.repr.toList → c.isDigit := by
    intro m hm
    rw [Nat.toList_repr] at hm
    exact Nat.isDigit_of_mem_toDigits (by decide) (by decide) hm
  cases n with
  | ofNat m => exact .inl (hnat m h)
  | negSucc m =>
      change c ∈ ("-" ++ (m + 1).repr).toList at h
      rw [String.toList_append, List.mem_append] at h
      rcases h with h | h
      · exact .inr (by simpa using h)
      · exact .inl (hnat _ h)

theorem toString_int_inj {m n : ℤ} : toString m = toString n ↔ m = n := Int.repr_inj

/-! ## Hexadecimal -/

/-- The two digits of a byte, the high one first. -/
def hexByte (b : UInt8) : List Char := [Nat.digitChar (b.toNat / 16), Nat.digitChar (b.toNat % 16)]

/-- A byte string in lowercase hexadecimal. -/
def hex (bs : List UInt8) : String := String.ofList (bs.flatMap hexByte)

theorem digitChar_inj {m n : ℕ} (hm : m < 16) (hn : n < 16) :
    Nat.digitChar m = Nat.digitChar n ↔ m = n := by
  have h : ∀ i j : Fin 16, Nat.digitChar i = Nat.digitChar j → i = j := by decide
  constructor
  · intro heq
    exact congrArg Fin.val (h ⟨m, hm⟩ ⟨n, hn⟩ heq)
  · intro heq
    rw [heq]

/-- Both digits of a byte are below 16. -/
theorem hexByte_inj {b c : UInt8} : hexByte b = hexByte c ↔ b = c := by
  have hb := b.toNat_lt
  have hc := c.toNat_lt
  simp only [hexByte, List.cons.injEq, and_true, ← UInt8.toNat_inj]
  rw [digitChar_inj (by omega) (by omega), digitChar_inj (by omega) (by omega)]
  omega

/-- **A digest is determined by its digits.** -/
theorem hex_inj {bs cs : List UInt8} : hex bs = hex cs ↔ bs = cs := by
  rw [hex, hex, String.ofList_inj]
  induction bs generalizing cs with
  | nil => cases cs <;> simp [hexByte]
  | cons b bs ih =>
      cases cs with
      | nil => simp [hexByte]
      | cons c cs =>
          have hlen : (hexByte b).length = (hexByte c).length := rfl
          rw [List.flatMap_cons, List.flatMap_cons, List.append_eq_append_iff_of_size_eq_left hlen,
            hexByte_inj, ih, List.cons.injEq]

/-- The characters of a digest are hexadecimal digits. -/
theorem exists_digit_of_mem_hex {c : Char} {bs : List UInt8} (h : c ∈ (hex bs).toList) :
    ∃ n < 16, c = Nat.digitChar n := by
  rw [hex, String.toList_ofList, List.mem_flatMap] at h
  obtain ⟨b, _, hc⟩ := h
  have hb := b.toNat_lt
  rw [hexByte, List.mem_pair] at hc
  rcases hc with hc | hc
  · exact ⟨_, by omega, hc⟩
  · exact ⟨_, by omega, hc⟩

end Lib
