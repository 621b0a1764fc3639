import YeBlock.Lib.Text

/-!
# Bytes of the wire formats

The node's canonical encodings join UTF-8 fields by a control character.  What a join
determines is decided by where that character can occur, and it never occurs in a
decimal.

## Main definitions

* `Bytes`, `utf8` — byte strings, and the encoding of a text.
* `mem_utf8_iff` — a separator in the bytes of a text is one of its characters.
-/

namespace YeBlock

open Lib

/-- A byte string. -/
abbrev Bytes := List UInt8

/-- The UTF-8 encoding of a string. -/
def utf8 (s : String) : Bytes := s.toUTF8.data.toList

@[simp] theorem utf8_inj {s t : String} : utf8 s = utf8 t ↔ s = t := toList_toUTF8_inj

/-- A byte below 128 is in the encoding exactly when its character is in the text. -/
theorem mem_utf8_iff {sep : Char} (hsep : sep.toNat < 128) (s : String) :
    UInt8.ofNat sep.toNat ∈ utf8 s ↔ sep ∈ s.toList := mem_toUTF8_iff hsep s

theorem zero_mem_utf8_iff (s : String) : 0 ∈ utf8 s ↔ '\x00' ∈ s.toList := by
  have hsep : '\x00'.toNat < 128 := by decide
  exact mem_utf8_iff hsep s

theorem unit_mem_utf8_iff (s : String) : 0x1f ∈ utf8 s ↔ '\x1f' ∈ s.toList := by
  have hsep : '\x1f'.toNat < 128 := by decide
  exact mem_utf8_iff hsep s

/-- A character that is neither a digit nor a minus sign does not occur in a decimal. -/
theorem notMem_toString {c : Char} (hdigit : c.isDigit = false) (hminus : c ≠ '-') (n : ℤ) :
    c ∉ (toString n).toList := by
  intro h
  rcases isDigit_or_of_mem_toString n h with hd | hd
  · rw [hdigit] at hd
    cases hd
  · exact hminus hd

/-- No decimal contains a zero byte. -/
theorem zero_notMem_utf8_toString (n : ℤ) : 0 ∉ utf8 (toString n) := by
  rw [zero_mem_utf8_iff]
  exact notMem_toString (by decide) (by decide) n

end YeBlock
