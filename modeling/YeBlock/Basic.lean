import Mathlib.Data.Int.Basic

/-!
# Shared vocabulary of the reference modules

The type aliases and constants the protocol files repeat at their top, and the
exceptions they can raise: their own `PaymentError`, the `ValueError` of a
constructor or a failed unpacking, the `IndexError` of a list access, the
`ZeroDivisionError` of a division, and the `NotImplementedError` of a part that the
node supplies.
-/

namespace YeBlock

/-- A content identity, `<hash-tag>:<hex>`. -/
abbrev ContentId := String

/-- A party of the protocol, named by its public key. -/
abbrev Identity := String

/-- One hundred percent, in basis points. -/
def basisPoints : ℤ := 10000

theorem basisPoints_pos : 0 < basisPoints := by decide

/-- The exceptions a reference module can raise, with their message. -/
inductive PyError
  /-- A payment the rail or a stream rejects at validation time. -/
  | paymentError (message : String)
  /-- A rejected constructor argument, a rejected call, or a failed unpacking. -/
  | valueError (message : String)
  /-- A list access out of range. -/
  | indexError (message : String)
  /-- A division by zero. -/
  | zeroDivisionError (message : String)
  /-- A part left to the node. -/
  | notImplementedError (message : String)
  deriving DecidableEq, Repr

/-- A character inside the quotes of a quoted string. -/
def reprChar (quote c : Char) : String :=
  if c = quote ∨ c = '\\' then String.ofList ['\\', c]
  else if c = '\n' then "\\n"
  else if c = '\r' then "\\r"
  else if c = '\t' then "\\t"
  else if c.toNat < 32 ∨ c.toNat = 127 then
    String.ofList ['\\', 'x', Nat.digitChar (c.toNat / 16), Nat.digitChar (c.toNat % 16)]
  else String.singleton c

/-- `repr` of a string of printable characters and ASCII controls: quoted by the
apostrophe (character 39), or by `"` when it contains apostrophes only. -/
def pyRepr (s : String) : String :=
  let apostrophe := Char.ofNat 39
  let quote := if apostrophe ∈ s.toList ∧ '"' ∉ s.toList then '"' else apostrophe
  String.singleton quote ++ String.join (s.toList.map (reprChar quote)) ++ String.singleton quote

/-- `xs[i]` for an index that is not negative. -/
def getItem {α : Type} (xs : List α) (i : ℕ) : Except PyError α :=
  match xs[i]? with
  | some x => .ok x
  | none => .error (.indexError "list index out of range")

theorem getItem_of_lt {α : Type} {xs : List α} {i : ℕ} (h : i < xs.length) :
    getItem xs i = .ok xs[i] := by
  simp [getItem, List.getElem?_eq_getElem h]

/-- `a, b = xs`. -/
def unpackPair {α : Type} : List α → Except PyError (α × α)
  | [a, b] => .ok (a, b)
  | [] => .error (.valueError "not enough values to unpack (expected 2, got 0)")
  | [_] => .error (.valueError "not enough values to unpack (expected 2, got 1)")
  | _ => .error (.valueError "too many values to unpack (expected 2)")

@[simp] theorem unpackPair_pair {α : Type} (a b : α) : unpackPair [a, b] = .ok (a, b) := rfl

end YeBlock
