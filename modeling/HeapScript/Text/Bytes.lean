/-!
# Byte strings

Strings of the language are sequences of bytes. Most of them are UTF-8 text, but nothing
enforces that, so text is read rune by rune and a byte that starts no well-formed sequence
stands for itself.
-/

namespace HeapScript

/-- A string of the language: arbitrary bytes. -/
abbrev Bytes := List UInt8

def textBytes (s : String) : Bytes := s.toUTF8.toList

inductive Rune where
  | char (c : Char)
  | malformed (b : UInt8)

def Rune.char? : Rune → Option Char
  | .char c => some c
  | .malformed _ => none

namespace Bytes

/-- The payload of a continuation byte `10xxxxxx`. -/
def continuation? (b : UInt8) : Option Nat :=
  if 0x80 ≤ b ∧ b < 0xC0 then some (b.toNat - 0x80) else none

/-- The code point `n` as a character, unless it is a surrogate, out of range or below `least`,
the first code point that needs so many bytes. -/
def scalar? (least n : Nat) : Option Char :=
  if least ≤ n ∧ n.isValidChar then some (Char.ofNat n) else none

/-- The multi-byte character that starts with `lead`, with the number of bytes it takes after
`lead`. -/
def sequence? (lead : UInt8) (rest : Bytes) : Option (Char × Nat) := do
  if lead < 0x80 then
    return (Char.ofNat lead.toNat, 0)
  else if lead < 0xC0 then
    none
  else if lead < 0xE0 then
    let b1 ← rest[0]?.bind continuation?
    let c ← scalar? 0x80 ((lead.toNat - 0xC0) * 64 + b1)
    return (c, 1)
  else if lead < 0xF0 then
    let b1 ← rest[0]?.bind continuation?
    let b2 ← rest[1]?.bind continuation?
    let c ← scalar? 0x800 (((lead.toNat - 0xE0) * 64 + b1) * 64 + b2)
    return (c, 2)
  else if lead < 0xF8 then
    let b1 ← rest[0]?.bind continuation?
    let b2 ← rest[1]?.bind continuation?
    let b3 ← rest[2]?.bind continuation?
    let c ← scalar? 0x10000 ((((lead.toNat - 0xF0) * 64 + b1) * 64 + b2) * 64 + b3)
    return (c, 3)
  else
    none

/-- The runes of a byte string; a byte that starts no character is a rune of its own. -/
def runes : Bytes → List Rune
  | [] => []
  | b :: rest =>
    match sequence? b rest with
    | some (c, n) => .char c :: runes (rest.drop n)
    | none => .malformed b :: runes rest
termination_by bs => bs.length
decreasing_by
  · exact Nat.lt_succ_of_le (List.length_drop ▸ Nat.sub_le ..)
  · exact Nat.lt_succ_self _

def text? (bs : Bytes) : Option String :=
  ((runes bs).mapM Rune.char?).map String.ofList

end Bytes

end HeapScript
