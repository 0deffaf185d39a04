import HeapScript.Text.Bytes

/-!
# Base 64

Bytes written with 64 characters, three bytes as four characters. The last group is filled up
with equals signs. Line breaks do not count.
-/

namespace HeapScript.Text

def base64Digit? (c : Char) : Option Nat :=
  if 'A' ≤ c ∧ c ≤ 'Z' then some (c.toNat - 'A'.toNat)
  else if 'a' ≤ c ∧ c ≤ 'z' then some (c.toNat - 'a'.toNat + 26)
  else if '0' ≤ c ∧ c ≤ '9' then some (c.toNat - '0'.toNat + 52)
  else if c = '+' then some 62
  else if c = '/' then some 63
  else none

def base64Number? (cs : List Char) : Option Nat :=
  cs.foldlM (fun n c => do return 64 * n + (← base64Digit? c)) 0

/-- The bytes of groups of four characters; only the last group may be filled up. -/
def base64Groups? : List Char → Option Bytes
  | [] => some []
  | [a, b, '=', '='] => do
    let n ← base64Number? [a, b]
    return [(n / 0x10).toUInt8]
  | [a, b, c, '='] => do
    let n ← base64Number? [a, b, c]
    return [(n / 0x400).toUInt8, (n / 4).toUInt8]
  | a :: b :: c :: d :: rest => do
    let n ← base64Number? [a, b, c, d]
    let more ← base64Groups? rest
    return (n / 0x10000).toUInt8 :: (n / 0x100).toUInt8 :: n.toUInt8 :: more
  | _ => none

def base64? (text : String) : Option Bytes :=
  base64Groups? (text.toList.filter fun c => c != '\n' && c != '\r')

end HeapScript.Text
