import HeapScript.Text.Bytes
import HeapScript.Text.Printable

/-!
# Quoted text

Listings and diagnostics show byte strings between double quotes. Printable characters stand
for themselves, the usual controls have a letter, every other character is written by its code
and every malformed byte by its value, so two byte strings never look alike.
-/

namespace HeapScript.Text

/-- `n` in lower-case hexadecimal, padded with zeros to `width` digits. -/
def hex (width n : Nat) : String :=
  let digits := String.ofList (Nat.toDigits 16 n)
  "".pushn '0' (width - digits.length) ++ digits

def controlLetter? (c : Char) : Option Char :=
  match c.toNat with
  | 7 => some 'a'
  | 8 => some 'b'
  | 12 => some 'f'
  | 10 => some 'n'
  | 13 => some 'r'
  | 9 => some 't'
  | 11 => some 'v'
  | _ => none

def quoteChar (c : Char) : String :=
  if c = '"' ∨ c = '\\' then String.ofList ['\\', c]
  else if isPrintable c then c.toString
  else match controlLetter? c with
    | some letter => String.ofList ['\\', letter]
    | none =>
      if c.toNat < 0x80 then "\\x" ++ hex 2 c.toNat
      else if c.toNat < 0x10000 then "\\u" ++ hex 4 c.toNat
      else "\\U" ++ hex 8 c.toNat

def quoteRune : Rune → String
  | .char c => quoteChar c
  | .malformed b => "\\x" ++ hex 2 b.toNat

def quoteBytes (bs : Bytes) : String :=
  "\"" ++ String.join (bs.runes.map quoteRune) ++ "\""

def quote (s : String) : String :=
  "\"" ++ String.join (s.toList.map quoteChar) ++ "\""

end HeapScript.Text
