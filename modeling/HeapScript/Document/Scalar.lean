import HeapScript.Document.Node
import HeapScript.Document.Timestamp
import HeapScript.Number.Binary64
import HeapScript.Text.Base64

/-!
# Scalars

What the text of a scalar denotes. A plain scalar is null, a truth value, an integer, a float, a
timestamp or else a string, by its spelling. An explicit tag of one of these kinds must agree
with the spelling unless it asks for a string; with any other tag the text is a string.
-/

namespace HeapScript.Document

inductive Scalar where
  | null
  | bool (b : Bool)
  /-- An integer that fits 64 bits, with or without a sign. -/
  | int (i : Int)
  | float (f : Float)
  | timestamp
  | str (s : String)
  /-- The bytes that a text in base 64 stands for. -/
  | data (bytes : Bytes)

namespace Scalar

def tag : Scalar → String
  | null => "!!null"
  | bool _ => "!!bool"
  | int _ => "!!int"
  | float _ => "!!float"
  | timestamp => "!!timestamp"
  | str _ => "!!str"
  | data _ => "!!binary"

/-! ## Spellings of numbers -/

/-- The value of a digit in bases up to 16. -/
def digit? (c : Char) : Option Nat :=
  if c.isDigit then some (c.toNat - '0'.toNat)
  else if 'a' ≤ c ∧ c ≤ 'f' then some (c.toNat - 'a'.toNat + 10)
  else if 'A' ≤ c ∧ c ≤ 'F' then some (c.toNat - 'A'.toNat + 10)
  else none

/-- The number with the given digits in a base; there need not be any. -/
def digits? (base : Nat) (cs : List Char) : Option Nat :=
  cs.foldlM (fun n c => do
    let d ← digit? c
    if d < base then some (n * base + d) else none) 0

def digits1? (base : Nat) (cs : List Char) : Option Nat :=
  if cs.isEmpty then none else digits? base cs

/-- A number without a sign whose beginning tells the base. -/
def natural? : List Char → Option Nat
  | '0' :: 'b' :: c :: cs | '0' :: 'B' :: c :: cs => digits? 2 (c :: cs)
  | '0' :: 'o' :: c :: cs | '0' :: 'O' :: c :: cs => digits? 8 (c :: cs)
  | '0' :: 'x' :: c :: cs | '0' :: 'X' :: c :: cs => digits? 16 (c :: cs)
  | '0' :: cs => digits? 8 cs
  | cs => digits1? 10 cs

/-- Whether an integer fits 64 bits with a sign. -/
def fitsSigned (i : Int) : Bool := Int64.minValue.toInt ≤ i && i ≤ Int64.maxValue.toInt

/-- An integer, if it fits 64 bits with a sign. -/
def inSigned? (i : Int) : Option Int := if fitsSigned i then some i else none

/-- A number with an optional sign that fits 64 bits. -/
def signed? (natural : List Char → Option Nat) : List Char → Option Int
  | '-' :: cs => (natural cs).bind fun n => inSigned? (-(Int.ofNat n))
  | '+' :: cs => (natural cs).bind fun n => inSigned? (Int.ofNat n)
  | cs => (natural cs).bind fun n => inSigned? (Int.ofNat n)

/-- A number without a sign that fits 64 bits. -/
def unsigned? (natural : List Char → Option Nat) (cs : List Char) : Option Int := do
  let n ← natural cs
  if n < UInt64.size then some n else none

/-- The digits after a binary or octal mark, with a sign of their own. -/
def marked? : List Char → Option Int
  | '0' :: 'b' :: cs => signed? (digits1? 2) cs <|> unsigned? (digits1? 2) cs
  | '-' :: '0' :: 'b' :: cs => signed? (digits1? 2) ('-' :: cs)
  | '0' :: 'o' :: cs => signed? (digits1? 8) cs <|> unsigned? (digits1? 8) cs
  | '-' :: '0' :: 'o' :: cs => signed? (digits1? 8) ('-' :: cs)
  | _ => none

/-- The decimal `mantissa * 10 ^ exponent`, rounded to a float; none if it is too large. -/
def decimal? (negative : Bool) (mantissa : Nat) (exponent : Int) : Option Float :=
  let magnitude : Int := (toString mantissa).length + exponent
  let f : Option Float :=
    if mantissa = 0 then some 0
    else if magnitude > 310 then none
    else if magnitude < -330 then some 0
    else
      let f := Float.ofScientific mantissa (exponent < 0) exponent.natAbs
      if f.isInf then none else some f
  f.map fun f => if negative then -f else f

/-- The exponent of a decimal: nothing, or a mark with an integer. -/
def exponent? : List Char → Option Int
  | [] => some 0
  | c :: rest =>
    if c = 'e' ∨ c = 'E' then
      match rest with
      | '-' :: ds => (digits1? 10 ds).map fun n => -(Int.ofNat n)
      | '+' :: ds => (digits1? 10 ds).map Int.ofNat
      | ds => (digits1? 10 ds).map Int.ofNat
    else none

/-- A decimal fraction with an optional sign and exponent. -/
def fraction? (cs : List Char) : Option Float := do
  let (negative, cs) := match cs with
    | '-' :: rest => (true, rest)
    | '+' :: rest => (false, rest)
    | _ => (false, cs)
  let whole := cs.takeWhile Char.isDigit
  let rest := cs.dropWhile Char.isDigit
  let (places, rest) := match rest with
    | '.' :: r => (r.takeWhile Char.isDigit, r.dropWhile Char.isDigit)
    | _ => ([], rest)
  if whole.isEmpty ∧ places.isEmpty then none
  else
    let e ← exponent? rest
    let mantissa ← digits? 10 (whole ++ places)
    decimal? negative mantissa (e - places.length)

/-! ## Plain scalars -/

/-- The spellings that stand for themselves. -/
def word? (text : String) : Option Scalar :=
  if text ∈ ["", "~", "null", "Null", "NULL"] then some null
  else if text ∈ ["true", "True", "TRUE"] then some (bool true)
  else if text ∈ ["false", "False", "FALSE"] then some (bool false)
  else if text ∈ [".nan", ".NaN", ".NAN"] then some (float (0.0 / 0.0))
  else if text ∈ [".inf", ".Inf", ".INF", "+.inf", "+.Inf", "+.INF"] then some (float (1.0 / 0.0))
  else if text ∈ ["-.inf", "-.Inf", "-.INF"] then some (float (-1.0 / 0.0))
  else none

/-- A number that starts with a digit or a sign; underscores do not count. -/
def number? (text : String) : Option Scalar :=
  let cs := text.toList.filter (· != '_')
  match signed? natural? cs with
  | some i => some (int i)
  | none =>
    match unsigned? natural? cs with
    | some i => some (int i)
    | none =>
      match fraction? cs with
      | some f => some (float f)
      | none => (marked? cs).map int

/-- Whether every underscore stands between two digits; `afterDigit` tells whether the character
before is one. -/
def separatesDigits (afterDigit : Bool) : List Char → Bool
  | [] => true
  | '_' :: rest => afterDigit && (rest.head?.any Char.isDigit) && separatesDigits false rest
  | c :: rest => separatesDigits c.isDigit rest

/-- A number that starts with a point; underscores may stand between its digits. -/
def pointed? (cs : List Char) : Option Float :=
  if separatesDigits false cs then fraction? (cs.filter (· != '_')) else none

/-- What a plain text denotes; `timed` tells whether it may be a timestamp. -/
def ofText (timed : Bool) (text : String) : Scalar :=
  match word? text with
  | some s => s
  | none =>
    match text.toList with
    | '.' :: _ => (pointed? text.toList).elim (str text) float
    | c :: _ =>
      if c.isDigit ∨ c = '+' ∨ c = '-' then
        if timed && isTimestamp text then timestamp else (number? text).getD (str text)
      else str text
    | [] => null

def ofPlain (text : String) : Scalar := ofText true text

/-! ## Tags -/

def shortTag (tag : String) : String :=
  if tag.startsWith "tag:yaml.org,2002:" then "!!" ++ (tag.drop 18).toString else tag

/-- The tag of a scalar with its form. The plain text `<<` has a tag of its own. -/
def tagOf (form : Form) (text : String) : String :=
  match form with
  | .plain => if text = "<<" then "!!merge" else (ofPlain text).tag
  | .quoted => "!!str"
  | .tagged t => if t = "" ∨ t = "!" then (ofPlain text).tag else shortTag t

def shownTag (form : Form) (text : String) : String :=
  if form = .tagged "!" then "!" else tagOf form text

/-- The tags that say what a text must denote. -/
def kindTags : List String := ["!!bool", "!!int", "!!float", "!!null", "!!timestamp"]

/-- Why a scalar denotes nothing. -/
inductive ReadError where
  /-- The spelling does not agree with the explicit tag. -/
  | mismatch (found text wanted : String)
  /-- The text is not base 64. -/
  | notBase64

def ReadError.message : ReadError → String
  | mismatch found text wanted =>
    "yaml: cannot decode " ++ found ++ " \x60" ++ text ++ "\x60 as a " ++ wanted
  | notBase64 => "yaml: !!binary value contains invalid base64 data"

/-- What a text with an explicit tag of a kind denotes: the spelling must agree, but an integer
will do for a float. -/
def ofKind (wanted text : String) : Except ReadError Scalar :=
  let s := ofText (wanted = "!!timestamp") text
  if s.tag = wanted then .ok s
  else
    match s with
    | int i =>
      if wanted = "!!float" ∧ fitsSigned i then .ok (float (Int64.nearestFloat (Int64.ofInt i)))
      else .error (.mismatch s.tag text wanted)
    | _ => .error (.mismatch s.tag text wanted)

def read (form : Form) (text : String) : Except ReadError Scalar :=
  match form with
  | .plain => .ok (ofPlain text)
  | .quoted => .ok (str text)
  | .tagged t =>
    let wanted := shortTag t
    if wanted = "" then .ok (ofPlain text)
    else if wanted ∈ kindTags then ofKind wanted text
    else if wanted = "!!binary" then
      match Text.base64? text with
      | some bytes => .ok (data bytes)
      | none => .error .notBase64
    else .ok (str text)

/-- A text cut short for messages, if it is longer than ten bytes. -/
def clipped (text : String) : Bytes :=
  let bytes := textBytes text
  if bytes.length > 10 then bytes.take 7 ++ textBytes "..." else bytes

/-- The complaint that something with a tag and a text is not of the wanted kind. Sequences and
mappings have no text, and only it is set apart by backquotes. -/
def misfit (tag text kind : String) : Bytes :=
  let shown := if tag = "!!seq" ∨ tag = "!!map" then textBytes text
    else textBytes " \x60" ++ clipped text ++ textBytes "\x60"
  textBytes ("cannot unmarshal " ++ tag) ++ shown ++ textBytes (" into " ++ kind)

def complaintsMessage (complaints : List Bytes) : Bytes :=
  textBytes "yaml: unmarshal errors:" ++ (complaints.map (textBytes "\n  " ++ ·)).flatten

/-! ## Wanted kinds -/

/-- The words that count as truth values. -/
def switchWord? (s : Bytes) : Option Bool :=
  if s ∈ ["y", "Y", "yes", "Yes", "YES", "on", "On", "ON"].map textBytes then some true
  else if s ∈ ["n", "N", "no", "No", "NO", "off", "Off", "OFF"].map textBytes then some false
  else none

/-- A truth value; some words count as one. -/
def toBool? : Scalar → Option Bool
  | null => some false
  | bool b => some b
  | str s => switchWord? (textBytes s)
  | data s => switchWord? s
  | _ => none

/-- An integer of 64 bits; a float is cut off, and what then does not fit becomes the least. -/
def toInt? : Scalar → Option Int64
  | null => some 0
  | int i => if fitsSigned i then some (Int64.ofInt i) else none
  | float f =>
    if f ≤ 9223372036854775808.0 then
      some (if f ≥ 9223372036854775808.0 then Int64.minValue else Float.truncSat f)
    else none
  | _ => none

def toFloat? : Scalar → Option Float
  | null => some 0
  | int i =>
    some (if fitsSigned i then Int64.nearestFloat (Int64.ofInt i) else Float.ofScientific i.toNat false 0)
  | float f => some f
  | _ => none

end Scalar

namespace Node

def scalar? (n : Node) : Option (Except Scalar.ReadError Scalar) :=
  match n.behind with
  | scalar _ form text => some (Scalar.read form text)
  | _ => none

def toBool? (n : Node) : Option Bool :=
  match n.scalar? with
  | some (.ok s) => s.toBool?
  | _ => none

def toInt? (n : Node) : Option Int64 :=
  match n.scalar? with
  | some (.ok s) => s.toInt?
  | _ => none

def isNullScalar : Node → Bool
  | scalar _ form text => Scalar.tagOf form text == "!!null"
  | _ => false

end Node

end HeapScript.Document
