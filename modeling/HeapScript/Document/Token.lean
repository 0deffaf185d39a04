import HeapScript.Document.Cursor
import HeapScript.Text.Bytes

/-!
# Tokens of documents

The tokens of a document text and the scanning of those with contents: names, tags, directives,
and plain, quoted and block scalars. Line breaks inside scalars are folded: a single one becomes
a space, further ones are kept. Texts are gathered last character first.
-/

namespace HeapScript.Document

inductive TokenKind where
  | streamEnd
  | version (major minor : Nat)
  /-- A handle and what it stands for at the start of tags. -/
  | handle (name stem : String)
  | documentStart
  | documentEnd
  | blockSequenceStart
  | blockMappingStart
  | blockEnd
  | flowSequenceStart
  | flowSequenceEnd
  | flowMappingStart
  | flowMappingEnd
  | blockEntry
  | flowEntry
  | key
  | value
  | reference (name : String)
  | anchor (name : String)
  /-- A tag: its handle, which may be empty, and the rest. -/
  | tag (handle suffix : String)
  | scalar (quoted : Bool) (text : String)
  deriving DecidableEq

structure Token where
  kind : TokenKind
  start : Position
  finish : Position

structure Malformed where
  deriving DecidableEq

abbrev Scan := Except Malformed

/-- The text cannot go on like this. -/
def malformed {α : Type} : Scan α := .error {}

/-! ## Folding -/

/-- The blanks and breaks between two pieces of a scalar. -/
structure Gap where
  /-- The blanks, if there is no break. -/
  white : List Char := []
  /-- The first break; an escaped one leaves nothing. -/
  first : List Char := []
  /-- The breaks after the first. -/
  more : List Char := []
  broken : Bool := false

namespace Gap

def folded (g : Gap) : List Char :=
  if g.broken then
    if g.first = ['\n'] then (if g.more.isEmpty then [' '] else g.more) else g.first ++ g.more
  else g.white

/-- Takes the blanks and breaks at a place into a gap. `tabColumn` is the column before which a
tab at the start of a line is an error. -/
def collect (tabColumn : Nat) : (fuel : Nat) → Gap → Cursor → Scan (Gap × Cursor)
  | 0, g, c => .ok (g, c)
  | fuel + 1, g, c =>
    match c.rest with
    | x :: _ =>
      if isBlank x then
        if g.broken && x == '\t' && c.column < tabColumn then malformed
        else if g.broken then collect tabColumn fuel g c.skip
        else collect tabColumn fuel { g with white := g.white ++ [x] } c.skip
      else if isBreak x then
        let (b, c') := c.takeBreak
        if g.broken then collect tabColumn fuel { g with more := g.more ++ b } c'
        else collect tabColumn fuel { g with white := [], first := b, broken := true } c'
      else .ok (g, c)
    | [] => .ok (g, c)

end Gap

/-! ## Plain scalars -/

/-- Whether a plain scalar ends before this text. -/
def endsPlain (inFlow : Bool) : List Char → Bool
  | [] => true
  | c :: rest =>
    isBlank c || isBreak c || (c == ':' && startsBlank rest) ||
      (inFlow && (c == ',' || c == '?' || c == '[' || c == ']' || c == '\x7b' || c == '\x7d'))

/-- The characters of a plain scalar up to the next blank or its end. -/
def plainPiece (inFlow : Bool) : List Char → List Char
  | [] => []
  | c :: rest => if endsPlain inFlow (c :: rest) then [] else c :: plainPiece inFlow rest

/-- The rest of a plain scalar after some text and a gap: its text, whether it ends after a line
break, and the place behind it. -/
def plainFrom (inFlow : Bool) (indent : Nat) :
    (fuel : Nat) → List Char → Gap → Cursor → Scan (List Char × Bool × Cursor)
  | 0, text, g, c => .ok (text, g.broken, c)
  | fuel + 1, text, g, c =>
    if c.atDocumentMark || c.isAt '#' then .ok (text, g.broken, c)
    else
      let piece := plainPiece inFlow c.rest
      let (text, g) :=
        if piece.isEmpty then (text, g) else ((g.folded ++ piece).reverse ++ text, {})
      let c := c.skipMany piece.length
      if c.atBlank || c.atBreak then do
        let (g, c) ← g.collect indent (c.left + 1) c
        if !inFlow && c.column < indent then return (text, g.broken, c)
        else plainFrom inFlow indent fuel text g c
      else .ok (text, g.broken, c)

/-- A plain scalar: its text, whether it ends after a line break, and the place behind it. -/
def plainScalar (inFlow : Bool) (indent : Nat) (c : Cursor) : Scan (String × Bool × Cursor) := do
  let (text, broken, c) ← plainFrom inFlow indent (c.left + 1) [] {} c
  return (String.ofList text.reverse, broken, c)

/-! ## Quoted scalars -/

def escapeLetter? (c : Char) : Option Char :=
  match c with
  | '0' => some (Char.ofNat 0)
  | 'a' => some (Char.ofNat 7)
  | 'b' => some (Char.ofNat 8)
  | 't' | '\t' => some '\t'
  | 'n' => some '\n'
  | 'v' => some (Char.ofNat 11)
  | 'f' => some (Char.ofNat 12)
  | 'r' => some '\r'
  | 'e' => some (Char.ofNat 27)
  | ' ' => some ' '
  | '"' => some '"'
  | '\'' => some '\''
  | '\\' => some '\\'
  | 'N' => some (Char.ofNat 0x85)
  | '_' => some (Char.ofNat 0xA0)
  | 'L' => some (Char.ofNat 0x2028)
  | 'P' => some (Char.ofNat 0x2029)
  | _ => none

/-- The number of digits after an escape letter. -/
def escapeDigits? (c : Char) : Option Nat :=
  match c with
  | 'x' => some 2
  | 'u' => some 4
  | 'U' => some 8
  | _ => none

def hexDigit? (c : Char) : Option Nat :=
  if c.isDigit then some (c.toNat - 48)
  else if 'a' ≤ c ∧ c ≤ 'f' then some (c.toNat - 87)
  else if 'A' ≤ c ∧ c ≤ 'F' then some (c.toNat - 55)
  else none

/-- The character with the code in a list of hexadecimal digits. -/
def escapedCode? (digits : List Char) : Option Char := do
  let n ← digits.foldlM (fun n d => do return n * 16 + (← hexDigit? d)) 0
  if n.isValidChar then some (Char.ofNat n) else none

/-- A piece of a quoted scalar up to the next blank or the quote, the place behind it, and
whether it ends with an escaped line break. -/
def quotedPiece (single : Bool) : (fuel : Nat) → List Char → Cursor →
    Scan (List Char × Bool × Cursor)
  | 0, text, c => .ok (text, false, c)
  | fuel + 1, text, c =>
    match c.rest with
    | [] => .ok (text, false, c)
    | x :: rest =>
      if isBlank x || isBreak x then .ok (text, false, c)
      else if single then
        if x == '\'' then
          if rest.head? == some '\'' then quotedPiece single fuel ('\'' :: text) (c.skipMany 2)
          else .ok (text, false, c)
        else quotedPiece single fuel (x :: text) c.skip
      else if x == '"' then .ok (text, false, c)
      else if x == '\\' then
        match rest with
        | [] => malformed
        | y :: digits =>
          if isBreak y then .ok (text, true, c.skip.takeBreak.2)
          else
            match escapeLetter? y with
            | some e => quotedPiece single fuel (e :: text) (c.skipMany 2)
            | none =>
              match escapeDigits? y with
              | none => malformed
              | some n =>
                let code := digits.take n
                match escapedCode? code with
                | some e =>
                  if code.length < n then malformed
                  else quotedPiece single fuel (e :: text) (c.skipMany (n + 2))
                | none => malformed
      else quotedPiece single fuel (x :: text) c.skip

/-- The rest of a quoted scalar after some text. -/
def quotedFrom (single : Bool) : (fuel : Nat) → List Char → Cursor → Scan (List Char × Cursor)
  | 0, _, _ => malformed
  | fuel + 1, text, c =>
    if c.atDocumentMark || c.rest.isEmpty then malformed
    else do
      let (text, escaped, c) ← quotedPiece single (c.left + 1) text c
      if c.isAt (if single then '\'' else '"') then return (text, c.skip)
      else
        let (g, c) ← ({ broken := escaped } : Gap).collect 0 (c.left + 1) c
        quotedFrom single fuel (g.folded.reverse ++ text) c

def quotedScalar (single : Bool) (c : Cursor) : Scan (String × Cursor) := do
  let (text, c) ← quotedFrom single c.left [] c.skip
  return (String.ofList text.reverse, c)

/-! ## Block scalars -/

/-- Goes over the indentation and empty lines before a line of a block scalar: the breaks passed,
the widest indentation seen and the place. -/
def blockBreaks (indent : Nat) : (fuel : Nat) → List Char → (widest : Nat) → Cursor →
    Scan (List Char × Nat × Cursor)
  | 0, breaks, widest, c => .ok (breaks, widest, c)
  | fuel + 1, breaks, widest, c =>
    let spaces := (c.rest.takeWhile (· == ' ')).length
    let c := c.skipMany (if indent = 0 then spaces else min spaces (indent - c.column))
    let widest := max widest c.column
    if (indent = 0 || c.column < indent) && c.isAt '\t' then malformed
    else if c.atBreak then
      let (b, c) := c.takeBreak
      blockBreaks indent fuel (breaks ++ b) widest c
    else .ok (breaks, widest, c)

/-- What has been gathered of a block scalar. -/
structure BlockText where
  text : List Char := []
  /-- The break after the last line. -/
  last : List Char := []
  /-- The breaks of the empty lines after it. -/
  more : List Char := []
  /-- Whether the last line started with a blank. -/
  indented : Bool := false

def blockLines (literal : Bool) (indent : Nat) : (fuel : Nat) → BlockText → Cursor →
    Scan (BlockText × Cursor)
  | 0, t, c => .ok (t, c)
  | fuel + 1, t, c =>
    if c.column == indent && !c.rest.isEmpty then do
      let blank := c.atBlank
      let joint :=
        if !literal && !t.indented && !blank && t.last = ['\n'] then
          (if t.more.isEmpty then [' '] else [])
        else t.last
      let (line, c) := c.takeWhile fun x => !isBreak x
      let (last, c) := c.takeBreak
      let (more, _, c) ← blockBreaks indent (c.left + 1) [] 0 c
      blockLines literal indent fuel
        { text := (joint ++ t.more ++ line).reverse ++ t.text, last, more, indented := blank } c
    else .ok (t, c)

/-- How the end of a block scalar is kept. -/
inductive Chomping where
  | strip | clip | keep
  deriving DecidableEq

/-- The signs after a block scalar indicator: chomping and indentation, in either order. -/
def blockHeader (c : Cursor) : Scan (Chomping × Nat × Cursor) :=
  let chomp? (c : Cursor) : Option Chomping :=
    if c.isAt '+' then some .keep else if c.isAt '-' then some .strip else none
  let digit? (c : Cursor) : Option Nat :=
    match c.rest with
    | x :: _ => if x.isDigit then some (x.toNat - 48) else none
    | [] => none
  match chomp? c with
  | some m =>
    let c := c.skip
    match digit? c with
    | some 0 => malformed
    | some n => .ok (m, n, c.skip)
    | none => .ok (m, 0, c)
  | none =>
    match digit? c with
    | some 0 => malformed
    | some n =>
      let c := c.skip
      match chomp? c with
      | some m => .ok (m, n, c.skip)
      | none => .ok (.clip, n, c)
    | none => .ok (.clip, 0, c)

/-- A block scalar inside a construct with the given indentation, from its indicator on. -/
def blockScalar (literal : Bool) (parent : Int) (c : Cursor) : Scan (String × Cursor) := do
  let (chomping, increment, c) ← blockHeader c.skip
  let (_, c) := c.takeWhile isBlank
  let c := if c.isAt '#' then c.toLineEnd else c
  if !c.atBreakOrEnd then malformed
  else
    let c := c.takeBreak.2
    let given := if increment = 0 then 0 else if 0 ≤ parent then parent.toNat + increment else increment
    let (breaks, widest, c) ← blockBreaks given (c.left + 1) [] 0 c
    let indent := if given = 0 then max (max widest (parent + 1).toNat) 1 else given
    let (t, c) ← blockLines literal indent (c.left + 1) { more := breaks } c
    let ending := match chomping with
      | .strip => []
      | .clip => t.last
      | .keep => t.last ++ t.more
    return (String.ofList (t.text.reverse ++ ending), c)

/-! ## Names and tags -/

def anchorName (c : Cursor) : Scan (String × Cursor) :=
  let (name, c) := c.skip.takeWhile isNameChar
  let follows := match c.rest with
    | [] => true
    | x :: _ => isBlank x || isBreak x || "?:,]\x7d%@\x60".contains x
  if name.isEmpty || !follows then malformed else .ok (String.ofList name, c)

def isTagChar (c : Char) : Bool := isNameChar c || ";/?:@&=+$,.!~*'()[]".contains c

/-- The number of bytes of a character that starts with a given one. -/
def byteCount? (b : UInt8) : Option Nat :=
  if b < 0x80 then some 1
  else if 0xC0 ≤ b ∧ b < 0xE0 then some 2
  else if 0xE0 ≤ b ∧ b < 0xF0 then some 3
  else if 0xF0 ≤ b ∧ b < 0xF8 then some 4
  else none

/-- A byte written by its code behind a percent sign, and the text after it. -/
def percentByte? : List Char → Option (UInt8 × List Char)
  | '%' :: a :: b :: rest => do return ((16 * (← hexDigit? a) + (← hexDigit? b)).toUInt8, rest)
  | _ => none

/-- The bytes in the middle of a character, written by their codes. -/
def percentBytes? : Nat → List Char → Option Bytes
  | 0, _ => some []
  | n + 1, cs => do
    let (b, rest) ← percentByte? cs
    if 0x80 ≤ b ∧ b < 0xC0 then return b :: (← percentBytes? n rest) else none

/-- A character of a tag whose bytes are written by their codes, and their number. -/
def percentChar? (cs : List Char) : Option (Char × Nat) := do
  let (b, rest) ← percentByte? cs
  let n ← byteCount? b
  let more ← percentBytes? (n - 1) rest
  let c := match Bytes.runes (b :: more) with
    | [.char c] => c
    | _ => Char.ofNat 0xFFFD
  return (c, n)

def tagChars : (fuel : Nat) → List Char → Cursor → Scan (List Char × Cursor)
  | 0, text, c => .ok (text.reverse, c)
  | fuel + 1, text, c =>
    match c.rest with
    | [] => .ok (text.reverse, c)
    | x :: _ =>
      if x == '%' then
        match percentChar? c.rest with
        | some (e, n) => tagChars fuel (e :: text) (c.skipMany (3 * n))
        | none => malformed
      else if isTagChar x then tagChars fuel (x :: text) c.skip
      else .ok (text.reverse, c)

def tagText (c : Cursor) : Scan (String × Cursor) := do
  let (text, c) ← tagChars (c.left + 1) [] c
  if text.isEmpty then malformed else return (String.ofList text, c)

/-- The handle at the start of a tag: an exclamation mark, a name, and another mark if the name
ends with one. -/
def tagHandle (c : Cursor) : Scan (String × Cursor) :=
  if c.isAt '!' then
    let (name, c) := c.skip.takeWhile isNameChar
    if c.isAt '!' then .ok (String.ofList ('!' :: name ++ ['!']), c.skip)
    else .ok (String.ofList ('!' :: name), c)
  else malformed

/-- A tag without the check of what follows: its handle and the rest. A lone exclamation mark is
a tag without a handle. -/
def tagParts (c : Cursor) : Scan ((String × String) × Cursor) := do
  match c.rest with
  | '!' :: '<' :: _ =>
    let (uri, c) ← tagText (c.skipMany 2)
    if c.isAt '>' then return (("", uri), c.skip) else malformed
  | _ =>
    let (handle, after) ← tagHandle c
    if handle.length > 1 ∧ handle.endsWith "!" then
      let (suffix, after) ← tagText after
      return ((handle, suffix), after)
    else
      let (rest, after) ← tagChars (after.left + 1) [] after
      let suffix := (handle.drop 1).toString ++ String.ofList rest
      return (if suffix = "" then ("", "!") else ("!", suffix), after)

/-- A tag: its handle and the rest. -/
def tagName (c : Cursor) : Scan ((String × String) × Cursor) := do
  let (tag, c) ← tagParts c
  if startsBlank c.rest then return (tag, c) else malformed

/-! ## Directives -/

/-- A number of a version, of at most two digits. -/
def versionNumber (c : Cursor) : Scan (Nat × Cursor) :=
  let (digits, c) := c.takeWhile Char.isDigit
  if digits.isEmpty || digits.length > 2 then malformed
  else .ok (digits.foldl (fun n d => 10 * n + (d.toNat - '0'.toNat)) 0, c)

def versionValue (c : Cursor) : Scan (TokenKind × Cursor) := do
  let (major, c) ← versionNumber c
  if c.isAt '.' then
    let (minor, c) ← versionNumber c.skip
    return (.version major minor, c)
  else malformed

def handleValue (c : Cursor) : Scan (TokenKind × Cursor) := do
  let (handle, c) ← tagHandle c
  if c.atBlank && (handle = "!" || handle.endsWith "!") then
    let (stem, c) ← tagText (c.takeWhile isBlank).2
    if startsBlank c.rest then return (.handle handle stem, c) else malformed
  else malformed

/-- A directive, which takes the rest of its line. -/
def directiveLine (c : Cursor) : Scan (TokenKind × Cursor) := do
  let (name, c) := c.skip.takeWhile isNameChar
  if !startsBlank c.rest then malformed
  else
    let value := (c.takeWhile isBlank).2
    let (kind, c) ←
      if name = "YAML".toList then versionValue value
      else if name = "TAG".toList then handleValue value
      else malformed
    let (_, c) := c.takeWhile isBlank
    let c := if c.isAt '#' then c.toLineEnd else c
    if c.atBreakOrEnd then return (kind, c.takeBreak.2) else malformed

end HeapScript.Document
