import HeapScript.Document.Token

/-!
# Scanning documents

Splits a document text into tokens. Indentation opens and closes block collections, and a
scalar, alias or flow collection turns out to be a mapping key when a `:` follows it on the same
line; its key token is then inserted in front of it. Tokens are scanned as they are needed, so
what is wrong with a text far behind a document does not matter to it.
-/

namespace HeapScript.Document

/-- A token that may turn out to be a mapping key. -/
structure KeyCandidate where
  /-- Whether the context allows nothing else. -/
  required : Bool
  token : Nat
  mark : Cursor

structure Scanner where
  cursor : Cursor
  tokens : Array Token := #[]
  /-- The number of tokens that have been taken. -/
  taken : Nat := 0
  /-- The column of the innermost block collection. -/
  indent : Int := -1
  /-- The columns of the enclosing ones. -/
  outer : List Int := []
  keyAllowed : Bool := true
  /-- The candidate of the block context or innermost flow collection. -/
  candidate : Option KeyCandidate := none
  /-- The candidates of the enclosing ones, one for each open flow collection. -/
  candidates : List (Option KeyCandidate) := []

namespace Scanner

/-- The most collections of one style that may be open at once. -/
def maxDepth : Nat := 10000

def inFlow (s : Scanner) : Bool := !s.candidates.isEmpty

def push (s : Scanner) (kind : TokenKind) (start : Cursor) (c : Cursor) : Scanner :=
  { s with tokens := s.tokens.push ⟨kind, start.position, c.position⟩, cursor := c }

/-- Adds a token without extent in front of a later one. -/
def insert (s : Scanner) (i : Nat) (kind : TokenKind) (mark : Cursor) : Scanner :=
  { s with tokens := s.tokens.insertIdxIfInBounds i ⟨kind, mark.position, mark.position⟩ }

/-- Closes the block collections that are indented more than a column; they end at a place. -/
def unroll (column : Int) (mark : Cursor) (s : Scanner) : Scanner :=
  if s.inFlow then s
  else
    let rec go : List Int → Int → Array Token → Scanner
      | [], indent, tokens => { s with indent, outer := [], tokens }
      | i :: outer, indent, tokens =>
        if column < indent then
          go outer i (tokens.push ⟨.blockEnd, mark.position, mark.position⟩)
        else { s with indent, outer := i :: outer, tokens }
    go s.outer s.indent s.tokens

/-- Opens a block collection at a column if it is indented more than the current one; its token
goes to a given index. -/
def roll (column i : Nat) (kind : TokenKind) (mark : Cursor) (s : Scanner) : Scan Scanner :=
  if !s.inFlow && s.indent < column then
    if s.outer.length < maxDepth then
      .ok { (s.insert i kind mark) with indent := column, outer := s.indent :: s.outer }
    else malformed
  else .ok s

def dropCandidate (s : Scanner) : Scan Scanner :=
  match s.candidate with
  | some k => if k.required then malformed else .ok { s with candidate := none }
  | none => .ok s

/-- Makes the coming token a candidate for a key if one may start here. -/
def saveCandidate (s : Scanner) : Scan Scanner :=
  if s.keyAllowed then do
    let required := !s.inFlow && s.indent == s.cursor.column
    let s ← s.dropCandidate
    return { s with candidate := some ⟨required, s.tokens.size, s.cursor⟩ }
  else .ok s

/-- Whether a candidate can still become a key: it is on this line and not too far away. -/
def isOpen (s : Scanner) (k : KeyCandidate) : Scan Bool :=
  if k.mark.line < s.cursor.line || s.cursor.left + 1024 < k.mark.left then
    if k.required then malformed else .ok false
  else .ok true

/-- The candidate for a key if it can still become one. -/
def validCandidate (s : Scanner) : Scan (Option KeyCandidate) :=
  match s.candidate with
  | none => .ok none
  | some k => do return if ← s.isOpen k then some k else none

def toNextToken : (fuel : Nat) → Scanner → Scanner
  | 0, s => s
  | fuel + 1, s =>
    match s.cursor.rest with
    | [] => s
    | x :: _ =>
      if x == ' ' || (x == '\t' && (s.inFlow || !s.keyAllowed)) then
        toNextToken fuel { s with cursor := s.cursor.skip }
      else if x == '#' then
        toNextToken fuel { s with cursor := s.cursor.skipComments (s.cursor.left + 1) }
      else if isBreak x then
        toNextToken fuel
          { s with cursor := s.cursor.takeBreak.2, keyAllowed := s.keyAllowed || !s.inFlow }
      else s

/-! ## Tokens -/

/-- Leaves all block collections and gives up the candidate for a key. -/
def closeBlocks (s : Scanner) : Scan Scanner := do
  let s ← (s.unroll (-1) s.cursor).dropCandidate
  return { s with keyAllowed := false }

def documentMark (kind : TokenKind) (s : Scanner) : Scan Scanner := do
  let s ← s.closeBlocks
  return s.push kind s.cursor (s.cursor.skipMany 3)

def directive (s : Scanner) : Scan Scanner := do
  let s ← s.closeBlocks
  let (kind, c) ← directiveLine s.cursor
  return s.push kind s.cursor c

/-- The end of the text, on a line of its own. -/
def finish (s : Scanner) : Scan Scanner := do
  let c := s.cursor
  let c := if c.column == 0 then c else { c with line := c.line + 1, column := 0 }
  let s ← { s with cursor := c }.closeBlocks
  return s.push .streamEnd c c

def flowStart (kind : TokenKind) (s : Scanner) : Scan Scanner := do
  let s ← s.saveCandidate
  if s.candidates.length < maxDepth then
    return { s with
      candidates := s.candidate :: s.candidates, candidate := none,
      keyAllowed := true }.push kind s.cursor s.cursor.skip
  else malformed

def flowEnd (kind : TokenKind) (s : Scanner) : Scan Scanner := do
  let s ← s.dropCandidate
  let s := match s.candidates with
    | k :: ks => { s with candidate := k, candidates := ks }
    | [] => s
  return { s with keyAllowed := false }.push kind s.cursor s.cursor.skip

def flowEntry (s : Scanner) : Scan Scanner := do
  let s ← s.dropCandidate
  return { s with keyAllowed := true }.push .flowEntry s.cursor s.cursor.skip

/-- Opens a block collection here unless a flow collection is open. -/
def openBlock (kind : TokenKind) (s : Scanner) : Scan Scanner :=
  if s.inFlow then .ok s
  else if s.keyAllowed then s.roll s.cursor.column s.tokens.size kind s.cursor
  else malformed

def blockEntry (s : Scanner) : Scan Scanner := do
  let s ← (← s.openBlock .blockSequenceStart).dropCandidate
  return { s with keyAllowed := true }.push .blockEntry s.cursor s.cursor.skip

def explicitKey (s : Scanner) : Scan Scanner := do
  let s ← (← s.openBlock .blockMappingStart).dropCandidate
  return { s with keyAllowed := !s.inFlow }.push .key s.cursor s.cursor.skip

/-- The sign of a value, which may turn the candidate into a key. -/
def valueSign (s : Scanner) : Scan Scanner := do
  match ← s.validCandidate with
  | some k =>
    let s ← (s.insert k.token .key k.mark).roll k.mark.column k.token .blockMappingStart k.mark
    return { s with candidate := none, keyAllowed := false }.push .value s.cursor s.cursor.skip
  | none =>
    let s ← { s with candidate := none }.openBlock .blockMappingStart
    return { s with keyAllowed := !s.inFlow }.push .value s.cursor s.cursor.skip

def named (kind : String → TokenKind) (s : Scanner) : Scan Scanner := do
  let s ← s.saveCandidate
  let (name, c) ← anchorName s.cursor
  return { s with keyAllowed := false }.push (kind name) s.cursor c

def tag (s : Scanner) : Scan Scanner := do
  let s ← s.saveCandidate
  let ((handle, suffix), c) ← tagName s.cursor
  return { s with keyAllowed := false }.push (.tag handle suffix) s.cursor c

def block (literal : Bool) (s : Scanner) : Scan Scanner := do
  let s ← s.dropCandidate
  let (text, c) ← blockScalar literal s.indent s.cursor
  return { s with keyAllowed := true }.push (.scalar true text) s.cursor c

def quoted (single : Bool) (s : Scanner) : Scan Scanner := do
  let s ← s.saveCandidate
  let (text, c) ← quotedScalar single s.cursor
  return { s with keyAllowed := false }.push (.scalar true text) s.cursor c

/-- A plain scalar, and the comment behind it if it ends on its line. -/
def plain (s : Scanner) : Scan Scanner := do
  let s ← s.saveCandidate
  let (text, broken, c) ← plainScalar s.inFlow (s.indent + 1).toNat s.cursor
  let s := { s with keyAllowed := broken }.push (.scalar false text) s.cursor c
  return if broken then s else { s with cursor := s.cursor.skipLineComment }

def startsPlain (inFlow : Bool) : List Char → Bool
  | [] => false
  | c :: rest =>
    !(isBlank c || isBreak c || "-?:,[]\x7b\x7d#&*!|>'\"%@\x60".contains c) ||
      (c == '-' && !(rest.head?.map isBlank).getD false) ||
      (!inFlow && (c == '?' || c == ':') && !startsBlank rest)

/-- A token that ends on its line, and the comment behind it. -/
def commented (token : Scan Scanner) : Scan Scanner := do
  let s ← token
  return { s with cursor := s.cursor.skipLineComment }

def token (s : Scanner) : Scan Scanner :=
  match s.cursor.rest with
  | [] => s.finish
  | c :: rest =>
    if s.cursor.column == 0 && c == '%' then s.directive
    else if s.cursor.atMark '-' then s.documentMark .documentStart
    else if s.cursor.atMark '.' then s.documentMark .documentEnd
    else if c == '[' then commented (s.flowStart .flowSequenceStart)
    else if c == '\x7b' then commented (s.flowStart .flowMappingStart)
    else if c == ']' then commented (s.flowEnd .flowSequenceEnd)
    else if c == '\x7d' then commented (s.flowEnd .flowMappingEnd)
    else if c == ',' then commented s.flowEntry
    else if c == '-' && startsBlank rest then s.blockEntry
    else if c == '?' && (s.inFlow || startsBlank rest) then commented s.explicitKey
    else if c == ':' && (s.inFlow || startsBlank rest) then commented s.valueSign
    else if c == '*' then commented (s.named .reference)
    else if c == '&' then commented (s.named .anchor)
    else if c == '!' then commented s.tag
    else if c == '|' && !s.inFlow then s.block true
    else if c == '>' && !s.inFlow then s.block false
    else if c == '\'' then commented (s.quoted true)
    else if c == '"' then commented (s.quoted false)
    else if startsPlain s.inFlow s.cursor.rest then s.plain
    else malformed

/-- Scans one more token. Block collections that end before it end where the scan started. -/
def next (s : Scanner) : Scan Scanner :=
  let mark := s.cursor
  let s := s.toNextToken (s.cursor.left + 1)
  (s.unroll s.cursor.column mark).token

/-- Whether the coming token may still turn out to be a key. -/
def isPending (s : Scanner) : Scan Bool :=
  match (s.candidate :: s.candidates).findSome? fun k => k.filter (·.token == s.taken) with
  | some k => s.isOpen k
  | none => .ok false

/-- Scans on until two more tokens follow the coming one and it cannot become a key any more. -/
def ready : (fuel : Nat) → Scanner → Scan Scanner
  | 0, s => .ok s
  | fuel + 1, s => do
    if s.tokens.size < s.taken + 3 || (← s.isPending) then ready fuel (← s.next) else return s

/-- The coming token, with the scanner that is certain of it. -/
def peek (s : Scanner) : Scan (Token × Scanner) := do
  let s ← s.ready (s.cursor.left + 4)
  match s.tokens[s.taken]? with
  | some t => return (t, s)
  | none => malformed

def skip (s : Scanner) : Scanner := { s with taken := s.taken + 1 }

/-- A scanner at the start of a text; a mark of the byte order does not count. -/
def ofText (text : String) : Scanner :=
  let byteOrder (c : Char) : Bool := c.toNat == 0xFEFF
  match text.toList with
  | [] => { cursor := .ofChars [] }
  | c :: rest =>
    if byteOrder c then
      let cursor := Cursor.ofChars rest
      { cursor := if rest.head?.any byteOrder then cursor.skip else cursor }
    else { cursor := .ofChars (c :: rest) }

end Scanner

end HeapScript.Document
