import HeapScript.Document.Node

/-!
# Cursors

A cursor is a place in a document text together with the text that follows. Lines and columns
count from 0 here; `Cursor.position` is the place as documents show it.
-/

namespace HeapScript.Document

def isBlank (c : Char) : Bool := c == ' ' || c == '\t'

def isBreak (c : Char) : Bool :=
  c == '\n' || c == '\r' || c.toNat == 0x85 || c.toNat == 0x2028 || c.toNat == 0x2029

def isNameChar (c : Char) : Bool := c.isAlphanum || c == '_' || c == '-'

/-- Whether a text is empty or starts with a line break. -/
def startsBreak : List Char → Bool
  | [] => true
  | c :: _ => isBreak c

/-- Whether a text is empty or starts with a blank or a line break. -/
def startsBlank : List Char → Bool
  | [] => true
  | c :: _ => isBlank c || isBreak c

def isAllowed (c : Char) : Bool :=
  let n := c.toNat
  n == 0x09 || n == 0x0A || n == 0x0D || (0x20 ≤ n && n ≤ 0x7E) || n == 0x85 ||
    (0xA0 ≤ n && n ≤ 0xD7FF) || (0xE000 ≤ n && n ≤ 0xFFFD) || 0x10000 ≤ n

structure Cursor where
  rest : List Char
  /-- The number of characters that follow. -/
  left : Nat
  line : Nat := 0
  column : Nat := 0

namespace Cursor

def ofChars (cs : List Char) : Cursor := { rest := cs, left := cs.length }

/-- The place as documents show it. -/
def position (c : Cursor) : Position := ⟨c.line + 1, c.column + 1⟩

def head? (c : Cursor) : Option Char := c.rest.head?

def isAt (c : Cursor) (x : Char) : Bool := c.rest.head? == some x

def atBlank (c : Cursor) : Bool :=
  match c.rest with
  | x :: _ => isBlank x
  | [] => false

def atBreak (c : Cursor) : Bool :=
  match c.rest with
  | x :: _ => isBreak x
  | [] => false

def atBreakOrEnd (c : Cursor) : Bool := startsBreak c.rest

def skip (c : Cursor) : Cursor :=
  match c.rest with
  | [] => c
  | _ :: rest => { c with rest, left := c.left - 1, column := c.column + 1 }

def skipMany : Nat → Cursor → Cursor
  | 0, c => c
  | n + 1, c => skipMany n c.skip

/-- Goes over a line break, if there is one, and gives the break as content keeps it. -/
def takeBreak (c : Cursor) : List Char × Cursor :=
  match c.rest with
  | '\r' :: '\n' :: rest => (['\n'], ⟨rest, c.left - 2, c.line + 1, 0⟩)
  | x :: rest =>
    if isBreak x then
      let kept := if x.toNat == 0x2028 || x.toNat == 0x2029 then x else '\n'
      ([kept], ⟨rest, c.left - 1, c.line + 1, 0⟩)
    else ([], c)
  | [] => ([], c)

/-- Goes over the characters that satisfy a test, none of them a line break. -/
def takeWhile (p : Char → Bool) (c : Cursor) : List Char × Cursor :=
  let taken := c.rest.takeWhile p
  let n := taken.length
  (taken, ⟨c.rest.drop n, c.left - n, c.line, c.column + n⟩)

def toLineEnd (c : Cursor) : Cursor := (c.takeWhile fun x => !isBreak x).2

/-! ## Comments -/

/-- Looks for a comment behind blanks and empty lines, at most `n` characters ahead. -/
def commentAhead : Nat → List Char → Bool
  | 0, _ => false
  | _, [] => false
  | n + 1, x :: rest =>
    x == '#' || ((isBlank x || x == '\n' || x == '\r') && commentAhead n rest)

/-- Goes over blanks and line breaks to the comment that is ahead. -/
def toComment : (fuel : Nat) → Cursor → Cursor
  | 0, c => c
  | fuel + 1, c =>
    if c.isAt '#' then c
    else if c.atBreak then toComment fuel c.takeBreak.2
    else toComment fuel c.skip

/-- Goes over the comment here and over those that follow with nothing but blanks and empty lines
between, to the end of the last one. Here a comment may stand behind a tab. -/
def skipComments : (fuel : Nat) → Cursor → Cursor
  | 0, c => c
  | fuel + 1, c =>
    let c := c.toLineEnd
    if (c.isAt '\n' || c.isAt '\r') && commentAhead 511 c.rest.tail then
      skipComments fuel (c.toComment c.left)
    else c

/-- Goes over the comment that follows on the line, if there is one; it may stand behind blanks. -/
def skipLineComment (c : Cursor) : Cursor :=
  let (blanks, after) := c.takeWhile isBlank
  if after.isAt '#' && blanks.length < 512 then after.toLineEnd else c

/-! ## Marks -/

/-- Whether a line starts here with three given characters and nothing attached. -/
def atMark (c : Cursor) (x : Char) : Bool :=
  c.column == 0 &&
    match c.rest with
    | a :: b :: d :: rest => a == x && b == x && d == x && startsBlank rest
    | _ => false

def atDocumentMark (c : Cursor) : Bool := c.atMark '-' || c.atMark '.'

end Cursor

end HeapScript.Document
