/-!
# Timestamps

A plain scalar that spells a day, alone or with a time of day, is a timestamp. The year has four
digits, every other number one or two. A time follows the day after `T` or `t` with a zone, or
after spaces without one.
-/

namespace HeapScript.Document.Timestamp

/-- Reads a part of a text and gives what is left of it. -/
abbrev Piece (α : Type) := StateT (List Char) Option α

def digit? (c : Char) : Option Nat := if c.isDigit then some (c.toNat - '0'.toNat) else none

def number : Piece Nat := fun
  | a :: b :: rest => do
    let high ← digit? a
    match digit? b with
    | some low => some (10 * high + low, rest)
    | none => some (high, b :: rest)
  | [a] => (digit? a).map fun n => (n, [])
  | [] => none

/-- A number of one or two digits within bounds. -/
def within (least most : Nat) : Piece Nat := do
  let n ← number
  if least ≤ n ∧ n ≤ most then return n else failure

def sign (x : Char) : Piece Unit := fun
  | c :: rest => if c = x then some ((), rest) else none
  | [] => none

def finished : Piece Unit := fun cs => if cs.isEmpty then some ((), []) else none

/-- Whether a year has a 29th of February. -/
def isLeap (year : Nat) : Bool := year % 4 = 0 && (year % 100 ≠ 0 || year % 400 = 0)

def daysIn (year month : Nat) : Nat :=
  if month = 2 then (if isLeap year then 29 else 28)
  else if month ∈ [4, 6, 9, 11] then 30
  else 31

def year : Piece Nat := fun
  | a :: b :: c :: d :: rest => do
    let n ← [a, b, c, d].foldlM (fun n x => do return 10 * n + (← digit? x)) 0
    some (n, rest)
  | _ => none

/-- Year, month and a number for the day, which is compared with the calendar last. -/
def date : Piece (Nat × Nat × Nat) := do
  let y ← year
  sign '-'
  let m ← within 1 12
  sign '-'
  return (y, m, ← number)

/-- The fraction of a second, if there is one. -/
def fraction : Piece Unit := fun
  | p :: d :: rest =>
    if (p = '.' ∨ p = ',') ∧ d.isDigit then some ((), rest.dropWhile Char.isDigit)
    else some ((), p :: d :: rest)
  | cs => some ((), cs)

def time : Piece Unit := do
  let _ ← within 0 23
  sign ':'
  let _ ← within 0 59
  sign ':'
  let _ ← within 0 59
  fraction

/-- A number of exactly two digits up to a bound. -/
def pair (most : Nat) : Piece Unit := fun
  | a :: b :: rest => do
    let n := 10 * (← digit? a) + (← digit? b)
    if n ≤ most then some ((), rest) else none
  | _ => none

/-- The distance to the time of reference: `Z`, or a sign with hours and minutes. -/
def zone : Piece Unit := sign 'Z' <|> do
  sign '+' <|> sign '-'
  pair 24
  sign ':'
  pair 60

def spaces : Piece Unit := fun
  | ' ' :: rest => some ((), rest.dropWhile (· == ' '))
  | _ => none

def afterDate : Piece Unit :=
  finished <|> (do (sign 'T' <|> sign 't'); time; zone; finished) <|> (do spaces; time; finished)

/-- A day of the calendar, alone or with a time of day. -/
def timestamp : Piece Unit := do
  let (y, m, d) ← date
  afterDate
  if 1 ≤ d ∧ d ≤ daysIn y m then return () else failure

end Timestamp

def isTimestamp (text : String) : Bool := (Timestamp.timestamp.run text.toList).isSome

end HeapScript.Document
