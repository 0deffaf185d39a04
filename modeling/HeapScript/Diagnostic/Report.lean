import HeapScript.Diagnostic.Basic

/-!
# Reports

How diagnostics are shown: a header, the location, the quoted source line with a marker, then a
suggestion and a note. A `Collector` gathers the diagnostics of one compilation and reports them
together.
-/

namespace HeapScript

inductive Style where
  | error | warning | location | help | note

def Style.start : Style → String
  | error => "\x1b[1;31m"
  | warning => "\x1b[1;33m"
  | location => "\x1b[1;34m"
  | help => "\x1b[1;32m"
  | note => "\x1b[1;36m"

/-- Text in a style, plain without color. -/
def paint (color : Bool) (style : Style) (text : String) : String :=
  if color then style.start ++ text ++ "\x1b[0m" else text

def repeated (n : Nat) (c : Char) : String := String.ofList (List.replicate n c)

namespace Diagnostic

/-- The quoted source line with its line number and the marker under the column. -/
def excerpt (color : Bool) (d : Diagnostic) : String :=
  if d.source = "" then ""
  else
    let number := toString d.location.line
    let gutter := repeated (number.length + 1) ' ' ++ "|"
    let marker :=
      if 0 < d.location.column then
        gutter ++ " " ++ repeated (d.location.column - 1).toNat ' ' ++
          paint color .error (repeated (max d.location.length 1).toNat '^') ++ "\n"
      else ""
    gutter ++ "\n" ++ number ++ " | " ++ d.source ++ "\n" ++ marker

/-- A labelled line, nothing without text. -/
def remark (color : Bool) (style : Style) (label text : String) : String :=
  if text = "" then "" else paint color style label ++ text ++ "\n"

def format (color : Bool) (d : Diagnostic) : String :=
  let header : Style := if d.level = .warning then .warning else .error
  paint color header (d.level.name ++ ": ") ++ d.message ++ "\n" ++
    paint color .location ("  --> " ++ d.location.text) ++ "\n" ++
    d.excerpt color ++
    remark color .help "   help: " d.suggestion ++
    remark color .note "   note: " d.help

end Diagnostic

structure Collector where
  errors : List Diagnostic := []
  warnings : List Diagnostic := []
  /-- The number of errors after which to stop. -/
  limit : Int := 10
  lines : List String := []

namespace Collector

/-- An empty collector with a limit, 10 if it is not positive. -/
def withLimit (n : Int) : Collector := { limit := if n ≤ 0 then 10 else n }

def withSource (c : Collector) (source : String) : Collector :=
  { c with lines := if source = "" then [] else source.splitOn "\n" }

/-- Fills in the quoted line where there is none. -/
def quoting (c : Collector) (d : Diagnostic) : Diagnostic :=
  if d.source = "" ∧ 0 < d.location.line then
    match c.lines[(d.location.line - 1).toNat]? with
    | some line => { d with source := line }
    | none => d
  else d

def add (c : Collector) (d : Diagnostic) : Collector :=
  let d := c.quoting d
  if d.level = .warning then { c with warnings := c.warnings ++ [d] }
  else { c with errors := c.errors ++ [d] }

def warn (c : Collector) (d : Diagnostic) : Collector :=
  { c with warnings := c.warnings ++ [c.quoting { d with level := .warning }] }

def hasErrors (c : Collector) : Bool := !c.errors.isEmpty

def hasFatal (c : Collector) : Bool := c.errors.any fun d => d.level == .fatal

def shouldStop (c : Collector) : Bool := c.limit ≤ c.errors.length

def clear (c : Collector) : Collector := { c with errors := [], warnings := [] }

/-- One entry of the last line of a report. -/
def countText (color : Bool) (style : Style) (n : Nat) (what : String) : List String :=
  if n = 0 then [] else [paint color style (toString n ++ " " ++ what)]

/-- Every error, then every warning, then how many there are. -/
def report (color : Bool) (c : Collector) : String :=
  let all := c.errors ++ c.warnings
  if all.isEmpty then ""
  else
    let counts := countText color .error c.errors.length "error(s)" ++
      countText color .warning c.warnings.length "warning(s)"
    String.intercalate "\n" (all.map (Diagnostic.format color)) ++ "\n" ++
      String.intercalate ", " counts ++ " found\n"

def text (c : Collector) : String :=
  match c.errors with
  | [] => "no errors"
  | [d] => d.text
  | d :: _ => toString c.errors.length ++ " errors, first: " ++ d.text

end Collector

end HeapScript
