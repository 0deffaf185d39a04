import HeapScript.Text.EditDistance

/-!
# Diagnostics

A diagnostic says which rule a program broke and where, with a suggestion or a note if there is
one. The functions at the end build the diagnostics of each rule.
-/

namespace HeapScript

inductive Level where
  | warning | error | fatal | unknown
  deriving DecidableEq, Repr

namespace Level

def ofCode (n : Int) : Level :=
  match n with
  | 0 => warning
  | 1 => error
  | 2 => fatal
  | _ => unknown

def name : Level → String
  | warning => "warning"
  | error => "error"
  | fatal => "fatal error"
  | unknown => "unknown"

end Level

inductive Category where
  | input | argumentCount | unknownSymbol | notAssignable | unsupported | undefinedVariable
  | internal | unknown
  deriving DecidableEq, Repr

namespace Category

def ofCode (n : Int) : Category :=
  match n with
  | 0 => input
  | 1 => argumentCount
  | 2 => unknownSymbol
  | 3 => notAssignable
  | 4 => unsupported
  | 5 => undefinedVariable
  | 6 => internal
  | _ => unknown

def name : Category → String
  | input => "input"
  | argumentCount => "argument count"
  | unknownSymbol => "unknown symbol"
  | notAssignable => "not assignable"
  | unsupported => "unsupported"
  | undefinedVariable => "undefined variable"
  | internal => "internal"
  | unknown => "unknown"

end Category

/-- A place in a syntax tree document; lines and columns count from 1. -/
structure Location where
  file : String := ""
  line : Int := 0
  column : Int := 0
  /-- The columns to underline, one if not positive. -/
  length : Int := 0
  deriving DecidableEq, Repr, Inhabited

def Location.text (loc : Location) : String :=
  let place := toString loc.line ++ ":" ++ toString loc.column
  if loc.file = "" then place else loc.file ++ ":" ++ place

structure Diagnostic where
  level : Level := .error
  category : Category
  message : String
  location : Location
  /-- The quoted source line, empty if there is none. -/
  source : String := ""
  suggestion : String := ""
  help : String := ""
  deriving DecidableEq, Repr

namespace Diagnostic

def text (d : Diagnostic) : String := d.location.text ++ ": " ++ d.message

def quotedNames (names : List String) : String :=
  "did you mean '" ++ String.intercalate "', '" names ++ "'?"

/-- A variable is counted up or down before anything assigned it. -/
def undefinedVariable (name : String) (loc : Location) : Diagnostic where
  category := .undefinedVariable
  message := "undefined variable '$" ++ name ++ "'"
  location := loc
  help := "Variables must be assigned before they are incremented or decremented"

def argumentCount (callee : String) (expected actual : Int) (loc : Location) : Diagnostic where
  category := .argumentCount
  message := callee ++ " expects " ++ toString expected ++ " argument(s), got " ++ toString actual
  location := loc

/-- A function, class, property or method does not exist. -/
def unknownSymbol (what name : String) (known : List String) (loc : Location) : Diagnostic where
  category := .unknownSymbol
  message := "unknown " ++ what ++ " '" ++ name ++ "'"
  location := loc
  suggestion :=
    match Text.similarNames name known 3 with
    | [] => ""
    | similar => quotedNames similar

/-- A write goes to something that cannot be written. -/
def notAssignable (what : String) (loc : Location) : Diagnostic where
  category := .notAssignable
  message := "cannot assign to " ++ what
  location := loc

def unsupported (what : String) (loc : Location) : Diagnostic where
  category := .unsupported
  message := "unsupported: " ++ what
  location := loc

/-- The document is not a syntax tree. -/
def input (message : String) (loc : Location) : Diagnostic where
  category := .input
  message := message
  location := loc

def broken (message : String) (loc : Location) : Diagnostic where
  level := .fatal
  category := .internal
  message := message
  location := loc
  help := "the generated code is inconsistent; this is a compiler bug"

end Diagnostic

end HeapScript
