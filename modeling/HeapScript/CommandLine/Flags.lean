import HeapScript.Document.Scalar

/-!
# Flags

The arguments of the program start with flags: `-name`, `-name=value` or `-name value`, with one
or two dashes. The first argument that is no flag, or `--`, ends them. A switch takes a value
only after an equals sign.
-/

namespace HeapScript

inductive FlagKind where
  | text
  | switch
  | number
  deriving DecidableEq, Repr

inductive FlagValue where
  | text (s : String)
  | switch (on : Bool)
  | number (i : Int)

def flagKinds : List (String × FlagKind) :=
  [("o", .text), ("output", .text), ("V", .switch), ("version", .switch), ("v", .switch),
   ("verbose", .switch), ("q", .switch), ("O0", .switch), ("unroll", .number),
   ("max-steps", .number), ("no-color", .switch)]

/-- Why the flags cannot be read. -/
inductive FlagError where
  /-- A dash without a name. -/
  | malformed
  | unknown (name : String)
  /-- The flag asks for the list of flags. -/
  | help
  | valueMissing (name : String)
  | badValue (name value : String)
  deriving DecidableEq, Repr

/-- The exit code of the program after such an error. -/
def FlagError.exitCode : FlagError → UInt32
  | help => 0
  | _ => 2

namespace FlagValue

/-- The spellings of truth values. -/
def switch? (s : String) : Option Bool :=
  if s ∈ ["1", "t", "T", "true", "TRUE", "True"] then some true
  else if s ∈ ["0", "f", "F", "false", "FALSE", "False"] then some false
  else none

/-- Whether every underscore stands between two digits; `inDigits` tells whether the character
before is one. -/
def evenlySplit (inDigits : Bool) : List Char → Bool
  | [] => true
  | '_' :: c :: cs => inDigits && c != '_' && evenlySplit true (c :: cs)
  | ['_'] => false
  | _ :: cs => evenlySplit true cs

/-- Digits in a base with underscores between them; `inDigits` tells whether something that
counts as a digit stands before them. -/
def split? (base : Nat) (inDigits : Bool) (cs : List Char) : Option Nat :=
  if evenlySplit inDigits cs then Document.Scalar.digits? base (cs.filter (· != '_')) else none

/-- A number without a sign whose beginning tells the base. -/
def natural? : List Char → Option Nat
  | [] => none
  | '0' :: 'b' :: c :: cs | '0' :: 'B' :: c :: cs => split? 2 true (c :: cs)
  | '0' :: 'o' :: c :: cs | '0' :: 'O' :: c :: cs => split? 8 true (c :: cs)
  | '0' :: 'x' :: c :: cs | '0' :: 'X' :: c :: cs => split? 16 true (c :: cs)
  | '0' :: cs => split? 8 true cs
  | cs => split? 10 false cs

def number? (s : String) : Option Int := Document.Scalar.signed? natural? s.toList

def ofText? (kind : FlagKind) (s : String) : Option FlagValue :=
  match kind with
  | .text => some (text s)
  | .switch => (switch? s).map switch
  | .number => (number? s).map number

end FlagValue

/-- The flags that were given, in order, and the arguments after them. -/
structure Arguments where
  given : List (String × FlagValue) := []
  rest : List String := []

/-- One argument, read as a flag. -/
inductive FlagForm where
  /-- It is no flag, and so are all that follow. -/
  | plain
  /-- The mark that ends the flags. -/
  | stop
  | malformed
  | named (name : String) (value : Option String)

/-- A name and what follows the first equals sign that is not its first character. -/
def FlagForm.ofName (s : List Char) : FlagForm :=
  match s with
  | [] | '-' :: _ | '=' :: _ => malformed
  | c :: cs =>
    let name := String.ofList (c :: cs.takeWhile (· != '='))
    match cs.dropWhile (· != '=') with
    | [] => named name none
    | _ :: value => named name (some (String.ofList value))

def FlagForm.ofArgument (s : String) : FlagForm :=
  match s.toList with
  | ['-', '-'] => stop
  | '-' :: '-' :: name => ofName name
  | '-' :: c :: cs => ofName (c :: cs)
  | _ => plain

namespace Arguments

/-- The value of a flag given as a text, added to the flags already read. -/
def assign (given : List (String × FlagValue)) (name : String) (kind : FlagKind) (s : String) :
    Except FlagError (List (String × FlagValue)) :=
  match FlagValue.ofText? kind s with
  | some v => .ok (given ++ [(name, v)])
  | none => .error (.badValue name s)

def read (given : List (String × FlagValue)) : List String → Except FlagError Arguments
  | [] => .ok ⟨given, []⟩
  | a :: rest =>
    match FlagForm.ofArgument a with
    | .plain => .ok ⟨given, a :: rest⟩
    | .stop => .ok ⟨given, rest⟩
    | .malformed => .error .malformed
    | .named name value =>
      match flagKinds.lookup name with
      | none => .error (if name = "help" ∨ name = "h" then .help else .unknown name)
      | some kind =>
        match kind, value, rest with
        | .switch, none, rest =>
          match assign given name .switch "true" with
          | .ok given => read given rest
          | .error e => .error e
        | kind, some s, rest =>
          match assign given name kind s with
          | .ok given => read given rest
          | .error e => .error e
        | _, none, [] => .error (.valueMissing name)
        | kind, none, s :: rest =>
          match assign given name kind s with
          | .ok given => read given rest
          | .error e => .error e
termination_by args => args.length

/-- The flags at the beginning of the arguments, and what follows them. -/
def ofList (args : List String) : Except FlagError Arguments := read [] args

def last? (a : Arguments) (name : String) : Option FlagValue := a.given.reverse.lookup name

def switch (a : Arguments) (name : String) : Bool :=
  match a.last? name with
  | some (.switch on) => on
  | _ => false

/-- The text of a flag, empty by default. -/
def text (a : Arguments) (name : String) : String :=
  match a.last? name with
  | some (.text s) => s
  | _ => ""

def number? (a : Arguments) (name : String) : Option Int :=
  match a.last? name with
  | some (.number i) => some i
  | _ => none

end Arguments

end HeapScript
