import HeapScript.CommandLine.Flags
import HeapScript.Compile.Program

/-!
# Settings

How the program is set up: by its environment, and on top of that by its flags.
-/

namespace HeapScript

abbrev Environment := List (String × String)

namespace Environment

/-- The value of a variable, empty by default. -/
def text (env : Environment) (name : String) : String := (env.lookup name).getD ""

/-- Words that mean yes, in lower case. -/
def yesWords : List String :=
  ["true", "yes", "enable", "enabled", "positive", "absolutely", "affirmative"]

/-- Whether a text means yes: a word in lower case, in upper case or capitalized, or a mark. -/
def isYes (s : String) : Bool :=
  s ∈ ["1", "t", "T", "y", "Y"] || yesWords.any fun w => s == w || s == w.toUpper || s == w.capitalize

def switch (env : Environment) (name : String) : Bool := isYes (env.text name)

/-- The decimal integer of a variable; the default if it has none that fits 64 bits. -/
def number (env : Environment) (name : String) (default : Int) : Int :=
  (Document.Scalar.signed? (Document.Scalar.digits1? 10) (env.text name).toList).getD default

end Environment

structure Settings where
  options : Compile.Options := {}
  /-- The instruction budget of a run, 0 for none. -/
  maxSteps : Int
  color : Bool := false
  verbose : Bool := false
  /-- Whether progress messages are left out. -/
  quiet : Bool := false
  /-- Where a listing goes; empty if that is left open. -/
  output : String := ""

namespace Settings

/-- The instruction budget of a run unless something else is said. -/
def defaultMaxSteps : Int := 50000000

/-- The settings of an environment; `terminal` tells whether messages go to a terminal. -/
def ofEnvironment (env : Environment) (terminal : Bool) : Settings where
  options :=
    { optimize := !env.switch "PHPGC_NOOPT"
      unroll := max (env.number "PHPGC_UNROLL" ({} : Compile.Options).unroll) 1 }
  maxSteps := max (env.number "PHPGC_MAX_STEPS" defaultMaxSteps) 0
  color := terminal && env.text "NO_COLOR" == "" && env.text "TERM" != "dumb"
  verbose := env.switch "PHPGC_VERBOSE"

def withFlags (s : Settings) (a : Arguments) : Settings where
  options :=
    { optimize := s.options.optimize && !a.switch "O0"
      unroll := max ((a.number? "unroll").getD s.options.unroll) 1 }
  maxSteps := max ((a.number? "max-steps").getD s.maxSteps) 0
  color := s.color && !a.switch "no-color"
  verbose := a.switch "v" || a.switch "verbose" || s.verbose
  quiet := a.switch "q"
  output := if a.text "o" = "" then a.text "output" else a.text "o"

end Settings

end HeapScript
