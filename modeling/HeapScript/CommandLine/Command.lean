import HeapScript.CommandLine.Path
import HeapScript.CommandLine.Settings
import HeapScript.CommandLine.Shell
import HeapScript.Conformance.Run
import HeapScript.Machine.Listing

/-!
# Commands

What the program can be asked to do, for any shell.
-/

namespace HeapScript

open Compile Execution Conformance

inductive Command where
  | help
  | version
  /-- Write the listing of a file, to a place of its own if one is given. -/
  | build (input output : String)
  | run (file : String)
  | watch (file : String)
  | test (folder : String)
  deriving DecidableEq, Repr

namespace Command

def versionText : String := "phpgc 0.9.0"

/-- Where suites are looked for unless a folder is given. -/
def suiteFolder : String := "testdata/conformance"

def isTreeFile (path : String) : Bool := Text.lowercase (Path.extension path) ∈ [".yaml", ".yml"]

/-- The input and the output among the arguments of `build`: the first argument that is no flag,
and what follows the last `-o`. -/
def buildArgs (input output : String) : List String → String × String
  | [] => (input, output)
  | "-o" :: path :: rest => buildArgs input path rest
  | a :: rest =>
    if !a.startsWith "-" && input == "" then buildArgs a output rest else buildArgs input output rest

def ofBuildArgs (output : String) (args : List String) : Except String Command :=
  match buildArgs "" output args with
  | ("", _) => .error "no input file specified"
  | (input, output) => .ok (build input output)

/-- The command in the arguments; `output` is where a listing goes if they do not tell. -/
def ofArgs (output : String) : List String → Except String Command
  | [] => .ok help
  | "build" :: args =>
    if args.isEmpty then .error "usage: phpgc build <file.yaml> [-o output]"
    else ofBuildArgs output args
  | "run" :: args =>
    match args with
    | file :: _ => .ok (run file)
    | [] => .error "usage: phpgc run <file.yaml>"
  | "watch" :: args =>
    match args with
    | file :: _ => .ok (watch file)
    | [] => .error "usage: phpgc watch <file.yaml>"
  | "test" :: args => .ok (test ((args.find? fun a => !a.startsWith "-").getD suiteFolder))
  | name :: args =>
    if name ∈ ["help", "--help", "-h"] then .ok help
    else if name ∈ ["version", "--version", "-V"] then .ok version
    else if isTreeFile name then ofBuildArgs output (name :: args)
    else .error ("unknown command: " ++ name ++ "\n\nRun 'phpgc help' for usage information")

def helpText : String :=
  String.intercalate "\n"
    [versionText ++ " - compiler for a PHP-like language to a GC heap instruction module",
     "",
     "USAGE:",
     "    phpgc [flags] <command> [arguments]",
     "",
     "COMMANDS:",
     "    build <file.yaml>     Compile a syntax tree and write the module listing",
     "    run <file.yaml>       Compile and execute on the reference interpreter",
     "    watch <file.yaml>     Run, then run again every time the file is saved",
     "    test [directory]      Run YAML conformance suites (default: testdata/conformance)",
     "    help                  Show this help message",
     "    version               Show version information",
     "",
     "SHORTHAND:",
     "    phpgc <file.yaml>     Same as 'phpgc build <file.yaml>'",
     "",
     "FLAGS (must come before the command):",
     "    -o, --output <file>   Listing filename, '-' for stdout (default: input name with .phpgc)",
     "    -v, --verbose         Show analysis and code generation details",
     "    -q                    Suppress progress messages",
     "    -O0                   Disable specialization, folding and unrolling",
     "    --unroll <n>          Loop unroll factor (default: " ++
       toString ({} : Options).unroll ++ ")",
     "    --max-steps <n>       Instruction budget for run and watch (default: " ++
       toString Settings.defaultMaxSteps ++ ")",
     "    --no-color            Disable colored diagnostics",
     "",
     "ENVIRONMENT:",
     "    PHPGC_UNROLL, PHPGC_NOOPT, PHPGC_VERBOSE, PHPGC_MAX_STEPS, NO_COLOR",
     "",
     ""]

end Command

/-! ## Effects -/

section

variable {m : Type → Type} [Monad m]

/-- Something done in a shell that can fail. -/
abbrev Task (m : Type → Type) := ExceptT Failure m

/-- An access to a file, whose failure is that of the task. -/
def access {α : Type} (x : m (Except String α)) : Task m α := do
  match ← (x : m (Except String α)) with
  | .ok a => return a
  | .error e => throw (.ofText e)

namespace Shell

def say (sh : Shell m) (line : String) : m Unit := sh.out (textBytes (line ++ "\n"))

def tell (sh : Shell m) (line : String) : m Unit := sh.err (textBytes (line ++ "\n"))

def tellFailure (sh : Shell m) (s : Settings) (f : Failure) : m Unit :=
  sh.err (f.shown s.color ++ textBytes "\n")

def note (sh : Shell m) (s : Settings) (lines : List String) : m Unit :=
  if s.verbose then lines.forM sh.tell else pure ()

end Shell

def documentText (sh : Shell m) (path : String) : Task m String := do
  match (← access (sh.read path)).text? with
  | some text => return text
  | none => throw (.syntactic path)

/-- A failure to load a program with the line it is about. -/
def quotingSource (source : String) : Failure → Failure
  | .syntactic file =>
    .rejected (((Collector.withLimit 1).withSource source).add (Failure.syntacticDiagnostic file))
  | .unreadable d => .rejected (((Collector.withLimit 1).withSource source).add d)
  | f => f

def compileNoting (sh : Shell m) (s : Settings) (p : Program) (o : Options) : Task m Compiled := do
  let compilation := Program.compile p o
  sh.note s compilation.notes
  compilation.outcome

def compileFile (sh : Shell m) (s : Settings) (path : String) : Task m Compiled := do
  let text ← documentText sh path
  match Program.ofText path text with
  | .error f => throw (quotingSource text f)
  | .ok p =>
    sh.note s ["Loaded " ++ path ++ ": " ++ toString p.length ++ " top-level statements"]
    compileNoting sh s p { s.options with source := text }

/-- Runs a compiled program; what it has written is printed even if it is stopped. -/
def runCompiled (sh : Shell m) (s : Settings) (c : Compiled) : Task m (Option Failure) := do
  let machine ← (machineFor c s.maxSteps : Except Failure _)
  let done := runMain machine
  sh.out done.output
  sh.note s [done.note]
  return done.failure

def listingName (input : String) : String :=
  Path.withoutEnding (Path.last input) (Path.extension input) ++ ".phpgc"

def buildFile (sh : Shell m) (s : Settings) (input output : String) : Task m Unit := do
  let output := if output = "" then listingName input else output
  sh.note s ["Building " ++ input ++ " -> " ++ output]
  let compiled ← compileFile sh s input
  match compiled.program.listing with
  | .error e => throw (.ofText e.message)
  | .ok text =>
    if output = "-" then sh.out (textBytes text)
    else
      access (sh.write output (textBytes text))
      if s.quiet then return
      sh.tell ("Built: " ++ output ++ " (" ++ toString compiled.program.funcs.size ++ " functions)")

def runFile (sh : Shell m) (s : Settings) (path : String) : Task m Unit := do
  let compiled ← compileFile sh s path
  match ← runCompiled sh s compiled with
  | none => return
  | some f => throw (.other (textBytes "execution failed: " ++ f.message))

def loadAndRun (sh : Shell m) (s : Settings) (path : String) : Task m Unit := do
  let text ← documentText sh path
  let program ← (Program.ofText path text : Except Failure _)
  let compiled ← compileNoting sh s program s.options
  match ← runCompiled sh s compiled with
  | none => return
  | some f => throw f

/-- Compiles and runs a file for the nth time; a failure is printed and handed back. -/
def rebuild (sh : Shell m) (s : Settings) (path : String) (n : Nat) : m (Option Failure) := do
  sh.note s ["rebuild #" ++ toString n ++ " of " ++ path]
  match ← (loadAndRun sh s path).run with
  | .ok () => return none
  | .error f =>
    sh.tellFailure s f
    return some f

def watchFile (sh : Shell m) (s : Settings) (path : String) : Task m Unit := do
  if ← sh.present path then
    let _ ← (rebuild sh s path 1 : m _)
    sh.tell ("watching " ++ path)
    sh.follow path fun n => do let _ ← rebuild sh s path (n + 1)
  else throw (.ofText ("file not found: " ++ path))

/-- A case with the file and the suite it is from. -/
structure LoadedCase where
  file : String
  suite : Bytes
  case : Case

def loadSuite (sh : Shell m) (path : String) : Task m (List LoadedCase) := do
  let bytes ← access (sh.read path)
  let suite : Except Failure Suite :=
    bytes.text?.elim (.error (.ofText "yaml: malformed document")) Suite.ofText
  match suite with
  | .ok suite => return suite.tests.map fun c => ⟨path, suite.name, c⟩
  | .error f => throw (f.inFile path)

/-- The cases of all suites below a folder, in the order of their paths. -/
def loadSuites (sh : Shell m) (folder : String) : Task m (List LoadedCase) := do
  let files ← access (sh.filesBelow folder)
  let suites := files.filter fun f => Path.extension f ∈ [".yaml", ".yml"]
  return (← (suites.mergeSort fun a b => decide (a ≤ b)).mapM (loadSuite sh)).flatten

/-- Judges a case in one mode and prints what came of it. -/
def judgeCase (sh : Shell m) (s : Settings) (c : LoadedCase) (optimize : Bool) : m Verdict := do
  let verdict := c.case.judge c.file { s.options with optimize := optimize } s.maxSteps
  sh.note s verdict.notes
  let mode := if optimize then " [opt]" else " [noopt]"
  let label := c.suite ++ textBytes "/" ++ c.case.name ++ textBytes mode
  if verdict.skipped || verdict.passed then
    if s.verbose then sh.out (textBytes "ok   " ++ label ++ textBytes "\n")
  else
    let why := (verdict.failure.map Failure.message).getD []
    sh.out (textBytes "FAIL " ++ label ++ textBytes ": " ++ why ++ textBytes "\n")
  return verdict

/-- Judges all cases below a folder, each with and without optimization. -/
def testFolder (sh : Shell m) (s : Settings) (folder : String) : Task m Unit := do
  let cases ← loadSuites sh folder
  if cases.isEmpty then
    if s.quiet then return
    sh.say ("No conformance suites found in " ++ folder)
  else
    let verdicts ← cases.mapM fun c => do
      let optimized ← (judgeCase sh s c true : m _)
      let plain ← (judgeCase sh s c false : m _)
      return [optimized, plain]
    let tally := Tally.ofVerdicts verdicts.flatten
    if !s.quiet then sh.say ("\n" ++ tally.text)
    if tally.failed > 0 then
      throw (.ofText (toString tally.failed ++ " conformance case(s) failed"))

def Command.perform (sh : Shell m) (s : Settings) : Command → Task m Unit
  | help => sh.out (textBytes helpText)
  | version => sh.say versionText
  | build input output => buildFile sh s input output
  | run file => runFile sh s file
  | watch file => watchFile sh s file
  | test folder => testFolder sh s folder

def Settings.notes (s : Settings) : List String :=
  ["----=[ " ++ Command.versionText ++ " ]=----",
   "optimize=" ++ toString s.options.optimize ++ " unroll=" ++ toString s.options.unroll ++
     " max-steps=" ++ toString s.maxSteps]

/-- Carries out the command in the arguments after the flags; a failure is printed. -/
def performArgs (sh : Shell m) (s : Settings) (args : List String) : m UInt32 := do
  sh.note s s.notes
  let task : Task m Unit :=
    match Command.ofArgs s.output args with
    | .ok c => c.perform sh s
    | .error e => throw (.ofText e)
  match ← task.run with
  | .ok () => return 0
  | .error f =>
    sh.tellFailure s f
    return f.exitCode

/-- The whole program: its arguments in an environment, to its exit code. -/
def commandLine (sh : Shell m) (env : Environment) (terminal : Bool) (args : List String) :
    m UInt32 :=
  match Arguments.ofList args with
  | .error e => pure e.exitCode
  | .ok a =>
    if a.switch "version" || a.switch "V" then do
      sh.say Command.versionText
      return 0
    else performArgs sh ((Settings.ofEnvironment env terminal).withFlags a) a.rest

end

end HeapScript
