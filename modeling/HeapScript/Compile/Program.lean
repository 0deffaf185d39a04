import HeapScript.Compile.Function
import HeapScript.Compile.Stage
import HeapScript.Diagnostic.Failure
import HeapScript.Library.Install

/-!
# Programs

Compiles a program to a module. All functions are compiled, whether or not another one has an
error; the errors are reported together, and a module is made only if there are none.
-/

namespace HeapScript

namespace Compile

open Machine Library

structure Options where
  optimize : Bool := true
  /-- The number of copies of the body of a counted loop between two jumps. -/
  unroll : Int := 4
  /-- The text of the document, quoted in reports. -/
  source : String := ""

structure Compiled where
  program : Module
  links : Links
  main : Nat

/-- The outcome of a compilation, and notes on how it went. -/
structure Compilation where
  notes : List String
  outcome : Except Failure Compiled

def stageNote (s : Stage) : String := "PIPELINE: " ++ s.name

/-- A function that is to be compiled, with what is settled about it. -/
structure Job where
  info : FunctionInfo
  facts : FunctionFacts
  isMain : Bool := false
  isMethod : Bool := false

def Job.params (j : Job) : List String :=
  (if j.isMethod then ["this"] else []) ++ j.info.decl.params

def mainInfo (p : Program) (d : Declarations) : FunctionInfo := ⟨"main", d.count, Program.main p⟩

/-- The functions of a program: the statements that run, the free functions, the methods. -/
def jobs (p : Program) (d : Declarations) (optimize : Bool) : List Job :=
  [{ info := mainInfo p d, facts := Function.facts (Program.main p) none optimize, isMain := true }] ++
  (d.functions.map fun f => { info := f, facts := Function.facts f.decl none optimize }) ++
  d.classes.flatMap fun k => k.methods.map fun m =>
    { info := m, facts := Function.facts m.decl k.known? optimize, isMethod := true }

def Job.notes (j : Job) : List String :=
  j.facts.vars.map fun (name, v) =>
    "  " ++ j.info.name ++ ": $" ++ name ++ " " ++ v.storage.name ++ " definite=" ++
      toString v.definite ++ " class=" ++ Text.quote (v.className.getD "")

/-- What compiling one function after the other has given so far. -/
structure Session where
  pool : Pool
  notes : Array String
  errors : Collector
  bodies : Array Body := #[]

/-- Compiles one function and goes on whatever the outcome. -/
def Session.add (s : Session) (name : String) (params : Nat) (gen : Gen Body) : Session :=
  match gen.run.run (Draft.start s.pool s.notes params) with
  | (.ok b, d) => { s with pool := d.pool, notes := d.notes.push b.note, bodies := s.bodies.push b }
  | (.error e, d) =>
    { s with pool := d.pool, notes := d.notes.push ("  " ++ name ++ ": " ++ e.text),
             errors := s.errors.add e }

def Session.addJob (o : Options) (d : Declarations) (l : Links) (s : Session) (j : Job) : Session :=
  let c : Context := {
    decls := d, links := l, name := j.info.name, facts := j.facts, isMain := j.isMain,
    optimize := o.optimize, unroll := o.unroll }
  Session.add { s with notes := s.notes.push ("compiling " ++ j.info.name) } j.info.name
    j.params.length (Gen.function c j.info j.params)

def Session.addClass (o : Options) (d : Declarations) (l : Links) (s : Session) (k : ClassInfo) :
    Session :=
  let name := k.name ++ "::__new"
  let c : Context := { decls := d, links := l, name := name, optimize := o.optimize, unroll := o.unroll }
  s.add name k.arity (Gen.creator c k)

/-! ## The module -/

def helperBodies (d : Declarations) (l : Links) (pool : Pool) : List (Helper × Body) :=
  let base := l.base + 2 + Routine.all.length
  pool.helpers.toList.zipIdx.map fun (h, i) => (h, h.body d l (base + i))

def reserveMany : Nat → Module → Module
  | 0, m => m
  | n + 1, m => reserveMany n m.reserve.2

def defineBodies : List Body → Module → Except DefineError Module
  | [], m => .ok m
  | b :: rest, m => do
    let (type, m) := m.addType b.params b.results
    defineBodies rest (← m.define b.index b.name type b.locals b.code.toArray)

/-- The module of compiled functions: the heap shapes, the library, the string constants and the
functions themselves. -/
def assemble (count : Nat) (pool : Pool) (bodies : List Body) : Except DefineError (Links × Module) := do
  let (l, m) ← install (reserveMany count emptyModule)
  let m := (pool.strings.toList.drop ownStrings.length).foldl (fun m s => (m.addData 0 s).2) m
  let m ← defineBodies bodies (reserveMany pool.helpers.size m)
  return (l, m.addExport "main" .func (count - 1 : Nat))

def summary (d : Declarations) (m : Module) : List String :=
  ["CompilerState:", "  Stage: " ++ Stage.complete.name,
    "  Functions: " ++ toString d.functions.length, "  Classes: " ++ toString d.classes.length,
    "  Module functions: " ++ toString m.funcs.size, "  Strings: " ++ toString m.data.size]

def finish (d : Declarations) (l : Links) (main : Nat) (s : Session) : Compilation :=
  let helpers := helperBodies d l s.pool
  let notes := s.notes.toList ++ helpers.flatMap fun (h, b) => h.notes b
  match assemble (main + 1) s.pool (s.bodies.toList ++ helpers.map (·.2)) with
  | .error e => ⟨notes, .error (.ofText e.message)⟩
  | .ok (l, m) =>
    match m.validate with
    | .error e => ⟨notes, .error (.ofText e.message)⟩
    | .ok _ => ⟨notes ++ [stageNote .complete] ++ summary d m, .ok ⟨m, l, main⟩⟩

end Compile

open Compile

def Program.compile (p : Program) (o : Options) : Compilation :=
  let found := Collection.ofProgram p
  let d := found.decls
  let main := d.count
  let l : Library.Links := ⟨main + 1⟩
  let js := jobs p d o.optimize
  let errors := found.errors.foldl Collector.add ((Collector.withLimit 100).withSource o.source)
  let start : Session := {
    pool := { strings := (Library.ownStrings.map textBytes).toArray }
    notes := ([stageNote .collection] ++ found.notes ++ [stageNote .analysis] ++
      js.flatMap Job.notes ++ [stageNote .library, stageNote .generation]).toArray
    errors := errors }
  let done := d.classes.foldl (Session.addClass o d l) (js.foldl (Session.addJob o d l) start)
  if done.errors.hasErrors then ⟨done.notes.toList, .error (.rejected done.errors)⟩
  else finish d l main done

end HeapScript
