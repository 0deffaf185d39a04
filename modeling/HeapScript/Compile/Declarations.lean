import HeapScript.Diagnostic.Report
import HeapScript.Tree.Basic

/-!
# Declarations

The functions and classes of a program with the function numbers they get: free functions,
constructors and methods in source order, then the statements that run. A name that is declared
twice is an error, and the later declaration counts for nothing.
-/

namespace HeapScript.Compile

structure FunctionInfo where
  /-- The name; methods are named `Class::method`. -/
  name : String
  index : Nat
  decl : Function

/-- The number of arguments of a call, the receiver aside. -/
def FunctionInfo.arity (f : FunctionInfo) : Nat := f.decl.params.length

structure ClassInfo where
  name : String
  id : Nat
  loc : Location
  create : Nat
  props : List String
  defaults : List PropertyDecl
  methods : List FunctionInfo

namespace ClassInfo

def slot? (c : ClassInfo) (prop : String) : Option Nat := c.props.idxOf? prop

def method? (c : ClassInfo) (name : String) : Option FunctionInfo :=
  c.methods.find? fun m => m.decl.name == name

/-- The function that runs on a new instance. -/
def initializer? (c : ClassInfo) : Option FunctionInfo := c.method? "__construct"

/-- The number of arguments for a new instance. -/
def arity (c : ClassInfo) : Nat := (c.initializer?.map FunctionInfo.arity).getD 0

/-- The class as analysis sees it; one without a name is not known there. -/
def known? (c : ClassInfo) : Option String := if c.name = "" then none else some c.name

end ClassInfo

structure Declarations where
  functions : List FunctionInfo := []
  classes : List ClassInfo := []
  /-- The number of functions so far, the next number to give. -/
  count : Nat := 0

namespace Declarations

def function? (d : Declarations) (name : String) : Option FunctionInfo :=
  d.functions.find? fun f => f.name == name

def class? (d : Declarations) (name : String) : Option ClassInfo :=
  d.classes.find? fun c => c.name == name

def classNames (d : Declarations) : List String := d.classes.map ClassInfo.name

def propertyNames (d : Declarations) : List String := (d.classes.flatMap ClassInfo.props).eraseDups

def methodNames (d : Declarations) : List String :=
  (d.classes.flatMap fun c => c.methods.map fun m => m.decl.name).eraseDups

def withProperty (d : Declarations) (prop : String) : List ClassInfo :=
  d.classes.filter fun c => (c.slot? prop).isSome

def withMethod (d : Declarations) (name : String) : List (ClassInfo × FunctionInfo) :=
  d.classes.filterMap fun c => (c.method? name).map fun m => (c, m)

end Declarations

/-! ## Collection -/

structure Collection where
  decls : Declarations := {}
  errors : List Diagnostic := []
  /-- What there is to say about it, a line each. -/
  notes : List String := []

def declaredTwice (what : String) (loc : Location) : Diagnostic :=
  .unsupported (what ++ " declared twice") loc

namespace Collection

def addFunction (c : Collection) (decl : Function) : Collection :=
  match c.decls.function? decl.name with
  | some _ => { c with errors := c.errors ++ [declaredTwice ("function " ++ decl.name) decl.loc] }
  | none =>
    { c with decls := { c.decls with
        functions := c.decls.functions ++ [⟨decl.name, c.decls.count, decl⟩]
        count := c.decls.count + 1 } }

/-- The properties of a class in slot order, and the errors for those declared again. -/
def collectProps (name : String) (loc : Location) :
    List PropertyDecl → List String × List Diagnostic → List String × List Diagnostic
  | [], found => found
  | p :: rest, (props, errors) =>
    if p.name ∈ props then
      collectProps name loc rest
        (props, errors ++ [declaredTwice ("property " ++ name ++ "::$" ++ p.name) loc])
    else collectProps name loc rest (props ++ [p.name], errors)

/-- The methods of a class, numbered from `next`, and the errors for those declared again. -/
def collectMethods (name : String) (next : Nat) :
    List Function → List FunctionInfo × List Diagnostic → List FunctionInfo × List Diagnostic
  | [], found => found
  | m :: rest, (methods, errors) =>
    if methods.any fun f => f.decl.name == m.name then
      collectMethods name next rest
        (methods, errors ++ [declaredTwice ("method " ++ name ++ "::" ++ m.name) m.loc])
    else
      collectMethods name next rest
        (methods ++ [⟨name ++ "::" ++ m.name, next + methods.length, m⟩], errors)

def addClass (c : Collection) (loc : Location) (name : String) (properties : List PropertyDecl)
    (methods : List Function) : Collection :=
  match c.decls.class? name with
  | some _ => { c with errors := c.errors ++ [declaredTwice ("class " ++ name) loc] }
  | none =>
    let create := c.decls.count
    let (props, propErrors) := collectProps name loc properties ([], [])
    let (infos, methodErrors) := collectMethods name (create + 1) methods ([], [])
    let id := c.decls.classes.length
    { decls := { c.decls with
        classes := c.decls.classes ++ [{
          name := name, id := id, loc := loc, create := create, props := props,
          defaults := properties, methods := infos }]
        count := create + 1 + infos.length }
      errors := c.errors ++ propErrors ++ methodErrors
      notes := c.notes ++ ["class " ++ name ++ ": id " ++ toString id ++ ", " ++
        toString props.length ++ " properties, " ++ toString infos.length ++ " methods"] }

def ofProgram (p : Program) : Collection :=
  p.foldl (fun c s =>
    match s with
    | .function decl => c.addFunction decl
    | .classDecl loc name properties methods => c.addClass loc name properties methods
    | _ => c) {}

end Collection

end HeapScript.Compile
