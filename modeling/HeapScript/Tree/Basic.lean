import HeapScript.Diagnostic.Basic
import HeapScript.Value.Operator

/-!
# Syntax trees

A program is a list of statements. Statements and expressions carry the place they were read
from. Function declarations nest statements, so they are parametrised by the statement type.
-/

namespace HeapScript

inductive Expr where
  | lit (loc : Location) (value : Value)
  | var (loc : Location) (name : String)
  | binary (loc : Location) (op : BinaryOp) (left right : Expr)
  | unary (loc : Location) (op : UnaryOp) (operand : Expr)
  /-- An assignment, combined with an operator if there is one. -/
  | assign (loc : Location) (op : Option CompoundOp) (target value : Expr)
  | incDec (loc : Location) (increment before : Bool) (target : Expr)
  | ternary (loc : Location) (cond yes no : Expr)
  /-- An array of items; an item without a key is appended. -/
  | array (loc : Location) (items : List (Option Expr × Expr))
  /-- An element of an array; without a key the place behind the last element. -/
  | index (loc : Location) (base : Expr) (key : Option Expr)
  | call (loc : Location) (name : String) (args : List Expr)
  | method (loc : Location) (object : Expr) (name : String) (args : List Expr)
  | create (loc : Location) (className : String) (args : List Expr)
  | prop (loc : Location) (object : Expr) (name : String)
  deriving Inhabited

def Expr.loc : Expr → Location
  | lit loc .. | var loc .. | binary loc .. | unary loc .. | assign loc .. | incDec loc ..
  | ternary loc .. | array loc .. | index loc .. | call loc .. | method loc .. | create loc ..
  | prop loc .. => loc

/-- A function or method with a body of statements. -/
structure FunctionDecl (σ : Type) where
  loc : Location
  name : String
  params : List String
  body : List σ

/-- A property of a class, null unless it has a default. -/
structure PropertyDecl where
  name : String
  default : Option Expr

/-- A statement. -/
inductive Stmt where
  | expr (loc : Location) (e : Expr)
  | echo (loc : Location) (args : List Expr)
  | ifElse (loc : Location) (cond : Expr) (yes no : List Stmt)
  | whileDo (loc : Location) (cond : Expr) (body : List Stmt)
  | doWhile (loc : Location) (body : List Stmt) (cond : Expr)
  | forLoop (loc : Location) (init : List Expr) (cond : Option Expr) (post : List Expr)
      (body : List Stmt)
  | foreach (loc : Location) (subject : Expr) (key : Option String) (value : String)
      (body : List Stmt)
  /-- A switch; a case without a match is the default. -/
  | switch (loc : Location) (subject : Expr) (cases : List (Option Expr × List Stmt))
  | leave (loc : Location) (levels : Int)
  | next (loc : Location) (levels : Int)
  | ret (loc : Location) (value : Option Expr)
  | function (decl : FunctionDecl Stmt)
  | classDecl (loc : Location) (name : String) (properties : List PropertyDecl)
      (methods : List (FunctionDecl Stmt))
  deriving Inhabited

def Stmt.loc : Stmt → Location
  | expr loc .. | echo loc .. | ifElse loc .. | whileDo loc .. | doWhile loc .. | forLoop loc ..
  | foreach loc .. | switch loc .. | leave loc .. | next loc .. | ret loc .. | classDecl loc .. => loc
  | function decl => decl.loc

abbrev Function := FunctionDecl Stmt

structure ClassDecl where
  loc : Location
  name : String
  properties : List PropertyDecl
  methods : List Function

abbrev Program := List Stmt

/-- Whether a statement declares a function or a class. -/
def Stmt.isDecl : Stmt → Bool
  | function .. | classDecl .. => true
  | _ => false

/-- The statements of a program that run, as a function of their own. -/
def Program.main (p : Program) : Function where
  loc := {}
  name := "main"
  params := []
  body := p.filter fun s => !s.isDecl

end HeapScript
