import HeapScript.Compile.Places

/-!
# Calls

Calls of built-in functions, functions and methods, and the making of arrays and objects, given
how the arguments are generated. A method call whose receiver has a known class goes straight to
the method; any other goes through a dispatcher.
-/

namespace HeapScript.Compile

open Machine Library
open Code (load store const32)

inductive Builtin where
  | count | strlen | strval
  | cast (rep : Rep)
  | hasTag (tag : Tag)

def builtins : List (String × Builtin) :=
  [("count", .count), ("strlen", .strlen), ("intval", .cast .int), ("floatval", .cast .float),
    ("boolval", .cast .bool), ("strval", .strval), ("is_null", .hasTag .null),
    ("is_bool", .hasTag .bool), ("is_int", .hasTag .int), ("is_float", .hasTag .float),
    ("is_string", .hasTag .string), ("is_array", .hasTag .array)]

def Rep.tag? : Rep → Option Tag
  | .int => some .int
  | .float => some .float
  | .bool => some .bool
  | .boxed | .void => none

namespace Gen

/-! ## Functions -/

/-- Whether a value has a tag. The representation of a number tells its tag. -/
def tagTest (c : Context) (tag : Tag) (arg : Operand) : Gen Piece := do
  let p ← arg.emit (.value .boxed)
  match p.rep.tag? with
  | some t => return ⟨p.code ++ [.drop] ++ const32 (if t = tag then 1 else 0), .bool⟩
  | none =>
    return ⟨(← asRep c p .boxed) ++ [.structGet Shape.value ValueField.tag.index] ++
      const32 tag.code.toInt ++ [.i32 .eq], .bool⟩

def builtin (c : Context) (b : Builtin) (arg : Operand) : Gen Piece := do
  match b with
  | .count => return ⟨(← value c arg .boxed) ++ c.links.call .arrCount, .int⟩
  | .strlen =>
    return ⟨(← value c arg .boxed) ++ c.links.call .toBytes ++ [.arrayLen, .i64ExtendI32U], .int⟩
  | .strval =>
    return ⟨(← value c arg .boxed) ++ c.links.call .toBytes ++ c.links.call .newString, .boxed⟩
  | .cast rep => return ⟨← value c arg rep, rep⟩
  | .hasTag tag => tagTest c tag arg

def call (c : Context) (loc : Location) (name : String) (args : List Operand) : Gen Piece :=
  match builtins.lookup name, args with
  | some b, [arg] => builtin c b arg
  | some _, _ => fail (.argumentCount name 1 args.length loc)
  | none, _ =>
    match c.decls.function? name with
    | none =>
      fail (.unknownSymbol "function" name
        (c.decls.functions.map FunctionInfo.name ++ builtins.map (·.1)) loc)
    | some f =>
      if args.length = f.arity then do
        return ⟨(← boxedValues c args) ++ [.call f.index], .boxed⟩
      else fail (.argumentCount name f.arity args.length loc)

/-! ## Objects -/

def create (c : Context) (loc : Location) (name : String) (args : List Operand) : Gen Piece :=
  match c.decls.class? name with
  | none => fail (.unknownSymbol "class" name c.decls.classNames loc)
  | some k =>
    if args.length = k.arity then do
      return ⟨(← boxedValues c args) ++ [.call k.create], .boxed⟩
    else fail (.argumentCount (name ++ "::__construct") k.arity args.length loc)

/-- A call of a method of a known class. -/
def staticCall (c : Context) (loc : Location) (m : FunctionInfo) (object : Operand)
    (args : List Operand) : Gen Piece := do
  if args.length ≠ m.arity then fail (.argumentCount m.name m.arity args.length loc)
  return ⟨(← boxedValues c (object :: args)) ++ [.call m.index], .boxed⟩

/-- A call of a method by the class of the receiver. -/
def dynamicCall (c : Context) (loc : Location) (object : Operand) (name : String)
    (args : List Operand) : Gen Piece :=
  match c.decls.withMethod name with
  | [] => fail (.unknownSymbol "method" name c.decls.methodNames loc)
  | (k, m) :: rest =>
    if ((k, m) :: rest).any fun found => found.2.arity == args.length then do
      let operands ← boxedValues c (object :: args)
      return ⟨operands ++ (← helper c (.dispatcher name args.length)), .boxed⟩
    else fail (.argumentCount m.name m.arity args.length loc)

def methodCall (c : Context) (loc : Location) (object : Operand) (name : String)
    (args : List Operand) : Gen Piece := do
  let cls ← classOf c object.expr
  match cls.bind fun k => k.method? name with
  | some m => staticCall c loc m object args
  | none => dynamicCall c loc object name args

def property (c : Context) (loc : Location) (object : Operand) (name : String) : Gen Piece := do
  let (ref, code) ← propRef c loc object name
  let read ← readProp c ref
  release ref.object
  return ⟨code ++ read, .boxed⟩

/-! ## Arrays -/

/-- Stores an item of an array literal into the array on top. -/
def item (c : Context) (key : Option Operand) (val : Operand) : Gen Code :=
  match key with
  | none => do return (← value c val .boxed) ++ c.links.call .arrPush
  | some k => do
    if (← typeFor c k.expr) = .int then
      return (← value c k .int) ++ (← value c val .boxed) ++ c.links.call .arrSetInt
    else return (← value c k .boxed) ++ (← value c val .boxed) ++ c.links.call .arrSet

/-- Stores the items of an array literal into the array in a local. -/
def items (c : Context) (array : Nat) : List (Option Operand × Operand) → Gen Code
  | [] => pure []
  | (key, val) :: rest => do
    let code ← item c key val
    return load array ++ code ++ store array ++ (← items c array rest)

def array (c : Context) (entries : List (Option Operand × Operand)) : Gen Piece := do
  let t ← temp .boxed
  let code ← items c t entries
  release t
  return ⟨c.links.call .arrNew ++ store t ++ code ++ load t, .boxed⟩

def element (c : Context) (base key : Operand) : Gen Piece := do
  let code ← value c base .boxed
  if (← typeFor c key.expr) = .int then
    return ⟨code ++ (← value c key .int) ++ c.links.call .arrGetInt, .boxed⟩
  else return ⟨code ++ (← value c key .boxed) ++ c.links.call .arrGet, .boxed⟩

end Gen

end HeapScript.Compile
