import HeapScript.Document.Scalar
import HeapScript.Tree.Basic

/-!
# From documents to syntax trees

The root of a document is a sequence of statements, and every statement or compound expression
is a mapping with a `kind`. Plain scalars are literals, or variables if they start with `$`. An
expression where a statement is expected becomes an expression statement.

A `Reading` is a node together with what it reads as. Readings are built from those of the parts,
so that `exprOf` and `stmtOf`, which say what a node reads as, are not recursive.
-/

namespace HeapScript

open Document (Node Scalar)

/-! ## Errors -/

/-- Why a node does not read as expected. -/
inductive LoadCause where
  | notMapping (found : String)
  | notSequence (found : String)
  | missing (kind key : String)
  | notScalar (key : String)
  | notFlag (key : String)
  | notInteger (key : String)
  | notNames (key : String)
  | unknownKind (what kind : String) (known : List String)
  | unknownOperator (op : String) (allowed : List String)
  | literalNotScalar
  | badBool (text : String)
  | badInt (text detail : String)
  | badFloat (text : String)

def LoadCause.message : LoadCause → String
  | notMapping found => "expected a mapping, found " ++ found
  | notSequence found => "expected a sequence, found " ++ found
  | missing kind key => kind ++ " node is missing '" ++ key ++ "'"
  | notScalar key => "'" ++ key ++ "' must be a scalar"
  | notFlag key => "'" ++ key ++ "' must be true or false"
  | notInteger key => "'" ++ key ++ "' must be an integer"
  | notNames key => "'" ++ key ++ "' must list names"
  | unknownKind what kind known =>
    "unknown " ++ what ++ " kind '" ++ kind ++ "'" ++
      match Text.similarNames kind known 3 with
      | [] => ""
      | similar => ", " ++ Diagnostic.quotedNames similar
  | unknownOperator op allowed =>
    "operator '" ++ op ++ "' is not one of " ++ String.intercalate " " allowed
  | literalNotScalar => "literal value must be a scalar"
  | badBool text => "bad bool " ++ Text.quote text
  | badInt text detail => "bad int " ++ Text.quote text ++ ": " ++ detail
  | badFloat text => "bad float " ++ Text.quote text

/-- A document is no program. -/
structure LoadError where
  pos : Document.Position
  cause : LoadCause

def Document.Position.loc (file : String) (pos : Document.Position) : Location where
  file := file
  line := pos.line
  column := pos.column

def LoadError.diagnostic (file : String) (e : LoadError) : Diagnostic :=
  .input e.cause.message (e.pos.loc file)

/-- A node does not read as expected. -/
def failAt {α : Type} (n : Node) (cause : LoadCause) : Except LoadError α := .error ⟨n.pos, cause⟩

/-! ## Readings -/

/-- What the loader computes with: a value, or why there is none. -/
abbrev Load := Except LoadError

/-- A node with the readings of its parts, and what it reads as. What an alias stands for can be
much larger than the document, so nothing is read before it is asked for. -/
inductive Reading where
  | mk (node : Node) (field? : String → Option Reading) (items : List Reading)
      (expr : Unit → Load Expr) (stmt : Unit → Load Stmt)

namespace Reading

def node : Reading → Node
  | mk node .. => node

/-- The reading of the value under a key of a mapping; an alias has those of its target. -/
def field? : Reading → String → Option Reading
  | mk _ field? .. => field?

def items : Reading → List Reading
  | mk _ _ items .. => items

def expr : Reading → Load Expr
  | mk _ _ _ expr _ => expr ()

def stmt : Reading → Load Stmt
  | mk _ _ _ _ stmt => stmt ()

end Reading

/-- A mapping with the readings of its values. -/
structure Fields where
  node : Node
  /-- The value under a key; the last one counts. -/
  get? : String → Option Reading

def describe : Node → String
  | .sequence .. => "a sequence"
  | .mapping .. => "a mapping"
  | .scalar _ _ text => Text.quote text
  | .reference .. => "an empty node"

/-- The node as a mapping, through one alias. -/
def asMapping (n : Node) (field? : String → Option Reading) : Load Fields :=
  match n.resolved with
  | m@(.mapping ..) => .ok ⟨m, field?⟩
  | m => failAt m (.notMapping (describe m))

/-- A name with the sign of a variable taken off. -/
def bareName (s : String) : String := if s.startsWith "$" then (s.drop 1).toString else s

namespace Fields

def kindName (f : Fields) : String := ((f.get? "kind").map fun r => r.node.label).getD "untyped"

def need (f : Fields) (key : String) : Load Reading :=
  match f.get? key with
  | some r => .ok r
  | none => failAt f.node (.missing f.kindName key)

def str (f : Fields) (key : String) : Load String := do
  let r ← f.need key
  match r.node with
  | .scalar _ _ text => return bareName text
  | n => failAt n (.notScalar key)

/-- The name under a key, if there is one. -/
def str? (f : Fields) (key : String) : Load (Option String) :=
  match f.get? key with
  | none => .ok none
  | some _ => do
    let s ← f.str key
    return if s = "" then none else some s

/-- The truth value under a key, false if there is none. -/
def flag (f : Fields) (key : String) : Load Bool :=
  match f.get? key with
  | none => .ok false
  | some r =>
    match r.node.toBool? with
    | some b => .ok b
    | none => failAt r.node (.notFlag key)

def integer (f : Fields) (key : String) (default : Int) : Load Int :=
  match f.get? key with
  | none => .ok default
  | some r =>
    match r.node.toInt? with
    | some i => .ok i.toInt
    | none => failAt r.node (.notInteger key)

def expr (f : Fields) (key : String) : Load Expr := do (← f.need key).expr

def expr? (f : Fields) (key : String) : Load (Option Expr) :=
  match f.get? key with
  | none => .ok none
  | some r => some <$> r.expr

end Fields

/-- The items of a sequence; null is an empty one. -/
def Reading.sequence (r : Reading) : Load (List Reading) :=
  if r.node.isNullScalar then .ok []
  else
    match r.node with
    | .sequence .. => .ok r.items
    | n => failAt n (.notSequence (describe n))

namespace Fields

/-- The items under a key, none if the key is missing. -/
def sequence (f : Fields) (key : String) : Load (List Reading) :=
  match f.get? key with
  | none => .ok []
  | some r => r.sequence

def exprs (f : Fields) (key : String) : Load (List Expr) := do
  (← f.sequence key).mapM Reading.expr

def body (f : Fields) (key : String) : Load (List Stmt) := do
  (← f.sequence key).mapM Reading.stmt

def names (f : Fields) (key : String) : Load (List String) := do
  (← f.sequence key).mapM fun r =>
    match r.node with
    | .scalar _ _ text => .ok (bareName text)
    | n => failAt n (.notNames key)

/-- The operator under `op`, one of those allowed. -/
def operator {α : Type} (f : Fields) (allowed : List (String × α)) : Load α := do
  let op ← f.str "op"
  match allowed.lookup op with
  | some a => return a
  | none =>
    let r ← f.need "op"
    failAt r.node (.unknownOperator op (allowed.map (·.1)))

end Fields

/-! ## Expressions -/

def binaryOperators : List (String × BinaryOp) := BinaryOp.all.map fun op => (op.symbol, op)

def unaryOperators : List (String × UnaryOp) := UnaryOp.all.map fun op => (op.symbol, op)

/-- The operators of compound assignments, with and without the equals sign. -/
def compoundOperators : List (String × CompoundOp) :=
  CompoundOp.all.map (fun op => (op.symbol ++ "=", op)) ++ CompoundOp.all.map fun op => (op.symbol, op)

def expressionKinds : List String :=
  ["array", "assign", "binary", "call", "incdec", "index", "lit", "method", "new", "prop",
    "ternary", "unary", "var"]

def statementKinds : List String :=
  ["break", "class", "continue", "dowhile", "echo", "expr", "for", "foreach", "function", "if",
    "return", "switch", "while"]

def literalOf (n : Node) (form : Document.Form) (text : String) : Load Value :=
  match Scalar.tagOf form text with
  | "!!null" => .ok .null
  | "!!bool" =>
    match Scalar.read form text with
    | .ok s => (s.toBool?).elim (failAt n (.badBool text)) fun b => .ok (.bool b)
    | .error _ => failAt n (.badBool text)
  | "!!int" =>
    match Scalar.read form text with
    | .ok s =>
      match s.toInt? with
      | some i => .ok (.int i)
      | none =>
        let complaint := textBytes ("line " ++ toString n.pos.line ++ ": ") ++
          Scalar.misfit (Scalar.shownTag form text) text "int64"
        failAt n (.badInt text ((Scalar.complaintsMessage [complaint]).text?.getD ""))
    | .error e => failAt n (.badInt text e.message)
  | "!!float" =>
    match Scalar.read form text with
    | .ok s => (s.toFloat?).elim (failAt n (.badFloat text)) fun f => .ok (.float f)
    | .error _ => failAt n (.badFloat text)
  | _ => .ok (.ofText text)

/-- A node has a kind that does not exist. -/
def unknownKind {α : Type} (f : Fields) (what kind : String) (known : List String) : Load α := do
  let r ← f.need "kind"
  failAt r.node (.unknownKind what kind known)

/-- An item of an array: a bare expression, or a mapping without a kind that has a value and
maybe a key. -/
def arrayItem (r : Reading) : Load (Option Expr × Expr) :=
  match r.node with
  | .mapping .. =>
    let f : Fields := ⟨r.node, r.field?⟩
    if (f.get? "kind").isNone then do
      let value ← f.expr "value"
      let key ← f.expr? "key"
      return (key, value)
    else do return (none, ← r.expr)
  | _ => do return (none, ← r.expr)

def compoundExpr (loc : Location) (f : Fields) : Load Expr := do
  let kind ← f.str "kind"
  match kind with
  | "lit" =>
    let r ← f.need "value"
    match r.node with
    | .scalar _ form text => return .lit loc (← literalOf r.node form text)
    | n => failAt n .literalNotScalar
  | "var" => return .var loc (← f.str "name")
  | "binary" =>
    let op ← f.operator binaryOperators
    let left ← f.expr "left"
    return .binary loc op left (← f.expr "right")
  | "unary" =>
    let op ← f.operator unaryOperators
    return .unary loc op (← f.expr "operand")
  | "assign" =>
    let target ← f.expr "target"
    let value ← f.expr "value"
    let op ← if (f.get? "op").isSome then some <$> f.operator compoundOperators else pure none
    return .assign loc op target value
  | "incdec" =>
    let increment ← f.operator [("++", true), ("--", false)]
    let target ← f.expr "target"
    return .incDec loc increment (← f.flag "prefix") target
  | "ternary" =>
    let cond ← f.expr "cond"
    let yes ← f.expr "then"
    return .ternary loc cond yes (← f.expr "else")
  | "array" => return .array loc (← (← f.sequence "items").mapM arrayItem)
  | "index" =>
    let base ← f.expr "base"
    return .index loc base (← f.expr? "key")
  | "call" =>
    let name ← f.str "name"
    return .call loc name (← f.exprs "args")
  | "method" =>
    let object ← f.expr "object"
    let name ← f.str "name"
    return .method loc object name (← f.exprs "args")
  | "new" =>
    let name ← f.str "class"
    return .create loc name (← f.exprs "args")
  | "prop" =>
    let object ← f.expr "object"
    return .prop loc object (← f.str "name")
  | _ => unknownKind f "expression" kind expressionKinds

/-- Whether a scalar is a variable, and its name. -/
def variableName? (form : Document.Form) (text : String) : Option String :=
  if form = .plain ∧ text.startsWith "$" ∧ text.length > 1 then some (text.drop 1).toString else none

/-- What a node reads as where an expression is expected. An alias reads as its target. -/
def exprOf (file : String) (n : Node) (field? : String → Option Reading) : Load Expr :=
  let target := n.resolved
  let loc := target.pos.loc file
  match target with
  | .scalar _ form text =>
    match variableName? form text with
    | some name => .ok (.var loc name)
    | none => .lit loc <$> literalOf target form text
  | _ => do compoundExpr loc (← asMapping target field?)

/-! ## Statements -/

def functionOf (loc : Location) (f : Fields) : Load Function := do
  let name ← f.str "name"
  let params ← f.names "params"
  return ⟨loc, name, params, ← f.body "body"⟩

/-- A property: a bare name, or a mapping with a name and maybe a default. -/
def propertyOf (r : Reading) : Load PropertyDecl :=
  match r.node with
  | .scalar _ _ text => .ok ⟨bareName text, none⟩
  | n => do
    let f ← asMapping n r.field?
    let name ← f.str "name"
    return ⟨name, ← f.expr? "default"⟩

def methodOf (file : String) (r : Reading) : Load Function := do
  functionOf (r.node.pos.loc file) (← asMapping r.node r.field?)

/-- A case of a switch; a case with a true `default` has no match. -/
def caseOf (r : Reading) : Load (Option Expr × List Stmt) := do
  let f ← asMapping r.node r.field?
  let body ← f.body "body"
  if (f.get? "match").isSome then
    if ← f.flag "default" then return (none, body)
    else return (← f.expr? "match", body)
  else return (none, body)

/-- What a node reads as where a statement is expected. -/
def stmtOf (file : String) (n : Node) (field? : String → Option Reading) : Load Stmt := do
  let f ← asMapping n field?
  let loc := n.pos.loc file
  let kind ← f.str "kind"
  match kind with
  | "expr" => return .expr loc (← f.expr "expr")
  | "echo" => return .echo loc (← f.exprs "args")
  | "if" =>
    let cond ← f.expr "cond"
    let yes ← f.body "then"
    return .ifElse loc cond yes (← f.body "else")
  | "while" =>
    let cond ← f.expr "cond"
    return .whileDo loc cond (← f.body "body")
  | "dowhile" =>
    let body ← f.body "body"
    return .doWhile loc body (← f.expr "cond")
  | "for" =>
    let init ← f.exprs "init"
    let post ← f.exprs "post"
    let body ← f.body "body"
    return .forLoop loc init (← f.expr? "cond") post body
  | "foreach" =>
    let subject ← f.expr "subject"
    let key ← f.str? "key"
    let value ← f.str "value"
    return .foreach loc subject key value (← f.body "body")
  | "switch" =>
    let subject ← f.expr "subject"
    return .switch loc subject (← (← f.sequence "cases").mapM caseOf)
  | "break" => return .leave loc (← f.integer "levels" 1)
  | "continue" => return .next loc (← f.integer "levels" 1)
  | "return" => return .ret loc (← f.expr? "value")
  | "function" => return .function (← functionOf loc f)
  | "class" =>
    let name ← f.str "name"
    let properties ← (← f.sequence "properties").mapM propertyOf
    return .classDecl loc name properties (← (← f.sequence "methods").mapM (methodOf file))
  | _ =>
    if kind ∈ expressionKinds then return .expr loc (← exprOf file n field?)
    else unknownKind f "statement" kind (statementKinds ++ expressionKinds)

/-! ## Programs -/

/-- A node with the readings of its parts, completed by its own. -/
def Reading.complete (file : String) (n : Node) (field? : String → Option Reading)
    (items : List Reading) : Reading :=
  .mk n field? items (fun _ => exprOf file n field?) (fun _ => stmtOf file n field?)

namespace Reading

mutual

def ofNode (file : String) : Node → Reading
  | .scalar pos form text => .complete file (.scalar pos form text) (fun _ => none) []
  | .sequence pos tag items =>
    .complete file (.sequence pos tag items) (fun _ => none) (ofNodes file items)
  | .mapping pos tag entries =>
    .complete file (.mapping pos tag entries) (fun key => ofValue file entries key) []
  | .reference pos name target =>
    .complete file (.reference pos name target) (fun key => (ofNode file target).field? key) []

def ofNodes (file : String) : List Node → List Reading
  | [] => []
  | n :: rest => ofNode file n :: ofNodes file rest

/-- The reading of the value under a key of a mapping; the last one counts. -/
def ofValue (file : String) : List (Node × Node) → String → Option Reading
  | [], _ => none
  | (k, v) :: rest, key =>
    match ofValue file rest key with
    | some r => some r
    | none => if k.label = key then some (ofNode file v) else none

end

end Reading

/-- The program in a document, or the diagnostic that says why there is none. -/
def Program.ofNode (file : String) (root : Node) : Except Diagnostic Program :=
  match (do (← (Reading.ofNode file root).sequence).mapM Reading.stmt) with
  | .ok p => .ok p
  | .error e => .error (LoadError.diagnostic file e)

end HeapScript
