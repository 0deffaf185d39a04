import HeapScript.Tree.Text

/-!
# Outlines

An outline lists every node of a program in pre-order, one line each: depth, kind of node, place
and text. Lines with a single word separate the parts of a statement.
-/

namespace HeapScript

def nodeLine (depth : Nat) (kind : String) (loc : Location) (text : String) : String :=
  toString depth ++ " " ++ kind ++ " " ++ toString loc.line ++ ":" ++ toString loc.column ++ " " ++
    text

def partLine (depth : Nat) (word : String) : String := toString depth ++ " " ++ word

namespace Expr

def kindName : Expr → String
  | lit .. => "LiteralExpr"
  | var .. => "VarExpr"
  | binary .. => "BinaryExpr"
  | unary .. => "UnaryExpr"
  | assign .. => "AssignExpr"
  | incDec .. => "IncDecExpr"
  | ternary .. => "TernaryExpr"
  | array .. => "ArrayExpr"
  | index .. => "IndexExpr"
  | call .. => "CallExpr"
  | method .. => "MethodCallExpr"
  | create .. => "NewExpr"
  | prop .. => "PropertyExpr"

def headLine (d : Nat) (e : Expr) : String := nodeLine d e.kindName e.loc e.text

mutual

def outline (d : Nat) : Expr → List String
  | e@(lit ..) => [e.headLine d]
  | e@(var ..) => [e.headLine d]
  | e@(binary _ _ l r) => e.headLine d :: (l.outline (d + 1) ++ r.outline (d + 1))
  | e@(unary _ _ operand) => e.headLine d :: operand.outline (d + 1)
  | e@(assign _ _ target value) => e.headLine d :: (target.outline (d + 1) ++ value.outline (d + 1))
  | e@(incDec _ _ _ target) => e.headLine d :: target.outline (d + 1)
  | e@(ternary _ c t f) =>
    e.headLine d :: (c.outline (d + 1) ++ t.outline (d + 1) ++ f.outline (d + 1))
  | e@(array _ items) => e.headLine d :: itemsOutline (d + 1) items
  | e@(index _ base none) => e.headLine d :: base.outline (d + 1)
  | e@(index _ base (some key)) => e.headLine d :: (base.outline (d + 1) ++ key.outline (d + 1))
  | e@(call _ _ args) => e.headLine d :: listOutline (d + 1) args
  | e@(method _ object _ args) => e.headLine d :: (object.outline (d + 1) ++ listOutline (d + 1) args)
  | e@(create _ _ args) => e.headLine d :: listOutline (d + 1) args
  | e@(prop _ object _) => e.headLine d :: object.outline (d + 1)

def listOutline (d : Nat) : List Expr → List String
  | [] => []
  | e :: rest => e.outline d ++ listOutline d rest

def itemsOutline (d : Nat) : List (Option Expr × Expr) → List String
  | [] => []
  | (none, v) :: rest => v.outline d ++ itemsOutline d rest
  | (some k, v) :: rest => k.outline d ++ v.outline d ++ itemsOutline d rest

end

def optionOutline (d : Nat) : Option Expr → List String
  | none => []
  | some e => e.outline d

end Expr

namespace Stmt

def kindName : Stmt → String
  | expr .. => "ExpressionStmt"
  | echo .. => "EchoStmt"
  | ifElse .. => "IfStmt"
  | whileDo .. => "WhileStmt"
  | doWhile .. => "DoWhileStmt"
  | forLoop .. => "ForStmt"
  | foreach .. => "ForeachStmt"
  | switch .. => "SwitchStmt"
  | leave .. => "BreakStmt"
  | next .. => "ContinueStmt"
  | ret .. => "ReturnStmt"
  | function .. => "FunctionDecl"
  | classDecl .. => "ClassDecl"

def headLine (d : Nat) (s : Stmt) : String := nodeLine d s.kindName s.loc s.text

def propertyLines (d : Nat) (properties : List PropertyDecl) : List String :=
  properties.flatMap fun p => partLine d ("property " ++ p.name) :: Expr.optionOutline d p.default

mutual

def outline (d : Nat) : Stmt → List String
  | s@(expr _ e) => s.headLine d :: e.outline (d + 1)
  | s@(echo _ args) => s.headLine d :: Expr.listOutline (d + 1) args
  | s@(ifElse _ c t e) =>
    s.headLine d :: (c.outline (d + 1) ++ [partLine (d + 1) "then"] ++ bodyOutline (d + 1) t ++
      [partLine (d + 1) "else"] ++ bodyOutline (d + 1) e)
  | s@(whileDo _ c body) => s.headLine d :: (c.outline (d + 1) ++ bodyOutline (d + 1) body)
  | s@(doWhile _ body c) => s.headLine d :: (bodyOutline (d + 1) body ++ c.outline (d + 1))
  | s@(forLoop _ init c post body) =>
    s.headLine d :: ([partLine (d + 1) "init"] ++ Expr.listOutline (d + 1) init ++
      [partLine (d + 1) "cond"] ++ Expr.optionOutline (d + 1) c ++
      [partLine (d + 1) "post"] ++ Expr.listOutline (d + 1) post ++
      [partLine (d + 1) "body"] ++ bodyOutline (d + 1) body)
  | s@(foreach _ subject _ _ body) =>
    s.headLine d :: (subject.outline (d + 1) ++ bodyOutline (d + 1) body)
  | s@(switch _ subject cases) =>
    s.headLine d :: (subject.outline (d + 1) ++ casesOutline (d + 1) cases)
  | s@(leave ..) => [s.headLine d]
  | s@(next ..) => [s.headLine d]
  | s@(ret _ v) => s.headLine d :: Expr.optionOutline (d + 1) v
  | s@(function ⟨_, _, _, body⟩) => s.headLine d :: bodyOutline (d + 1) body
  | s@(classDecl _ _ properties methods) =>
    s.headLine d :: (propertyLines (d + 1) properties ++ methodsOutline (d + 1) methods)

def bodyOutline (d : Nat) : List Stmt → List String
  | [] => []
  | s :: rest => s.outline d ++ bodyOutline d rest

def casesOutline (d : Nat) : List (Option Expr × List Stmt) → List String
  | [] => []
  | (none, body) :: rest => partLine d "default" :: (bodyOutline d body ++ casesOutline d rest)
  | (some m, body) :: rest =>
    partLine d "case" :: (m.outline d ++ bodyOutline d body ++ casesOutline d rest)

def methodsOutline (d : Nat) : List (FunctionDecl Stmt) → List String
  | [] => []
  | ⟨loc, name, params, body⟩ :: rest =>
    headLine d (function ⟨loc, name, params, body⟩) ::
      (bodyOutline (d + 1) body ++ methodsOutline d rest)

end

end Stmt

def Program.outline (p : Program) : List String := Stmt.bodyOutline 0 p

end HeapScript
