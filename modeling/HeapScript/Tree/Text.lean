import HeapScript.Tree.Basic

/-!
# Texts of syntax trees

The short source-like text of every node, as listings of a tree show it. The bodies of compound
statements are only counted.
-/

namespace HeapScript

namespace Expr

def stepSign (increment : Bool) : String := if increment then "++" else "--"

mutual

def text : Expr → String
  | lit _ v => v.text
  | var _ name => "$" ++ name
  | binary _ op l r => "(" ++ l.text ++ " " ++ op.symbol ++ " " ++ r.text ++ ")"
  | unary _ op e => op.symbol ++ e.text
  | assign _ op target value =>
    target.text ++ " " ++ (op.map CompoundOp.symbol).getD "" ++ "= " ++ value.text
  | incDec _ increment before target =>
    if before then stepSign increment ++ target.text else target.text ++ stepSign increment
  | ternary _ c t e => "(" ++ c.text ++ " ? " ++ t.text ++ " : " ++ e.text ++ ")"
  | array _ items => "[" ++ String.intercalate ", " (itemTexts items) ++ "]"
  | index _ base none => base.text ++ "[]"
  | index _ base (some key) => base.text ++ "[" ++ key.text ++ "]"
  | call _ name args => name ++ "(" ++ String.intercalate ", " (texts args) ++ ")"
  | method _ object name args =>
    object.text ++ "->" ++ name ++ "(" ++ String.intercalate ", " (texts args) ++ ")"
  | create _ className args => "new " ++ className ++ "(" ++ String.intercalate ", " (texts args) ++ ")"
  | prop _ object name => object.text ++ "->" ++ name

def texts : List Expr → List String
  | [] => []
  | e :: rest => e.text :: texts rest

def itemTexts : List (Option Expr × Expr) → List String
  | [] => []
  | (none, v) :: rest => v.text :: itemTexts rest
  | (some k, v) :: rest => (k.text ++ " => " ++ v.text) :: itemTexts rest

end

def joined (es : List Expr) : String := String.intercalate ", " (texts es)

end Expr

/-- A body, of which only the number of statements is shown. -/
def bodyText {σ : Type} (body : List σ) : String :=
  "\x7b " ++ toString body.length ++ " stmts \x7d"

namespace Stmt

def text : Stmt → String
  | expr _ e => e.text ++ ";"
  | echo _ args => "echo " ++ Expr.joined args ++ ";"
  | ifElse _ c t e =>
    "if (" ++ c.text ++ ") " ++ bodyText t ++ if e.isEmpty then "" else " else " ++ bodyText e
  | whileDo _ c body => "while (" ++ c.text ++ ") " ++ bodyText body
  | doWhile _ body c => "do " ++ bodyText body ++ " while (" ++ c.text ++ ")"
  | forLoop _ init c post body =>
    "for (" ++ Expr.joined init ++ "; " ++ (c.map Expr.text).getD "" ++ "; " ++ Expr.joined post ++
      ") " ++ bodyText body
  | foreach _ subject key value body =>
    let keyText := (key.map fun k => "$" ++ k ++ " => ").getD ""
    "foreach (" ++ subject.text ++ " as " ++ keyText ++ "$" ++ value ++ ") " ++ bodyText body
  | switch _ subject cases =>
    "switch (" ++ subject.text ++ ") \x7b " ++ toString cases.length ++ " cases \x7d"
  | leave _ levels => "break " ++ toString levels ++ ";"
  | next _ levels => "continue " ++ toString levels ++ ";"
  | ret _ none => "return;"
  | ret _ (some v) => "return " ++ v.text ++ ";"
  | function d => "function " ++ d.name ++ "($" ++ String.intercalate ", $" d.params ++ ")"
  | classDecl _ name properties methods =>
    "class " ++ name ++ " \x7b " ++ toString properties.length ++ " properties, " ++
      toString methods.length ++ " methods \x7d"

end Stmt

def Program.text (p : Program) : String := String.join (p.map fun s => s.text ++ "\n")

end HeapScript
