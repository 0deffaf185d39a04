import HeapScript.Analysis.Storage

/-!
# Counted loops

A `for` loop can be unrolled if it counts an integer variable from a literal by constant steps
up to a literal or another integer variable, and its body is small, does not leave the loop and
writes neither of the two.
-/

namespace HeapScript

/-- The shape of a counted loop: the counter and the variable it is compared with. -/
structure CountedLoop where
  counter : String
  bound : Option String
  deriving DecidableEq, Repr

namespace CountedLoop

/-- Bodies with more statements, at any depth, are not worth repeating. -/
def maxStatements : Nat := 8

/-- The counter and bound that the start and condition of a loop show. -/
def ofHeader? (init : List Expr) (cond : Option Expr) : Option CountedLoop :=
  match init, cond with
  | [.assign _ none (.var _ counter) (.lit _ (.int _))],
    some (.binary _ (.order _) (.var _ left) right) =>
    if left = counter then
      match right with
      | .lit _ (.int _) => some ⟨counter, none⟩
      | .var _ bound => if bound = counter then none else some ⟨counter, some bound⟩
      | _ => none
    else none
  | _, _ => none

def isStep (counter : String) : Expr → Bool
  | .incDec _ _ _ (.var _ name) => name == counter
  | .assign _ (some (.arith .add)) (.var _ name) (.lit _ (.int _)) => name == counter
  | .assign _ (some (.arith .sub)) (.var _ name) (.lit _ (.int _)) => name == counter
  | _ => false

/-- Whether the loop must not change a variable. -/
def watches (l : CountedLoop) (name : String) : Bool :=
  name == l.counter || l.bound == some name

/-- Whether a write to an expression changes a watched variable. -/
def writes (l : CountedLoop) : Expr → Bool
  | .var _ name => l.watches name
  | _ => false

mutual

def keeps (l : CountedLoop) : Expr → Bool
  | .lit .. | .var .. => true
  | .assign _ _ target value => !l.writes target && keeps l target && keeps l value
  | .incDec _ _ _ target => !l.writes target && keeps l target
  | .binary _ _ a b => keeps l a && keeps l b
  | .unary _ _ e => keeps l e
  | .ternary _ c t e => keeps l c && keeps l t && keeps l e
  | .array _ items => keepsItems l items
  | .index _ base none => keeps l base
  | .index _ base (some key) => keeps l base && keeps l key
  | .call _ _ args => keepsAll l args
  | .method _ object _ args => keeps l object && keepsAll l args
  | .create _ _ args => keepsAll l args
  | .prop _ object _ => keeps l object

def keepsAll (l : CountedLoop) : List Expr → Bool
  | [] => true
  | e :: rest => keeps l e && keepsAll l rest

def keepsItems (l : CountedLoop) : List (Option Expr × Expr) → Bool
  | [] => true
  | (none, v) :: rest => keeps l v && keepsItems l rest
  | (some k, v) :: rest => keeps l k && keeps l v && keepsItems l rest

end

/-- Whether an expression that may be missing leaves the watched variables alone. -/
def keepsOption (l : CountedLoop) : Option Expr → Bool
  | none => true
  | some e => keeps l e

mutual

def repeatable (l : CountedLoop) : Stmt → Bool
  | .leave .. | .next .. | .function .. | .classDecl .. => false
  | .expr _ e => keeps l e
  | .echo _ args => keepsAll l args
  | .ifElse _ c t e => keeps l c && allRepeatable l t && allRepeatable l e
  | .whileDo _ c body => keeps l c && allRepeatable l body
  | .doWhile _ body c => allRepeatable l body && keeps l c
  | .forLoop _ init c post body =>
    keepsAll l init && keepsOption l c && keepsAll l post && allRepeatable l body
  | .foreach _ subject key value body =>
    keeps l subject && !l.watches (key.getD "") && !l.watches value && allRepeatable l body
  | .switch _ subject cases => keeps l subject && casesRepeatable l cases
  | .ret _ v => keepsOption l v

def allRepeatable (l : CountedLoop) : List Stmt → Bool
  | [] => true
  | s :: rest => repeatable l s && allRepeatable l rest

def casesRepeatable (l : CountedLoop) : List (Option Expr × List Stmt) → Bool
  | [] => true
  | (m, body) :: rest => keepsOption l m && allRepeatable l body && casesRepeatable l rest

end

mutual

def size : Stmt → Nat
  | .ifElse _ _ t e => sizes t + sizes e + 1
  | .whileDo _ _ body | .doWhile _ body _ | .forLoop _ _ _ _ body | .foreach _ _ _ _ body =>
    sizes body + 1
  | .switch _ _ cases => caseSizes cases + 1
  | _ => 1

def sizes : List Stmt → Nat
  | [] => 0
  | s :: rest => size s + sizes rest

def caseSizes : List (Option Expr × List Stmt) → Nat
  | [] => 0
  | (_, body) :: rest => sizes body + caseSizes rest

end

/-- Whether the step and the body of a loop allow unrolling. -/
def fits (l : CountedLoop) (post : List Expr) (body : List Stmt) : Bool :=
  (match post with
    | [step] => isStep l.counter step
    | _ => false) &&
  allRepeatable l body && sizes body ≤ maxStatements

def unrollable? (storage : String → Storage) (init : List Expr) (cond : Option Expr)
    (post : List Expr) (body : List Stmt) : Option String := do
  let l ← ofHeader? init cond
  if storage l.counter = .int ∧ (l.bound.all fun b => storage b = .int) ∧ l.fits post body then
    some l.counter
  else none

end CountedLoop

end HeapScript
