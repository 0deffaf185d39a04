import Mathlib
import HeapScript.Tree.Load

/-!
# Programs without places

Two documents may hold the same program at different places. This module forgets the places and
compares what two documents read as.
-/

namespace HeapScript

/-! ## Forgetting places -/

namespace Expr

mutual

/-- An expression without its places. -/
def unplaced : Expr → Expr
  | lit _ v => .lit {} v
  | var _ name => .var {} name
  | binary _ op l r => .binary {} op l.unplaced r.unplaced
  | unary _ op e => .unary {} op e.unplaced
  | assign _ op target value => .assign {} op target.unplaced value.unplaced
  | incDec _ increment before target => .incDec {} increment before target.unplaced
  | ternary _ cond yes no => .ternary {} cond.unplaced yes.unplaced no.unplaced
  | array _ items => .array {} (unplacedItems items)
  | index _ base key => .index {} base.unplaced (unplacedOption key)
  | call _ name args => .call {} name (unplacedAll args)
  | method _ object name args => .method {} object.unplaced name (unplacedAll args)
  | create _ name args => .create {} name (unplacedAll args)
  | prop _ object name => .prop {} object.unplaced name

/-- Expressions without their places. -/
def unplacedAll : List Expr → List Expr
  | [] => []
  | e :: rest => e.unplaced :: unplacedAll rest

def unplacedOption : Option Expr → Option Expr
  | none => none
  | some e => some e.unplaced

/-- The items of an array without their places. -/
def unplacedItems : List (Option Expr × Expr) → List (Option Expr × Expr)
  | [] => []
  | (key, value) :: rest => (unplacedOption key, value.unplaced) :: unplacedItems rest

end

end Expr

/-- A property without the places in its default. -/
def PropertyDecl.unplaced (d : PropertyDecl) : PropertyDecl :=
  ⟨d.name, Expr.unplacedOption d.default⟩

namespace Stmt

mutual

/-- A statement without its places. -/
def unplaced : Stmt → Stmt
  | expr _ e => .expr {} e.unplaced
  | echo _ args => .echo {} (Expr.unplacedAll args)
  | ifElse _ cond yes no => .ifElse {} cond.unplaced (unplacedAll yes) (unplacedAll no)
  | whileDo _ cond body => .whileDo {} cond.unplaced (unplacedAll body)
  | doWhile _ body cond => .doWhile {} (unplacedAll body) cond.unplaced
  | forLoop _ init cond post body =>
    .forLoop {} (Expr.unplacedAll init) (Expr.unplacedOption cond) (Expr.unplacedAll post)
      (unplacedAll body)
  | foreach _ subject key value body => .foreach {} subject.unplaced key value (unplacedAll body)
  | switch _ subject cases => .switch {} subject.unplaced (unplacedCases cases)
  | leave _ levels => .leave {} levels
  | next _ levels => .next {} levels
  | ret _ value => .ret {} (Expr.unplacedOption value)
  | function ⟨_, name, params, body⟩ => .function ⟨{}, name, params, unplacedAll body⟩
  | classDecl _ name properties methods =>
    .classDecl {} name (properties.map PropertyDecl.unplaced) (unplacedMethods methods)

/-- Statements without their places. -/
def unplacedAll : List Stmt → List Stmt
  | [] => []
  | s :: rest => s.unplaced :: unplacedAll rest

/-- The cases of a switch without their places. -/
def unplacedCases : List (Option Expr × List Stmt) → List (Option Expr × List Stmt)
  | [] => []
  | (test, body) :: rest => (Expr.unplacedOption test, unplacedAll body) :: unplacedCases rest

/-- The methods of a class without their places. -/
def unplacedMethods : List (FunctionDecl Stmt) → List (FunctionDecl Stmt)
  | [] => []
  | ⟨_, name, params, body⟩ :: rest =>
    ⟨{}, name, params, unplacedAll body⟩ :: unplacedMethods rest

end

end Stmt

/-- A function without its places. -/
def FunctionDecl.unplaced (d : Function) : Function := ⟨{}, d.name, d.params, Stmt.unplacedAll d.body⟩

/-! ## The same up to places -/

/-- Expressions that differ in their places only. -/
def SameExpr (a b : Expr) : Prop := a.unplaced = b.unplaced

/-- Statements that differ in their places only. -/
def SameStmt (a b : Stmt) : Prop := a.unplaced = b.unplaced

/-- Items of arrays that differ in their places only. -/
def SameItem (a b : Option Expr × Expr) : Prop :=
  Expr.unplacedOption a.1 = Expr.unplacedOption b.1 ∧ SameExpr a.2 b.2

/-- Cases of switches that differ in their places only. -/
def SameCase (a b : Option Expr × List Stmt) : Prop :=
  Expr.unplacedOption a.1 = Expr.unplacedOption b.1 ∧ Stmt.unplacedAll a.2 = Stmt.unplacedAll b.2

/-- Properties that differ in their places only. -/
def SameProperty (a b : PropertyDecl) : Prop := a.unplaced = b.unplaced

/-- Functions that differ in their places only. -/
def SameFunction (a b : Function) : Prop := FunctionDecl.unplaced a = FunctionDecl.unplaced b

theorem SameExpr.eq {a b : Expr} (h : SameExpr a b) : a.unplaced = b.unplaced := h

section Lists

theorem sameExprs {xs ys : List Expr} (h : List.Forall₂ SameExpr xs ys) :
    Expr.unplacedAll xs = Expr.unplacedAll ys := by
  induction h with
  | nil => rfl
  | cons hxy _ ih => rw [Expr.unplacedAll, Expr.unplacedAll, ih, hxy]

theorem sameStmts {xs ys : List Stmt} (h : List.Forall₂ SameStmt xs ys) :
    Stmt.unplacedAll xs = Stmt.unplacedAll ys := by
  induction h with
  | nil => rfl
  | cons hxy _ ih => rw [Stmt.unplacedAll, Stmt.unplacedAll, ih, hxy]

theorem sameItems {xs ys : List (Option Expr × Expr)} (h : List.Forall₂ SameItem xs ys) :
    Expr.unplacedItems xs = Expr.unplacedItems ys := by
  induction h with
  | nil => rfl
  | cons hxy _ ih => rw [Expr.unplacedItems, Expr.unplacedItems, ih, hxy.1, hxy.2]

theorem sameCases {xs ys : List (Option Expr × List Stmt)} (h : List.Forall₂ SameCase xs ys) :
    Stmt.unplacedCases xs = Stmt.unplacedCases ys := by
  induction h with
  | nil => rfl
  | cons hxy _ ih => rw [Stmt.unplacedCases, Stmt.unplacedCases, ih, hxy.1, hxy.2]

theorem sameProperties {xs ys : List PropertyDecl} (h : List.Forall₂ SameProperty xs ys) :
    xs.map PropertyDecl.unplaced = ys.map PropertyDecl.unplaced := by
  induction h with
  | nil => rfl
  | cons hxy _ ih => rw [List.map_cons, List.map_cons, ih, hxy]

theorem Stmt.unplacedMethods_eq (ms : List Function) :
    Stmt.unplacedMethods ms = ms.map FunctionDecl.unplaced := by
  induction ms with
  | nil => rfl
  | cons m ms ih => rw [Stmt.unplacedMethods, ih, List.map_cons, FunctionDecl.unplaced]

theorem sameMethods {xs ys : List Function} (h : List.Forall₂ SameFunction xs ys) :
    Stmt.unplacedMethods xs = Stmt.unplacedMethods ys := by
  rw [Stmt.unplacedMethods_eq, Stmt.unplacedMethods_eq]
  induction h with
  | nil => rfl
  | cons hxy _ ih => rw [List.map_cons, List.map_cons, ih, hxy]

theorem Stmt.unplacedAll_eq (p : List Stmt) : Stmt.unplacedAll p = p.map Stmt.unplaced := by
  induction p with
  | nil => rfl
  | cons s p ih => rw [Stmt.unplacedAll, ih, List.map_cons]

end Lists

/-! ## Two readings -/

/-- Two readings fail both, or succeed with results in a relation. -/
def Both {α β : Type} (R : α → β → Prop) : Load α → Load β → Prop
  | .ok a, .ok b => R a b
  | .error _, .error _ => True
  | _, _ => False

section Both

variable {α β γ δ : Type} {R : α → β → Prop} {S : γ → δ → Prop}

theorem both_pure {a : α} {b : β} (h : R a b) : Both R (pure a) (pure b) := h

theorem both_fail (n n' : Document.Node) (c c' : LoadCause) : Both R (failAt n c) (failAt n' c') :=
  trivial

theorem both_bind_ok {x : Load α} {y : Load β} {f : α → Load γ} {g : β → Load δ} (h : Both R x y)
    (hf : ∀ a b, x = .ok a → y = .ok b → R a b → Both S (f a) (g b)) :
    Both S (x >>= f) (y >>= g) := by
  cases x with
  | error e =>
    cases y with
    | error e' => trivial
    | ok b => exact h.elim
  | ok a =>
    cases y with
    | error e => exact h.elim
    | ok b => exact hf a b rfl rfl h

theorem both_bind {x : Load α} {y : Load β} {f : α → Load γ} {g : β → Load δ} (h : Both R x y)
    (hf : ∀ a b, R a b → Both S (f a) (g b)) : Both S (x >>= f) (y >>= g) :=
  both_bind_ok h fun a b _ _ => hf a b

theorem both_map {x : Load α} {y : Load β} {f : α → γ} {g : β → δ} (h : Both R x y)
    (hf : ∀ a b, R a b → S (f a) (g b)) : Both S (f <$> x) (g <$> y) := by
  cases x with
  | error e =>
    cases y with
    | error e' => trivial
    | ok b => exact h.elim
  | ok a =>
    cases y with
    | error e => exact h.elim
    | ok b => exact hf a b h

theorem both_mapM {f : α → Load γ} {g : β → Load δ} {xs : List α} {ys : List β}
    (h : List.Forall₂ R xs ys) (hf : ∀ a b, R a b → Both S (f a) (g b)) :
    Both (List.Forall₂ S) (xs.mapM f) (ys.mapM g) := by
  induction h with
  | nil => exact .nil
  | cons hxy _ ih =>
    rw [List.mapM_cons, List.mapM_cons]
    exact both_bind (hf _ _ hxy) fun a b hab => both_bind ih fun as bs has =>
      both_pure (.cons hab has)

theorem both_refl {R : α → α → Prop} (hr : ∀ a, R a a) (x : Load α) : Both R x x := by
  cases x with
  | error e => trivial
  | ok a => exact hr a

theorem Both.symm {R : α → α → Prop} (hr : ∀ a b, R a b → R b a) {x y : Load α}
    (h : Both R x y) : Both R y x := by
  cases x <;> cases y <;> first | exact hr _ _ h | exact h

theorem Both.trans {R : α → α → Prop} (hr : ∀ a b c, R a b → R b c → R a c) {x y z : Load α}
    (h : Both R x y) (h' : Both R y z) : Both R x z := by
  cases x <;> cases y <;> cases z <;> first | exact hr _ _ _ h h' | exact h | exact h' | exact h.elim

end Both

end HeapScript
