import HeapScript.Proofs.Tree.Unplaced

/-!
# Aliases in documents

An alias that stands for a statement, an expression, a method, a case, a truth value or a number of
levels reads as the node it stands for; so does one for an item of an array or a property, unless the
target is a pair without a kind or a bare name. Names, operators, kinds, literal values and sequences
are looked at without following an alias.
-/

namespace HeapScript

open Document (Node)

/-! ## Roles -/

/-- What a node is read as. -/
inductive Role where
  | stmt | expr | item | property | method | case
  /-- A truth value or a number. -/
  | decoded
  /-- A name, an operator, a kind, a literal value or a list of names. -/
  | fixed
  /-- Something that nothing looks at. -/
  | unread
  | list (items : Role)

namespace Role

/-- What the value under a key of an expression is read as. -/
def ofExpr (kind key : String) : Role :=
  match kind, key with
  | _, "kind" => fixed
  | "lit", "value" | "var", "name" => fixed
  | "binary", "op" | "unary", "op" | "assign", "op" | "incdec", "op" => fixed
  | "binary", "left" | "binary", "right" | "unary", "operand" => expr
  | "assign", "target" | "assign", "value" | "incdec", "target" => expr
  | "incdec", "prefix" => decoded
  | "ternary", "cond" | "ternary", "then" | "ternary", "else" => expr
  | "array", "items" => list item
  | "index", "base" | "index", "key" => expr
  | "call", "name" | "method", "name" | "new", "class" | "prop", "name" => fixed
  | "call", "args" | "method", "args" | "new", "args" => list expr
  | "method", "object" | "prop", "object" => expr
  | _, _ => unread

/-- What the value under a key of a function or method is read as. -/
def ofFunction (key : String) : Role :=
  match key with
  | "name" | "params" => fixed
  | "body" => list stmt
  | _ => unread

/-- What the value under a key of a statement is read as. -/
def ofStmt (kind key : String) : Role :=
  match kind, key with
  | _, "kind" => fixed
  | "expr", "expr" => expr
  | "echo", "args" => list expr
  | "if", "cond" => expr
  | "if", "then" | "if", "else" => list stmt
  | "while", "cond" | "dowhile", "cond" => expr
  | "while", "body" | "dowhile", "body" => list stmt
  | "for", "init" | "for", "post" => list expr
  | "for", "cond" => expr
  | "for", "body" => list stmt
  | "foreach", "subject" => expr
  | "foreach", "key" | "foreach", "value" => fixed
  | "foreach", "body" => list stmt
  | "switch", "subject" => expr
  | "switch", "cases" => list case
  | "break", "levels" | "continue", "levels" => decoded
  | "return", "value" => expr
  | "function", key => ofFunction key
  | "class", "name" => fixed
  | "class", "properties" => list property
  | "class", "methods" => list method
  | kind, key => ofExpr kind key

/-- What the value under a key of a mapping is read as, given the kind of the mapping. -/
def part (r : Role) (kind : Option String) (key : String) : Role :=
  match r, kind with
  | stmt, some kind => ofStmt kind key
  | expr, some kind | item, some kind => ofExpr kind key
  | stmt, none | expr, none => if key = "kind" then fixed else unread
  | item, none =>
    match key with
    | "value" | "key" => expr
    | "kind" => fixed
    | _ => unread
  | property, _ =>
    match key with
    | "name" => fixed
    | "default" => expr
    | _ => unread
  | method, _ => ofFunction key
  | case, _ =>
    match key with
    | "body" => list stmt
    | "match" => expr
    | "default" => decoded
    | _ => unread
  | unread, _ => unread
  | decoded, _ | fixed, _ | list _, _ => fixed

end Role

/-- The value under a key of a mapping; the last one counts. -/
def valueUnder : List (Node × Node) → String → Option Node
  | [], _ => none
  | (k, v) :: rest, key =>
    match valueUnder rest key with
    | some n => some n
    | none => if k.label = key then some v else none

def kindUnder (entries : List (Node × Node)) : Option String :=
  match valueUnder entries "kind" with
  | some (.scalar _ _ text) => some (bareName text)
  | _ => none

/-- Whether an alias for a node is followed where something is read in a role. -/
def Role.follows : Role → Node → Bool
  | stmt, target | expr, target | method, target | case, target =>
    match target with
    | .reference .. => false
    | _ => true
  | item, target =>
    match target with
    | .reference .. => false
    | .mapping _ _ entries => (valueUnder entries "kind").isSome
    | _ => true
  | property, target => target.isMapping
  | decoded, _ | unread, _ => true
  | fixed, _ | list _, _ => false

/-- One alias of a node that is read in a role is replaced by its target, at a place where aliases
are followed. -/
inductive Opens : Role → Node → Node → Prop where
  | here {r : Role} {pos : Document.Position} {name : String} {target : Node}
      (h : r.follows target = true) : Opens r (.reference pos name target) target
  | behind {r : Role} {pos : Document.Position} {name : String} {target target' : Node}
      (h : r.follows target = true) (h' : r.follows target' = true) (ho : Opens r target target') :
      Opens r (.reference pos name target) (.reference pos name target')
  | item {r : Role} {pos : Document.Position} {tag : String} (before after : List Node) {n n' : Node}
      (ho : Opens r n n') : Opens (.list r) (.sequence pos tag (before ++ n :: after))
        (.sequence pos tag (before ++ n' :: after))
  | value {r : Role} {pos : Document.Position} {tag : String} (before after : List (Node × Node))
      {key n n' : Node}
      (ho : Opens (r.part (kindUnder (before ++ (key, n) :: after)) key.label) n n') :
      Opens r (.mapping pos tag (before ++ (key, n) :: after))
        (.mapping pos tag (before ++ (key, n') :: after))
  | unread (n n' : Node) : Opens .unread n n'

/-! ## Alike readings -/

def Role.Alike (file : String) : Role → Reading → Reading → Prop
  | stmt, x, y => Both SameStmt x.stmt y.stmt
  | expr, x, y => Both SameExpr x.expr y.expr
  | item, x, y => Both SameItem (arrayItem x) (arrayItem y)
  | property, x, y => Both SameProperty (propertyOf x) (propertyOf y)
  | method, x, y => Both SameFunction (methodOf file x) (methodOf file y)
  | case, x, y => Both SameCase (caseOf x) (caseOf y)
  | decoded, x, y => x.node.toBool? = y.node.toBool? ∧ x.node.toInt? = y.node.toInt?
  | fixed, x, y => x = y
  | unread, _, _ => True
  | list r, x, y => Both (List.Forall₂ (r.Alike file)) x.sequence y.sequence

def Role.AlikeIfAny (file : String) (r : Role) : Option Reading → Option Reading → Prop
  | some x, some y => r.Alike file x y
  | none, none => True
  | _, _ => False

section Equivalence

variable {file : String}

theorem Role.alike_refl (r : Role) (x : Reading) : r.Alike file x x := by
  induction r generalizing x with
  | stmt => exact both_refl (R := SameStmt) (fun _ => rfl) _
  | expr => exact both_refl (R := SameExpr) (fun _ => rfl) _
  | property => exact both_refl (R := SameProperty) (fun _ => rfl) _
  | method => exact both_refl (R := SameFunction) (fun _ => rfl) _
  | item => exact both_refl (R := SameItem) (fun _ => ⟨rfl, rfl⟩) _
  | case => exact both_refl (R := SameCase) (fun _ => ⟨rfl, rfl⟩) _
  | decoded => exact ⟨rfl, rfl⟩
  | fixed => rfl
  | unread => trivial
  | list r ih => exact both_refl (fun xs => List.forall₂_same.2 fun x _ => ih x) _

theorem Role.alikeIfAny_refl (r : Role) (x : Option Reading) : r.AlikeIfAny file x x := by
  cases x with
  | none => trivial
  | some x => exact r.alike_refl x

theorem Role.Alike.symm {r : Role} {x y : Reading} (h : r.Alike file x y) : r.Alike file y x := by
  induction r generalizing x y with
  | stmt | expr | property | method => exact Both.symm (fun _ _ => Eq.symm) h
  | item | case => exact Both.symm (fun _ _ h => ⟨h.1.symm, h.2.symm⟩) h
  | decoded => exact ⟨h.1.symm, h.2.symm⟩
  | fixed => exact Eq.symm h
  | unread => trivial
  | list r ih => exact Both.symm (fun _ _ hxy => (hxy.imp fun _ _ h => ih h).flip) h

theorem Role.Alike.trans {r : Role} {x y z : Reading} (h : r.Alike file x y)
    (h' : r.Alike file y z) : r.Alike file x z := by
  induction r generalizing x y z with
  | stmt => exact Both.trans (R := SameStmt) (fun _ _ _ => Eq.trans) h h'
  | expr => exact Both.trans (R := SameExpr) (fun _ _ _ => Eq.trans) h h'
  | property => exact Both.trans (R := SameProperty) (fun _ _ _ => Eq.trans) h h'
  | method => exact Both.trans (R := SameFunction) (fun _ _ _ => Eq.trans) h h'
  | item =>
    exact Both.trans (R := SameItem) (fun _ _ _ h h' => ⟨h.1.trans h'.1, h.2.trans h'.2⟩) h h'
  | case =>
    exact Both.trans (R := SameCase) (fun _ _ _ h h' => ⟨h.1.trans h'.1, h.2.trans h'.2⟩) h h'
  | decoded => exact ⟨h.1.trans h'.1, h.2.trans h'.2⟩
  | fixed => exact Eq.trans h h'
  | unread => trivial
  | list r ih =>
    refine Both.trans (fun xs ys zs hxy hyz => ?_) h h'
    induction hxy generalizing zs with
    | nil => exact hyz
    | cons h _ ih' =>
      obtain ⟨z, zs, hz, hzs, rfl⟩ := List.forall₂_cons_left_iff.1 hyz
      exact .cons (ih h hz) (ih' zs hzs)

end Equivalence

/-! ## Fields -/

section Fields

variable {file key : String} {f f' : Fields}

/-- What is read under a key is alike. -/
def AlikeAt (file : String) (r : Role) (key : String) (f f' : Fields) : Prop :=
  r.AlikeIfAny file (f.get? key) (f'.get? key)

theorem Role.AlikeIfAny.eq {x y : Option Reading} (h : fixed.AlikeIfAny file x y) : x = y := by
  cases x <;> cases y <;> first | exact congrArg some h | exact h.elim | rfl

/-- Alike values are both missing or both there. -/
theorem AlikeAt.cases {r : Role} (h : AlikeAt file r key f f') :
    (f.get? key = none ∧ f'.get? key = none) ∨
      ∃ x y, f.get? key = some x ∧ f'.get? key = some y ∧ r.Alike file x y := by
  unfold AlikeAt at h
  cases hx : f.get? key <;> cases hy : f'.get? key <;> rw [hx, hy] at h
  · exact .inl ⟨rfl, rfl⟩
  · exact h.elim
  · exact h.elim
  · exact .inr ⟨_, _, rfl, rfl, h⟩

theorem need_alike {r : Role} (h : AlikeAt file r key f f') :
    Both (r.Alike file) (f.need key) (f'.need key) := by
  unfold Fields.need
  rcases h.cases with ⟨hx, hy⟩ | ⟨x, y, hx, hy, hxy⟩ <;> rw [hx, hy]
  · exact both_fail ..
  · exact hxy

theorem str_alike (h : AlikeAt file .fixed key f f') :
    Both Eq (f.str key) (f'.str key) := by
  refine both_bind (need_alike h) fun x y hxy => ?_
  obtain rfl : x = y := hxy
  exact both_refl (fun _ => rfl) _

theorem str?_alike (h : AlikeAt file .fixed key f f') :
    Both Eq (f.str? key) (f'.str? key) := by
  unfold Fields.str?
  rw [h.eq]
  split
  · exact rfl
  · exact both_bind (str_alike h) fun x y hxy => both_pure (by rw [hxy])

theorem flag_alike (h : AlikeAt file .decoded key f f') :
    Both Eq (f.flag key) (f'.flag key) := by
  unfold Fields.flag
  rcases h.cases with ⟨hx, hy⟩ | ⟨x, y, hx, hy, hxy⟩ <;> rw [hx, hy]
  · rfl
  · dsimp only
    rw [hxy.1]
    split
    · rfl
    · exact both_fail ..

theorem integer_alike (h : AlikeAt file .decoded key f f') (default : Int) :
    Both Eq (f.integer key default) (f'.integer key default) := by
  unfold Fields.integer
  rcases h.cases with ⟨hx, hy⟩ | ⟨x, y, hx, hy, hxy⟩ <;> rw [hx, hy]
  · rfl
  · dsimp only
    rw [hxy.2]
    split
    · rfl
    · exact both_fail ..

theorem fieldExpr_alike (h : AlikeAt file .expr key f f') :
    Both SameExpr (f.expr key) (f'.expr key) :=
  both_bind (need_alike h) fun _ _ hxy => hxy

theorem fieldExpr?_alike (h : AlikeAt file .expr key f f') :
    Both (fun a b => Expr.unplacedOption a = Expr.unplacedOption b) (f.expr? key) (f'.expr? key) := by
  unfold Fields.expr?
  rcases h.cases with ⟨hx, hy⟩ | ⟨x, y, hx, hy, hxy⟩ <;> rw [hx, hy]
  · rfl
  · exact both_map hxy fun _ _ hab => congrArg some hab

theorem sequence_alike {r : Role} (h : AlikeAt file (.list r) key f f') :
    Both (List.Forall₂ (r.Alike file)) (f.sequence key) (f'.sequence key) := by
  unfold Fields.sequence
  rcases h.cases with ⟨hx, hy⟩ | ⟨x, y, hx, hy, hxy⟩ <;> rw [hx, hy]
  · exact .nil
  · exact hxy

theorem exprs_alike (h : AlikeAt file (.list .expr) key f f') :
    Both (List.Forall₂ SameExpr) (f.exprs key) (f'.exprs key) :=
  both_bind (sequence_alike h) fun _ _ hxy => both_mapM hxy fun _ _ h => h

theorem body_alike (h : AlikeAt file (.list .stmt) key f f') :
    Both (List.Forall₂ SameStmt) (f.body key) (f'.body key) :=
  both_bind (sequence_alike h) fun _ _ hxy => both_mapM hxy fun _ _ h => h

theorem names_alike (h : AlikeAt file .fixed key f f') :
    Both Eq (f.names key) (f'.names key) := by
  unfold Fields.names Fields.sequence
  rw [h.eq]
  exact both_refl (fun _ => rfl) _

theorem operator_alike {α : Type} (h : AlikeAt file .fixed "op" f f')
    (allowed : List (String × α)) : Both Eq (f.operator allowed) (f'.operator allowed) := by
  refine both_bind (str_alike h) fun op op' hop => ?_
  subst hop
  split
  · exact both_pure rfl
  · exact both_bind (need_alike h) fun _ _ _ => both_fail ..

end Fields

/-! ## Mappings -/

/-- Mappings whose values read alike, given that something has a kind. -/
def FieldsAlike (file : String) (part : String → Role) (f f' : Fields) : Prop :=
  ∀ key, AlikeAt file (part key) key f f'

section Mappings

variable {file : String} {f f' : Fields} {loc loc' : Location}

theorem compoundExpr_alike (hk : AlikeAt file .fixed "kind" f f')
    (h : ∀ kind, f.str "kind" = .ok kind → FieldsAlike file (Role.ofExpr kind) f f') :
    Both SameExpr (compoundExpr loc f) (compoundExpr loc' f') := by
  refine both_bind_ok (str_alike hk) fun kind kind' hkind _ heq => ?_
  subst heq
  have hf := h kind hkind
  clear hkind h
  split
  · -- lit
    refine both_bind (need_alike (hf "value")) fun x y hxy => ?_
    obtain rfl : x = y := hxy
    split
    · exact both_bind (both_refl (fun _ => rfl) _) fun v w (hvw : v = w) =>
        both_pure (congrArg (Expr.lit {}) hvw)
    · exact both_fail ..
  · -- var
    exact both_bind (str_alike (hf "name")) fun x y hxy => both_pure (congrArg (Expr.var {}) hxy)
  · -- binary
    refine both_bind (operator_alike (hf "op") _) fun op op' hop =>
      both_bind (fieldExpr_alike (hf "left")) fun l l' hl =>
        both_bind (fieldExpr_alike (hf "right")) fun r r' hr => both_pure ?_
    simp only [SameExpr, Expr.unplaced, hop, hl.eq, hr.eq]
  · -- unary
    refine both_bind (operator_alike (hf "op") _) fun op op' hop =>
      both_bind (fieldExpr_alike (hf "operand")) fun e e' he => both_pure ?_
    simp only [SameExpr, Expr.unplaced, hop, he.eq]
  · -- assign
    refine both_bind (fieldExpr_alike (hf "target")) fun t t' ht =>
      both_bind (fieldExpr_alike (hf "value")) fun v v' hv => ?_
    have hsame (op : Option CompoundOp) : SameExpr (.assign loc op t v) (.assign loc' op t' v') := by
      simp only [SameExpr, Expr.unplaced, ht.eq, hv.eq]
    dsimp only
    rw [Role.AlikeIfAny.eq (hf "op")]
    split
    · refine both_bind (both_map (S := Eq) (operator_alike (hf "op") _) fun a b hab =>
        congrArg some hab) fun op op' hop => both_pure (hop ▸ hsame op)
    · exact both_pure (hsame none)
  · -- incdec
    refine both_bind (operator_alike (hf "op") _) fun i i' hi =>
      both_bind (fieldExpr_alike (hf "target")) fun t t' ht =>
        both_bind (flag_alike (hf "prefix")) fun b b' hb => both_pure ?_
    simp only [SameExpr, Expr.unplaced, hi, hb, ht.eq]
  · -- ternary
    refine both_bind (fieldExpr_alike (hf "cond")) fun c c' hc =>
      both_bind (fieldExpr_alike (hf "then")) fun y y' hy =>
        both_bind (fieldExpr_alike (hf "else")) fun n n' hn => both_pure ?_
    simp only [SameExpr, Expr.unplaced, hc.eq, hy.eq, hn.eq]
  · -- array
    refine both_bind (sequence_alike (hf "items")) fun xs ys hxy =>
      both_bind (both_mapM hxy fun _ _ h => h) fun is is' his => both_pure ?_
    simp only [SameExpr, Expr.unplaced, sameItems his]
  · -- index
    refine both_bind (fieldExpr_alike (hf "base")) fun b b' hb =>
      both_bind (fieldExpr?_alike (hf "key")) fun k k' hk => both_pure ?_
    simp only [SameExpr, Expr.unplaced, hb.eq, hk]
  · -- call
    refine both_bind (str_alike (hf "name")) fun n n' hn =>
      both_bind (exprs_alike (hf "args")) fun as as' has => both_pure ?_
    simp only [SameExpr, Expr.unplaced, hn, sameExprs has]
  · -- method
    refine both_bind (fieldExpr_alike (hf "object")) fun e e' he =>
      both_bind (str_alike (hf "name")) fun n n' hn =>
        both_bind (exprs_alike (hf "args")) fun as as' has => both_pure ?_
    simp only [SameExpr, Expr.unplaced, he.eq, hn, sameExprs has]
  · -- new
    refine both_bind (str_alike (hf "class")) fun n n' hn =>
      both_bind (exprs_alike (hf "args")) fun as as' has => both_pure ?_
    simp only [SameExpr, Expr.unplaced, hn, sameExprs has]
  · -- prop
    refine both_bind (fieldExpr_alike (hf "object")) fun e e' he =>
      both_bind (str_alike (hf "name")) fun n n' hn => both_pure ?_
    simp only [SameExpr, Expr.unplaced, he.eq, hn]
  · exact both_bind (need_alike hk) fun _ _ _ => both_fail ..

theorem functionOf_alike (hname : AlikeAt file .fixed "name" f f')
    (hparams : AlikeAt file .fixed "params" f f')
    (hbody : AlikeAt file (.list .stmt) "body" f f') :
    Both SameFunction (functionOf loc f) (functionOf loc' f') := by
  refine both_bind (str_alike hname) fun n n' hn =>
    both_bind (names_alike hparams) fun ps ps' hps =>
      both_bind (body_alike hbody) fun b b' hb => both_pure ?_
  simp only [SameFunction, FunctionDecl.unplaced, hn, hps, sameStmts hb]

theorem property_alike (h : FieldsAlike file (Role.property.part none) f f') :
    Both SameProperty (do return ⟨← f.str "name", ← f.expr? "default"⟩)
      (do return ⟨← f'.str "name", ← f'.expr? "default"⟩) := by
  refine both_bind (str_alike (h "name")) fun n n' hn =>
    both_bind (fieldExpr?_alike (h "default")) fun d d' hd => both_pure ?_
  simp only [SameProperty, PropertyDecl.unplaced, hn, hd]

theorem caseFields_alike (h : FieldsAlike file (Role.case.part none) f f') :
    Both SameCase
      (do
        let body ← f.body "body"
        if (f.get? "match").isSome then
          if ← f.flag "default" then return (none, body)
          else return (← f.expr? "match", body)
        else return (none, body))
      (do
        let body ← f'.body "body"
        if (f'.get? "match").isSome then
          if ← f'.flag "default" then return (none, body)
          else return (← f'.expr? "match", body)
        else return (none, body)) := by
  refine both_bind (body_alike (h "body")) fun b b' hb => ?_
  have hsome : (f.get? "match").isSome = (f'.get? "match").isSome := by
    rcases (h "match").cases with ⟨hx, hy⟩ | ⟨x, y, hx, hy, -⟩ <;> rw [hx, hy]
    rfl
  rw [hsome]
  split
  · refine both_bind (flag_alike (h "default")) fun d d' hd => ?_
    subst hd
    split
    · exact both_pure ⟨rfl, sameStmts hb⟩
    · exact both_bind (fieldExpr?_alike (h "match")) fun m m' hm => both_pure ⟨hm, sameStmts hb⟩
  · exact both_pure ⟨rfl, sameStmts hb⟩

theorem Role.ofStmt_expr {kind : String} (h : kind ∈ expressionKinds) :
    Role.ofStmt kind = Role.ofExpr kind := by
  funext key
  unfold ofStmt
  split <;> first | rfl | exact absurd h (by decide)

theorem exprOf_mapping {n : Node} {field? : String → Option Reading}
    (h : asMapping n field? = .ok f) :
    exprOf file n field? = compoundExpr (f.node.pos.loc file) f := by
  unfold asMapping at h
  split at h
  · rename_i m pos tag entries hm
    cases h
    simp only [exprOf, hm]
    rfl
  · cases h

theorem stmtOf_alike {n n' : Node} {field? field?' : String → Option Reading}
    (hm : Both (fun f f' : Fields => AlikeAt file .fixed "kind" f f' ∧
      ∀ kind, f.str "kind" = .ok kind → FieldsAlike file (Role.ofStmt kind) f f')
      (asMapping n field?) (asMapping n' field?')) :
    Both SameStmt (stmtOf file n field?) (stmtOf file n' field?') := by
  refine both_bind_ok hm fun f f' hn hn' ⟨hk, h⟩ =>
    both_bind_ok (str_alike hk) fun kind kind' hkind _ heq => ?_
  subst heq
  have hf := h kind hkind
  split
  · -- expr
    exact both_bind (fieldExpr_alike (hf "expr")) fun e e' he =>
      both_pure (congrArg (Stmt.expr {}) he)
  · -- echo
    refine both_bind (exprs_alike (hf "args")) fun as as' has => both_pure ?_
    simp only [SameStmt, Stmt.unplaced, sameExprs has]
  · -- if
    refine both_bind (fieldExpr_alike (hf "cond")) fun c c' hc =>
      both_bind (body_alike (hf "then")) fun y y' hy =>
        both_bind (body_alike (hf "else")) fun n n' hn => both_pure ?_
    simp only [SameStmt, Stmt.unplaced, hc.eq, sameStmts hy, sameStmts hn]
  · -- while
    refine both_bind (fieldExpr_alike (hf "cond")) fun c c' hc =>
      both_bind (body_alike (hf "body")) fun b b' hb => both_pure ?_
    simp only [SameStmt, Stmt.unplaced, hc.eq, sameStmts hb]
  · -- dowhile
    refine both_bind (body_alike (hf "body")) fun b b' hb =>
      both_bind (fieldExpr_alike (hf "cond")) fun c c' hc => both_pure ?_
    simp only [SameStmt, Stmt.unplaced, hc.eq, sameStmts hb]
  · -- for
    refine both_bind (exprs_alike (hf "init")) fun i i' hi =>
      both_bind (exprs_alike (hf "post")) fun p p' hp =>
        both_bind (body_alike (hf "body")) fun b b' hb =>
          both_bind (fieldExpr?_alike (hf "cond")) fun c c' hc => both_pure ?_
    simp only [SameStmt, Stmt.unplaced, sameExprs hi, sameExprs hp, sameStmts hb, hc]
  · -- foreach
    refine both_bind (fieldExpr_alike (hf "subject")) fun e e' he =>
      both_bind (str?_alike (hf "key")) fun k k' hk =>
        both_bind (str_alike (hf "value")) fun v v' hv =>
          both_bind (body_alike (hf "body")) fun b b' hb => both_pure ?_
    simp only [SameStmt, Stmt.unplaced, he.eq, hk, hv, sameStmts hb]
  · -- switch
    refine both_bind (fieldExpr_alike (hf "subject")) fun e e' he =>
      both_bind (sequence_alike (hf "cases")) fun xs ys hxy =>
        both_bind (both_mapM hxy fun _ _ h => h) fun cs cs' hcs => both_pure ?_
    simp only [SameStmt, Stmt.unplaced, he.eq, sameCases hcs]
  · -- break
    exact both_bind (integer_alike (hf "levels") 1) fun l l' hl =>
      both_pure (congrArg (Stmt.leave {}) hl)
  · -- continue
    exact both_bind (integer_alike (hf "levels") 1) fun l l' hl =>
      both_pure (congrArg (Stmt.next {}) hl)
  · -- return
    refine both_bind (fieldExpr?_alike (hf "value")) fun v v' hv => both_pure ?_
    simp only [SameStmt, Stmt.unplaced, hv]
  · -- function
    exact both_bind (functionOf_alike (hf "name") (hf "params") (hf "body")) fun d d' hd =>
      both_pure (congrArg Stmt.function hd)
  · -- class
    refine both_bind (str_alike (hf "name")) fun n n' hn =>
      both_bind (sequence_alike (hf "properties")) fun ps ps' hps =>
        both_bind (both_mapM hps fun _ _ h => h) fun qs qs' hqs =>
          both_bind (sequence_alike (hf "methods")) fun ms ms' hms =>
            both_bind (both_mapM hms fun _ _ h => h) fun fs fs' hfs => both_pure ?_
    simp only [SameStmt, Stmt.unplaced, hn, sameProperties hqs, sameMethods hfs]
  · split
    · rename_i hkinds
      rw [exprOf_mapping hn, exprOf_mapping hn']
      refine both_bind (compoundExpr_alike hk fun kind' hkind' => ?_) fun e e' he =>
        both_pure (congrArg (Stmt.expr {}) he)
      cases hkind.symm.trans hkind'
      exact Role.ofStmt_expr hkinds ▸ hf
    · exact both_bind (need_alike hk) fun _ _ _ => both_fail ..

end Mappings

/-! ## Replacing an alias -/

section Replacing

variable {file : String}

theorem node_ofNode (n : Node) : (Reading.ofNode file n).node = n := by
  cases n <;> (rw [Reading.ofNode]; rfl)

theorem stmt_ofNode (n : Node) :
    (Reading.ofNode file n).stmt = stmtOf file n (Reading.ofNode file n).field? := by
  cases n <;> (rw [Reading.ofNode]; rfl)

theorem expr_ofNode (n : Node) :
    (Reading.ofNode file n).expr = exprOf file n (Reading.ofNode file n).field? := by
  cases n <;> (rw [Reading.ofNode]; rfl)

theorem field_reference (pos : Document.Position) (name : String) (target : Node) :
    (Reading.ofNode file (.reference pos name target)).field? =
      (Reading.ofNode file target).field? := by
  rw [Reading.ofNode]
  rfl

theorem ofValue_eq (entries : List (Node × Node)) (key : String) :
    Reading.ofValue file entries key = (valueUnder entries key).map (Reading.ofNode file) := by
  induction entries with
  | nil => rw [Reading.ofValue, valueUnder, Option.map_none]
  | cons e rest ih =>
    obtain ⟨k, v⟩ := e
    rw [Reading.ofValue, valueUnder, ih]
    cases valueUnder rest key with
    | some n => rfl
    | none =>
      dsimp only [Option.map_none]
      split <;> rfl

theorem field_mapping (pos : Document.Position) (tag : String) (entries : List (Node × Node)) :
    (Reading.ofNode file (.mapping pos tag entries)).field? =
      fun key => (valueUnder entries key).map (Reading.ofNode file) := by
  funext key
  rw [Reading.ofNode, ← ofValue_eq]
  rfl

theorem ofNodes_eq (items : List Node) :
    Reading.ofNodes file items = items.map (Reading.ofNode file) := by
  induction items with
  | nil => rw [Reading.ofNodes, List.map_nil]
  | cons n items ih => rw [Reading.ofNodes, ih, List.map_cons]

theorem not_opens_fixed {n n' : Node} : ¬ Opens .fixed n n' := by
  intro h
  generalize hr : Role.fixed = r at h
  induction h with
  | here h =>
    subst hr
    cases h
  | behind h =>
    subst hr
    cases h
  | item | unread => cases hr
  | value _ _ _ ih =>
    subst hr
    exact ih rfl

/-- A node that is no alias stands for itself. -/
theorem resolved_of_follows {target : Node} (h : Role.stmt.follows target = true) :
    target.resolved = target := by
  cases target with
  | reference => cases h
  | scalar | sequence | mapping => rfl

theorem asMapping_reference {target : Node} (h : Role.stmt.follows target = true)
    (pos : Document.Position) (name : String) (field? : String → Option Reading) :
    asMapping (.reference pos name target) field? = asMapping target field? := by
  unfold asMapping
  rw [resolved_of_follows h]
  rfl

theorem exprOf_reference {target : Node} (h : Role.stmt.follows target = true)
    (pos : Document.Position) (name : String) (field? : String → Option Reading) :
    exprOf file (.reference pos name target) field? = exprOf file target field? := by
  unfold exprOf
  rw [resolved_of_follows h]
  rfl

theorem alias_alike {r : Role} {target : Node} (h : r.follows target = true)
    (pos : Document.Position) (name : String) :
    r.Alike file (Reading.ofNode file (.reference pos name target)) (Reading.ofNode file target) := by
  have hfield := @field_reference file pos name target
  cases r with
  | stmt =>
    rw [Role.Alike, stmt_ofNode, stmt_ofNode, hfield]
    refine stmtOf_alike ?_
    rw [asMapping_reference h]
    exact both_refl (fun f => ⟨Role.alikeIfAny_refl _ _, fun _ _ _ => Role.alikeIfAny_refl _ _⟩) _
  | expr =>
    rw [Role.Alike, expr_ofNode, expr_ofNode, hfield, exprOf_reference h]
    exact both_refl (R := SameExpr) (fun _ => rfl) _
  | method =>
    rw [Role.Alike, methodOf, methodOf, node_ofNode, node_ofNode, hfield, asMapping_reference h]
    refine both_bind (R := Eq) (both_refl (fun _ => rfl) _) fun f f' hf => ?_
    subst hf
    exact @functionOf_alike file _ _ _ _ (Role.alikeIfAny_refl _ _) (Role.alikeIfAny_refl _ _)
      (Role.alikeIfAny_refl _ _)
  | case =>
    rw [Role.Alike, caseOf, caseOf, node_ofNode, node_ofNode, hfield, asMapping_reference h]
    exact both_refl (R := SameCase) (fun _ => ⟨rfl, rfl⟩) _
  | item =>
    have hexpr : (Reading.ofNode file (.reference pos name target)).expr =
        (Reading.ofNode file target).expr := by
      rw [expr_ofNode, expr_ofNode, hfield, exprOf_reference]
      cases target <;> first | rfl | cases h
    have hsame : arrayItem (Reading.ofNode file (.reference pos name target)) =
        arrayItem (Reading.ofNode file target) := by
      unfold arrayItem
      rw [node_ofNode, node_ofNode, hexpr]
      cases target with
      | reference => cases h
      | scalar | sequence => rfl
      | mapping pos' tag entries =>
        have hkind : ((valueUnder entries "kind").map (Reading.ofNode file)).isNone = false := by
          rw [Role.follows] at h
          rw [Option.isNone_map]
          simpa using h
        dsimp only
        rw [field_mapping, hkind]
        rfl
    rw [Role.Alike, hsame]
    exact both_refl (R := SameItem) (fun _ => ⟨rfl, rfl⟩) _
  | property =>
    cases target with
    | mapping pos' tag entries =>
      rw [Role.Alike, propertyOf, propertyOf, node_ofNode, node_ofNode, hfield]
      exact both_refl (R := SameProperty) (fun _ => rfl) _
    | reference | scalar | sequence => cases h
  | decoded =>
    rw [Role.Alike, node_ofNode, node_ofNode]
    exact ⟨rfl, rfl⟩
  | unread => trivial
  | fixed | list => cases h

/-! ### Values of mappings -/

theorem valueUnder_replaced (before after : List (Node × Node)) (key n n' : Node) (name : String) :
    valueUnder (before ++ (key, n) :: after) name = valueUnder (before ++ (key, n') :: after) name ∨
      (name = key.label ∧ valueUnder (before ++ (key, n) :: after) name = some n ∧
        valueUnder (before ++ (key, n') :: after) name = some n') := by
  induction before with
  | nil =>
    simp only [List.nil_append, valueUnder]
    cases valueUnder after name with
    | some v => exact .inl rfl
    | none =>
      dsimp only
      split
      · rename_i hlabel
        exact .inr ⟨hlabel.symm, rfl, rfl⟩
      · exact .inl rfl
  | cons e before ih =>
    obtain ⟨k, v⟩ := e
    simp only [List.cons_append, valueUnder]
    rcases ih with heq | ⟨hname, hleft, hright⟩
    · exact .inl (by rw [heq])
    · exact .inr ⟨hname, by rw [hleft], by rw [hright]⟩

theorem str_kind {node : Node} {entries : List (Node × Node)} {kind : String}
    (h : Fields.str ⟨node, fun key => (valueUnder entries key).map (Reading.ofNode file)⟩ "kind" =
      .ok kind) : kindUnder entries = some kind := by
  unfold Fields.str Fields.need at h
  unfold kindUnder
  cases hv : valueUnder entries "kind" with
  | none =>
    simp only [hv, Option.map_none] at h
    cases h
  | some n =>
    simp only [hv, Option.map_some, bind, Except.bind, node_ofNode] at h
    cases n with
    | scalar pos form text =>
      cases h
      rfl
    | reference | sequence | mapping => cases h

theorem Role.part_kind {r : Role} (hr : r = .stmt ∨ r = .expr ∨ r = .item) (kind : Option String) :
    r.part kind "kind" = .fixed := by
  rcases hr with rfl | rfl | rfl <;> cases kind <;> rfl

/-- A mapping in which one value is replaced by an alike one reads alike. -/
theorem mapping_alike {r : Role} {pos : Document.Position} {tag : String}
    {entries entries' : List (Node × Node)}
    (hr : r.part none "" ≠ .fixed)
    (h : ∀ key, (r.part (kindUnder entries) key).AlikeIfAny file
      ((valueUnder entries key).map (Reading.ofNode file))
      ((valueUnder entries' key).map (Reading.ofNode file))) :
    r.Alike file (Reading.ofNode file (.mapping pos tag entries))
      (Reading.ofNode file (.mapping pos tag entries')) := by
  have hfield := @field_mapping file pos tag entries
  have hfield' := @field_mapping file pos tag entries'
  let f : Fields := ⟨.mapping pos tag entries,
    fun key => (valueUnder entries key).map (Reading.ofNode file)⟩
  let f' : Fields := ⟨.mapping pos tag entries',
    fun key => (valueUnder entries' key).map (Reading.ofNode file)⟩
  have hexpr (he : r = .expr ∨ r = .item) : Both SameExpr
      (Reading.ofNode file (.mapping pos tag entries)).expr
      (Reading.ofNode file (.mapping pos tag entries')).expr := by
    rw [expr_ofNode, expr_ofNode, hfield, hfield', exprOf_mapping (f := f) rfl,
      exprOf_mapping (f := f') rfl]
    refine compoundExpr_alike (Role.part_kind (.inr he) _ ▸ h "kind") fun kind hkind => ?_
    have hpart := h
    rw [str_kind hkind] at hpart
    rcases he with rfl | rfl <;> exact hpart
  cases r with
  | stmt =>
    rw [Role.Alike, stmt_ofNode, stmt_ofNode, hfield, hfield']
    refine stmtOf_alike (show Both _ (.ok f) (.ok f') from ⟨?_, fun kind hkind => ?_⟩)
    · exact Role.part_kind (.inl rfl) (kindUnder entries) ▸ h "kind"
    · have hpart := h
      rw [str_kind hkind] at hpart
      exact hpart
  | expr => exact hexpr (.inl rfl)
  | item =>
    have hkind : (valueUnder entries "kind").map (Reading.ofNode file) =
        (valueUnder entries' "kind").map (Reading.ofNode file) :=
      Role.AlikeIfAny.eq (Role.part_kind (.inr (.inr rfl)) (kindUnder entries) ▸ h "kind")
    rw [Role.Alike, arrayItem, arrayItem, node_ofNode, node_ofNode, hfield, hfield']
    simp only [← hkind]
    split
    · rename_i hnone
      have hunder : kindUnder entries = none := by
        rw [Option.isNone_map, Option.isNone_iff_eq_none] at hnone
        rw [kindUnder, hnone]
      rw [hunder] at h
      exact both_bind (@fieldExpr_alike file _ f f' (h "value")) fun v v' hv =>
        both_bind (@fieldExpr?_alike file _ f f' (h "key")) fun k k' hk => both_pure ⟨hk, hv⟩
    · exact both_bind (hexpr (.inr rfl)) fun e e' he => both_pure ⟨rfl, he⟩
  | property =>
    rw [Role.Alike, propertyOf, propertyOf, node_ofNode, node_ofNode, hfield, hfield']
    exact @property_alike file f f' h
  | method =>
    rw [Role.Alike, methodOf, methodOf, node_ofNode, node_ofNode, hfield, hfield']
    exact @functionOf_alike file f f' _ _ (h "name") (h "params") (h "body")
  | case =>
    rw [Role.Alike, caseOf, caseOf, node_ofNode, node_ofNode, hfield, hfield']
    exact @caseFields_alike file f f' h
  | unread => trivial
  | decoded | fixed | list => exact absurd rfl hr

/-- A node in which an alias is replaced by its target reads alike. -/
theorem opens_alike {r : Role} {n n' : Node} (h : Opens r n n') :
    r.Alike file (Reading.ofNode file n) (Reading.ofNode file n') := by
  induction h with
  | here h => exact alias_alike h ..
  | behind h h' _ ih => exact ((alias_alike h ..).trans ih).trans (alias_alike h' ..).symm
  | unread => trivial
  | @item r pos tag before after n n' _ ih =>
    have hitems (items : List Node) : (Reading.ofNode file (.sequence pos tag items)).sequence =
        .ok (items.map (Reading.ofNode file)) := by
      rw [Reading.sequence, node_ofNode, Reading.ofNode, ofNodes_eq]
      rfl
    rw [Role.Alike, hitems, hitems, List.map_append, List.map_append]
    have hrefl (ns : List Node) : List.Forall₂ (r.Alike file) (ns.map (Reading.ofNode file))
        (ns.map (Reading.ofNode file)) := List.forall₂_same.2 fun x _ => r.alike_refl x
    exact List.rel_append (hrefl before) (.cons ih (hrefl after))
  | @value r pos tag before after key n n' ho ih =>
    refine mapping_alike (fun hfixed => ?_) fun name => ?_
    · have hpart : r.part (kindUnder (before ++ (key, n) :: after)) key.label = .fixed := by
        cases r <;> first | rfl | cases hfixed
      rw [hpart] at ho
      exact not_opens_fixed ho
    · rcases valueUnder_replaced before after key n n' name with heq | ⟨rfl, hleft, hright⟩
      · rw [heq]
        exact Role.alikeIfAny_refl _ _
      · rw [hleft, hright]
        exact ih

end Replacing

/-! ## Programs -/

/-- The statements of a program, without places, where it loads. -/
def unplacedProgram? (file : String) (root : Node) : Option (List Stmt) :=
  (Program.ofNode file root).toOption.map (List.map Stmt.unplaced)

theorem unplacedProgram?_eq_of_opens {file : String} {n n' : Node}
    (h : Opens (.list .stmt) n n') : unplacedProgram? file n = unplacedProgram? file n' := by
  have hp : Both (List.Forall₂ SameStmt)
      (do (← (Reading.ofNode file n).sequence).mapM Reading.stmt)
      (do (← (Reading.ofNode file n').sequence).mapM Reading.stmt) :=
    both_bind (opens_alike h) fun _ _ hxy => both_mapM hxy fun _ _ h => h
  unfold unplacedProgram? Program.ofNode
  revert hp
  generalize (do (← (Reading.ofNode file n).sequence).mapM Reading.stmt) = x
  generalize (do (← (Reading.ofNode file n').sequence).mapM Reading.stmt) = y
  intro hp
  rcases x with _ | p <;> rcases y with _ | p'
  · rfl
  · exact hp.elim
  · exact hp.elim
  · have hsame := sameStmts hp
    rw [Stmt.unplacedAll_eq, Stmt.unplacedAll_eq] at hsame
    exact congrArg some hsame

/-- **Aliases that are followed are transparent.** If aliases of a document are replaced by their
targets, one after the other, each where aliases are followed, then the document loads exactly if it
did before, and the program is the same but for its places. -/
theorem ofNode_opens {file : String} {n n' : Node}
    (h : Relation.ReflTransGen (Opens (.list .stmt)) n n') :
    unplacedProgram? file n = unplacedProgram? file n' := by
  induction h with
  | refl => rfl
  | tail _ h ih => exact ih.trans (unplacedProgram?_eq_of_opens h)

/-- A document that writes one thing. -/
def echoNode (arg : Node) : Node :=
  .sequence ⟨1, 1⟩ "" [.mapping ⟨1, 3⟩ "" [(.scalar ⟨1, 3⟩ .plain "kind", .scalar ⟨1, 9⟩ .plain "echo"),
    (.scalar ⟨2, 3⟩ .plain "args", .sequence ⟨2, 9⟩ "" [arg])]]

def literalNode (value : Node) : Node :=
  .mapping ⟨3, 5⟩ "" [(.scalar ⟨3, 5⟩ .plain "kind", .scalar ⟨3, 11⟩ .plain "lit"),
    (.scalar ⟨4, 5⟩ .plain "value", value)]

def aliasOf (target : Node) : Node := .reference ⟨2, 10⟩ "a" target

theorem echoNode_opens {arg arg' : Node} (h : Opens .expr arg arg') :
    Opens (.list .stmt) (echoNode arg) (echoNode arg') := by
  refine .item [] [] (.value [_] [] ?_)
  have hkind (n : Node) : kindUnder [(.scalar ⟨1, 3⟩ .plain "kind", .scalar ⟨1, 9⟩ .plain "echo"),
      (.scalar ⟨2, 3⟩ .plain "args", n)] = some "echo" := by
    have hbare : bareName "echo" = "echo" := by cbv
    exact congrArg some hbare
  rw [List.singleton_append, hkind]
  exact .item [] [] h

/-- An alias among the arguments of an echo. -/
theorem ofNode_opens_echo :
    (unplacedProgram? "t" (echoNode (literalNode (.scalar ⟨4, 12⟩ .quoted "x")))).isSome = true ∧
      unplacedProgram? "t" (echoNode (aliasOf (literalNode (.scalar ⟨4, 12⟩ .quoted "x")))) =
        unplacedProgram? "t" (echoNode (literalNode (.scalar ⟨4, 12⟩ .quoted "x"))) :=
  ⟨by cbv, ofNode_opens (.single (echoNode_opens (.here rfl)))⟩

/-- An alias for the value of a literal is not followed. -/
theorem literal_alias_refused :
    (unplacedProgram? "t" (echoNode (literalNode (aliasOf (.scalar ⟨4, 12⟩ .quoted "x"))))).isSome = false ∧
      (unplacedProgram? "t" (echoNode (literalNode (.scalar ⟨4, 12⟩ .quoted "x")))).isSome = true :=
  ⟨by decide +kernel, by cbv⟩

end HeapScript
