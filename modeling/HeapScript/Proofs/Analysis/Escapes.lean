import Mathlib
import HeapScript.Analysis.Storage

/-!
# Variables that escape are boxed

A variable below which an element is written, or that a loop over an array binds, is marked by the
walk over the body, and no later step takes the mark away. A marked variable is no candidate for
a number, so it is boxed whatever is assigned to it.
-/

namespace HeapScript

/-! ## Written variables -/

mutual

/-- A property holds of every variable below which an expression writes an element. -/
def Expr.Writes (P : String → Prop) : Expr → Prop
  | .lit .. | .var .. => True
  | .binary _ _ l r => l.Writes P ∧ r.Writes P
  | .unary _ _ e => e.Writes P
  | .assign _ _ (.var ..) value => value.Writes P
  | .assign _ _ target value => value.Writes P ∧ target.Roots P
  | .incDec _ _ _ (.var ..) => True
  | .incDec _ _ _ target => target.Roots P
  | .ternary _ c t e => c.Writes P ∧ t.Writes P ∧ e.Writes P
  | .array _ items => Expr.itemsWrite P items
  | .index _ base none => base.Writes P
  | .index _ base (some key) => base.Writes P ∧ key.Writes P
  | .call _ _ args => Expr.allWrite P args
  | .method _ object _ args => object.Writes P ∧ Expr.allWrite P args
  | .create _ _ args => Expr.allWrite P args
  | .prop _ object _ => object.Writes P

/-- The same for an expression that is the target of a write. -/
def Expr.Roots (P : String → Prop) : Expr → Prop
  | .index _ base none => base.Roots P
  | .index _ base (some key) => base.Roots P ∧ key.Writes P
  | .var _ name => P name
  | .prop _ object _ => object.Writes P
  | _ => True

/-- The same for expressions in a row. -/
def Expr.allWrite (P : String → Prop) : List Expr → Prop
  | [] => True
  | e :: rest => e.Writes P ∧ Expr.allWrite P rest

/-- The same for the items of an array. -/
def Expr.itemsWrite (P : String → Prop) : List (Option Expr × Expr) → Prop
  | [] => True
  | (none, v) :: rest => v.Writes P ∧ Expr.itemsWrite P rest
  | (some k, v) :: rest => k.Writes P ∧ v.Writes P ∧ Expr.itemsWrite P rest

end

mutual

/-- A property holds of every variable below which a statement writes an element, and of every
variable that a loop over an array binds. -/
def Stmt.Writes (P : String → Prop) : Stmt → Prop
  | .expr _ e => e.Writes P
  | .echo _ args => Expr.allWrite P args
  | .ifElse _ c t e => c.Writes P ∧ Stmt.allWrite P t ∧ Stmt.allWrite P e
  | .whileDo _ c body => c.Writes P ∧ Stmt.allWrite P body
  | .doWhile _ body c => Stmt.allWrite P body ∧ c.Writes P
  | .forLoop _ init c post body =>
    Expr.allWrite P init ∧ (∀ e ∈ c, e.Writes P) ∧ Stmt.allWrite P body ∧ Expr.allWrite P post
  | .foreach _ subject key value body =>
    subject.Writes P ∧ (∀ k ∈ key, P k) ∧ P value ∧ Stmt.allWrite P body
  | .switch _ subject cases => subject.Writes P ∧ Stmt.casesWrite P cases
  | .ret _ v => ∀ e ∈ v, e.Writes P
  | .leave .. | .next .. | .function .. | .classDecl .. => True

/-- The same for statements in a row. -/
def Stmt.allWrite (P : String → Prop) : List Stmt → Prop
  | [] => True
  | s :: rest => s.Writes P ∧ Stmt.allWrite P rest

/-- The same for the cases of a switch. -/
def Stmt.casesWrite (P : String → Prop) : List (Option Expr × List Stmt) → Prop
  | [] => True
  | (m, body) :: rest => (∀ e ∈ m, e.Writes P) ∧ Stmt.allWrite P body ∧ Stmt.casesWrite P rest

end

theorem Stmt.writes_of_mem {P : String → Prop} {cases : List (Option Expr × List Stmt)}
    (h : Stmt.casesWrite P cases) {k : Option Expr × List Stmt} (hk : k ∈ cases) :
    ∀ e ∈ k.1, e.Writes P := by
  induction cases with
  | nil => cases hk
  | cons p rest ih =>
    rw [Stmt.casesWrite] at h
    rcases List.mem_cons.1 hk with rfl | hk
    · exact h.1
    · exact ih h.2.2 hk

/-! ## Marks -/

/-- Every name has one entry. -/
def Uses.Unique (u : Uses) : Prop := (u.vars.map Prod.fst).Nodup

/-- A variable is marked: its value comes from elsewhere or leaves through a reference. -/
def Uses.Marked (u : Uses) (name : String) : Prop :=
  ∃ use, u.vars.lookup name = some use ∧ (use.forced = true ∨ use.escapes = true)

namespace Walk

variable {α β : Type}

/-- A walk keeps names unique and marks in place, and whatever holds of all variables that are
marked at its end makes a statement about what it walked over true. -/
structure Sees (x : Walk α) (S : (String → Prop) → Prop) : Prop where
  unique : ∀ u, u.Unique → (x.run u).2.Unique
  keeps : ∀ u n, u.Marked n → (x.run u).2.Marked n
  sees : ∀ u P, (∀ n, (x.run u).2.Marked n → P n) → S P

variable {x : Walk α} {f : α → Walk β} {S T : (String → Prop) → Prop}

theorem Sees.mono (h : Sees x S) (hs : ∀ P, S P → T P) : Sees x T :=
  ⟨h.unique, h.keeps, fun u P hP => hs P (h.sees u P hP)⟩

theorem sees_pure (a : α) : Sees (pure a) fun _ => True :=
  ⟨fun _ h => h, fun _ _ h => h, fun _ _ _ => trivial⟩

theorem sees_bind (hx : Sees x S) (hf : ∀ a, Sees (f a) T) :
    Sees (x >>= f) fun P => S P ∧ T P := by
  refine ⟨fun u h => ?_, fun u n h => ?_, fun u P hP => ⟨?_, ?_⟩⟩
  · exact (hf _).unique _ (hx.unique u h)
  · exact (hf _).keeps _ n (hx.keeps u n h)
  · exact hx.sees u P fun n hn => hP n ((hf _).keeps _ n hn)
  · exact (hf (x.run u).1).sees (x.run u).2 P hP

/-! ## Entries -/

theorem map_update (name : String) (f : VarUse → VarUse) (vars : List (String × VarUse)) :
    (update name f vars).map Prod.fst = vars.map Prod.fst := by
  fun_induction update name f vars with
  | case1 => rfl
  | case2 => rfl
  | case3 n u rest hn ih => rw [List.map_cons, List.map_cons, ih]

theorem lookup_update (name : String) (f : VarUse → VarUse) (vars : List (String × VarUse))
    (n : String) : (update name f vars).lookup n =
      if n = name then (vars.lookup n).map f else vars.lookup n := by
  fun_induction update name f vars with
  | case1 => simp
  | case2 u rest =>
    by_cases h : n = name
    · simp [h]
    · have hb : (n == name) = false := beq_false_of_ne h
      simp [List.lookup_cons, hb, h]
  | case3 m u rest hm ih =>
    by_cases h : n = m
    · subst h
      simp [hm]
    · have hb : (n == m) = false := beq_false_of_ne h
      rw [List.lookup_cons, List.lookup_cons, hb]
      exact ih

theorem lookup_none_iff {vars : List (String × VarUse)} {n : String} :
    vars.lookup n = none ↔ n ∉ vars.map Prod.fst := by
  rw [List.lookup_eq_none_iff]
  simp only [List.mem_map, bne_iff_ne, ne_eq, not_exists, not_and]
  exact ⟨fun h p hp e => h p hp e.symm, fun h p hp e => h p hp e.symm⟩

/-- A change of an entry that leaves the marks. -/
theorem marked_update {u : Uses} {name n : String} {f : VarUse → VarUse}
    (hf : ∀ v, v.forced = true ∨ v.escapes = true → (f v).forced = true ∨ (f v).escapes = true)
    (h : u.Marked n) : ({ u with vars := update name f u.vars } : Uses).Marked n := by
  obtain ⟨use, hu, hm⟩ := h
  by_cases hn : n = name
  · exact ⟨f use, by simp [lookup_update, hn, hn ▸ hu], hf use hm⟩
  · exact ⟨use, by simp [lookup_update, hn, hu], hm⟩

theorem mark_sees {name : String} {f : VarUse → VarUse}
    (hf : ∀ v, v.forced = true ∨ v.escapes = true → (f v).forced = true ∨ (f v).escapes = true) :
    Sees (mark name f) fun _ => True := by
  refine ⟨fun u h => ?_, fun u n h => marked_update hf h, fun _ _ _ => trivial⟩
  change ((update name f u.vars).map Prod.fst).Nodup
  rwa [map_update]

theorem run_occurrence (path : List Nat) (name : String) (defining : Bool) (u : Uses) :
    ((occurrence path name defining).run u).2 = match u.vars.lookup name with
      | none => { u with vars := u.vars ++ [(name, { definite := defining, firstPath := path })] }
      | some v => if v.firstPath.isPrefixOf path then u
        else { u with vars := update name (fun v => { v with definite := false }) u.vars } := rfl

theorem occurrence_sees (path : List Nat) (name : String) (defining : Bool) :
    Sees (occurrence path name defining) fun _ => True := by
  refine ⟨fun u h => ?_, fun u n h => ?_, fun _ _ _ => trivial⟩
  · rw [run_occurrence]
    split
    · rename_i hl
      rw [lookup_none_iff] at hl
      simpa [Uses.Unique, List.nodup_append] using ⟨h, fun a b hab e => hl (by
        subst e
        exact List.mem_map.2 ⟨_, hab, rfl⟩)⟩
    · split
      · exact h
      · simpa [Uses.Unique, map_update] using h
  · rw [run_occurrence]
    split
    · obtain ⟨use, hu, hm⟩ := h
      exact ⟨use, by rw [List.lookup_append, hu]; rfl, hm⟩
    · split
      · exact h
      · exact marked_update (fun _ h => h) h

theorem lookup_occurrence (path : List Nat) (name : String) (defining : Bool) (u : Uses) :
    ∃ use, ((occurrence path name defining).run u).2.vars.lookup name = some use := by
  rw [run_occurrence]
  cases hl : u.vars.lookup name with
  | none => exact ⟨⟨false, false, defining, path, [], [], false⟩, by simp [List.lookup_append, hl]⟩
  | some v =>
    dsimp only
    split
    · exact ⟨v, hl⟩
    · exact ⟨_, by rw [lookup_update, if_pos rfl, hl]; rfl⟩

theorem marking_sees (path : List Nat) (name : String) (defining : Bool) {f : VarUse → VarUse}
    (hf : ∀ v, (f v).forced = true ∨ (f v).escapes = true) :
    Sees (do occurrence path name defining; mark name f) fun P => P name := by
  have hmark : Sees (mark name f) fun _ => True := mark_sees fun v _ => hf v
  have h := sees_bind (occurrence_sees path name defining) fun _ => hmark
  refine ⟨h.unique, h.keeps, fun u P hP => hP name ?_⟩
  obtain ⟨use, hu⟩ := lookup_occurrence path name defining u
  refine ⟨f use, (lookup_update name f _ name).trans ?_, hf use⟩
  rw [if_pos rfl]
  exact congrArg (Option.map f) hu

theorem forced_sees (path : List Nat) (name : String) (defining : Bool) :
    Sees (forced path name defining) fun P => P name :=
  marking_sees path name defining fun _ => .inl rfl

theorem enter_sees (path : List Nat) : Sees (enter path) fun _ => True :=
  ⟨fun _ h => h, fun _ _ h => h, fun _ _ _ => trivial⟩

theorem read_sees (path : List Nat) (name : String) (escaping : Bool) :
    Sees (read path name escaping) fun P => escaping = true → P name := by
  cases escaping with
  | false => exact (occurrence_sees path name false).mono fun _ _ => nofun
  | true => exact (marking_sees path name false fun _ => .inr rfl).mono fun _ h _ => h

theorem assignment_sees (path : List Nat) (loc : Location) (op : Option CompoundOp)
    (target : Location) (name : String) (value : Expr) (defining : Bool) :
    Sees (assignment path loc op target name value defining) fun _ => True := by
  cases op with
  | some op =>
    refine (sees_bind (occurrence_sees path name false) fun _ =>
      sees_bind (occurrence_sees path name defining) fun _ => mark_sees ?_).mono fun _ _ => trivial
    exact fun _ h => h
  | none =>
    refine (sees_bind (occurrence_sees path name defining) fun _ => ?_).mono fun _ h => h.2
    split
    · exact mark_sees fun _ h => h
    · exact mark_sees fun _ h => h

theorem stepped_sees (path : List Nat) (loc : Location) (increment : Bool) (target : Location)
    (name : String) : Sees (stepped path loc increment target name) fun _ => True := by
  refine (sees_bind (occurrence_sees path name false) fun _ => mark_sees ?_).mono fun _ h => h.2
  exact fun _ h => h

/-! ## Expressions -/

mutual

theorem expr_sees (path : List Nat) : (e : Expr) → (role : Role) →
    Sees (expr path role e) fun P => e.Writes P ∧ (role = .written → e.Roots P)
  | .lit .., _ => by
    rw [expr]
    exact (sees_pure ()).mono fun P _ => by simp [Expr.Writes, Expr.Roots]
  | .var _ name, role => by
    rw [expr]
    refine (read_sees path name (role != .value)).mono fun P h => ⟨trivial, ?_⟩
    rintro rfl
    exact h rfl
  | .binary _ _ l r, _ => by
    rw [expr]
    exact (sees_bind (expr_sees path l .value) fun _ => expr_sees path r .value).mono
      fun P h => by simpa [Expr.Writes, Expr.Roots] using h
  | .unary _ _ e, _ => by
    rw [expr]
    exact (expr_sees path e .value).mono fun P h => by simpa [Expr.Writes, Expr.Roots] using h
  | .assign loc op (.var target name) value, _ => by
    rw [expr]
    exact (sees_bind (expr_sees path value .value) fun _ => assignment_sees ..).mono
      fun P h => by simpa [Expr.Writes, Expr.Roots] using h
  | .assign loc op (.lit ..) value, _ | .assign loc op (.binary ..) value, _
  | .assign loc op (.unary ..) value, _ | .assign loc op (.assign ..) value, _
  | .assign loc op (.incDec ..) value, _ | .assign loc op (.ternary ..) value, _
  | .assign loc op (.array ..) value, _ | .assign loc op (.index ..) value, _
  | .assign loc op (.call ..) value, _ | .assign loc op (.method ..) value, _
  | .assign loc op (.create ..) value, _ | .assign loc op (.prop ..) value, _ => by
    rw [expr]
    · exact (sees_bind (expr_sees path value .escaping) fun _ => expr_sees path _ .written).mono
        fun P h => ⟨by simpa [Expr.Writes] using ⟨h.1.1, h.2.2 rfl⟩, by simp [Expr.Roots]⟩
    · simp
  | .incDec loc increment before (.var target name), _ => by
    rw [expr]
    exact (stepped_sees path loc increment target name).mono
      fun P _ => by simp [Expr.Writes, Expr.Roots]
  | .incDec _ _ _ (.lit ..), _ | .incDec _ _ _ (.binary ..), _ | .incDec _ _ _ (.unary ..), _
  | .incDec _ _ _ (.assign ..), _ | .incDec _ _ _ (.incDec ..), _ | .incDec _ _ _ (.ternary ..), _
  | .incDec _ _ _ (.array ..), _ | .incDec _ _ _ (.index ..), _ | .incDec _ _ _ (.call ..), _
  | .incDec _ _ _ (.method ..), _ | .incDec _ _ _ (.create ..), _ | .incDec _ _ _ (.prop ..), _ => by
    rw [expr]
    · exact (expr_sees path _ .written).mono
        fun P h => ⟨by simpa [Expr.Writes] using h.2 rfl, by simp [Expr.Roots]⟩
    · simp
  | .ternary _ c t e, _ => by
    rw [expr]
    exact (sees_bind (expr_sees path c .value) fun _ => sees_bind (expr_sees path t .value)
      fun _ => expr_sees path e .value).mono fun P h => by simpa [Expr.Writes, Expr.Roots] using h
  | .array _ items, _ => by
    rw [expr]
    exact (arrayItems_sees path items).mono fun P h => by simpa [Expr.Writes, Expr.Roots] using h
  | .index _ base none, role => by
    rw [expr]
    refine (expr_sees path base role.base).mono fun P h => ⟨by simpa [Expr.Writes] using h.1, ?_⟩
    rintro rfl
    simpa [Expr.Roots] using h.2 rfl
  | .index _ base (some key), role => by
    rw [expr]
    refine (sees_bind (expr_sees path base role.base) fun _ => expr_sees path key .value).mono
      fun P h => ⟨by simpa [Expr.Writes] using ⟨h.1.1, h.2.1⟩, ?_⟩
    rintro rfl
    simpa [Expr.Roots] using ⟨h.1.2 rfl, h.2.1⟩
  | .call _ _ args, _ => by
    rw [expr]
    exact (exprs_sees path .escaping args).mono fun P h => by simpa [Expr.Writes, Expr.Roots] using h
  | .method _ object _ args, _ => by
    rw [expr]
    exact (sees_bind (expr_sees path object .escaping) fun _ => exprs_sees path .escaping args).mono
      fun P h => ⟨by simpa [Expr.Writes] using ⟨h.1.1, h.2⟩, by simp [Expr.Roots]⟩
  | .create _ _ args, _ => by
    rw [expr]
    exact (exprs_sees path .escaping args).mono fun P h => by simpa [Expr.Writes, Expr.Roots] using h
  | .prop _ object _, _ => by
    rw [expr]
    exact (expr_sees path object .escaping).mono
      fun P h => ⟨by simpa [Expr.Writes] using h.1, fun _ => by simpa [Expr.Roots] using h.1⟩

theorem exprs_sees (path : List Nat) (role : Role) : (es : List Expr) →
    Sees (exprs path role es) fun P => Expr.allWrite P es
  | [] => by
    rw [exprs]
    exact (sees_pure ()).mono fun P _ => by simp [Expr.allWrite]
  | e :: rest => by
    rw [exprs]
    exact (sees_bind (expr_sees path e role) fun _ => exprs_sees path role rest).mono
      fun P h => by simpa [Expr.allWrite] using ⟨h.1.1, h.2⟩

theorem arrayItems_sees (path : List Nat) : (items : List (Option Expr × Expr)) →
    Sees (arrayItems path items) fun P => Expr.itemsWrite P items
  | [] => by
    rw [arrayItems]
    exact (sees_pure ()).mono fun P _ => by simp [Expr.itemsWrite]
  | (none, v) :: rest => by
    rw [arrayItems]
    exact (sees_bind (expr_sees path v .escaping) fun _ => arrayItems_sees path rest).mono
      fun P h => by simpa [Expr.itemsWrite] using ⟨h.1.1, h.2⟩
  | (some k, v) :: rest => by
    rw [arrayItems]
    exact (sees_bind (expr_sees path k .value) fun _ => sees_bind (expr_sees path v .escaping)
      fun _ => arrayItems_sees path rest).mono
      fun P h => by simpa [Expr.itemsWrite] using ⟨h.1.1, h.2.1.1, h.2.2⟩

end

theorem option_sees (path : List Nat) (role : Role) (e : Option Expr) :
    Sees (option path role e) fun P => ∀ x ∈ e, x.Writes P := by
  cases e with
  | none => exact (sees_pure ()).mono fun P _ => nofun
  | some e => exact (expr_sees path e role).mono fun P h x hx => by cases hx; exact h.1

theorem statementExpr_sees (path : List Nat) (e : Expr) :
    Sees (statementExpr path e) fun P => e.Writes P := by
  unfold statementExpr
  split
  · exact (sees_bind (expr_sees path _ .value) fun _ => assignment_sees ..).mono
      fun P h => by simpa [Expr.Writes] using h.1.1
  · exact (expr_sees path _ .value).mono fun P h => h.1

theorem statementExprs_sees (path : List Nat) (es : List Expr) :
    Sees (es.forM (statementExpr path)) fun P => Expr.allWrite P es := by
  induction es with
  | nil => exact (sees_pure ()).mono fun P _ => by simp [Expr.allWrite]
  | cons e rest ih =>
    exact (sees_bind (statementExpr_sees path e) fun _ => ih).mono
      fun P h => by simpa [Expr.allWrite] using h

/-! ## Statements -/

mutual

theorem stmt_sees (path : List Nat) : (s : Stmt) → Sees (stmt path s) fun P => s.Writes P
  | .expr _ e => by
    rw [stmt]
    exact (statementExpr_sees path e).mono fun P h => by simpa [Stmt.Writes] using h
  | .echo _ args => by
    rw [stmt]
    exact (exprs_sees path .value args).mono fun P h => by simpa [Stmt.Writes] using h
  | .ifElse _ c t e => by
    rw [stmt]
    exact (sees_bind (expr_sees path c .value) fun _ => sees_bind (block_sees path t)
      fun _ => block_sees path e).mono fun P h => by simpa [Stmt.Writes] using ⟨h.1.1, h.2⟩
  | .whileDo _ c body => by
    rw [stmt]
    exact (sees_bind (enter_sees path) fun path => sees_bind (expr_sees path c .value)
      fun _ => block_sees path body).mono fun P h => by simpa [Stmt.Writes] using ⟨h.2.1.1, h.2.2⟩
  | .doWhile _ body c => by
    rw [stmt]
    exact (sees_bind (enter_sees path) fun path => sees_bind (block_sees path body)
      fun _ => expr_sees path c .value).mono fun P h => by simpa [Stmt.Writes] using ⟨h.2.1, h.2.2.1⟩
  | .forLoop _ init c post body => by
    rw [stmt]
    exact (sees_bind (statementExprs_sees path init) fun _ => sees_bind (enter_sees path)
      fun path => sees_bind (option_sees path .value c) fun _ => sees_bind (block_sees path body)
      fun _ => exprs_sees path .value post).mono
      fun P h => by simpa [Stmt.Writes] using ⟨h.1, h.2.2⟩
  | .foreach _ subject key value body => by
    rw [stmt]
    have key_sees (path : List Nat) : Sees (key.forM fun k => forced path k false)
        fun P => ∀ k ∈ key, P k := by
      cases key with
      | none => exact (sees_pure ()).mono fun P _ => nofun
      | some k => exact (forced_sees path k false).mono fun P h x hx => by cases hx; exact h
    exact (sees_bind (expr_sees path subject .escaping) fun _ => sees_bind (enter_sees path)
      fun path => sees_bind (key_sees path) fun _ => sees_bind (forced_sees path value false)
      fun _ => block_sees path body).mono fun P h => by simpa [Stmt.Writes] using ⟨h.1.1, h.2.2⟩
  | .switch _ subject cases => by
    rw [stmt]
    exact (sees_bind (expr_sees path subject .value) fun _ => sees_bind (enter_sees path)
      fun path => switchCases_sees path cases).mono
      fun P h => by simpa [Stmt.Writes] using ⟨h.1.1, h.2.2⟩
  | .ret _ v => by
    rw [stmt]
    exact (option_sees path .escaping v).mono fun P h => by simpa [Stmt.Writes] using h
  | .leave .. | .next .. | .function .. | .classDecl .. => by
    rw [stmt]
    exact (sees_pure ()).mono fun P _ => by simp [Stmt.Writes]

theorem block_sees (path : List Nat) (body : List Stmt) :
    Sees (block path body) fun P => Stmt.allWrite P body := by
  rw [block]
  exact (sees_bind (enter_sees path) fun path => stmts_sees path body).mono fun P h => h.2

theorem stmts_sees (path : List Nat) : (body : List Stmt) →
    Sees (stmts path body) fun P => Stmt.allWrite P body
  | [] => by
    rw [stmts]
    exact (sees_pure ()).mono fun P _ => by simp [Stmt.allWrite]
  | s :: rest => by
    rw [stmts]
    exact (sees_bind (stmt_sees path s) fun _ => stmts_sees path rest).mono
      fun P h => by simpa [Stmt.allWrite] using h

theorem switchCases_sees (path : List Nat) : (cases : List (Option Expr × List Stmt)) →
    Sees (switchCases path cases) fun P => Stmt.casesWrite P cases
  | [] => by
    rw [switchCases]
    exact (sees_pure ()).mono fun P _ => by simp [Stmt.casesWrite]
  | (m, body) :: rest => by
    rw [switchCases]
    exact (sees_bind (option_sees path .value m) fun _ => sees_bind (block_sees path body)
      fun _ => switchCases_sees path rest).mono fun P h => by simpa [Stmt.casesWrite] using h

end

theorem function_sees (f : Function) (isMethod : Bool) :
    Sees (function f isMethod) fun P => Stmt.allWrite P f.body := by
  have params_sees (ps : List String) : Sees (ps.forM fun p => forced [] p true) fun _ => True := by
    induction ps with
    | nil => exact sees_pure ()
    | cons p rest ih =>
      exact (sees_bind (forced_sees [] p true) fun _ => ih).mono fun _ h => h.2
  have rest := sees_bind (params_sees f.params) fun _ => stmts_sees [] f.body
  unfold function
  cases isMethod with
  | false => exact rest.mono fun P h => h.2
  | true => exact (sees_bind (forced_sees [] "this" true) fun _ => rest).mono fun P h => h.2.2

end Walk

/-! ## Storage -/

/-- The types found so far and those of the variables still to come. -/
theorem mem_foldl_candidates {uses : List (String × VarUse)} {n : String} {t : StaticType}
    (seen : VarTypes) (hs : (n, t) ∈ uses.foldl (fun types (name, u) =>
      match u.assigned with
      | e :: _ =>
        let t := e.staticType types.get
        if u.isCandidate && t.isNumeric then types ++ [(name, t)] else types
      | [] => types) seen) :
    (n, t) ∈ seen ∨ ∃ use, (n, use) ∈ uses ∧ use.isCandidate = true := by
  induction uses generalizing seen with
  | nil => exact .inl hs
  | cons p rest ih =>
    obtain ⟨m, u⟩ := p
    rw [List.foldl_cons] at hs
    rcases ih _ hs with hs | ⟨use, hu, hc⟩
    · dsimp only at hs
      split at hs
      · split at hs
        · rename_i hc
          rw [Bool.and_eq_true] at hc
          rcases List.mem_append.1 hs with hs | hs
          · exact .inl hs
          · rw [List.mem_singleton] at hs
            cases hs
            exact .inr ⟨u, by simp, hc.1⟩
        · exact .inl hs
      · exact .inl hs
    · exact .inr ⟨use, by simp [hu], hc⟩

theorem mem_candidateTypes {uses : List (String × VarUse)} {n : String} {t : StaticType}
    (h : (n, t) ∈ candidateTypes uses) : ∃ use, (n, use) ∈ uses ∧ use.isCandidate = true := by
  rcases mem_foldl_candidates [] h with h | h
  · cases h
  · exact h

/-- Giving up types keeps the variables, whatever is still to be looked at. -/
theorem map_foldl_demote (uses : List (String × VarUse)) (todo now : VarTypes) :
    (todo.foldl (fun now (name, t) =>
      if t != .unknown && !agrees uses now name t then
        now.map fun e => if e.1 = name then (name, .unknown) else e
      else now) now).map Prod.fst = now.map Prod.fst := by
  induction todo generalizing now with
  | nil => rfl
  | cons p rest ih =>
    obtain ⟨name, t⟩ := p
    rw [List.foldl_cons, ih]
    dsimp only
    split
    · rw [List.map_map]
      refine List.map_congr_left fun e _ => ?_
      rw [Function.comp_apply]
      split <;> simp_all
    · rfl

theorem map_demote (uses : List (String × VarUse)) (types : VarTypes) :
    (demote uses types).map Prod.fst = types.map Prod.fst :=
  map_foldl_demote uses types types

theorem map_settle (uses : List (String × VarUse)) (fuel : Nat) (types : VarTypes) :
    (settle uses fuel types).map Prod.fst = types.map Prod.fst := by
  fun_induction settle uses fuel types with
  | case1 => rfl
  | case2 => rfl
  | case3 fuel types next hne ih => rw [ih, map_demote]

theorem lookup_of_mem {β : Type} {vars : List (String × β)} (h : (vars.map Prod.fst).Nodup)
    {n : String} {u : β} (hm : (n, u) ∈ vars) : vars.lookup n = some u := by
  induction vars with
  | nil => cases hm
  | cons p rest ih =>
    rw [List.map_cons, List.nodup_cons] at h
    rcases List.mem_cons.1 hm with rfl | hm
    · simp
    · have hne : n ≠ p.1 := by
        intro he
        exact h.1 (List.mem_map.2 ⟨(n, u), hm, he⟩)
      rw [List.lookup_cons, beq_false_of_ne hne]
      exact ih h.2 hm

theorem lookup_map_entries {β : Type} (g : String → VarUse → β) (vars : List (String × VarUse))
    (n : String) : (vars.map fun p => (p.1, g p.1 p.2)).lookup n = (vars.lookup n).map (g n) := by
  induction vars with
  | nil => rfl
  | cons p rest ih =>
    rw [List.map_cons, List.lookup_cons, List.lookup_cons]
    by_cases h : n = p.1
    · simp [h]
    · rw [beq_false_of_ne h]
      exact ih

theorem mem_of_numericTypes {uses : List (String × VarUse)} {n : String}
    (h : (numericTypes uses).get n ≠ .unknown) :
    ∃ use, (n, use) ∈ uses ∧ use.isCandidate = true := by
  have hsome : (numericTypes uses).lookup n ≠ none := by
    intro hnone
    rw [VarTypes.get, hnone] at h
    exact h rfl
  rw [ne_eq, List.lookup_eq_none_iff, not_forall] at hsome
  obtain ⟨p, hp⟩ := hsome
  rw [Classical.not_imp, bne_iff_ne, ne_eq, not_not] at hp
  obtain ⟨hp, rfl⟩ := hp
  have hmem := List.mem_map_of_mem (f := Prod.fst) hp
  rw [numericTypes, map_settle, List.mem_map] at hmem
  obtain ⟨q, hq, heq⟩ := hmem
  rw [← heq]
  exact mem_candidateTypes (t := q.2) hq

abbrev Function.uses (f : Function) (this : Option String) : Uses :=
  ((Walk.function f this.isSome).run {}).2

theorem Function.uses_unique (f : Function) (this : Option String) : (Function.uses f this).Unique :=
  (Walk.function_sees f this.isSome).unique {} List.nodup_nil

/-- A variable is held as its type asks, if the function is optimized. -/
theorem Function.facts_storage (f : Function) (this : Option String) (optimize : Bool) (n : String) :
    ((Function.facts f this optimize).lookup n).storage =
      if optimize then .ofType ((numericTypes (Function.uses f this).vars).get n) else .boxed := by
  let types := numericTypes (Function.uses f this).vars
  let settled (name : String) (u : VarUse) : VarFacts :=
    let facts := u.facts optimize (types.get name)
    if this.isSome ∧ name = "this" then { facts with className := this } else facts
  have hf : (Function.facts f this optimize).lookup n =
      (((Function.uses f this).vars.lookup n).map (settled n)).getD {} := by
    unfold FunctionFacts.lookup Function.facts
    rw [lookup_map_entries settled]
  rw [hf]
  cases hl : (Function.uses f this).vars.lookup n with
  | some use =>
    have hstorage : (settled n use).storage = (use.facts optimize (types.get n)).storage := by
      dsimp only [settled]
      split <;> rfl
    exact hstorage
  | none =>
    have hnone : (numericTypes (Function.uses f this).vars).get n = .unknown := by
      by_contra hne
      obtain ⟨use, hu, -⟩ := mem_of_numericTypes hne
      rw [lookup_of_mem (Function.uses_unique f this) hu] at hl
      cases hl
    rw [hnone]
    cases optimize <;> rfl

end HeapScript
