import HeapScript.Proofs.Compile.Assembly

/-!
# The errors of a program

Every function of a program is compiled on its own: it reports at most one error, and which one
depends on its own statements and on the heads of the declarations. The errors of a program are those
of its declarations, then those of its functions in order.
-/

namespace HeapScript

/-! ## Heads of programs -/

/-- A declaration without bodies and defaults. -/
def Stmt.head : Stmt → Stmt
  | function decl => function decl.head
  | classDecl loc name properties methods =>
    classDecl loc name (properties.map PropertyDecl.head) (methods.map FunctionDecl.head)
  | s => s

/-- The declarations of a program without bodies and defaults. -/
def Program.heads (p : Program) : Program := (p.filter Stmt.isDecl).map Stmt.head

namespace Compile

open Machine Library Gen

namespace Collection

/-- What was collected, without bodies and defaults. -/
def heads (c : Collection) : Collection := { c with decls := c.decls.heads }

theorem addFunction_heads (c : Collection) (decl : Function) :
    (c.addFunction decl).heads = c.heads.addFunction decl.head := by
  have hfind : c.heads.decls.function? decl.head.name =
      (c.decls.function? decl.name).map FunctionInfo.head := by
    simp only [Declarations.function?, heads, Declarations.heads, List.find?_map]
    rfl
  unfold addFunction
  rw [hfind]
  cases c.decls.function? decl.name with
  | some f => rfl
  | none => simp [heads, Declarations.heads, FunctionInfo.head, FunctionDecl.head]

theorem collectProps_head (name : String) (loc : Location) (ps : List PropertyDecl)
    (found : List String × List Diagnostic) :
    collectProps name loc (ps.map PropertyDecl.head) found = collectProps name loc ps found := by
  induction ps generalizing found with
  | nil => rfl
  | cons p ps ih =>
    obtain ⟨props, errors⟩ := found
    simp only [List.map_cons, collectProps, PropertyDecl.head]
    split
    · exact ih _
    · exact ih _

theorem collectMethods_head (name : String) (next : Nat) (ms : List Function)
    (infos : List FunctionInfo) (errors : List Diagnostic) :
    collectMethods name next (ms.map FunctionDecl.head) (infos.map FunctionInfo.head, errors) =
      ((collectMethods name next ms (infos, errors)).1.map FunctionInfo.head,
        (collectMethods name next ms (infos, errors)).2) := by
  induction ms generalizing infos errors with
  | nil => rfl
  | cons m ms ih =>
    have hany : ((infos.map FunctionInfo.head).any fun f => f.decl.name == m.name) =
        infos.any fun f => f.decl.name == m.name := by
      rw [List.any_map]
      rfl
    simp only [List.map_cons, collectMethods, FunctionDecl.head, hany]
    split
    · exact ih _ _
    · have := ih (infos ++ [⟨name ++ "::" ++ m.name, next + infos.length, m⟩]) errors
      rw [← this]
      simp [FunctionInfo.head, FunctionDecl.head]

theorem addClass_heads (c : Collection) (loc : Location) (name : String)
    (properties : List PropertyDecl) (methods : List Function) :
    (c.addClass loc name properties methods).heads =
      c.heads.addClass loc name (properties.map PropertyDecl.head)
        (methods.map FunctionDecl.head) := by
  have hfind : c.heads.decls.class? name = (c.decls.class? name).map ClassInfo.head := by
    simp only [Declarations.class?, heads, Declarations.heads, List.find?_map]
    rfl
  have hmethods := collectMethods_head name (c.decls.count + 1) methods [] []
  rw [List.map_nil] at hmethods
  unfold addClass
  rw [hfind]
  cases c.decls.class? name with
  | some k => rfl
  | none =>
    simp only [Option.map_none, heads, Declarations.heads, collectProps_head, hmethods]
    simp [ClassInfo.head]

/-- Collecting sees the heads of declarations only. -/
theorem ofProgram_heads (p : Program) : (ofProgram p).heads = ofProgram p.heads := by
  have hstep (p : Program) (c : Collection) :
      (p.foldl (fun c s => match s with
        | .function decl => c.addFunction decl
        | .classDecl loc name properties methods => c.addClass loc name properties methods
        | _ => c) c).heads =
      (Program.heads p).foldl (fun c s => match s with
        | .function decl => c.addFunction decl
        | .classDecl loc name properties methods => c.addClass loc name properties methods
        | _ => c) c.heads := by
    induction p generalizing c with
    | nil => rfl
    | cons s p ih =>
      cases s with
      | function decl =>
        simp only [Program.heads, List.filter_cons, Stmt.isDecl, if_true, List.map_cons, Stmt.head,
          List.foldl_cons]
        rw [← addFunction_heads]
        exact ih _
      | classDecl loc name properties methods =>
        simp only [Program.heads, List.filter_cons, Stmt.isDecl, if_true, List.map_cons, Stmt.head,
          List.foldl_cons]
        rw [← addClass_heads]
        exact ih _
      | expr | echo | ifElse | whileDo | doWhile | forLoop | foreach | switch | leave | next | ret =>
        exact ih c
  exact hstep p {}

end Collection

/-- Programs with the same heads have the same declarations, up to bodies and defaults, and the same
errors in them. -/
theorem collected_eq {p q : Program} (h : Program.heads p = Program.heads q) :
    (Program.decls p).heads = (Program.decls q).heads ∧
      (Collection.ofProgram p).errors = (Collection.ofProgram q).errors := by
  have heq : (Collection.ofProgram p).heads = (Collection.ofProgram q).heads := by
    rw [Collection.ofProgram_heads, Collection.ofProgram_heads, h]
  exact ⟨congrArg Collection.decls heq,
    show (Collection.ofProgram p).heads.errors = (Collection.ofProgram q).heads.errors from
      congrArg Collection.errors heq⟩

/-! ## The error of a function -/

/-- The error of a function that is compiled on its own. -/
def Gen.fault (gen : Gen Body) (params : Nat) : Option Diagnostic :=
  match gen.step (Draft.start { strings := #[] } #[] params) with
  | (.error e, _) => some e
  | (.ok _, _) => none

theorem Gen.Agree.fault_eq {x y : Gen Body} (h : Agree x y) (params : Nat) :
    x.fault params = y.fault params := by
  have hagree := h (Draft.start { strings := #[] } #[] params) _ ⟨rfl, rfl⟩
  revert hagree
  unfold fault
  rcases step x _ with ⟨r | a, d⟩ <;> rcases step y _ with ⟨s | b, e⟩ <;> intro hagree
  · rw [hagree.1]
  · exact hagree.elim
  · exact hagree.elim
  · rfl

theorem quoting_eq {c c' : Collector} (h : c.lines = c'.lines) : c.quoting = c'.quoting := by
  funext d
  simp only [Collector.quoting, h]

theorem errors_add (c : Collector) {d : Diagnostic} (h : d.level ≠ .warning) :
    (c.add d).errors = c.errors ++ [c.quoting d] := by
  have hlevel : (c.quoting d).level = d.level := by
    unfold Collector.quoting
    split
    · split <;> rfl
    · rfl
  simp only [Collector.add, hlevel, if_neg h]

theorem lines_add (c : Collector) (d : Diagnostic) : (c.add d).lines = c.lines := by
  unfold Collector.add
  dsimp only
  split <;> rfl

theorem Session.add_eq (s : Session) (name : String) (params : Nat) (gen : Gen Body) :
    s.add name params gen = match gen.step (Draft.start s.pool s.notes params) with
      | (.ok b, d) =>
        { s with pool := d.pool, notes := d.notes.push b.note, bodies := s.bodies.push b }
      | (.error e, d) =>
        { s with pool := d.pool, notes := d.notes.push ("  " ++ name ++ ": " ++ e.text)
                 errors := s.errors.add e } :=
  rfl

/-- A collector has further errors, with the same lines to quote. -/
structure Reports (c c' : Collector) (errors : List Diagnostic) : Prop where
  errors : c'.errors = c.errors ++ errors.map c.quoting
  lines : c'.lines = c.lines

theorem Reports.nil (c : Collector) : Reports c c [] := ⟨(List.append_nil _).symm, rfl⟩

theorem Reports.trans {c c' c'' : Collector} {errors errors' : List Diagnostic}
    (h : Reports c c' errors) (h' : Reports c' c'' errors') : Reports c c'' (errors ++ errors') := by
  refine ⟨?_, h'.lines.trans h.lines⟩
  rw [h'.errors, h.errors, quoting_eq h.lines, List.map_append, List.append_assoc]

theorem Reports.add (c : Collector) {d : Diagnostic} (h : d.level ≠ .warning) :
    Reports c (c.add d) [d] :=
  ⟨errors_add c h, lines_add c d⟩

/-- Compiling a function after others reports the error that it has on its own. -/
theorem Gen.Agree.reports {gen : Gen Body} (h : Agree gen gen) (s : Session) (name : String)
    (params : Nat) : Reports s.errors (s.add name params gen).errors (gen.fault params).toList := by
  have hagree := h (Draft.start s.pool s.notes params) (Draft.start { strings := #[] } #[] params)
    ⟨rfl, rfl⟩
  revert hagree
  rw [Session.add_eq]
  unfold fault
  rcases step gen (Draft.start s.pool s.notes params) with ⟨r | a, d⟩ <;>
    rcases step gen (Draft.start { strings := #[] } #[] params) with ⟨r' | b, e⟩ <;> intro hagree
  · obtain ⟨rfl, hlevel⟩ := hagree
    exact .add s.errors hlevel
  · exact hagree.elim
  · exact hagree.elim
  · exact .nil s.errors

/-- What is fixed while a function of a program is compiled. -/
def Job.context (o : Options) (d : Declarations) (l : Links) (j : Job) : Context where
  decls := d
  links := l
  name := j.info.name
  facts := j.facts
  isMain := j.isMain
  optimize := o.optimize
  unroll := o.unroll

/-- The error of a function of a program. -/
def Job.fault (p : Program) (o : Options) (j : Job) : Option Diagnostic :=
  (Gen.function (j.context o (Program.decls p) (Program.links p)) j.info j.params).fault
    j.params.length

/-- What is fixed while the constructor of a class is compiled. -/
def ClassInfo.context (o : Options) (d : Declarations) (l : Links) (k : ClassInfo) : Context where
  decls := d
  links := l
  name := k.name ++ "::__new"
  optimize := o.optimize
  unroll := o.unroll

/-- The error of the constructor of a class. -/
def ClassInfo.fault (p : Program) (o : Options) (k : ClassInfo) : Option Diagnostic :=
  (Gen.creator (k.context o (Program.decls p) (Program.links p)) k).fault k.arity

/-! ## The errors of a program -/

/-- A function of a program, with the class of its receiver if that is known. -/
structure Site where
  info : FunctionInfo
  this : Option String := none
  isMain : Bool := false
  isMethod : Bool := false

/-- A function without its body. -/
def Site.head (s : Site) : Site := { s with info := s.info.head }

/-- A function with what is settled about it. -/
def Site.job (optimize : Bool) (s : Site) : Job where
  info := s.info
  facts := Function.facts s.info.decl s.this optimize
  isMain := s.isMain
  isMethod := s.isMethod

/-- The functions of a program: the statements that run, the free functions, the methods. -/
def Program.sites (p : Program) : List Site :=
  [{ info := mainInfo p (Program.decls p), isMain := true }] ++
  ((Program.decls p).functions.map fun f => { info := f }) ++
  (Program.decls p).classes.flatMap fun k => k.methods.map fun m =>
    { info := m, this := k.known?, isMethod := true }

theorem jobs_eq (p : Program) (optimize : Bool) :
    jobs p (Program.decls p) optimize = (Program.sites p).map (Site.job optimize) := by
  simp [jobs, Program.sites, Site.job, List.map_flatMap, Function.comp_def]
  rfl

/-- The error of a function of a program. -/
def Site.fault (p : Program) (o : Options) (s : Site) : Option Diagnostic :=
  (s.job o.optimize).fault p o

/-- The errors of a program: those of its declarations, then those of its functions, then those of its
constructors. -/
def Program.faults (p : Program) (o : Options) : List Diagnostic :=
  (Collection.ofProgram p).errors ++ (Program.sites p).filterMap (Site.fault p o) ++
    (Program.decls p).classes.filterMap (ClassInfo.fault p o)

/-- A diagnostic with the line of the document that it is about. -/
def quoted (o : Options) : Diagnostic → Diagnostic :=
  ((Collector.withLimit 100).withSource o.source).quoting

section Reports

variable {p : Program} {o : Options}

theorem addJob_reports (s : Session) (j : Job) :
    Reports s.errors (s.addJob o (Program.decls p) (Program.links p) j).errors
      (j.fault p o).toList :=
  (function_agrees (c := j.context o (Program.decls p) (Program.links p)) rfl j.info
    j.params).reports { s with notes := s.notes.push ("compiling " ++ j.info.name) } _ _

theorem addClass_reports (s : Session) (k : ClassInfo) :
    Reports s.errors (s.addClass o (Program.decls p) (Program.links p) k).errors
      (k.fault p o).toList :=
  (creator_agrees (c := k.context o (Program.decls p) (Program.links p)) rfl rfl).reports s _ _

/-- Compiling one function after the other reports one error after the other. -/
theorem foldl_reports {α : Type} {add : Session → α → Session} {fault : α → Option Diagnostic}
    (h : ∀ (s : Session) x, Reports s.errors (add s x).errors (fault x).toList) (xs : List α)
    (s : Session) : Reports s.errors (xs.foldl add s).errors (xs.filterMap fault) := by
  induction xs generalizing s with
  | nil => exact .nil s.errors
  | cons x xs ih =>
    have hfirst := (h s x).trans (ih (add s x))
    rw [List.foldl_cons, List.filterMap_cons]
    cases hx : fault x <;> simpa [hx] using hfirst

def Twice (errors : List Diagnostic) : Prop := ∀ e ∈ errors, ∃ what loc, e = declaredTwice what loc

theorem Twice.append {errors errors' : List Diagnostic} (h : Twice errors) (h' : Twice errors') :
    Twice (errors ++ errors') := by
  intro e he
  rcases List.mem_append.mp he with he | he
  · exact h e he
  · exact h' e he

theorem twice_singleton (what : String) (loc : Location) : Twice [declaredTwice what loc] := by
  intro e he
  exact ⟨what, loc, List.mem_singleton.mp he⟩

theorem twice_collectProps {name : String} {loc : Location} {ps : List PropertyDecl}
    {props : List String} {errors : List Diagnostic} (h : Twice errors) :
    Twice (Collection.collectProps name loc ps (props, errors)).2 := by
  induction ps generalizing props errors with
  | nil => exact h
  | cons q ps ih =>
    simp only [Collection.collectProps]
    split
    · exact ih (h.append (twice_singleton _ _))
    · exact ih h

theorem twice_collectMethods {name : String} {next : Nat} {ms : List Function}
    {infos : List FunctionInfo} {errors : List Diagnostic} (h : Twice errors) :
    Twice (Collection.collectMethods name next ms (infos, errors)).2 := by
  induction ms generalizing infos errors with
  | nil => exact h
  | cons m ms ih =>
    simp only [Collection.collectMethods]
    split
    · exact ih (h.append (twice_singleton _ _))
    · exact ih h

theorem twice_ofProgram (p : Program) : Twice (Collection.ofProgram p).errors := by
  have hnil : Twice [] := fun _ he => absurd he List.not_mem_nil
  unfold Collection.ofProgram
  refine List.foldlRecOn p _ (motive := fun c : Collection => Twice c.errors) hnil fun c hc s _ => ?_
  cases s with
  | function decl =>
    simp only [Collection.addFunction]
    split
    · exact Twice.append hc (twice_singleton _ _)
    · exact hc
  | classDecl loc name properties methods =>
    simp only [Collection.addClass]
    split
    · exact Twice.append hc (twice_singleton _ _)
    · exact (Twice.append hc (twice_collectProps hnil)).append (twice_collectMethods hnil)
  | expr | echo | ifElse | whileDo | doWhile | forLoop | foreach | switch | leave | next | ret =>
    exact hc

theorem errors_of_session (p : Program) (o : Options) :
    (Program.session p o).errors.errors = (Program.faults p o).map (quoted o) := by
  have hdecls (errors : List Diagnostic) (h : Twice errors) (c : Collector) :
      Reports c (errors.foldl Collector.add c) errors := by
    induction errors generalizing c with
    | nil => exact .nil c
    | cons e errors ih =>
      obtain ⟨what, loc, rfl⟩ := h _ List.mem_cons_self
      exact (Reports.add c (d := declaredTwice what loc) nofun).trans (ih (fun e he => h e (List.mem_cons_of_mem _ he)) _)
  have hopening := hdecls _ (twice_ofProgram p) ((Collector.withLimit 100).withSource o.source)
  have hjobs := foldl_reports (addJob_reports (p := p) (o := o))
    (jobs p (Program.decls p) o.optimize) (Program.opening p o)
  have hclasses := foldl_reports (addClass_reports (p := p) (o := o)) (Program.decls p).classes
    ((jobs p (Program.decls p) o.optimize).foldl
      (Session.addJob o (Program.decls p) (Program.links p)) (Program.opening p o))
  have hsites : (jobs p (Program.decls p) o.optimize).filterMap (Job.fault p o) =
      (Program.sites p).filterMap (Site.fault p o) := by
    rw [jobs_eq, List.filterMap_map]
    rfl
  rw [hsites] at hjobs
  exact ((hopening.trans hjobs).trans hclasses).errors

end Reports

/-! ## Isolation -/

section Isolation

variable {p q : Program} {o : Options}

theorem links_eq (h : (Program.decls p).heads = (Program.decls q).heads) :
    Program.links p = Program.links q := by
  have hcount : (Program.decls p).count = (Program.decls q).count :=
    show (Program.decls p).heads.count = (Program.decls q).heads.count from
      congrArg Declarations.count h
  rw [Program.links, hcount]

theorem Job.fault_eq (h : (Program.decls p).heads = (Program.decls q).heads) (j : Job) :
    j.fault p o = j.fault q o := by
  unfold Job.fault
  rw [← links_eq h]
  exact (function_agrees (c := j.context o (Program.decls p) (Program.links p)) h j.info
    j.params).fault_eq _

theorem ClassInfo.fault_eq (h : (Program.decls p).heads = (Program.decls q).heads)
    {k k' : ClassInfo} (hk : k.head = k'.head) (hd : k.defaults = k'.defaults) :
    k.fault p o = k'.fault q o := by
  have hname : k.name = k'.name :=
    show k.head.name = k'.head.name from congrArg ClassInfo.name hk
  have harity : k.arity = k'.arity := by
    rw [← ClassInfo.arity_head k, ← ClassInfo.arity_head k', hk]
  unfold ClassInfo.fault ClassInfo.context
  rw [← links_eq h, hname, harity]
  exact (creator_agrees (c := k'.context o (Program.decls p) (Program.links p)) h hd).fault_eq _

/-- The functions of programs with the same heads correspond. -/
theorem sites_head (h : (Program.decls p).heads = (Program.decls q).heads) :
    (Program.sites p).map Site.head = (Program.sites q).map Site.head := by
  have hcount : (Program.decls p).count = (Program.decls q).count :=
    show (Program.decls p).heads.count = (Program.decls q).heads.count from
      congrArg Declarations.count h
  have hfunctions := Declarations.map_functions_eq h
    (fun f : FunctionInfo => ({ info := f.head } : Site)) fun _ => rfl
  have hmethods := Declarations.map_classes_eq h
    (fun k => k.methods.map fun m =>
      ({ info := m.head, this := k.known?, isMethod := true } : Site)) fun k => by
    simp only [ClassInfo.head, List.map_map]
    rfl
  simp only [Program.sites, List.map_append, List.map_cons, List.map_nil, List.map_map,
    List.map_flatMap, Site.head, Function.comp_def, mainInfo, hcount, FunctionInfo.head] at *
  rw [hfunctions, List.flatMap_def, List.flatMap_def, hmethods]
  rfl

/-- A function is its head and its body. -/
theorem Site.eq_of_head {s s' : Site} (h : s.head = s'.head)
    (hb : s.info.decl.body = s'.info.decl.body) : s = s' := by
  obtain ⟨⟨name, index, loc, fname, params, body⟩, this, isMain, isMethod⟩ := s
  obtain ⟨⟨name', index', loc', fname', params', body'⟩, this', isMain', isMethod'⟩ := s'
  simp only [head, FunctionInfo.head, FunctionDecl.head, mk.injEq, FunctionInfo.mk.injEq,
    FunctionDecl.mk.injEq] at h hb ⊢
  exact ⟨⟨h.1.1, h.1.2.1, h.1.2.2.1, h.1.2.2.2.1, h.1.2.2.2.2.1, hb⟩, h.2⟩

end Isolation

/-- A session without errors is not rejected. -/
theorem finish_not_rejected {d : Declarations} {l : Links} {main : Nat} {s : Session}
    (c : Collector) : (finish d l main s).outcome ≠ .error (.rejected c) := by
  unfold finish
  dsimp only
  split
  · exact nofun
  · split
    · exact nofun
    · exact nofun

/-- A program is rejected exactly if it has errors: those in its declarations, which are all that
something is declared twice, then at most one for each function, in the order of the statements that
run, the free functions, the methods and the constructors. Among programs with the same heads, the
error of a function depends on its body only, that of a constructor on the defaults of its class. -/
theorem errors_isolated (p : Program) (o : Options) :
    (∀ c, (Program.compile p o).outcome = .error (.rejected c) →
      c.errors = (Program.faults p o).map (quoted o)) ∧
    ((∃ c, (Program.compile p o).outcome = .error (.rejected c)) ↔ Program.faults p o ≠ []) ∧
    Twice (Collection.ofProgram p).errors ∧
    ∀ q, Program.heads p = Program.heads q →
      (Collection.ofProgram p).errors = (Collection.ofProgram q).errors ∧
      (Program.sites p).map Site.head = (Program.sites q).map Site.head ∧
      (∀ (i : Nat) (s s' : Site), (Program.sites p)[i]? = some s →
        (Program.sites q)[i]? = some s' → s.info.decl.body = s'.info.decl.body → s.fault p o = s'.fault q o) ∧
      (Program.decls p).classes.map ClassInfo.head = (Program.decls q).classes.map ClassInfo.head ∧
      ∀ (i : Nat) (k k' : ClassInfo), (Program.decls p).classes[i]? = some k →
        (Program.decls q).classes[i]? = some k' → k.defaults = k'.defaults → k.fault p o = k'.fault q o := by
  have herrors := errors_of_session p o
  have hempty : (Program.session p o).errors.hasErrors = true ↔ Program.faults p o ≠ [] := by
    simp [Collector.hasErrors, herrors]
  refine ⟨fun c hc => ?_, ⟨?_, fun hne => ?_⟩, twice_ofProgram p, fun q hq => ?_⟩
  · rw [Program.compile_eq] at hc
    split at hc
    · cases hc
      exact herrors
    · exact absurd hc (finish_not_rejected c)
  · rintro ⟨c, hc⟩
    rw [Program.compile_eq] at hc
    split at hc
    · rename_i hhas
      exact hempty.mp hhas
    · exact absurd hc (finish_not_rejected c)
  · rw [Program.compile_eq, if_pos (hempty.mpr hne)]
    exact ⟨_, rfl⟩
  · obtain ⟨hdecls, herr⟩ := collected_eq hq
    have hsites := sites_head hdecls
    have hclasses := Declarations.heads_classes hdecls
    refine ⟨herr, hsites, fun i s s' hs hs' hbody => ?_, hclasses, fun i k k' hk hk' hdef => ?_⟩
    · have hhead := congrArg (·[i]?) hsites
      simp only [List.getElem?_map, hs, hs', Option.map_some, Option.some.injEq] at hhead
      rw [Site.eq_of_head hhead hbody]
      exact Job.fault_eq hdecls _
    · have hhead := congrArg (·[i]?) hclasses
      simp only [List.getElem?_map, hk, hk', Option.map_some, Option.some.injEq] at hhead
      exact ClassInfo.fault_eq hdecls hhead hdef

/-- A function that calls what does not exist has the same error whether or not the function after it
has one too. -/
theorem error_beside_another :
    ∃ (p q : Program) (s : Site), Program.heads p = Program.heads q ∧
      (Program.sites p)[1]? = some s ∧ (Program.sites q)[1]? = some s ∧
      (Program.faults p {}).length = 1 ∧ (Program.faults q {}).length = 2 ∧
      (s.fault p {}).isSome = true ∧ s.fault p {} = s.fault q {} := by
  let first : Stmt := .function ⟨{}, "f", [], [.expr {} (.call {} "missing" [])]⟩
  let second (body : List Stmt) : Stmt := .function ⟨{}, "g", [], body⟩
  let p : Program := [first, second []]
  let q : Program := [first, second [.leave {} 1]]
  let s : Site := { info := ⟨"f", 0, ⟨{}, "f", [], [.expr {} (.call {} "missing" [])]⟩⟩ }
  have hheads : Program.heads p = Program.heads q := rfl
  obtain ⟨-, -, -, hsame⟩ := errors_isolated p {}
  obtain ⟨-, -, hsites, -⟩ := hsame q hheads
  exact ⟨p, q, s, hheads, rfl, rfl, by decide +kernel, by decide +kernel, by decide +kernel,
    hsites 1 s s rfl rfl rfl⟩

end Compile

end HeapScript
