import HeapScript.Proofs.Compile.Totality

/-!
# The functions of a session

A session without errors has compiled every function of the program and every constructor, one
after the other, each from the pool that the one before has left.
-/

namespace HeapScript.Compile

open Machine Library

/-! ## One function after the other -/

/-- A session has compiled one more function. -/
structure Session.Adds (s s' : Session) (params : Nat) (gen : Gen Body) (b : Body) : Prop where
  errors : s.errors.errors = []
  bodies : s'.bodies = s.bodies.push b
  drafted : ∃ notes D, Gen.Runs gen (Draft.start s.pool notes params) b D ∧ s'.pool = D.pool

theorem Session.add_adds {gen : Gen Body} (hx : Gen.Agree gen gen) (s : Session) (name : String)
    (params : Nat) (h : (s.add name params gen).errors.errors = []) :
    ∃ b, s.Adds (s.add name params gen) params gen b := by
  have hagree := hx (Draft.start s.pool s.notes params) (Draft.start s.pool s.notes params)
    ⟨rfl, rfl⟩
  revert h hagree
  rw [Session.add_eq]
  cases hstep : gen.step (Draft.start s.pool s.notes params) with
  | mk r d =>
    cases r with
    | error e =>
      rintro h ⟨-, hlevel⟩
      rw [errors_add s.errors hlevel] at h
      exact absurd h (by simp)
    | ok b => exact fun h _ => ⟨b, h, rfl, s.notes, d, hstep, rfl⟩

section Additions

variable {o : Options} {d : Declarations} {l : Links}

/-- A job compiles its function. -/
theorem addJob_adds (s : Session) (j : Job) (h : (s.addJob o d l j).errors.errors = []) :
    ∃ b, s.Adds (s.addJob o d l j) j.params.length
      (Gen.function (j.context o d l) j.info j.params) b := by
  obtain ⟨b, herr, hb, hd⟩ := Session.add_adds
    (function_agrees (c := j.context o d l) rfl j.info j.params)
    { s with notes := s.notes.push ("compiling " ++ j.info.name) } j.info.name j.params.length h
  exact ⟨b, herr, hb, hd⟩

/-- A class compiles its constructor. -/
theorem addClass_adds (s : Session) (k : ClassInfo) (h : (s.addClass o d l k).errors.errors = []) :
    ∃ b, s.Adds (s.addClass o d l k) k.arity (Gen.creator (k.context o d l) k) b :=
  Session.add_adds (creator_agrees (c := k.context o d l) rfl rfl) s (k.name ++ "::__new") k.arity h

end Additions

/-- Functions that are compiled one after the other get their bodies in order. What holds of the
session in the end has to hold of all the sessions on the way, from the last one backwards. -/
theorem foldl_adds {α : Type} {add : Session → α → Session} {K : Session → Prop}
    {P : α → Body → Prop} {xs : List α}
    (h : ∀ s, ∀ x ∈ xs, K (add s x) → K s ∧ ∃ b, (add s x).bodies = s.bodies.push b ∧ P x b)
    {s : Session} (hs : K (xs.foldl add s)) :
    K s ∧ ∃ bs, (xs.foldl add s).bodies.toList = s.bodies.toList ++ bs ∧ List.Forall₂ P xs bs := by
  induction xs generalizing s with
  | nil => exact ⟨hs, [], (List.append_nil _).symm, .nil⟩
  | cons x xs ih =>
    obtain ⟨hx, bs, hbs, hall⟩ := ih (fun s y hy => h s y (by simp [hy])) hs
    obtain ⟨hs', b, hb, hp⟩ := h s x (by simp) hx
    refine ⟨hs', b :: bs, ?_, .cons hp hall⟩
    rw [List.foldl_cons, hbs, hb, Array.toList_push, List.append_assoc, List.singleton_append]

/-- The functions of a program and its constructors, in the order of their bodies. What holds of
the session in the end held before anything was compiled. -/
theorem session_adds {p : Program} {o : Options} {K : Session → Prop} {P : Job → Body → Prop}
    {Q : ClassInfo → Body → Prop} (hK : K (Program.session p o))
    (hjob : ∀ s, ∀ j ∈ jobs p (Program.decls p) o.optimize,
      K (s.addJob o (Program.decls p) (Program.links p) j) →
      K s ∧ ∃ b, (s.addJob o (Program.decls p) (Program.links p) j).bodies = s.bodies.push b ∧ P j b)
    (hclass : ∀ s, ∀ k ∈ (Program.decls p).classes,
      K (s.addClass o (Program.decls p) (Program.links p) k) →
      K s ∧ ∃ b, (s.addClass o (Program.decls p) (Program.links p) k).bodies = s.bodies.push b ∧
        Q k b) :
    K (Program.opening p o) ∧ ∃ fs cs, (Program.session p o).bodies.toList = fs ++ cs ∧
      List.Forall₂ P (jobs p (Program.decls p) o.optimize) fs ∧
      List.Forall₂ Q (Program.decls p).classes cs := by
  obtain ⟨hmiddle, cs, hcs, hclasses⟩ := foldl_adds hclass hK
  obtain ⟨hfirst, fs, hfs, hjobs⟩ := foldl_adds hjob hmiddle
  refine ⟨hfirst, fs, cs, ?_, hjobs, hclasses⟩
  have hopening : (Program.opening p o).bodies.toList = [] := rfl
  rw [hfs, hopening, List.nil_append] at hcs
  exact hcs

/-! ## Numbers and types -/

/-- A function has a number, takes boxed parameters and has results of some types. -/
structure Body.Heads (index params : Nat) (results : List ValType) (b : Body) : Prop where
  index : b.index = index
  params : b.params = boxedParams params
  results : b.results = results

theorem function_heads (c : Context) (f : FunctionInfo) (names : List String) :
    (Gen.function c f names).Gives
      (Body.Heads f.index names.length (if c.isMain then [] else [Shape.valueRef])) :=
  Gen.gives_then fun _ => Gen.gives_then fun _ => Gen.gives_then fun _ => Gen.gives_pure
    ⟨rfl, rfl, rfl⟩

theorem creator_heads (c : Context) (k : ClassInfo) :
    (Gen.creator c k).Gives (Body.Heads k.create k.arity [Shape.valueRef]) :=
  Gen.gives_then fun _ => Gen.gives_then fun _ => Gen.gives_then fun _ => Gen.gives_then fun _ =>
    Gen.gives_pure ⟨rfl, rfl, rfl⟩

def Job.results (j : Job) : List ValType := if j.isMain then [] else [Shape.valueRef]

/-- The functions of a session without errors are those of the program and its constructors. -/
theorem session_heads {p : Program} {o : Options} (h : (Program.session p o).errors.errors = []) :
    ∃ fs cs, (Program.session p o).bodies.toList = fs ++ cs ∧
      List.Forall₂ (fun j b => b.Heads j.info.index j.params.length j.results)
        (jobs p (Program.decls p) o.optimize) fs ∧
      List.Forall₂ (fun k b => b.Heads k.create k.arity [Shape.valueRef])
        (Program.decls p).classes cs := by
  refine (session_adds (K := fun s => s.errors.errors = []) h (fun s j _ hs => ?_)
    fun s k _ hs => ?_).2
  · obtain ⟨b, ha⟩ := addJob_adds s j hs
    obtain ⟨notes, D, hr, -⟩ := ha.drafted
    exact ⟨ha.errors, b, ha.bodies, function_heads _ _ _ _ _ _ hr⟩
  · obtain ⟨b, ha⟩ := addClass_adds s k hs
    obtain ⟨notes, D, hr, -⟩ := ha.drafted
    exact ⟨ha.errors, b, ha.bodies, creator_heads _ _ _ _ _ hr⟩

/-! ## Compiled programs -/

theorem errors_of_compiled {p : Program} {o : Options} {c : Compiled}
    (h : (Program.compile p o).outcome = .ok c) : (Program.session p o).errors.errors = [] := by
  obtain ⟨hnone, -⟩ := Program.compile_inv h
  simpa [Collector.hasErrors] using hnone

theorem Body.In.signature {b : Body} {m : Module} (h : b.In m) :
    m.signature? b.index = some (.func b.params b.results) := by
  obtain ⟨type, hf, ht⟩ := h
  have hf' : at? m.funcs b.index = some ⟨b.name, type, .code b.locals b.code.toArray⟩ := hf
  have ht' : at? m.types type = some (.func b.params b.results) := ht
  simp only [Module.signature?, hf', Option.bind_eq_bind, Option.bind_some, ht']

theorem forall₂_left {α β : Type} {R : α → β → Prop} {xs : List α} {ys : List β}
    (h : List.Forall₂ R xs ys) {x : α} (hx : x ∈ xs) : ∃ y ∈ ys, R x y := by
  induction h with
  | nil => cases hx
  | cons hxy _ ih =>
    rcases List.mem_cons.1 hx with rfl | hx
    · exact ⟨_, by simp, hxy⟩
    · obtain ⟨y, hy, hr⟩ := ih hx
      exact ⟨y, by simp [hy], hr⟩

theorem forall₂_right {α β : Type} {R : α → β → Prop} {xs : List α} {ys : List β}
    (h : List.Forall₂ R xs ys) {y : β} (hy : y ∈ ys) : ∃ x ∈ xs, R x y :=
  forall₂_left h.flip hy

section Compiled

variable {p : Program} {o : Options} {c : Compiled}

theorem signature_of_job (h : (Program.compile p o).outcome = .ok c) {j : Job}
    (hj : j ∈ jobs p (Program.decls p) o.optimize) :
    c.program.signature? j.info.index = some (.func (boxedParams j.params.length) j.results) := by
  obtain ⟨-, -, -, ha⟩ := Program.compile_inv h
  obtain ⟨fs, cs, hbodies, hfs, -⟩ := session_heads (errors_of_compiled h)
  obtain ⟨b, hb, hindex, hparams, hresults⟩ := forall₂_left hfs hj
  rw [← hindex, ← hparams, ← hresults]
  refine (ha.has b ?_).signature
  rw [Program.bodies, hbodies]
  simp [hb]

theorem signature_of_class (h : (Program.compile p o).outcome = .ok c) {k : ClassInfo}
    (hk : k ∈ (Program.decls p).classes) :
    c.program.signature? k.create = some (.func (boxedParams k.arity) [Shape.valueRef]) := by
  obtain ⟨-, -, -, ha⟩ := Program.compile_inv h
  obtain ⟨fs, cs, hbodies, -, hcs⟩ := session_heads (errors_of_compiled h)
  obtain ⟨b, hb, hindex, hparams, hresults⟩ := forall₂_left hcs hk
  rw [← hindex, ← hparams, ← hresults]
  refine (ha.has b ?_).signature
  rw [Program.bodies, hbodies]
  simp [hb]

/-- The statements of a compiled program that run take no arguments and have no results. -/
theorem signature_of_main (h : (Program.compile p o).outcome = .ok c) :
    c.program.exported? "main" = some (c.main : Int) ∧
      c.program.signature? c.main = some (.func [] []) := by
  obtain ⟨-, hmain, -, ha⟩ := Program.compile_inv h
  rw [hmain]
  exact ⟨ha.entry, signature_of_job h (List.mem_cons_self ..)⟩

end Compiled

end HeapScript.Compile
