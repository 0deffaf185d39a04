import HeapScript.Proofs.Compile.FunctionTyping
import HeapScript.Proofs.Compile.Sessions
import HeapScript.Proofs.Memory.Routines

/-!
# Compiled programs keep to the discipline

All functions of the module of a program keep to the discipline: those of the library, those of the
program, its constructors and its helpers. So values that are no arrays and strings that are in use
stay as they are for the whole run.
-/

namespace HeapScript.Compile

open Machine Machine.Processor Library Execution

/-! ## The functions of a program -/

/-- What the code of a function may rely on: its locals have their types, and so have the functions
of the module. -/
def Body.env (m : Module) (b : Body) : Env where
  sig := moduleSig m
  locals _ := (b.params ++ b.locals).map .typed
  results := b.results

theorem Body.env_fits (m : Processor Output) (b : Body) : (b.env m.program).Fits m where
  sig _ _ _ hs := ⟨_, moduleSig_signature hs, rfl, rfl⟩
  fill _ := Kind.fitAll_self _ _
  publish := List.map_map.trans rfl
  measure hm := nomatch hm

theorem Body.env_starts (m : Module) (b : Body) : (b.env m).Starts b.params b.locals := by
  intro h args hargs
  refine ⟨.null, allHold_typed.2 (List.rel_append hargs ?_)⟩
  refine List.forall₂_map_right_iff.2 (List.forall₂_same.2 fun t _ => ?_)
  exact admits_zero h nowhere t

theorem Body.env_slot (m : Module) (b : Body) {i : Nat} {t : ValType}
    (h : (b.params ++ b.locals)[i]? = some t) : (b.env m).Slot i t := by
  change ((b.params ++ b.locals).map Kind.typed)[i]? = some (.typed t)
  rw [List.getElem?_map, h]
  rfl

theorem Layout.getElem?_of_typeOf {l : Layout} {i : Nat} {t : ValType} (h : l.typeOf? i = some t) :
    (l.params ++ l.locals.toList)[i]? = some t := by
  unfold Layout.typeOf? at h
  split at h
  · rename_i hi
    rw [List.getElem?_append_left hi, h]
  · rename_i hi
    rw [List.getElem?_append_right (Nat.le_of_not_lt hi), Array.getElem?_toList, h]

section Checks

variable {p : Program} {o : Options} {c : Compiled}

/-- The functions of a compiled program may call each other and the library. -/
theorem knows_of_compiled (hc : (Program.compile p o).outcome = .ok c) {E : Env}
    (hE : E.sig = moduleSig c.program) : Knows E (Program.decls p) (Program.links p) := by
  obtain ⟨-, -, -, ha⟩ := Program.compile_inv hc
  obtain ⟨links, -, -, hi⟩ := machine_of_compiled hc 0
  rw [ha.base] at hi
  have hsig {func : Int} {params results : List ValType}
      (h : c.program.signature? func = some (.func params results)) :
      E.sig func = some (params, results) := hE ▸ moduleSig_eq h
  refine ⟨fun r => hsig (hi.signature r), hsig hi.echoSignature, hsig hi.renderSignature,
    fun f hf => ?_, fun k hk => hsig (signature_of_class hc hk), fun k hk m hm => ?_⟩
  · have hj : { info := f, facts := Function.facts f.decl none o.optimize } ∈
        jobs p (Program.decls p) o.optimize :=
      List.mem_append_left _ (List.mem_append_right _ (List.mem_map_of_mem hf))
    exact hsig (signature_of_job hc hj)
  · let j : Job := { info := m, facts := Function.facts m.decl k.known? o.optimize, isMethod := true }
    have hj : j ∈ jobs p (Program.decls p) o.optimize :=
      List.mem_append_right _ (List.mem_flatMap.2 ⟨k, hk, List.mem_map_of_mem hm⟩)
    exact hsig (signature_of_job hc hj)

/-- A helper of a compiled program stands where its number says. -/
theorem helper_in {i : Nat} {h : Helper}
    (hi : (Program.session p o).pool.helpers[i]? = some h) :
    (h.body (Program.decls p) (Program.links p)
      ((Program.links p).base + 2 + Routine.all.length + i)) ∈ Program.bodies p o := by
  refine List.mem_append_right _ ?_
  simp only [helperBodies, List.map_map, List.mem_map]
  refine ⟨(h, i), ?_, rfl⟩
  rw [List.mem_zipIdx_iff_getElem?, Array.getElem?_toList]
  exact hi

theorem helper_heads (d : Declarations) (l : Links) (index : Nat) (h : Helper) :
    (h.body d l index).index = index ∧ (h.body d l index).params = h.params ∧
      (h.body d l index).results = h.results := by
  cases h <;> exact ⟨rfl, rfl, rfl⟩

/-- The helpers and strings of a session are those of a later one, with the same numbers. -/
structure Pool.Within (pool pool' : Pool) : Prop where
  helpers : ∀ (i : Nat) (h : Helper), pool.helpers[i]? = some h → pool'.helpers[i]? = some h
  strings : ∀ (i : Nat) (s : Bytes), pool.strings[i]? = some s → pool'.strings[i]? = some s

theorem Draft.Before.within {d D : Draft} {pool : Pool} (h : d.Before D) (hD : D.pool.Within pool) :
    d.pool.Within pool :=
  ⟨fun i k hk => hD.helpers i k (h.helpers i k hk), fun i s hs => hD.strings i s (h.strings i s hs)⟩

/-- What the code of a drafted function may rely on. -/
def Draft.env (m : Module) (D : Draft) (results : List ValType) : Env where
  sig := moduleSig m
  locals _ := (D.layout.params ++ D.layout.locals.toList).map .typed
  results := results

/-- A function of a compiled program may rely on what its draft says. -/
theorem serves_of_compiled (hc : (Program.compile p o).outcome = .ok c) {x : Context} {D : Draft}
    (hd : x.decls = Program.decls p) (hl : x.links = Program.links p)
    (hp : D.pool.Within (Program.session p o).pool) {results : List ValType}
    (hr : results = if x.isMain then [] else [Shape.valueRef]) :
    Serves (D.env c.program results) x D := by
  obtain ⟨-, -, -, ha⟩ := Program.compile_inv hc
  refine { toKnows := hd ▸ hl ▸ knows_of_compiled hc rfl, results := hr, slots := ?_, helpers := ?_ }
  · intro i t ht
    change ((D.layout.params ++ D.layout.locals.toList).map Kind.typed)[i]? = some (.typed t)
    rw [List.getElem?_map, Layout.getElem?_of_typeOf ht]
    rfl
  · intro i h hi
    have hin := (ha.has _ (helper_in (hp.helpers i h hi))).signature
    obtain ⟨hindex, hparams, hresults⟩ := helper_heads (Program.decls p) (Program.links p)
      ((Program.links p).base + 2 + Routine.all.length + i) h
    rw [hindex, hparams, hresults] at hin
    rw [Context.helperBase, hl]
    exact moduleSig_eq hin

/-- The code of a function relies on what its draft says. -/
theorem Draft.env_eq {m : Module} {D : Draft} {b : Body} (hp : D.layout.params = b.params)
    (hl : b.locals = D.layout.locals.toList) : D.env m b.results = b.env m := by
  rw [Draft.env, Body.env, hp, hl]

/-- The functions and constructors of a compiled program keep to the discipline, and the pool of
the session has only grown. -/
theorem session_checks (hc : (Program.compile p o).outcome = .ok c) :
    (Program.opening p o).pool.Within (Program.session p o).pool ∧
      ∀ b ∈ (Program.session p o).bodies.toList, Checks (b.env c.program) .before [] [] b.code := by
  let final := (Program.session p o).pool
  obtain ⟨⟨-, hopening⟩, fs, cs, hbodies, hfs, hcs⟩ := session_adds (p := p) (o := o)
    (K := fun s => s.errors.errors = [] ∧ s.pool.Within final)
    (P := fun _ b => Checks (b.env c.program) .before [] [] b.code)
    (Q := fun _ b => Checks (b.env c.program) .before [] [] b.code)
    ⟨errors_of_compiled hc, fun _ _ h => h, fun _ _ h => h⟩
    (by
      rintro s j - ⟨herr, hpool⟩
      obtain ⟨b, herr', hbodies, notes, D, hr, hD⟩ := addJob_adds s j herr
      have hheads := function_heads _ _ _ _ _ _ hr
      obtain ⟨hbefore, hlocals, hchecks⟩ := function_checks hr
        (serves_of_compiled hc rfl rfl (hD ▸ hpool) hheads.results)
      rw [Draft.env_eq (hbefore.params.trans hheads.params.symm) hlocals] at hchecks
      exact ⟨⟨herr', hbefore.within (hD ▸ hpool)⟩, b, hbodies, hchecks⟩)
    (by
      rintro s k hk ⟨herr, hpool⟩
      obtain ⟨b, herr', hbodies, notes, D, hr, hD⟩ := addClass_adds s k herr
      have hheads := creator_heads _ _ _ _ _ hr
      obtain ⟨hbefore, hlocals, hchecks⟩ := creator_checks hr
        (serves_of_compiled hc rfl rfl (hD ▸ hpool) hheads.results) hk rfl
      rw [Draft.env_eq (hbefore.params.trans hheads.params.symm) hlocals] at hchecks
      exact ⟨⟨herr', hbefore.within (hD ▸ hpool)⟩, b, hbodies, hchecks⟩)
  refine ⟨hopening, fun b hb => ?_⟩
  rw [hbodies] at hb
  rcases List.mem_append.1 hb with hb | hb
  · obtain ⟨j, -, hcheck⟩ := forall₂_right hfs hb
    exact hcheck
  · obtain ⟨k, -, hcheck⟩ := forall₂_right hcs hb
    exact hcheck

/-- The functions of a compiled program keep to the discipline. -/
theorem bodies_check (hc : (Program.compile p o).outcome = .ok c) {b : Body}
    (hb : b ∈ Program.bodies p o) : Checks (b.env c.program) .before [] [] b.code := by
  rcases List.mem_append.1 hb with hb | hb
  · exact (session_checks hc).2 b hb
  · simp only [helperBodies, List.map_map, List.mem_map] at hb
    obtain ⟨⟨h, i⟩, -, rfl⟩ := hb
    exact helper_checks (knows_of_compiled hc rfl) (helper_heads _ _ _ h).2.2 fun i t ht =>
      Body.env_slot _ _ ht

/-- Every function that is defined in the module of a program keeps to the discipline. -/
theorem definitions_check (hc : (Program.compile p o).outcome = .ok c) (m : Processor Output)
    (hm : m.program = c.program) {b : Body} (hb : b ∈ Program.definitions p o) :
    b.In c.program ∧ ∃ E : Env, E.Fits m ∧ E.results = b.results ∧ E.Starts b.params b.locals ∧
      Checks E .before [] [] b.code := by
  obtain ⟨-, -, -, ha⟩ := Program.compile_inv hc
  have hplaced := ha.base ▸ ha.placed
  rcases List.mem_append.1 hb with hb | hb
  · obtain ⟨r, -, rfl⟩ := List.mem_map.1 hb
    exact ⟨hplaced.routine r, r.envIn m.program, r.fits m, rfl, r.starts m.program _,
      hm ▸ r.checks hplaced⟩
  · exact ⟨ha.has b hb, b.env m.program, b.env_fits m, rfl, b.env_starts _,
      hm ▸ bodies_check hc hb⟩

/-- A function of the module of a program is defined there, or it is one of the host. -/
theorem function_defined (hc : (Program.compile p o).outcome = .ok c) {i : Nat}
    (hi : i < c.program.funcs.size) :
    (∃ b ∈ Program.definitions p o, b.index = i) ∨ i = (Program.links p).echo ∨
      i = (Program.links p).floatToBytes := by
  have herr := errors_of_compiled hc
  obtain ⟨c', hc', -, hsize⟩ := compile_ok herr
  obtain rfl := Except.ok.inj (hc.symm.trans hc')
  by_cases hdef : i ∈ (Program.definitions p o).map Body.index
  · exact .inl (List.mem_map.1 hdef)
  · rw [mem_definitions herr, ← hsize] at hdef
    have : ¬ (i ≠ (Program.links p).echo ∧ i ≠ (Program.links p).floatToBytes) :=
      fun h => hdef ⟨hi, h⟩
    omega

/-- The machine of a compiled program keeps to the discipline. -/
theorem machine_disciplined (hc : (Program.compile p o).outcome = .ok c) {maxSteps : Int}
    {m : Processor Output} (hm : machineFor c maxSteps = .ok m) : Disciplined m := by
  obtain ⟨links, hres, hm', -⟩ := machine_of_compiled hc maxSteps
  obtain rfl := Except.ok.inj (hm'.symm.trans hm)
  obtain ⟨-, -, -, ha⟩ := Program.compile_inv hc
  have hplaced := ha.base ▸ ha.placed
  have hlt {i : Nat} {f : Func} (hf : c.program.funcs[i]? = some f) : i < c.program.funcs.size :=
    (Array.getElem?_eq_some_iff.1 hf).1
  refine ⟨hplaced.types, ?_, ?_⟩
  · rintro (i | i) f type locals instrs blocks zeros hf ht hbody hlink
    swap
    · cases hf
    replace hf : c.program.funcs[i]? = some f := hf
    obtain ⟨l, hl, hlinked⟩ := hres.link i f hf
    obtain rfl := Option.some.inj (hl.symm.trans hlink)
    rw [Func.LinkedTo, hbody] at hlinked
    obtain ⟨blocks', hmarked, heq⟩ := hlinked
    cases heq
    refine ⟨hmarked, rfl, ?_⟩
    rcases function_defined hc (hlt hf) with ⟨b, hb, rfl⟩ | rfl | rfl
    · obtain ⟨⟨k, hf', ht'⟩, E, hE⟩ := definitions_check hc
        { program := c.program, links, maxSteps } rfl hb
      obtain rfl := Option.some.inj (hf'.symm.trans hf)
      obtain rfl := Option.some.inj (Eq.trans ht'.symm ht)
      cases hbody
      exact ⟨E, hE⟩
    · obtain ⟨k, hf', -⟩ := hplaced.echo
      obtain rfl := Option.some.inj (hf'.symm.trans hf)
      cases hbody
    · obtain ⟨k, hf', -⟩ := hplaced.render
      obtain rfl := Option.some.inj (hf'.symm.trans hf)
      cases hbody
  · rintro (i | i) f type run hf ht hlink
    swap
    · cases hf
    replace hf : c.program.funcs[i]? = some f := hf
    obtain ⟨l, hl, hlinked⟩ := hres.link i f hf
    obtain rfl := Option.some.inj (hl.symm.trans hlink)
    rcases function_defined hc (hlt hf) with ⟨b, hb, rfl⟩ | rfl | rfl
    · obtain ⟨⟨k, hf', -⟩, -⟩ := definitions_check hc { program := c.program, links } rfl hb
      obtain rfl := Option.some.inj (hf'.symm.trans hf)
      obtain ⟨blocks, -, heq⟩ := hlinked
      cases heq
    · obtain ⟨k, hf', ht'⟩ := hplaced.echo
      obtain rfl := Option.some.inj (hf'.symm.trans hf)
      obtain rfl := Option.some.inj (Eq.trans ht'.symm ht)
      obtain ⟨run', hrun, heq⟩ := hlinked
      cases heq
      cases hrun
      exact sound_echo
    · obtain ⟨k, hf', ht'⟩ := hplaced.render
      obtain rfl := Option.some.inj (hf'.symm.trans hf)
      obtain rfl := Option.some.inj (Eq.trans ht'.symm ht)
      obtain ⟨run', hrun, heq⟩ := hlinked
      cases heq
      cases hrun
      exact sound_renderFloat

end Checks

end HeapScript.Compile

namespace HeapScript.Library

open Machine Machine.Processor Compile Execution

/-! ## Runs -/

def Cell.contents : Cell → Array Val
  | .struct _ fields => fields
  | .array _ elems => elems

/-- Only the running activation refers to an address: no cell does, and no other activation. -/
structure Private {ω : Type} (s : State ω) (a : Nat) : Prop where
  cells : ∀ (b : Nat) (c : Cell), s.heap[b]? = some c → .ref a ∉ Cell.contents c
  callers : ∀ f ∈ s.callers, .ref a ∉ f.locals.toList ∧ .ref a ∉ f.stack

/-- A byte string is in use: it is the string of a value, or it is about to be written. -/
def InUse (l : Links) (s : State Output) (a : Nat) : Prop :=
  (∃ (b : Nat) (fields : Array Val), s.heap[b]? = some (.struct Shape.value fields) ∧
    fields[ValueField.str.index]? = some (.ref a)) ∨
  (s.frame.code[s.frame.pc]? = some (.call l.echo) ∧ s.frame.stack.head? = some (.ref a))

section Runs

variable {ω : Type} {m : Processor ω} {hidden : Nat → Prop} {s : State ω}

theorem SoundCell.not_hidden {h : Heap} {c : Cell} (hc : SoundCell h hidden c) {a : Nat}
    (ha : .ref a ∈ Cell.contents c) : ¬ hidden a := by
  cases c with
  | struct t fields =>
    obtain ⟨⟨types, -, hf⟩, -⟩ := hc
    obtain ⟨t, -, ht⟩ := forall₂_right hf (Array.mem_toList_iff.2 ha)
    exact ht.not_hidden
  | array t elems =>
    obtain ⟨e, -, he⟩ := hc
    exact (he _ ha).not_hidden

theorem Kind.Holds.not_hidden {h : Heap} {first : Val} {k : Kind} {a : Nat}
    (hv : k.Holds h hidden nowhere first (.ref a)) : ¬ hidden a := by
  cases k with
  | typed t => exact Admits.not_hidden hv
  | const | null => cases hv
  | own =>
    rcases hv with hv | ⟨b, elems, -, hb, -⟩
    · cases hv
    · exact hb.elim
  | first => exact hv.2.not_hidden
  | firstRef | firstDense => exact hv.1.not_hidden

/-- The activations that wait know nothing of what is hidden. -/
theorem Waits.not_hidden {h : Heap} {results : List ValType} {callers : List Frame}
    (hw : Waits m h hidden results callers) {a : Nat} (ha : hidden a) :
    ∀ f ∈ callers, .ref a ∉ f.locals.toList ∧ .ref a ∉ f.stack := by
  induction hw with
  | nil => nofun
  | cons _ _ _ _ _ _ valid _ ih =>
    intro f hf
    rcases List.mem_cons.1 hf with rfl | hf
    · refine ⟨fun hmem => ?_, fun hmem => ?_⟩
      · obtain ⟨k, -, hk⟩ := forall₂_right valid.locals hmem
        exact hk.not_hidden ha
      · obtain ⟨k, -, hk⟩ := forall₂_right valid.stack hmem
        exact hk.not_hidden ha
    · exact ih f hf

/-- What is hidden in a state of a run only the running activation knows. -/
theorem Running.isPrivate (hr : Running m hidden s) {a : Nat} (ha : hidden a) : Private s a := by
  obtain ⟨E, p, ctrl, σ, first, hs, -⟩ := hr
  exact ⟨fun b c hc hmem => (hs.sound.cells b c hc).not_hidden hmem ha, hs.callers.not_hidden ha⟩

/-- While a function is called nothing is hidden. The induction passes over the changes of phase. -/
theorem Running.at_call (hr : Running m hidden s) {func : Int}
    (hi : s.frame.code[s.frame.pc]? = some (.call func)) :
    ∃ hidden', (∀ a, ¬ hidden' a) ∧ Running m hidden' s := by
  obtain ⟨E, p, ctrl, σ, first, hs, hc⟩ := hr
  obtain ⟨rest, hcode⟩ : ∃ rest, s.frame.code.toList.drop s.frame.pc = .call func :: rest := by
    rw [← Array.getElem?_toList] at hi
    obtain ⟨hlt, hget⟩ := List.getElem?_eq_some_iff.1 hi
    exact ⟨_, by rw [List.drop_eq_getElem_cons hlt, hget]⟩
  generalize hall : s.frame.code.toList.drop s.frame.pc = code at hc
  rw [hall] at hcode
  induction hc generalizing hidden with
  | call hp hsig hk hr =>
    exact ⟨hidden, hs.quiet hp, E, _, _, _, first, hs, hall ▸ .call hp hsig hk hr⟩
  | fill hm _ ih => exact ih (hs.fill hm) hcode hall
  | publish hm _ ih => exact ih (hs.publish hm) hcode hall
  | plain hf =>
    cases hcode
    cases hf
  | _ => cases hcode

end Runs

theorem steps_of_runFor {n : Nat} {s t : State Output} {m : Processor Output}
    (h : m.runFor n s = .running t) : Processor.Steps m n s t := by
  induction n generalizing s with
  | zero =>
    cases h
    exact .refl _
  | succ n ih =>
    rw [runFor] at h
    split at h
    · rename_i s' hs
      exact .step hs (ih h)
    · cases h

/-- A run of a compiled program starts as it should. -/
theorem running_of_start {p : Program} {o : Options} {c : Compiled}
    (hc : (Program.compile p o).outcome = .ok c) {maxSteps : Int} {m : Processor Output}
    (hm : machineFor c maxSteps = .ok m) {s : State Output}
    (hs : m.start freshWorld c.main [] = .ok (.next s)) : Running m nowhere s := by
  obtain ⟨links, -, hm', -⟩ := machine_of_compiled hc maxSteps
  obtain rfl := Except.ok.inj (hm'.symm.trans hm)
  have hsig := (signature_of_main hc).2
  rw [start_eq freshWorld hsig rfl] at hs
  have hempty : SoundHeap freshWorld.heap nowhere := ⟨nofun, nofun⟩
  exact (goes_enter (machine_disciplined hc hm) hsig hempty .nil .nil (Except.ok.inj hs)).1

/-- **Scalars are never changed.** In every run of a compiled program a value record that has not the
tag of arrays keeps all its fields, and a byte string that is in use keeps its length and its bytes.
A step makes a new cell, stores into a byte string that only the running activation knows, or stores
into an array value (its length or its reference), a table, an entry (its value or its link) or a
vector. -/
theorem run_keeps_scalars {p : Program} {o : Options} {c : Compiled}
    (hc : (Program.compile p o).outcome = .ok c) {maxSteps : Int} {m : Processor Output}
    (hm : machineFor c maxSteps = .ok m) {s₀ s s' : State Output} {n k : Nat}
    (hstart : m.start freshWorld c.main [] = .ok (.next s₀)) (hn : Processor.Steps m n s₀ s)
    (hk : Processor.Steps m k s s') :
    (∀ (a : Nat) (fields : Array Val), s.heap[a]? = some (.struct Shape.value fields) →
      fields[ValueField.tag.index]? ≠ some (.i32 Tag.array.code) →
      s'.heap[a]? = some (.struct Shape.value fields)) ∧
    (∀ (a : Nat) (bytes : Array Val), s.heap[a]? = some (.array Shape.bytes bytes) →
      InUse c.links s a → s'.heap[a]? = some (.array Shape.bytes bytes)) ∧
    ∀ t, m.step s' = .next t → Change (Private s') s'.heap t.heap := by
  have hd := machine_disciplined hc hm
  have hr₀ := running_of_start hc hm hstart
  obtain ⟨hidden, hr, -⟩ := steps_sound hd hr₀ hn
  obtain ⟨hidden', hr', -⟩ := steps_sound hd hr hk
  refine ⟨fun a fields ha htag => ?_, fun a bytes ha huse => ?_, fun t ht => ?_⟩
  · exact steps_fixed hd hr hk ha ⟨rfl, htag⟩
  · rcases huse with ⟨b, fields, hb, hstr⟩ | ⟨hcall, -⟩
    · obtain ⟨E, p, ctrl, σ, first, hs, -⟩ := id hr
      have hnot := (hs.sound.cells b _ hb).not_hidden (Array.mem_of_getElem? hstr)
      exact steps_fixed hd hr hk ha ⟨rfl, hnot⟩
    · obtain ⟨hidden₁, hnone, hr₁⟩ := hr.at_call hcall
      exact steps_fixed hd hr₁ hk ha ⟨rfl, hnone a⟩
  · obtain ⟨-, -, hch, -⟩ := step_sound hd hr' ht
    exact hch.mono fun a ha => hr'.isPrivate ha

def letterProgram : Program := [.echo {} [.lit {} (.ofText "a")]]

/-- The state in which the program is about to write its letter. -/
def letterWritten (c : Compiled) : Bool :=
  match machineFor c 0 with
  | .error _ => false
  | .ok m =>
    match m.start freshWorld c.main [] with
    | .ok (.next s₀) =>
      match m.runFor 3 s₀ with
      | .running s =>
        match s.frame.code[s.frame.pc]?, s.frame.stack, (s.heap[0]? : Option Cell) with
        | some (.call f), .ref 0 :: _, some (Cell.array t _) => f == c.links.echo && t == Shape.bytes
        | _, _, _ => false
      | .done .. => false
    | _ => false

/-- The letter stays what it is from the moment it is written. -/
theorem letter_kept : ∃ c m s₀ s bytes,
    (Program.compile letterProgram {}).outcome = .ok c ∧ machineFor c 0 = .ok m ∧
    m.start freshWorld c.main [] = .ok (.next s₀) ∧ Processor.Steps m 3 s₀ s ∧
    s.heap[0]? = some (.array Shape.bytes bytes) ∧ InUse c.links s 0 ∧
    ∀ k s', Processor.Steps m k s s' → s'.heap[0]? = some (.array Shape.bytes bytes) := by
  have hrun : (Program.compile letterProgram {}).outcome.toOption.any letterWritten = true := by
    decide +kernel
  cases hc : (Program.compile letterProgram {}).outcome with
  | error e =>
    rw [hc] at hrun
    cases hrun
  | ok c =>
    rw [hc] at hrun
    simp only [Except.toOption, Option.any, letterWritten] at hrun
    split at hrun
    · cases hrun
    rename_i m hm
    split at hrun
    · rename_i s₀ hstart
      split at hrun
      · rename_i s hs
        split at hrun
        · rename_i f stack t bytes hcode hstack hheap
          rw [Bool.and_eq_true, beq_iff_eq, beq_iff_eq] at hrun
          obtain ⟨rfl, rfl⟩ := hrun
          have hsteps := steps_of_runFor hs
          have huse : InUse c.links s 0 := .inr ⟨hcode, by rw [hstack]; rfl⟩
          exact ⟨c, m, s₀, s, bytes, rfl, hm, hstart, hsteps, hheap, huse, fun k s' hk =>
            (run_keeps_scalars hc hm hstart hsteps hk).2.1 0 bytes hheap huse⟩
        · cases hrun
      · cases hrun
    · cases hrun

end HeapScript.Library
