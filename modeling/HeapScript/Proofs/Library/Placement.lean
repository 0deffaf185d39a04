import HeapScript.Proofs.Library.Keys
import HeapScript.Proofs.Machine.Modules

/-!
# The place of the library in a module

Installing the library puts every routine, the functions of the host and the strings of the library
where the rules for the routines expect them, and every routine can be linked.
-/

namespace HeapScript.Library

open Machine Machine.Processor Code Execution

/-! ## Routines -/

/-- The code of every routine is balanced. -/
theorem Routine.balanced (l : Links) (r : Routine) : Balanced (r.body l).code := by
  refine Nests.balanced ?_
  cases r with
  | order op => cases op <;> exact (rfl : ([] : List Bool) = [])
  | arith op => cases op <;> exact (rfl : ([] : List Bool) = [])
  | _ => exact (rfl : ([] : List Bool) = [])

theorem Routine.mem_all (r : Routine) : r ∈ Routine.all := by
  cases r with
  | order op => cases op <;> simp [Routine.all]
  | arith op => cases op <;> simp [Routine.all]
  | _ => simp [Routine.all]

theorem Routine.known (r : Routine) : Module.Known r.params ∧ Module.Known r.results := by
  cases r <;> simp [Module.Known, Routine.results]

/-! ## Installing -/

structure Placed (m : Module) (l : Links) : Prop where
  types : ∀ (i : Nat) (d : TypeDef), Shape.definitions[i]? = some d → m.types[i]? = some d
  routine : ∀ r, m.Has (l.index r) ("rt." ++ r.name) r.params r.results (r.body l).locals
    (r.body l).code
  echo : m.Imports l.echo "env" "echo" [Shape.bytesRef] []
  render : m.Imports l.floatToBytes "env" "float_to_string" [.f64] [Shape.bytesRef]
  data : ∀ (i : Nat) (s : String), ownStrings[i]? = some s →
    ∃ d, m.data[i]? = some d ∧ d.bytes = textBytes s

theorem Placed.mono {m m' : Module} {l : Links} (h : Placed m l) (hx : m.Extends m') :
    Placed m' l where
  types i d hd := hx.types i d (h.types i d hd)
  routine r := (h.routine r).mono hx
  echo := h.echo.mono hx
  render := h.render.mono hx
  data i s hs := by
    obtain ⟨d, hd, hb⟩ := h.data i s hs
    exact ⟨d, hx.data i d hd, hb⟩

theorem addHost_imports (m : Module) :
    m.Extends (addHost m) ∧
      (addHost m).Imports m.funcs.size "env" "echo" [Shape.bytesRef] [] ∧
      (addHost m).Imports (m.funcs.size + 1) "env" "float_to_string" [.f64] [Shape.bytesRef] := by
  have known : Module.Known [Shape.bytesRef] ∧ Module.Known [ValType.f64] ∧ Module.Known [] := by
    simp [Module.Known]
  let m₁ := (m.addType [Shape.bytesRef] []).2
  let m₂ := (m₁.addImport "env" "echo" (m.addType [Shape.bytesRef] []).1).2
  let m₃ := (m₂.addType [.f64] [Shape.bytesRef]).2
  have hm : addHost m = (m₃.addImport "env" "float_to_string"
      (m₂.addType [.f64] [Shape.bytesRef]).1).2 := rfl
  have hfuncs (m : Module) (ps rs : List ValType) : (m.addType ps rs).2.funcs = m.funcs := by
    unfold Module.addType
    split <;> rfl
  have hx₁ : m.Extends m₁ := Module.extends_addType ..
  have hx₂ : m₁.Extends m₂ := Module.extends_addImport ..
  have hx₃ : m₂.Extends m₃ := Module.extends_addType ..
  have hx₄ : m₃.Extends (addHost m) := hm ▸ Module.extends_addImport ..
  have hsize₁ : m₁.funcs.size = m.funcs.size := by rw [hfuncs]
  have hsize₃ : m₃.funcs.size = m.funcs.size + 1 := by
    rw [hfuncs, ← hsize₁]
    exact Array.size_push _
  refine ⟨hx₁.trans (hx₂.trans (hx₃.trans hx₄)), ?_, ?_⟩
  · have himp : m₂.Imports m.funcs.size "env" "echo" [Shape.bytesRef] [] :=
      ⟨_, hsize₁ ▸ Array.getElem?_push_size, hx₂.types _ _ (Module.addType_at m known.1 known.2.2)⟩
    exact himp.mono (hx₃.trans hx₄)
  · refine ⟨_, ?_, hx₄.types _ _ (Module.addType_at m₂ known.2.1 known.1)⟩
    rw [hm, ← hsize₃]
    exact Array.getElem?_push_size

theorem extends_reserveAll (rs : List Routine) (m : Module) : m.Extends (reserveAll rs m) := by
  induction rs generalizing m with
  | nil => exact .refl m
  | cons r rs ih => exact (Module.extends_reserve m).trans (ih _)

theorem defineAll_has {l : Links} {rs : List Routine} {m m' : Module}
    (h : defineAll l rs m = .ok m') :
    m.Extends m' ∧ ∀ r ∈ rs, m'.Has (l.index r) ("rt." ++ r.name) r.params r.results
      (r.body l).locals (r.body l).code := by
  induction rs generalizing m with
  | nil =>
    cases h
    exact ⟨.refl _, by simp⟩
  | cons r rs ih =>
    simp only [defineAll] at h
    cases hd : (m.addType r.params r.results).2.define (l.index r) ("rt." ++ r.name)
        (m.addType r.params r.results).1 (r.body l).locals (r.body l).code.toArray with
    | error e =>
      rw [hd] at h
      cases h
    | ok m₁ =>
      rw [hd] at h
      obtain ⟨hx, hhas⟩ := Module.define_has r.known.1 r.known.2 hd
      obtain ⟨hx', hall⟩ := ih h
      refine ⟨hx.trans hx', fun q hq => ?_⟩
      rcases List.mem_cons.mp hq with rfl | hq
      · exact hhas.mono hx'
      · exact hall q hq

/-! ## Data segments -/

theorem data_addType (m : Module) (params results : List ValType) :
    (m.addType params results).2.data = m.data := by
  unfold Module.addType
  split <;> rfl

theorem data_define {m m' : Module} {index type : Nat} {name : String} {locals : List ValType}
    {instrs : Array Instr} (h : m.define index name type locals instrs = .ok m') :
    m'.data = m.data := by
  obtain ⟨-, rfl⟩ := Module.define_inv h
  rfl

theorem data_defineAll {l : Links} {rs : List Routine} {m m' : Module}
    (h : defineAll l rs m = .ok m') : m'.data = m.data := by
  induction rs generalizing m with
  | nil =>
    cases h
    rfl
  | cons r rs ih =>
    simp only [defineAll] at h
    cases hd : (m.addType r.params r.results).2.define (l.index r) ("rt." ++ r.name)
        (m.addType r.params r.results).1 (r.body l).locals (r.body l).code.toArray with
    | error e =>
      rw [hd] at h
      cases h
    | ok m₁ =>
      rw [hd] at h
      rw [ih h, data_define hd, data_addType]

theorem data_reserveAll (rs : List Routine) (m : Module) : (reserveAll rs m).data = m.data := by
  induction rs generalizing m with
  | nil => rfl
  | cons r rs ih => exact ih _

theorem data_addHost (m : Module) : (addHost m).data = m.data := by
  simp only [addHost, Module.addImport, data_addType]

theorem extends_addAll (strings : List Bytes) (m : Module) :
    m.Extends (strings.foldl (fun m s => (m.addData 0 s).2) m) := by
  induction strings generalizing m with
  | nil => exact .refl m
  | cons s strings ih => exact (Module.extends_addData m 0 s).trans (ih _)

theorem data_addAll (strings : List Bytes) (m : Module) :
    (strings.foldl (fun m s => (m.addData 0 s).2) m).data =
      m.data ++ (strings.map (DataSegment.mk 0)).toArray := by
  induction strings generalizing m with
  | nil => simp
  | cons s strings ih =>
    rw [List.foldl_cons, ih]
    simp [Module.addData]

/-- Installing places the library behind what the module has. -/
theorem install_placed {m m' : Module} {l : Links} (h : install m = .ok (l, m'))
    (ht : ∀ (i : Nat) (d : TypeDef), Shape.definitions[i]? = some d → m.types[i]? = some d)
    (hd : m.data = #[]) :
    l = ⟨m.funcs.size⟩ ∧ m.Extends m' ∧ Placed m' l ∧
      m'.data = (ownStrings.map fun s => DataSegment.mk 0 (textBytes s)).toArray := by
  unfold install at h
  cases hdef : defineAll ⟨m.funcs.size⟩ Routine.all (reserveAll Routine.all (addHost m)) with
  | error e =>
    simp only [hdef] at h
    cases h
  | ok m₁ =>
    simp only [hdef] at h
    have hfold : ∀ m : Module, ownStrings.foldl (fun m s => (m.addData 0 (textBytes s)).2) m =
        (ownStrings.map textBytes).foldl (fun m s => (m.addData 0 s).2) m := fun m => by
      rw [List.foldl_map]
    cases h
    rw [hfold]
    obtain ⟨hxhost, hecho, hrender⟩ := addHost_imports m
    have hxres := extends_reserveAll Routine.all (addHost m)
    obtain ⟨hxdef, hhas⟩ := defineAll_has hdef
    have hxdata := extends_addAll (ownStrings.map textBytes) m₁
    have hx₁ := hxres.trans (hxdef.trans hxdata)
    have hdata : m₁.data = #[] := by
      rw [data_defineAll hdef, data_reserveAll, data_addHost, hd]
    have hdata' := data_addAll (ownStrings.map textBytes) m₁
    rw [hdata, Array.empty_append, List.map_map] at hdata'
    refine ⟨rfl, hxhost.trans hx₁, ⟨fun i d hi => (hxhost.trans hx₁).types i d (ht i d hi),
      fun r => (hhas r r.mem_all).mono hxdata, hecho.mono hx₁, hrender.mono hx₁,
      fun i s hs => ?_⟩, hdata'⟩
    refine ⟨⟨0, textBytes s⟩, ?_, rfl⟩
    rw [hdata', List.getElem?_toArray, List.getElem?_map, hs]
    rfl

/-! ## Linking -/

theorem Fits.reserve {m : Module} (h : m.Fits hosts) : m.reserve.2.Fits hosts :=
  h.push trivial

theorem fits_addHost {m : Module} (h : m.Fits hosts) : (addHost m).Fits hosts :=
  (((h.addType _ _).push (f := ⟨_, _, .host "env" "echo"⟩) ⟨Execution.echo, rfl⟩).addType _ _).push
    (f := ⟨_, _, .host "env" "float_to_string"⟩) ⟨renderFloat, rfl⟩

theorem fits_reserveAll (rs : List Routine) {m : Module} (h : m.Fits hosts) :
    (reserveAll rs m).Fits hosts := by
  induction rs generalizing m with
  | nil => exact h
  | cons r rs ih => exact ih (Fits.reserve h)

theorem fits_defineAll {l : Links} {rs : List Routine} {m m' : Module} (h : m.Fits hosts)
    (hd : defineAll l rs m = .ok m') : m'.Fits hosts := by
  induction rs generalizing m with
  | nil =>
    cases hd
    exact h
  | cons r rs ih =>
    simp only [defineAll] at hd
    cases hdef : (m.addType r.params r.results).2.define (l.index r) ("rt." ++ r.name)
        (m.addType r.params r.results).1 (r.body l).locals (r.body l).code.toArray with
    | error e =>
      rw [hdef] at hd
      cases hd
    | ok m₁ =>
      rw [hdef] at hd
      exact ih ((h.addType _ _).define (by simpa using r.balanced l) hdef) hd

theorem fits_addAll (strings : List Bytes) {m : Module} (h : m.Fits hosts) :
    (strings.foldl (fun m s => (m.addData 0 s).2) m).Fits hosts := by
  induction strings generalizing m with
  | nil => exact h
  | cons s strings ih => exact ih (m := (m.addData 0 s).2) h

/-- All functions of the library can be linked. -/
theorem fits_install {m m' : Module} {l : Links} (h : m.Fits hosts)
    (hi : install m = .ok (l, m')) : m'.Fits hosts := by
  unfold install at hi
  cases hdef : defineAll ⟨m.funcs.size⟩ Routine.all (reserveAll Routine.all (addHost m)) with
  | error e =>
    simp only [hdef] at hi
    cases hi
  | ok m₁ =>
    simp only [hdef] at hi
    cases hi
    have := fits_defineAll (fits_reserveAll Routine.all (fits_addHost h)) hdef
    have := fits_addAll (ownStrings.map textBytes) this
    rwa [List.foldl_map] at this

/-- The functions of the host do not look at the instruction counter. -/
theorem oblivious_hosts {name : String} {f : HostFunc Output} (h : hosts.lookup name = some f) :
    Oblivious f := by
  have hf : f = Execution.echo ∨ f = renderFloat := by
    simp only [hosts, List.lookup] at h
    split at h
    · cases h
      exact .inl rfl
    · split at h <;> cases h
      exact .inr rfl
  rcases hf with rfl | rfl <;> intro w args
  · unfold Execution.echo
    split
    · rename_i v
      dsimp only
      cases w.heap.array? v with
      | none => rfl
      | some a =>
        dsimp only
        cases Heap.bytes? a.2.2 <;> rfl
    · rfl
  · unfold renderFloat
    split <;> rfl

/-! ## Machines -/

/-- A function with code is found by a call. -/
theorem callee_of_has {ω : Type} {program : Module} {links : Array (Link ω)} {index : Nat}
    {maxSteps maxDepth : Int}
    {hosts : List (String × HostFunc ω)} {name : String} {params results locals : List ValType}
    {code : Code} (h : program.Has index name params results locals code)
    (hl : Resolves hosts program links) :
    let m : Processor ω := { program, links, maxSteps, maxDepth }
    m.program.signature? index = some (.func params results) ∧
      m.callee? index = some (.code name results.length (locals.map Val.zero) code) := by
  obtain ⟨type, hf, ht⟩ := h
  obtain ⟨l, hlink, blocks, -, rfl⟩ := hl.link index _ hf
  have hf' : at? program.funcs index = some ⟨name, type, .code locals code.toArray⟩ := hf
  have ht' : at? program.types type = some (.func params results) := ht
  have hlink' : at? links index = some (.code blocks (locals.map Val.zero)) := hlink
  refine ⟨?_, ?_⟩
  · simp only [Module.signature?, hf', Option.bind_eq_bind, Option.bind_some, ht']
  · simp only [callee?, hf', ht', hlink']
    rfl

/-- A function of the host is found by a call. -/
theorem callee_of_imports {ω : Type} {program : Module} {links : Array (Link ω)} {index : Nat}
    {maxSteps maxDepth : Int} {run : HostFunc ω}
    {hosts : List (String × HostFunc ω)} {space name : String} {params results : List ValType}
    (h : program.Imports index space name params results)
    (hrun : hosts.lookup (space ++ "." ++ name) = some run)
    (hl : Resolves hosts program links) :
    let m : Processor ω := { program, links, maxSteps, maxDepth }
    m.program.signature? index = some (.func params results) ∧
      m.callee? index = some (.host (space ++ "." ++ name) run) := by
  obtain ⟨type, hf, ht⟩ := h
  obtain ⟨l, hlink, run', hrun', rfl⟩ := hl.link index _ hf
  have hf' : at? program.funcs index = some ⟨space ++ "." ++ name, type, .host space name⟩ := hf
  have ht' : at? program.types type = some (.func params results) := ht
  have hlink' : at? links index = some (.host run') := hlink
  rw [hrun] at hrun'
  cases hrun'
  refine ⟨?_, ?_⟩
  · simp only [Module.signature?, hf', Option.bind_eq_bind, Option.bind_some, ht']
  · simp only [callee?, hf', ht', hlink']

/-- A machine for a module with the library holds the library. -/
theorem Placed.installed {program : Module} {links : Array (Link Output)} {l : Links}
    {maxSteps maxDepth : Int} (h : Placed program l)
    (hl : Resolves hosts program links) :
    Installed { program, links, maxSteps, maxDepth } l where
  types := h.types
  signature r := (callee_of_has (h.routine r) hl).1
  callee r := (callee_of_has (h.routine r) hl).2
  echoSignature := (callee_of_imports h.echo rfl hl).1
  echo := (callee_of_imports h.echo rfl hl).2
  renderSignature := (callee_of_imports h.render rfl hl).1
  render := (callee_of_imports h.render rfl hl).2
  data := h.data

/-! ## Calls of routines from outside -/

/-- A machine that runs as the rules say, holds the library and has room for its activations. -/
structure Ready (m : Processor Output) (l : Links) : Prop where
  linked : Linked m
  installed : Installed m l
  room : Room m 0 2000

section Outside

variable {m : Processor Output} {l : Links} {w : World Output} {args : List Val} {r : Routine}

/-- A call of a routine ends as the rules say. -/
theorem Ready.ends (hm : Ready m l) (ha : r.params.length = args.length) {Q : Post Output}
    (hq : Q.fuel = none) (h : m.Calls 0 (l.index r) args w.heap w.host Q) :
    ∃ ending w', m.Ends w (l.index r) args ending w' ∧ Q.accepts w' ending :=
  h.ends hm.linked (hm.installed.signature r) ha hq

/-- A call that returns with results and a heap as asked, and writes nothing. -/
def returning (w : Output) (P : List Val → Heap → Prop) : Post Output where
  returned vs h w' := P vs h ∧ w' = w
  trapped _ _ _ _ := False
  fuel := none

theorem Ready.returns (hm : Ready m l) (ha : r.params.length = args.length)
    {P : List Val → Heap → Prop}
    (h : m.Calls 0 (l.index r) args w.heap w.host (returning w.host P)) :
    ∃ vs w', m.Ends w (l.index r) args (.returned vs) w' ∧ P vs w'.heap ∧ w'.host = w.host := by
  obtain ⟨ending, w', hends, haccept⟩ := hm.ends ha rfl h
  cases ending with
  | returned vs => exact ⟨vs, w', hends, haccept⟩
  | trapped t => exact haccept.elim
  | malformed => exact haccept.elim

end Outside

end HeapScript.Library
