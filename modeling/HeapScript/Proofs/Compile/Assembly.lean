import HeapScript.Proofs.Compile.Statements
import HeapScript.Proofs.Library.Placement

/-!
# The machine of a compiled program

A program that compiles gives a module that can be linked, and its machine holds the library, the
functions of the program and the string constants they use.
-/

namespace HeapScript.Compile

open Machine Machine.Processor Library Execution

/-! ## Functions in a module -/

/-- A function can be defined and linked. -/
structure Body.Sound (b : Body) : Prop where
  params : Module.Known b.params
  results : Module.Known b.results
  balanced : Balanced b.code

/-- A module has a compiled function. -/
def Body.In (b : Body) (m : Module) : Prop :=
  m.Has b.index b.name b.params b.results b.locals b.code

theorem extends_reserveMany (n : Nat) (m : Module) : m.Extends (reserveMany n m) := by
  induction n generalizing m with
  | zero => exact .refl m
  | succ n ih => exact (Module.extends_reserve m).trans (ih _)

theorem fits_reserveMany (n : Nat) {m : Module} (h : m.Fits hosts) : (reserveMany n m).Fits hosts := by
  induction n generalizing m with
  | zero => exact h
  | succ n ih => exact ih (Fits.reserve h)

theorem data_reserveMany (n : Nat) (m : Module) : (reserveMany n m).data = m.data := by
  induction n generalizing m with
  | zero => rfl
  | succ n ih => exact ih _

theorem exports_reserveMany (n : Nat) (m : Module) : (reserveMany n m).exports = m.exports := by
  induction n generalizing m with
  | zero => rfl
  | succ n ih => exact ih _

theorem types_reserveMany (n : Nat) (m : Module) : (reserveMany n m).types = m.types := by
  induction n generalizing m with
  | zero => rfl
  | succ n ih => exact ih _

theorem size_reserveMany (n : Nat) (m : Module) :
    (reserveMany n m).funcs.size = m.funcs.size + n := by
  induction n generalizing m with
  | zero => rfl
  | succ n ih =>
    rw [reserveMany, ih, Module.reserve, Array.size_push]
    omega

/-- A definition of functions in order, taken apart at the first of them. -/
theorem defineBodies_cons {b : Body} {bodies : List Body} {m m' : Module}
    (h : defineBodies (b :: bodies) m = .ok m') :
    ∃ m₁, (m.addType b.params b.results).2.define b.index b.name (m.addType b.params b.results).1
        b.locals b.code.toArray = .ok m₁ ∧ defineBodies bodies m₁ = .ok m' := by
  simp only [defineBodies] at h
  cases hd : (m.addType b.params b.results).2.define b.index b.name
      (m.addType b.params b.results).1 b.locals b.code.toArray with
  | error e =>
    rw [hd] at h
    cases h
  | ok m₁ =>
    rw [hd] at h
    exact ⟨m₁, rfl, h⟩

theorem exports_addType (m : Module) (params results : List ValType) :
    (m.addType params results).2.exports = m.exports := by
  unfold Module.addType
  split <;> rfl

/-- Defining functions puts each of them at its index and keeps everything else. -/
theorem defineBodies_has {bodies : List Body} {m m' : Module} (h : defineBodies bodies m = .ok m')
    (hs : ∀ b ∈ bodies, b.Sound) :
    m.Extends m' ∧ (∀ b ∈ bodies, b.In m') ∧ m'.data = m.data ∧ m'.exports = m.exports := by
  induction bodies generalizing m with
  | nil =>
    cases h
    exact ⟨.refl _, by simp, rfl, rfl⟩
  | cons b bodies ih =>
    obtain ⟨m₁, hd, h⟩ := defineBodies_cons h
    have hb := hs b (by simp)
    obtain ⟨hx, hhas⟩ := Module.define_has hb.params hb.results hd
    obtain ⟨hx', hall, hdata, hexp⟩ := ih h fun q hq => hs q (by simp [hq])
    refine ⟨hx.trans hx', fun q hq => ?_, ?_, ?_⟩
    · rcases List.mem_cons.mp hq with rfl | hq
      · exact hhas.mono hx'
      · exact hall q hq
    · rw [hdata, data_define hd, data_addType]
    · rw [hexp]
      obtain ⟨-, rfl⟩ := Module.define_inv hd
      exact exports_addType m b.params b.results

theorem fits_defineBodies {bodies : List Body} {m m' : Module} (hf : m.Fits hosts)
    (h : defineBodies bodies m = .ok m') (hs : ∀ b ∈ bodies, b.Sound) : m'.Fits hosts := by
  induction bodies generalizing m with
  | nil =>
    cases h
    exact hf
  | cons b bodies ih =>
    obtain ⟨m₁, hd, h⟩ := defineBodies_cons h
    exact ih ((hf.addType _ _).define (by simpa using (hs b (by simp)).balanced) hd) h
      fun q hq => hs q (by simp [hq])

/-! ## The module -/

/-- The data segments of a module with a pool: the strings of the library and the constants. -/
def Pool.segments (pool : Pool) : List DataSegment :=
  (ownStrings.map textBytes ++ pool.strings.toList.drop ownStrings.length).map (DataSegment.mk 0)

/-- What a module made of compiled functions holds. -/
structure Assembled (m : Module) (l : Links) (main : Nat) (pool : Pool) (bodies : List Body) :
    Prop where
  base : l = ⟨main + 1⟩
  placed : Placed m l
  fits : m.Fits hosts
  has : ∀ b ∈ bodies, b.In m
  data : m.data = pool.segments.toArray
  entry : m.exported? "main" = some main

theorem exports_install {m m' : Module} {l : Links} (h : install m = .ok (l, m')) :
    m'.exports = m.exports := by
  have hhost : (addHost m).exports = m.exports := by
    simp only [addHost, Module.addImport, exports_addType]
  have hres (rs : List Routine) (m : Module) : (reserveAll rs m).exports = m.exports := by
    induction rs generalizing m with
    | nil => rfl
    | cons r rs ih => exact ih _
  have hdef (l : Links) (rs : List Routine) {m m' : Module} (h : defineAll l rs m = .ok m') :
      m'.exports = m.exports := by
    induction rs generalizing m with
    | nil =>
      cases h
      rfl
    | cons r rs ih =>
      simp only [defineAll] at h
      cases hd : (m.addType r.params r.results).2.define (l.index r) ("rt." ++ r.name)
          (m.addType r.params r.results).1 (r.body l).locals (r.body l).code.toArray with
      | error e =>
        rw [hd] at h
        cases h
      | ok m₁ =>
        rw [hd] at h
        rw [ih h]
        obtain ⟨-, rfl⟩ := Module.define_inv hd
        exact exports_addType m r.params r.results
  have hdata (ss : List String) (m : Module) :
      (ss.foldl (fun m s => (m.addData 0 (textBytes s)).2) m).exports = m.exports := by
    induction ss generalizing m with
    | nil => rfl
    | cons s ss ih => exact ih _
  unfold install at h
  cases hd : defineAll ⟨m.funcs.size⟩ Routine.all (reserveAll Routine.all (addHost m)) with
  | error e =>
    simp only [hd] at h
    cases h
  | ok m₁ =>
    simp only [hd] at h
    cases h
    rw [hdata, hdef _ _ hd, hres, hhost]

theorem exports_addAll (strings : List Bytes) (m : Module) :
    (strings.foldl (fun m s => (m.addData 0 s).2) m).exports = m.exports := by
  induction strings generalizing m with
  | nil => rfl
  | cons s strings ih => exact ih _

/-- The module of compiled functions holds what it should. -/
theorem assemble_holds {main : Nat} {pool : Pool} {bodies : List Body} {l : Links} {m : Module}
    (h : assemble (main + 1) pool bodies = .ok (l, m)) (hs : ∀ b ∈ bodies, b.Sound) :
    Assembled m l main pool bodies := by
  unfold assemble at h
  cases hi : install (reserveMany (main + 1) emptyModule) with
  | error e =>
    simp only [hi] at h
    cases h
  | ok lm =>
    obtain ⟨l', m₁⟩ := lm
    simp only [hi] at h
    let m₂ := (pool.strings.toList.drop ownStrings.length).foldl (fun m s => (m.addData 0 s).2) m₁
    let m₃ := reserveMany pool.helpers.size m₂
    cases hd : defineBodies bodies m₃ with
    | error e =>
      change (defineBodies bodies m₃ >>= _) = _ at h
      rw [hd] at h
      cases h
    | ok m₄ =>
      change (defineBodies bodies m₃ >>= _) = _ at h
      rw [hd] at h
      cases h
      have hempty : (reserveMany (main + 1) emptyModule).Fits hosts :=
        fits_reserveMany _ fun f hf => absurd hf (Array.not_mem_empty f)
      have htypes (i : Nat) (d : TypeDef) (hd : Shape.definitions[i]? = some d) :
          (reserveMany (main + 1) emptyModule).types[i]? = some d := by
        rw [types_reserveMany]
        exact hd
      obtain ⟨rfl, -, hplaced, hdata⟩ := install_placed hi htypes (data_reserveMany _ _)
      have hx₂ := extends_addAll (pool.strings.toList.drop ownStrings.length) m₁
      have hx₃ := extends_reserveMany pool.helpers.size m₂
      obtain ⟨hx₄, hhas, hdata₄, hexp₄⟩ := defineBodies_has hd hs
      have hx₅ := Module.extends_addExport m₄ "main" .func main
      have hexp : m₄.exports = #[] := by
        rw [hexp₄, exports_reserveMany, exports_addAll, exports_install hi, exports_reserveMany]
        rfl
      refine ⟨?_, hplaced.mono (hx₂.trans (hx₃.trans (hx₄.trans hx₅))), ?_,
        fun b hb => (hhas b hb).mono hx₅, ?_, ?_⟩
      · rw [size_reserveMany]
        simp [emptyModule]
      · have hfits : m₃.Fits hosts := fits_reserveMany _ (fits_addAll _ (fits_install hempty hi))
        exact (fits_defineBodies hfits hd hs : m₄.Fits hosts)
      · have hdata₂ := data_addAll (pool.strings.toList.drop ownStrings.length) m₁
        change m₄.data = _
        rw [hdata₄, data_reserveMany, hdata₂, hdata]
        simp [Pool.segments]
      · simp [Module.exported?, Module.addExport, hexp]

/-! ## Sessions -/

/-- Every function of a session can be defined and linked. -/
def Session.Sound (s : Session) : Prop := ∀ b ∈ s.bodies, b.Sound

theorem known_boxedParams (n : Nat) : Module.Known (boxedParams n) := by
  intro t ht k
  rw [(List.mem_replicate.1 ht).2]
  exact ValType.noConfusion

theorem Session.Sound.add {s : Session} (h : s.Sound) (name : String) (params : Nat)
    {gen : Gen Body} (hg : gen.Gives Body.Sound) : (s.add name params gen).Sound := by
  unfold Session.add
  split
  · rename_i b d hr
    intro b' hb'
    rcases Array.mem_push.mp hb' with hb' | rfl
    · exact h b' hb'
    · exact hg _ _ _ hr
  · exact h

theorem function_sound (c : Context) (f : FunctionInfo) (names : List String) :
    (Gen.function c f names).Gives Body.Sound := by
  refine Gen.gives_then fun _ => Gen.gives_bind (stmts_nests c f.decl.body {}) fun code hc =>
    Gen.gives_then fun d => Gen.gives_pure ⟨known_boxedParams _, ?_, Nests.balanced ?_⟩
  · dsimp only
    split <;> simp [Module.Known]
  · dsimp only
    split <;> simp [hc]

theorem creator_sound (c : Context) (k : ClassInfo) : (Gen.creator c k).Gives Body.Sound := by
  intro d b d' hr
  have hn := creator_nests c k d b d' hr
  simp only [Gen.creator, Gen.runs_bind, Gen.runs_pure] at hr
  obtain ⟨_, _, -, _, _, -, _, _, -, _, _, -, rfl, -⟩ := hr
  exact ⟨known_boxedParams _, by simp [Module.Known], Nests.balanced hn⟩

theorem helper_sound (d : Declarations) (l : Links) (index : Nat) (h : Helper) :
    (h.body d l index).Sound := by
  have hn := Nests.balanced (helper_body_nests d l index h)
  cases h with
  | dispatcher => exact ⟨known_boxedParams _, by simp [Helper.body, Module.Known], hn⟩
  | slotFinder =>
    exact ⟨by simp [Helper.body, Module.Known], by simp [Helper.body, Module.Known], hn⟩

abbrev Program.decls (p : Program) : Declarations := (Collection.ofProgram p).decls

/-- The place of the library in the module of a program. -/
abbrev Program.links (p : Program) : Links := ⟨(Program.decls p).count + 1⟩

/-- The session before anything is compiled. -/
def Program.opening (p : Program) (o : Options) : Session :=
  let found := Collection.ofProgram p
  { pool := { strings := (ownStrings.map textBytes).toArray }
    notes := ([stageNote .collection] ++ found.notes ++ [stageNote .analysis] ++
      (jobs p found.decls o.optimize).flatMap Job.notes ++
      [stageNote .library, stageNote .generation]).toArray
    errors := found.errors.foldl Collector.add ((Collector.withLimit 100).withSource o.source) }

def Program.session (p : Program) (o : Options) : Session :=
  (Program.decls p).classes.foldl (Session.addClass o (Program.decls p) (Program.links p))
    ((jobs p (Program.decls p) o.optimize).foldl
      (Session.addJob o (Program.decls p) (Program.links p)) (Program.opening p o))

/-- All functions of the module of a program apart from the library. -/
def Program.bodies (p : Program) (o : Options) : List Body :=
  (Program.session p o).bodies.toList ++
    (helperBodies (Program.decls p) (Program.links p) (Program.session p o).pool).map (·.2)

theorem Program.compile_eq (p : Program) (o : Options) :
    Program.compile p o =
      if (Program.session p o).errors.hasErrors then
        ⟨(Program.session p o).notes.toList, .error (.rejected (Program.session p o).errors)⟩
      else finish (Program.decls p) (Program.links p) (Program.decls p).count (Program.session p o) :=
  rfl

theorem Program.session_sound (p : Program) (o : Options) : (Program.session p o).Sound := by
  have hjobs (js : List Job) (s : Session) (hs : s.Sound) :
      (js.foldl (Session.addJob o (Program.decls p) (Program.links p)) s).Sound := by
    induction js generalizing s with
    | nil => exact hs
    | cons j js ih =>
      refine ih _ ?_
      unfold Session.addJob
      exact Session.Sound.add (s := { s with notes := s.notes.push _ }) hs _ _ (function_sound _ _ _)
  have hclasses (ks : List ClassInfo) (s : Session) (hs : s.Sound) :
      (ks.foldl (Session.addClass o (Program.decls p) (Program.links p)) s).Sound := by
    induction ks generalizing s with
    | nil => exact hs
    | cons k ks ih => exact ih _ (hs.add _ _ (creator_sound _ k))
  exact hclasses _ _ (hjobs _ _ fun b hb => absurd hb (Array.not_mem_empty b))

theorem Program.bodies_sound (p : Program) (o : Options) :
    ∀ b ∈ Program.bodies p o, b.Sound := by
  intro b hb
  rcases List.mem_append.mp hb with hb | hb
  · exact Program.session_sound p o b (Array.mem_toList_iff.mp hb)
  · simp only [helperBodies, List.map_map, List.mem_map] at hb
    obtain ⟨hi, -, rfl⟩ := hb
    exact helper_sound ..

theorem Program.compile_inv {p : Program} {o : Options} {c : Compiled}
    (h : (Program.compile p o).outcome = .ok c) :
    (Program.session p o).errors.hasErrors = false ∧ c.main = (Program.decls p).count ∧
      c.program.validate = .ok () ∧
      Assembled c.program c.links (Program.decls p).count (Program.session p o).pool
        (Program.bodies p o) := by
  rw [Program.compile_eq] at h
  split at h
  · cases h
  · rename_i herr
    unfold finish at h
    dsimp only at h
    split at h
    · cases h
    · rename_i l m hm
      split at h
      · cases h
      · rename_i hv
        cases h
        exact ⟨Bool.eq_false_iff.mpr herr, rfl, hv,
          assemble_holds hm (Program.bodies_sound p o)⟩

theorem machine_of_compiled {p : Program} {o : Options} {c : Compiled}
    (h : (Program.compile p o).outcome = .ok c) (maxSteps : Int) :
    ∃ links, Resolves hosts c.program links ∧
      machineFor c maxSteps = .ok { program := c.program, links := links, maxSteps := maxSteps } ∧
      Installed { program := c.program, links := links, maxSteps := maxSteps } c.links := by
  obtain ⟨-, -, hv, ha⟩ := Program.compile_inv h
  obtain ⟨links, hlink, hres⟩ := link_fits hv ha.fits
  refine ⟨links, hres, ?_, ha.placed.installed hres⟩
  unfold machineFor
  rw [hlink]

/-- The machine of a compiled program runs as the rules say. -/
theorem ready_of_compiled {p : Program} {o : Options} {c : Compiled}
    (h : (Program.compile p o).outcome = .ok c) :
    ∃ m, machineFor c 0 = .ok m ∧ Ready m c.links := by
  obtain ⟨links, hres, hm, hi⟩ := machine_of_compiled h 0
  exact ⟨_, hm, hres.linked (fun _ _ => oblivious_hosts) (Int.le_refl 0), hi,
    .inr (show (2000 : Int) ≤ 2000 by decide)⟩

/-- The program without statements compiles. -/
theorem compile_nothing : ∃ c, (Program.compile [] {}).outcome = .ok c := by
  have h : (Program.compile [] {}).outcome.isOk = true := by decide +kernel
  cases ho : (Program.compile [] {}).outcome with
  | ok c => exact ⟨c, rfl⟩
  | error e =>
    rw [ho] at h
    cases h

end HeapScript.Compile
