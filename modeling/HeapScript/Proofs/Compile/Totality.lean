import HeapScript.Proofs.Compile.Isolation

/-!
# Compilation fails only because of the program

No function gives up because of an invariant of the compiler, the functions of a program are
numbered one after the other, and every number that is handed out receives one body. So a program
without errors always becomes a module, and that module is complete.
-/

namespace HeapScript.Compile

open Machine Library

/-! ## Errors -/

theorem tidy_start (c : Context) (pool : Pool) (notes : Array String) (params : Nat) :
    (Draft.start pool notes params).Tidy c :=
  ⟨fun _ h => absurd h List.not_mem_nil, fun _ _ h => nomatch h⟩

theorem Gen.Restores.fault {c : Context} {x : Gen Body} {P : Body → Body → Prop}
    (h : Restores true c x x P) {params : Nat} {e : Diagnostic} (he : x.fault params = some e) :
    e.category ≠ .internal := by
  have htidy := h _ _ _ (Draft.beside_self fun _ => tidy_start c { strings := #[] } #[] params)
  unfold Gen.fault at he
  revert he htidy
  rcases Gen.step x _ with ⟨r | b, d⟩
  · intro he htidy
    cases he
    exact htidy.2.2 rfl
  · intro he _
    cases he

/-- The numbers of the functions that a session has compiled. -/
def Session.indices (s : Session) : List Nat := s.bodies.toList.map Body.index

theorem Session.add_indices {gen : Gen Body} {i : Nat} (hx : Gen.Agree gen gen)
    (hi : gen.Gives fun b => b.index = i) (s : Session) (name : String) (params : Nat)
    (h : (s.add name params gen).errors.errors = []) :
    s.errors.errors = [] ∧ (s.add name params gen).indices = s.indices ++ [i] := by
  have hagree := hx (Draft.start s.pool s.notes params) (Draft.start s.pool s.notes params)
    ⟨rfl, rfl⟩
  revert h hagree
  rw [Session.add_eq]
  cases hstep : gen.step (Draft.start s.pool s.notes params) with
  | mk r d =>
    cases r with
    | error e =>
      rintro h ⟨-, hlevel⟩
      rw [errors_add s.errors hlevel] at h
      exact absurd h (by simp)
    | ok b =>
      intro h _
      refine ⟨h, ?_⟩
      simp [Session.indices, hi _ _ _ hstep]

/-- Functions that are compiled one after the other get their bodies in order. -/
theorem foldl_indices {α : Type} {add : Session → α → Session} {index : α → Nat}
    (h : ∀ s x, (add s x).errors.errors = [] →
      s.errors.errors = [] ∧ (add s x).indices = s.indices ++ [index x]) (xs : List α) (s : Session)
    (hs : (xs.foldl add s).errors.errors = []) :
    s.errors.errors = [] ∧ (xs.foldl add s).indices = s.indices ++ xs.map index := by
  induction xs generalizing s with
  | nil => exact ⟨hs, (List.append_nil _).symm⟩
  | cons x xs ih =>
    obtain ⟨hx, hrest⟩ := ih (add s x) hs
    obtain ⟨hs', hfirst⟩ := h s x hx
    refine ⟨hs', ?_⟩
    rw [List.foldl_cons, hrest, hfirst, List.map_cons, List.append_assoc, List.singleton_append]

theorem function_index (c : Context) (f : FunctionInfo) (names : List String) :
    (Gen.function c f names).Gives fun b => b.index = f.index :=
  Gen.gives_then fun _ => Gen.gives_then fun _ => Gen.gives_then fun _ => Gen.gives_pure rfl

theorem creator_index (c : Context) (k : ClassInfo) :
    (Gen.creator c k).Gives fun b => b.index = k.create :=
  Gen.gives_then fun _ => Gen.gives_then fun _ => Gen.gives_then fun _ => Gen.gives_then fun _ =>
    Gen.gives_pure rfl

/-- A session without errors has a body for every function and every constructor. -/
theorem session_indices {p : Program} {o : Options}
    (h : (Program.session p o).errors.errors = []) :
    (Program.session p o).indices = (jobs p (Program.decls p) o.optimize).map (·.info.index) ++
      (Program.decls p).classes.map ClassInfo.create := by
  have hjob (s : Session) (j : Job)
      (hs : (s.addJob o (Program.decls p) (Program.links p) j).errors.errors = []) :
      s.errors.errors = [] ∧ (s.addJob o (Program.decls p) (Program.links p) j).indices =
        s.indices ++ [j.info.index] :=
    Session.add_indices
      (function_agrees (c := j.context o (Program.decls p) (Program.links p)) rfl j.info j.params)
      (function_index _ _ _) { s with notes := s.notes.push ("compiling " ++ j.info.name) } _ _ hs
  have hclass (s : Session) (k : ClassInfo)
      (hs : (s.addClass o (Program.decls p) (Program.links p) k).errors.errors = []) :
      s.errors.errors = [] ∧ (s.addClass o (Program.decls p) (Program.links p) k).indices =
        s.indices ++ [k.create] :=
    Session.add_indices
      (creator_agrees (c := k.context o (Program.decls p) (Program.links p)) rfl rfl)
      (creator_index _ _) s _ _ hs
  obtain ⟨herr, hclasses⟩ := foldl_indices hclass _ _ h
  obtain ⟨-, hjobs⟩ := foldl_indices hjob _ _ herr
  have hopening : (Program.opening p o).indices = [] := rfl
  rw [hjobs, hopening, List.nil_append] at hclasses
  exact hclasses

/-! ## Numbering -/

/-- The numbers of the functions and constructors of a program. -/
def Declarations.indices (d : Declarations) : List Nat :=
  d.functions.map FunctionInfo.index ++
    d.classes.flatMap fun k => k.create :: k.methods.map FunctionInfo.index

theorem collectMethods_index {name : String} {next : Nat} {ms : List Function}
    {infos : List FunctionInfo} {errors : List Diagnostic}
    (h : infos.map FunctionInfo.index = (List.range infos.length).map (next + ·)) :
    (Collection.collectMethods name next ms (infos, errors)).1.map FunctionInfo.index =
      (List.range (Collection.collectMethods name next ms (infos, errors)).1.length).map
        (next + ·) := by
  induction ms generalizing infos errors with
  | nil => exact h
  | cons m ms ih =>
    simp only [Collection.collectMethods]
    split
    · exact ih h
    · refine ih ?_
      rw [List.map_append, h, List.length_append, List.length_singleton, List.range_succ,
        List.map_append]
      rfl

/-- The functions of a program are numbered one after the other, each number is given once. -/
theorem indices_ofProgram (p : Program) :
    (Program.decls p).indices.Perm (List.range (Program.decls p).count) := by
  refine List.foldlRecOn p _ (motive := fun c : Collection =>
    c.decls.indices.Perm (List.range c.decls.count)) (.refl _) fun c hc s _ => ?_
  cases s with
  | function decl =>
    simp only [Collection.addFunction]
    split
    · exact hc
    · simp only [Declarations.indices, List.map_append, List.map_cons, List.map_nil,
        List.range_succ]
      rw [List.append_assoc]
      refine (List.perm_append_comm.append_left _).trans ?_
      rw [← List.append_assoc]
      exact hc.append_right _
  | classDecl loc name properties methods =>
    simp only [Collection.addClass]
    split
    · exact hc
    · have hm := @collectMethods_index name (c.decls.count + 1) methods [] [] rfl
      simp only [Declarations.indices, List.flatMap_append, List.flatMap_cons, List.flatMap_nil,
        List.append_nil, hm]
      rw [← List.append_assoc, Nat.add_assoc, List.range_add]
      refine hc.append ?_
      rw [Nat.add_comm 1, List.range_succ_eq_map, List.map_cons, List.map_map]
      refine .of_eq ?_
      rw [Nat.add_zero]
      congr 1
      refine List.map_congr_left fun i _ => ?_
      simp only [Function.comp_apply]
      omega
  | expr | echo | ifElse | whileDo | doWhile | forLoop | foreach | switch | leave | next | ret =>
    exact hc

/-- The numbers of what is compiled for a program: those of its declarations and one more for the
statements that run. -/
theorem indices_of_session {p : Program} {o : Options}
    (h : (Program.session p o).errors.errors = []) :
    (Program.session p o).indices.Perm (List.range ((Program.decls p).count + 1)) := by
  have hclasses : ((Program.decls p).classes.flatMap (fun k => k.methods.map FunctionInfo.index) ++
      (Program.decls p).classes.map ClassInfo.create).Perm
      ((Program.decls p).classes.flatMap fun k => k.create :: k.methods.map FunctionInfo.index) := by
    rw [List.map_eq_flatMap]
    exact List.perm_append_comm.trans
      (List.flatMap_append_perm _ (fun k : ClassInfo => [k.create]) _)
  have hsplit : (Program.session p o).indices = (Program.decls p).count ::
      ((Program.decls p).functions.map FunctionInfo.index ++
        ((Program.decls p).classes.flatMap (fun k => k.methods.map FunctionInfo.index) ++
          (Program.decls p).classes.map ClassInfo.create)) := by
    rw [session_indices h]
    simp [jobs, mainInfo, List.map_flatMap, Function.comp_def]
  rw [hsplit, List.range_succ]
  refine List.perm_append_singleton _ _ |>.symm.trans (List.Perm.append_right _ ?_)
  exact (hclasses.append_left _).trans (indices_ofProgram p)

end HeapScript.Compile

/-! ## Open numbers -/

namespace HeapScript.Machine.Module

/-- A function number that waits for its body. -/
def Open (m : Module) (i : Nat) : Prop := ∃ f, m.funcs[i]? = some f ∧ f.isSet = false

variable {m m' : Module}

theorem Open.lt {i : Nat} (h : m.Open i) : i < m.funcs.size := by
  obtain ⟨f, hf, -⟩ := h
  exact (Array.getElem?_eq_some_iff.1 hf).1

theorem open_congr (h : m'.funcs = m.funcs) (i : Nat) : m'.Open i ↔ m.Open i := by
  rw [Open, h, Open]

theorem funcs_addType (m : Module) (params results : List ValType) :
    (m.addType params results).2.funcs = m.funcs := by
  unfold addType
  split <;> rfl

theorem open_push {f : Func} (hm : m'.funcs = m.funcs.push f) (i : Nat) :
    m'.Open i ↔ m.Open i ∨ i = m.funcs.size ∧ f.isSet = false := by
  rw [Open, hm, Open]
  by_cases hi : i = m.funcs.size
  · subst hi
    simp
  · rw [Array.getElem?_push, if_neg hi]
    simp [hi]

theorem open_reserve (m : Module) (i : Nat) : m.reserve.2.Open i ↔ m.Open i ∨ i = m.funcs.size := by
  rw [open_push (f := ⟨"", -1, .reserved⟩) rfl i]
  simp [Func.isSet]

/-- A number that waits for its body accepts one, and then it waits no more. -/
theorem define_open {i type : Nat} (name : String) (locals : List ValType) (instrs : Array Instr)
    (h : m.Open i) (ht : m.isSignatureIndex type = true) :
    ∃ m', m.define i name type locals instrs = .ok m' ∧ m'.funcs.size = m.funcs.size ∧
      ∀ j, m'.Open j ↔ m.Open j ∧ j ≠ i := by
  have hlt := h.lt
  obtain ⟨f, hf, hs⟩ := h
  have hb : f.body = .reserved := by
    unfold Func.isSet at hs
    split at hs
    · assumption
    · cases hs
  refine ⟨{ m with funcs := m.funcs.setIfInBounds i ⟨name, type, .code locals instrs⟩ }, ?_, ?_, ?_⟩
  · simp only [define, at?_natCast, hf, hb, ht, if_true, Int.toNat_natCast]
  · exact Array.size_setIfInBounds
  · intro j
    unfold Open
    by_cases hj : i = j
    · subst hj
      simp [Array.getElem?_setIfInBounds_self_of_lt hlt, Func.isSet]
    · rw [Array.getElem?_setIfInBounds_ne hj]
      simp [Ne.symm hj]

theorem isSignatureIndex_addType (m : Module) {params results : List ValType} (hp : Known params)
    (hr : Known results) :
    (m.addType params results).2.isSignatureIndex (m.addType params results).1 = true := by
  rw [isSignatureIndex, at?_natCast, addType_at m hp hr]
  rfl

/-- A module in which no number waits and every export exists is complete. -/
theorem validate_of_closed (h : ∀ i, ¬ m.Open i)
    (he : ∀ e ∈ m.exports, ∃ i : Nat, e.index = i ∧ i < m.funcs.size) : m.validate = .ok () := by
  have hopen : m.openIndex? = none := by
    rw [openIndex?, Array.findIdx?_eq_none_iff]
    intro f hf
    obtain ⟨i, hi⟩ := Array.mem_iff_getElem?.1 hf
    by_contra hs
    exact h i ⟨f, hi, by simpa using hs⟩
  have hexport : m.brokenExport? = none := by
    rw [brokenExport?, Array.find?_eq_none]
    intro e hmem
    obtain ⟨i, hi, hlt⟩ := he e hmem
    simp [hi, at?_natCast, Array.getElem?_eq_getElem hlt]
  simp [validate, hopen, hexport]

end HeapScript.Machine.Module

namespace HeapScript.Compile

open Machine Library

/-- Functions with different numbers that wait for their bodies can all be defined. -/
theorem defineBodies_total {bodies : List Body} {m : Module} (hs : ∀ b ∈ bodies, b.Sound)
    (hn : (bodies.map Body.index).Nodup) (ho : ∀ b ∈ bodies, m.Open b.index) :
    ∃ m', defineBodies bodies m = .ok m' ∧ m'.funcs.size = m.funcs.size ∧
      ∀ i, m'.Open i ↔ m.Open i ∧ i ∉ bodies.map Body.index := by
  induction bodies generalizing m with
  | nil => exact ⟨m, rfl, rfl, by simp⟩
  | cons b rest ih =>
    rw [List.map_cons, List.nodup_cons] at hn
    have hb := hs b (by simp)
    have hfuncs := Module.funcs_addType m b.params b.results
    have hopen (i : Nat) : (m.addType b.params b.results).2.Open i ↔ m.Open i :=
      Module.open_congr hfuncs i
    obtain ⟨m₁, hd, hsize, hm₁⟩ := Module.define_open b.name b.locals b.code.toArray
      ((hopen b.index).2 (ho b (by simp)))
      (Module.isSignatureIndex_addType m hb.params hb.results)
    obtain ⟨m', hrest, hsize', hm'⟩ := ih (m := m₁) (fun q hq => hs q (by simp [hq])) hn.2
      fun q hq => (hm₁ q.index).2 ⟨(hopen _).2 (ho q (by simp [hq])), fun he =>
        hn.1 (he ▸ List.mem_map_of_mem hq)⟩
    refine ⟨m', ?_, by rw [hsize', hsize, hfuncs], fun i => ?_⟩
    · simp only [defineBodies, hd]
      exact hrest
    · rw [hm', hm₁, hopen, List.map_cons, List.mem_cons, not_or, and_assoc]

theorem open_reserveMany (n : Nat) (m : Module) (i : Nat) :
    (reserveMany n m).Open i ↔ m.Open i ∨ (m.funcs.size ≤ i ∧ i < m.funcs.size + n) := by
  induction n generalizing m with
  | zero => simp [reserveMany]
  | succ n ih =>
    have hsize : m.reserve.2.funcs.size = m.funcs.size + 1 := Array.size_push _
    rw [reserveMany, ih, Module.open_reserve, hsize, or_assoc]
    refine or_congr_right ?_
    omega

/-! ## The library -/

/-- A routine of the library as a function of a module. -/
def Routine.asBody (l : Links) (r : Routine) : Body where
  name := "rt." ++ r.name
  index := l.index r
  params := r.params
  results := r.results
  locals := (r.body l).locals
  code := (r.body l).code

/-- The library as functions of a module. -/
def libraryBodies (l : Links) : List Body := Routine.all.map (Routine.asBody l)

theorem defineAll_eq (l : Links) (rs : List Routine) (m : Module) :
    defineAll l rs m = defineBodies (rs.map (Routine.asBody l)) m := by
  induction rs generalizing m with
  | nil => rfl
  | cons r rs ih =>
    simp only [defineAll, List.map_cons, defineBodies, Routine.asBody]
    cases (m.addType r.params r.results).2.define (l.index r) ("rt." ++ r.name)
      (m.addType r.params r.results).1 (r.body l).locals (r.body l).code.toArray with
    | error e => rfl
    | ok m' => exact ih m'

theorem libraryBodies_index (l : Links) :
    (libraryBodies l).map Body.index = (List.range Routine.all.length).map (l.base + 2 + ·) := by
  have hpos : Routine.all.map Routine.position = List.range Routine.all.length := by decide
  rw [← hpos, libraryBodies, List.map_map, List.map_map]
  rfl

theorem nodup_map_add (k n : Nat) : ((List.range n).map (k + ·)).Nodup :=
  List.Nodup.map (fun _ _ h => Nat.add_left_cancel h) List.nodup_range

theorem mem_map_add {k n i : Nat} : i ∈ (List.range n).map (k + ·) ↔ k ≤ i ∧ i < k + n := by
  simp only [List.mem_map, List.mem_range]
  constructor
  · rintro ⟨j, hj, rfl⟩
    omega
  · intro h
    exact ⟨i - k, by omega, by omega⟩

theorem reserveAll_eq (rs : List Routine) (m : Module) : reserveAll rs m = reserveMany rs.length m := by
  induction rs generalizing m with
  | nil => rfl
  | cons r rs ih => exact ih _

/-- The library can be added to every module, and then no number of it waits for its body. -/
theorem install_total (m : Module) : ∃ m', install m = .ok (⟨m.funcs.size⟩, m') ∧
    m'.funcs.size = m.funcs.size + 2 + Routine.all.length ∧ ∀ i, m'.Open i ↔ m.Open i := by
  obtain ⟨f, g, hfuncs, hf, hg⟩ : ∃ f g, (addHost m).funcs = (m.funcs.push f).push g ∧
      f.isSet = true ∧ g.isSet = true := by
    simp only [addHost, Module.addImport, Module.funcs_addType]
    exact ⟨_, _, rfl, rfl, rfl⟩
  have hhost (i : Nat) : (addHost m).Open i ↔ m.Open i := by
    let m₁ : Module := { m with funcs := m.funcs.push f }
    have hfirst : m₁.Open i ↔ _ := Module.open_push rfl i
    rw [Module.open_push (m := m₁) hfuncs i, hfirst]
    simp [hf, hg]
  have hsize : (addHost m).funcs.size = m.funcs.size + 2 := by simp [hfuncs]
  let m₁ := reserveAll Routine.all (addHost m)
  have hopen (i : Nat) : m₁.Open i ↔ m.Open i ∨
      i ∈ (libraryBodies ⟨m.funcs.size⟩).map Body.index := by
    rw [libraryBodies_index, mem_map_add]
    dsimp only [m₁]
    rw [reserveAll_eq, open_reserveMany, hhost, hsize]
  have hdisjoint (i : Nat) (hi : m.Open i) : i ∉ (libraryBodies ⟨m.funcs.size⟩).map Body.index := by
    rw [libraryBodies_index, mem_map_add]
    have := hi.lt
    dsimp only
    omega
  obtain ⟨m₂, hd, hsize₂, hopen₂⟩ := defineBodies_total (m := m₁)
    (fun b (hb : b ∈ libraryBodies ⟨m.funcs.size⟩) => by
      obtain ⟨r, -, rfl⟩ := List.mem_map.1 hb
      exact ⟨r.known.1, r.known.2, r.balanced _⟩)
    (by
      rw [libraryBodies_index]
      exact nodup_map_add _ _)
    fun b hb => (hopen b.index).2 (.inr (List.mem_map_of_mem hb))
  have hdata (strings : List String) (m : Module) :
      (strings.foldl (fun m s => (m.addData 0 (textBytes s)).2) m).funcs = m.funcs := by
    induction strings generalizing m with
    | nil => rfl
    | cons s strings ih => exact ih _
  refine ⟨ownStrings.foldl (fun m s => (m.addData 0 (textBytes s)).2) m₂, ?_, ?_, fun i => ?_⟩
  · have hall : defineAll ⟨m.funcs.size⟩ Routine.all m₁ = .ok m₂ := (defineAll_eq ..).trans hd
    simp only [install]
    rw [show reserveAll Routine.all (addHost m) = m₁ from rfl, hall]
    rfl
  · rw [hdata, hsize₂]
    dsimp only [m₁]
    rw [reserveAll_eq, size_reserveMany, hsize]
  · rw [Module.open_congr (hdata _ _), hopen₂, hopen]
    constructor
    · rintro ⟨hi | hi, hne⟩
      · exact hi
      · exact absurd hi hne
    · exact fun hi => ⟨.inl hi, hdisjoint i hi⟩

/-! ## Programs -/

/-- The numbers in a module that wait for a body before anything of the program is defined: those
of the program and, behind the library, those of the helpers. -/
def reserved (main helpers : Nat) : List Nat :=
  List.range (main + 1) ++ (List.range helpers).map (main + 1 + 2 + Routine.all.length + ·)

theorem mem_reserved {main helpers i : Nat} : i ∈ reserved main helpers ↔ i < main + 1 ∨
    (main + 1 + 2 + Routine.all.length ≤ i ∧ i < main + 1 + 2 + Routine.all.length + helpers) := by
  rw [reserved, List.mem_append, List.mem_range, mem_map_add]

theorem nodup_reserved (main helpers : Nat) : (reserved main helpers).Nodup := by
  refine List.Nodup.append List.nodup_range (nodup_map_add _ _) fun i hi hi' => ?_
  rw [List.mem_range] at hi
  rw [mem_map_add] at hi'
  omega

/-- Functions with all the numbers that wait for a body make a complete module. -/
theorem assemble_total {main : Nat} {pool : Pool} {bodies : List Body}
    (hs : ∀ b ∈ bodies, b.Sound)
    (hi : (bodies.map Body.index).Perm (reserved main pool.helpers.size)) :
    ∃ m, assemble (main + 1) pool bodies = .ok (⟨main + 1⟩, m) ∧ m.validate = .ok () ∧
      m.funcs.size = main + 1 + 2 + Routine.all.length + pool.helpers.size := by
  have hsize₀ : (reserveMany (main + 1) emptyModule).funcs.size = main + 1 := by
    rw [size_reserveMany]
    simp [emptyModule]
  have hopen₀ (i : Nat) : (reserveMany (main + 1) emptyModule).Open i ↔ i < main + 1 := by
    rw [open_reserveMany]
    simp [emptyModule, Module.Open]
  obtain ⟨m₁, hinstall, hsize₁, hopen₁⟩ := install_total (reserveMany (main + 1) emptyModule)
  let m₂ := (pool.strings.toList.drop ownStrings.length).foldl (fun m s => (m.addData 0 s).2) m₁
  have hfuncs₂ : m₂.funcs = m₁.funcs := by
    have hdata (strings : List Bytes) (m : Module) :
        (strings.foldl (fun m s => (m.addData 0 s).2) m).funcs = m.funcs := by
      induction strings generalizing m with
      | nil => rfl
      | cons s strings ih => exact ih _
    exact hdata _ _
  let m₃ := reserveMany pool.helpers.size m₂
  have hopen₃ (i : Nat) : m₃.Open i ↔ i ∈ reserved main pool.helpers.size := by
    rw [open_reserveMany, Module.open_congr hfuncs₂, hopen₁, hopen₀, hfuncs₂, hsize₁, hsize₀,
      mem_reserved]
  obtain ⟨m₄, hdefine, hsize₄, hopen₄⟩ := defineBodies_total (m := m₃) hs
    (hi.nodup_iff.2 (nodup_reserved _ _))
    fun b hb => (hopen₃ b.index).2 (hi.subset (List.mem_map_of_mem hb))
  have hsize : m₄.funcs.size = main + 1 + 2 + Routine.all.length + pool.helpers.size := by
    rw [hsize₄, size_reserveMany, hfuncs₂, hsize₁, hsize₀]
  refine ⟨m₄.addExport "main" .func main, ?_, ?_, hsize⟩
  · unfold assemble
    rw [hinstall, hsize₀]
    change defineBodies bodies m₃ >>= _ = _
    rw [hdefine]
    rfl
  · have hexports : m₄.exports = #[] := by
      obtain ⟨-, -, -, hexp₄⟩ := defineBodies_has hdefine hs
      rw [hexp₄, exports_reserveMany, exports_addAll, exports_install hinstall, exports_reserveMany]
      rfl
    refine Module.validate_of_closed (fun i hopen => ?_) fun e he => ?_
    · have hclosed := (hopen₄ i).1 hopen
      exact hclosed.2 (hi.symm.subset ((hopen₃ i).1 hclosed.1))
    · simp only [Module.addExport, hexports, List.push_toArray, List.nil_append, List.mem_toArray,
        List.mem_singleton] at he
      exact ⟨main, by rw [he], by rw [Module.addExport, hsize]; omega⟩

theorem helperBodies_index (d : Declarations) (l : Links) (pool : Pool) :
    ((helperBodies d l pool).map (·.2)).map Body.index =
      (List.range pool.helpers.size).map (l.base + 2 + Routine.all.length + ·) := by
  have hindex (h : Helper) (i : Nat) : (h.body d l i).index = i := by cases h <;> rfl
  simp only [helperBodies, List.map_map, Function.comp_def, hindex]
  rw [← Array.length_toList, List.range_eq_range', ← List.zipIdx_map_snd 0 pool.helpers.toList,
    List.map_map]
  rfl

/-- All functions that are defined in the module of a program, those of the library included. -/
def Program.definitions (p : Program) (o : Options) : List Body :=
  libraryBodies (Program.links p) ++ Program.bodies p o

theorem bodies_index {p : Program} {o : Options} (h : (Program.session p o).errors.errors = []) :
    ((Program.bodies p o).map Body.index).Perm
      (reserved (Program.decls p).count (Program.session p o).pool.helpers.size) := by
  rw [Program.bodies, List.map_append, helperBodies_index]
  exact (indices_of_session h).append_right _

theorem definitions_index {p : Program} {o : Options}
    (h : (Program.session p o).errors.errors = []) :
    ((Program.definitions p o).map Body.index).Perm
      ((List.range Routine.all.length).map ((Program.decls p).count + 1 + 2 + ·) ++
        reserved (Program.decls p).count (Program.session p o).pool.helpers.size) := by
  rw [Program.definitions, List.map_append, libraryBodies_index]
  exact (bodies_index h).append_left _

theorem mem_definitions {p : Program} {o : Options} (h : (Program.session p o).errors.errors = [])
    {i : Nat} : i ∈ (Program.definitions p o).map Body.index ↔
      i < (Program.decls p).count + 1 + 2 + Routine.all.length +
        (Program.session p o).pool.helpers.size ∧
      i ≠ (Program.links p).echo ∧ i ≠ (Program.links p).floatToBytes := by
  rw [(definitions_index h).mem_iff, List.mem_append, mem_map_add, mem_reserved]
  simp only [Links.echo, Links.floatToBytes]
  omega

/-- A program without errors compiles. -/
theorem compile_ok {p : Program} {o : Options} (h : (Program.session p o).errors.errors = []) :
    ∃ c, (Program.compile p o).outcome = .ok c ∧ c.links = Program.links p ∧
      c.program.funcs.size = (Program.decls p).count + 1 + 2 + Routine.all.length +
        (Program.session p o).pool.helpers.size := by
  have hnone : (Program.session p o).errors.hasErrors = false := by
    simp [Collector.hasErrors, h]
  obtain ⟨m, hm, hvalid, hsize⟩ := assemble_total (Program.bodies_sound p o) (bodies_index h)
  refine ⟨⟨m, Program.links p, (Program.decls p).count⟩, ?_, rfl, hsize⟩
  rw [Program.bodies] at hm
  rw [Program.compile_eq, hnone, finish]
  simp only [Bool.false_eq_true, if_false, hm, hvalid]

end HeapScript.Compile
