import HeapScript.Proofs.Machine.Outcome
import HeapScript.Proofs.Machine.Scanning

/-!
# Building and linking modules

What stays true while a module is built, and when it can be linked.
-/

namespace HeapScript.Machine

/-! ## Building -/

/-- Nothing that a module has is lost or changed. -/
structure Module.Extends (m m' : Module) : Prop where
  types : ∀ (i : Nat) (d : TypeDef), m.types[i]? = some d → m'.types[i]? = some d
  funcs : ∀ (i : Nat) (f : Func), m.funcs[i]? = some f → f.isSet = true → m'.funcs[i]? = some f
  data : ∀ (i : Nat) (d : DataSegment), m.data[i]? = some d → m'.data[i]? = some d

/-- A module has a function with some signature and code. -/
def Module.Has (m : Module) (index : Nat) (name : String) (params results locals : List ValType)
    (code : List Instr) : Prop :=
  ∃ type : Nat, m.funcs[index]? = some ⟨name, type, .code locals code.toArray⟩ ∧
    m.types[type]? = some (.func params results)

/-- A module has a function of its host with some signature. -/
def Module.Imports (m : Module) (index : Nat) (space name : String) (params results : List ValType) :
    Prop :=
  ∃ type : Nat, m.funcs[index]? = some ⟨space ++ "." ++ name, type, .host space name⟩ ∧
    m.types[type]? = some (.func params results)

theorem getElem?_push_of_some {α : Type} {xs : Array α} {i : Nat} {x : α} (y : α)
    (h : xs[i]? = some x) : (xs.push y)[i]? = some x := by
  obtain ⟨hi, -⟩ := Array.getElem?_eq_some_iff.mp h
  rw [Array.getElem?_push_lt hi, ← h, Array.getElem?_eq_getElem hi]

namespace Module

variable {m m' m'' : Module}

theorem Extends.refl (m : Module) : Extends m m :=
  ⟨fun _ _ h => h, fun _ _ h _ => h, fun _ _ h => h⟩

theorem Extends.trans (h : Extends m m') (h' : Extends m' m'') : Extends m m'' :=
  ⟨fun i d hd => h'.types i d (h.types i d hd),
    fun i f hf hs => h'.funcs i f (h.funcs i f hf hs) hs,
    fun i d hd => h'.data i d (h.data i d hd)⟩

theorem Has.mono {index : Nat} {name : String} {params results locals : List ValType}
    {code : List Instr} (h : m.Has index name params results locals code) (hx : Extends m m') :
    m'.Has index name params results locals code := by
  obtain ⟨type, hf, ht⟩ := h
  exact ⟨type, hx.funcs _ _ hf rfl, hx.types _ _ ht⟩

theorem Imports.mono {index : Nat} {space name : String} {params results : List ValType}
    (h : m.Imports index space name params results) (hx : Extends m m') :
    m'.Imports index space name params results := by
  obtain ⟨type, hf, ht⟩ := h
  exact ⟨type, hx.funcs _ _ hf rfl, hx.types _ _ ht⟩

theorem extends_addType (m : Module) (params results : List ValType) :
    Extends m (m.addType params results).2 := by
  unfold addType
  split
  · exact .refl m
  · exact ⟨fun i d h => getElem?_push_of_some _ h, fun i f h _ => h, fun i d h => h⟩

theorem extends_addImport (m : Module) (space name : String) (type : Int) :
    Extends m (m.addImport space name type).2 :=
  ⟨fun _ _ h => h, fun _ _ h _ => getElem?_push_of_some _ h, fun _ _ h => h⟩

theorem extends_reserve (m : Module) : Extends m m.reserve.2 :=
  ⟨fun _ _ h => h, fun _ _ h _ => getElem?_push_of_some _ h, fun _ _ h => h⟩

theorem extends_addData (m : Module) (offset : Int) (bytes : Bytes) :
    Extends m (m.addData offset bytes).2 :=
  ⟨fun _ _ h => h, fun _ _ h _ => h, fun _ _ h => getElem?_push_of_some _ h⟩

theorem extends_addExport (m : Module) (name : String) (kind : ExportKind) (index : Int) :
    Extends m (m.addExport name kind index) :=
  ⟨fun _ _ h => h, fun _ _ h _ => h, fun _ _ h => h⟩

/-- Whether a list has only types with a meaning. -/
def Known (types : List ValType) : Prop := ∀ t ∈ types, ∀ n, t ≠ .unknown n

theorem eq_of_allAlike {as bs : List ValType} (hk : Known bs)
    (h : ValType.allAlike as bs = true) : as = bs := by
  induction as generalizing bs with
  | nil =>
    cases bs with
    | nil => rfl
    | cons b bs => cases h
  | cons a as ih =>
    cases bs with
    | nil => cases h
    | cons b bs =>
      simp only [ValType.allAlike, Bool.and_eq_true] at h
      have hb : ∀ n, b ≠ .unknown n := hk b (by simp)
      have hab : a = b := by
        have h' := h.1
        unfold ValType.alike at h'
        split at h'
        · exact absurd rfl (hb _)
        · exact beq_iff_eq.mp h'
      rw [hab, ih (fun t ht => hk t (by simp [ht])) h.2]

/-- A signature is where `addType` says. -/
theorem addType_at (m : Module) {params results : List ValType} (hp : Known params)
    (hr : Known results) :
    (m.addType params results).2.types[(m.addType params results).1]? =
      some (.func params results) := by
  unfold addType
  split
  · rename_i i hi
    obtain ⟨hlt, hsig, -⟩ := Array.findIdx?_eq_some_iff_getElem.mp hi
    rw [Array.getElem?_eq_getElem hlt]
    cases ht : m.types[i] with
    | func ps rs =>
      rw [ht] at hsig
      simp only [TypeDef.isSignature, Bool.and_eq_true] at hsig
      rw [eq_of_allAlike hp hsig.1, eq_of_allAlike hr hsig.2]
    | struct | array =>
      rw [ht] at hsig
      cases hsig
  · exact Array.getElem?_push_size

/-- A definition that is accepted fills a reserved function and leaves everything else. -/
theorem define_inv {index type : Nat} {name : String} {locals : List ValType}
    {instrs : Array Instr} (h : m.define index name type locals instrs = .ok m') :
    (∃ f, m.funcs[index]? = some f ∧ f.isSet = false) ∧
      m' = { m with funcs := m.funcs.setIfInBounds index ⟨name, type, .code locals instrs⟩ } := by
  unfold define at h
  split at h
  · cases h
  rename_i f hf
  split at h
  · cases h
  · cases h
  · rename_i hb
    split at h <;> cases h
    exact ⟨⟨f, hf, by rw [Func.isSet, hb]⟩, rfl⟩

theorem extends_define {index type : Nat} {name : String} {locals : List ValType}
    {instrs : Array Instr} (h : m.define index name type locals instrs = .ok m') :
    Extends m m' := by
  obtain ⟨⟨f, hf, hs⟩, rfl⟩ := define_inv h
  refine ⟨fun _ _ h => h, fun i g hg hset => ?_, fun _ _ h => h⟩
  by_cases hi : index = i
  · subst hi
    rw [hf] at hg
    cases hg
    rw [hs] at hset
    cases hset
  · rw [← hg]
    exact Array.getElem?_setIfInBounds_ne hi

/-- A function that was defined with a new signature. -/
theorem define_has {index : Nat} {name : String} {params results locals : List ValType}
    {code : List Instr} (hp : Known params) (hr : Known results)
    (h : (m.addType params results).2.define index name (m.addType params results).1 locals
      code.toArray = .ok m') :
    Extends m m' ∧ m'.Has index name params results locals code := by
  have hx := extends_define h
  refine ⟨(extends_addType m params results).trans hx, _, ?_,
    hx.types _ _ (addType_at m hp hr)⟩
  obtain ⟨⟨f, hf, -⟩, rfl⟩ := define_inv h
  obtain ⟨hlt, -⟩ := Array.getElem?_eq_some_iff.mp hf
  rw [Array.getElem?_setIfInBounds_self_of_lt hlt]

/-! ## Functions that can be linked -/

end Module

variable {ω : Type}

/-- A function can be linked: the host supplies it or its code is balanced. -/
def Func.Fits (hosts : List (String × HostFunc ω)) (f : Func) : Prop :=
  match f.body with
  | .reserved => True
  | .host space name => ∃ h, hosts.lookup (space ++ "." ++ name) = some h
  | .code _ instrs => Balanced instrs.toList

def Module.Fits (hosts : List (String × HostFunc ω)) (m : Module) : Prop :=
  ∀ f ∈ m.funcs, f.Fits hosts

def Func.LinkedTo (hosts : List (String × HostFunc ω)) (f : Func) (link : Link ω) : Prop :=
  match f.body with
  | .reserved => False
  | .host space name => ∃ h, hosts.lookup (space ++ "." ++ name) = some h ∧ link = .host h
  | .code locals instrs => ∃ blocks, Marked blocks 0 instrs.toList ∧
      link = .code blocks (locals.map Val.zero)

structure Resolves (hosts : List (String × HostFunc ω)) (program : Module)
    (links : Array (Link ω)) : Prop where
  size : links.size = program.funcs.size
  link : ∀ (i : Nat) (f : Func), program.funcs[i]? = some f →
    ∃ l, links[i]? = some l ∧ f.LinkedTo hosts l

namespace Module

variable {m m' : Module} {hosts : List (String × HostFunc ω)}

theorem Fits.addType (h : m.Fits hosts) (params results : List ValType) :
    (m.addType params results).2.Fits hosts := by
  unfold Module.addType
  split <;> exact h

theorem Fits.push (h : m.Fits hosts) {f : Func} (hf : f.Fits hosts) :
    Module.Fits hosts { m with funcs := m.funcs.push f } := by
  intro g hg
  rcases Array.mem_push.mp hg with hg | rfl
  · exact h g hg
  · exact hf

theorem Fits.define {index type : Nat} {name : String} {locals : List ValType}
    {instrs : Array Instr} (h : m.Fits hosts) (hb : Balanced instrs.toList)
    (hd : m.define index name type locals instrs = .ok m') : m'.Fits hosts := by
  obtain ⟨-, rfl⟩ := define_inv hd
  intro g hg
  rcases Array.mem_or_eq_of_mem_setIfInBounds hg with hg | rfl
  · exact h g hg
  · exact hb

/-- In a complete module every function has a body. -/
theorem isSet_of_validate (h : m.validate = .ok ()) {f : Func} (hf : f ∈ m.funcs) :
    f.isSet = true := by
  unfold validate at h
  split at h
  · cases h
  rename_i hopen
  have := Array.findIdx?_eq_none_iff.mp hopen f hf
  simpa using this

end Module

namespace Processor

variable {hosts : List (String × HostFunc ω)}

theorem linkFunc_fits {f : Func} (index : Nat) (hf : f.Fits hosts) (hs : f.isSet = true) :
    ∃ link, linkFunc hosts index f = .ok link ∧ f.LinkedTo hosts link := by
  unfold Func.Fits at hf
  cases hb : f.body with
  | reserved =>
    rw [Func.isSet, hb] at hs
    cases hs
  | host space name =>
    rw [hb] at hf
    obtain ⟨h, hh⟩ := hf
    simp only [linkFunc, Func.LinkedTo, hb, hh]
    exact ⟨.host h, rfl, h, rfl, rfl⟩
  | code locals instrs =>
    rw [hb] at hf
    obtain ⟨blocks, hscan, hm⟩ := scanBlocks_balanced hf
    simp only [linkFunc, Func.LinkedTo, hb, hscan]
    exact ⟨_, rfl, blocks, hm, rfl⟩

theorem linkAll_fits {fs : List Func} (index : Nat) (hf : ∀ f ∈ fs, f.Fits hosts)
    (hs : ∀ f ∈ fs, f.isSet = true) :
    ∃ links, linkAll hosts index fs = .ok links ∧ List.Forall₂ (Func.LinkedTo hosts) fs links := by
  induction fs generalizing index with
  | nil => exact ⟨[], rfl, .nil⟩
  | cons f fs ih =>
    obtain ⟨link, hlink, hto⟩ := linkFunc_fits index (hf f (by simp)) (hs f (by simp))
    obtain ⟨links, hlinks, hall⟩ := ih (index + 1) (fun g hg => hf g (by simp [hg]))
      fun g hg => hs g (by simp [hg])
    refine ⟨link :: links, ?_, .cons hto hall⟩
    simp only [linkAll, hlink, hlinks]
    rfl

/-- A complete module whose functions can all be linked is linked. -/
theorem link_fits {program : Module} (hv : program.validate = .ok ())
    (hf : program.Fits hosts) :
    ∃ links, link program hosts = .ok { program, links } ∧ Resolves hosts program links := by
  have hfits : ∀ f ∈ program.funcs.toList, f.Fits hosts :=
    fun f h => hf f (Array.mem_toList_iff.mp h)
  obtain ⟨links, hlinks, hall⟩ := linkAll_fits 0 hfits
    fun f h => Module.isSet_of_validate hv (Array.mem_toList_iff.mp h)
  refine ⟨links.toArray, ?_, by simpa using hall.length_eq.symm, fun i f hi => ?_⟩
  · simp only [link, hv, hlinks]
    rfl
  · rw [← Array.getElem?_toList] at hi
    rw [List.getElem?_toArray]
    obtain ⟨hlt, hget⟩ := List.getElem?_eq_some_iff.mp hi
    have hlt' : i < links.length := hall.length_eq ▸ hlt
    subst hget
    exact ⟨links[i], List.getElem?_eq_getElem hlt', hall.get hlt hlt'⟩

end Processor

/-- A machine whose functions have their links runs as the rules for activations say. -/
theorem Resolves.linked {hosts : List (String × HostFunc ω)} {program : Module}
    {links : Array (Link ω)} {maxSteps maxDepth : Int} (h : Resolves hosts program links)
    (ho : ∀ name f, hosts.lookup name = some f → Processor.Oblivious f) (hs : maxSteps ≤ 0) :
    Processor.Linked { program, links, maxSteps, maxDepth } where
  marked func f locals instrs blocks zeros hf hb hl := by
    cases func with
    | negSucc n => cases hf
    | ofNat i =>
      obtain ⟨l, hl', hto⟩ := h.link i f hf
      rw [show links[i]? = _ from hl] at hl'
      cases hl'
      rw [Func.LinkedTo, hb] at hto
      obtain ⟨blocks', hm, heq⟩ := hto
      cases heq
      exact hm
  oblivious func f hl := by
    cases func with
    | negSucc n => cases hl
    | ofNat i =>
      have hl' : links[i]? = some (.host f) := hl
      obtain ⟨hlt, -⟩ := Array.getElem?_eq_some_iff.mp hl'
      rw [h.size] at hlt
      obtain ⟨l, hl'', hto⟩ := h.link i _ (Array.getElem?_eq_getElem hlt)
      rw [hl'] at hl''
      cases hl''
      unfold Func.LinkedTo at hto
      split at hto
      · exact hto.elim
      · obtain ⟨g, hg, heq⟩ := hto
        cases heq
        exact ho _ _ hg
      · obtain ⟨blocks, -, heq⟩ := hto
        cases heq
  unlimited := hs

end HeapScript.Machine
