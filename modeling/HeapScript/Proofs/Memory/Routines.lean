import HeapScript.Proofs.Library.Placement
import HeapScript.Proofs.Memory.Runs

/-!
# The library keeps to the discipline

The code of every routine is checked at a library that stands at the start of a module, and moved
from there to its place.
-/

namespace HeapScript.Library

open Machine Execution

/-! ## Bodies -/

namespace Env

variable {E : Env} {code : List Instr}

def checkBody (E : Env) (p : Phase) (σ : List Kind) (code : List Instr) : Bool :=
  match E.infer p [] σ code with
  | some σ' => E.returns p σ'
  | none => false

/-- Checks a body that fills a buffer, from an instruction on and for some instructions. -/
def checkFilling (E : Env) (start count : Nat) (code : List Instr) : Bool :=
  match E.infer .before [] [] (code.take start) with
  | some σ =>
    match E.infer .filling [] σ ((code.drop start).take count) with
    | some σ' => E.checkBody .after (σ'.map Kind.published) ((code.drop start).drop count)
    | none => false
  | none => false

/-- Checks a body that looks for a vector behind its first parameter, at an instruction. -/
def checkMeasuring (E : Env) (start : Nat) (code : List Instr) : Bool :=
  match E.infer .before [] [] (code.take start), code.drop start with
  | some (.firstDense :: σ), .arrayLen :: rest => E.checkBody .after (.typed .i32 :: σ) rest
  | _, _ => false

theorem checkBody_checks {p : Phase} {σ : List Kind} (h : E.checkBody p σ code = true) :
    Checks E p [] σ code := by
  unfold checkBody at h
  split at h
  · rename_i hσ
    have hc := infer_checks hσ (.nil h)
    rwa [List.append_nil] at hc
  · cases h

theorem checkFilling_checks {start count : Nat} (hm : E.measured = false)
    (h : E.checkFilling start count code = true) : Checks E .before [] [] code := by
  unfold checkFilling at h
  split at h
  · rename_i hσ
    split at h
    · rename_i hσ'
      have hc := infer_checks hσ' (.publish hm (checkBody_checks h))
      rw [List.take_append_drop] at hc
      have hc' := infer_checks hσ (.fill hm hc)
      rwa [List.take_append_drop] at hc'
    · cases h
  · cases h

theorem checkMeasuring_checks {start : Nat} (hm : E.measured = true)
    (h : E.checkMeasuring start code = true) : Checks E .before [] [] code := by
  unfold checkMeasuring at h
  split at h
  · rename_i hσ hrest
    have hc := infer_checks hσ (.measure hm (checkBody_checks h))
    rwa [← hrest, List.take_append_drop] at hc
  · cases h

end Env

/-! ## Routines -/

def librarySig : Int → Option (List ValType × List ValType)
  | .ofNat 0 => some ([Shape.bytesRef], [])
  | .ofNat 1 => some ([.f64], [Shape.bytesRef])
  | .ofNat (n + 2) => Routine.all[n]?.map fun r => (r.params, r.results)
  | .negSucc _ => none

/-- A local that is set to a buffer. -/
def bufferKind : Phase → Kind
  | .before => .null
  | .filling => .own
  | .after => .typed Shape.bytesRef

/-- What is known of a local before it is set. -/
def zeroKind : ValType → Kind
  | .ref _ => .null
  | t => .typed t

namespace Routine

/-- What is known of the locals of a routine. -/
def kinds (r : Routine) (p : Phase) : List Kind :=
  let ks := (r.params ++ (r.body ⟨0⟩).locals).map Kind.typed
  match r with
  | intToString => (ks.set 3 (bufferKind p)).set 5 (bufferKind p)
  | concat => ks.set 6 (bufferKind p)
  | arrSetInt => (ks.set 0 .first).set 4 .firstDense
  | _ => ks

def startKinds (r : Routine) : List Kind :=
  let ks := r.params.map Kind.typed ++ (r.body ⟨0⟩).locals.map zeroKind
  match r with
  | arrSetInt => ks.set 0 .first
  | _ => ks

theorem kinds_start (r : Routine) : Kind.fitAll false r.startKinds (r.kinds .before) = true := by
  cases r with
  | order op => cases op <;> decide
  | arith op => cases op <;> decide
  | _ => decide

theorem kinds_fill {r : Routine} (hr : r ≠ arrSetInt) :
    Kind.fitAll false (r.kinds .before) (r.kinds .filling) = true := by
  cases r with
  | arrSetInt => exact absurd rfl hr
  | order op => cases op <;> decide
  | arith op => cases op <;> decide
  | _ => decide

theorem kinds_publish (r : Routine) : (r.kinds .filling).map Kind.published = r.kinds .after := by
  cases r with
  | order op => cases op <;> rfl
  | arith op => cases op <;> rfl
  | _ => rfl

/-- What the code of a routine relies on. -/
def env (r : Routine) : Env where
  sig := librarySig
  locals := r.kinds
  results := r.results
  measured := r == arrSetInt

/-- Checks a routine. Two routines fill a buffer, and one looks for a vector. -/
def check (r : Routine) : Bool :=
  let code := (r.body ⟨0⟩).code
  match r with
  | intToString => r.env.checkFilling 13 51 code
  | concat => r.env.checkFilling 13 14 code
  | arrSetInt => r.env.checkMeasuring 41 code
  | _ => r.env.checkBody .before [] code

theorem check_eq_true (r : Routine) : r.check = true := by
  cases r with
  | order op => cases op <;> decide +kernel
  | arith op => cases op <;> decide +kernel
  | _ => decide +kernel

theorem env_checks (r : Routine) : Checks r.env .before [] [] (r.body ⟨0⟩).code := by
  have h := r.check_eq_true
  unfold check at h
  dsimp only at h
  split at h
  · exact Env.checkFilling_checks rfl h
  · exact Env.checkFilling_checks rfl h
  · exact Env.checkMeasuring_checks rfl h
  · exact Env.checkBody_checks h

/-- Moving the library changes only the calls in the code of a routine. -/
theorem body_relocate (l : Links) (r : Routine) :
    (r.body l).code = (r.body ⟨0⟩).code.map (relocate l.base) ∧
      (r.body l).locals = (r.body ⟨0⟩).locals := by
  cases r with
  | order op => cases op <;> exact ⟨rfl, rfl⟩
  | arith op => cases op <;> exact ⟨rfl, rfl⟩
  | _ => exact ⟨rfl, rfl⟩

theorem all_position (r : Routine) : Routine.all[r.position]? = some r := by
  cases r with
  | order op => cases op <;> rfl
  | arith op => cases op <;> rfl
  | _ => rfl

end Routine

/-! ## Modules -/

def moduleSig (m : Module) (func : Int) : Option (List ValType × List ValType) :=
  match m.signature? func with
  | some (.func params results) => some (params, results)
  | _ => none

theorem moduleSig_signature {m : Module} {func : Int} {params results : List ValType}
    (h : moduleSig m func = some (params, results)) :
    m.signature? func = some (.func params results) := by
  unfold moduleSig at h
  split at h
  · cases h
    assumption
  · cases h

theorem moduleSig_eq {m : Module} {func : Int} {params results : List ValType}
    (h : m.signature? func = some (.func params results)) :
    moduleSig m func = some (params, results) := by
  rw [moduleSig, h]

theorem Placed.librarySig {m : Module} {l : Links} (h : Placed m l) {n : Int}
    {s : List ValType × List ValType} (hs : Library.librarySig n = some s) :
    ∃ k : Nat, n = k ∧ moduleSig m (l.base + k : Nat) = some s := by
  have hhas {index type : Nat} {f : Func} {params results : List ValType}
      (hf : m.funcs[index]? = some f) (hty : f.type = type)
      (ht : m.types[type]? = some (.func params results)) :
      moduleSig m index = some (params, results) := by
    have hf' : at? m.funcs index = some f := hf
    have ht' : at? m.types f.type = some (.func params results) := hty ▸ ht
    refine moduleSig_eq ?_
    simp only [Module.signature?, hf', Option.bind_eq_bind, Option.bind_some, ht']
  unfold Library.librarySig at hs
  split at hs
  · cases hs
    obtain ⟨type, hf, ht⟩ := h.echo
    exact ⟨0, rfl, hhas hf rfl ht⟩
  · cases hs
    obtain ⟨type, hf, ht⟩ := h.render
    exact ⟨1, rfl, hhas hf rfl ht⟩
  · rename_i n
    obtain ⟨r, hr, rfl⟩ := Option.map_eq_some_iff.1 hs
    obtain ⟨type, hf, ht⟩ := h.routine r
    obtain rfl : r.position = n := by
      have hinj : Routine.all.Nodup := by decide +kernel
      exact (List.getElem?_inj (List.getElem?_eq_some_iff.1 r.all_position).1 hinj).1
        (r.all_position.trans hr.symm)
    refine ⟨r.position + 2, rfl, ?_⟩
    rw [show l.base + (r.position + 2) = l.index r by rw [Links.index]; omega]
    exact hhas hf rfl ht
  · cases hs

def Routine.envIn (m : Module) (r : Routine) : Env := { r.env with sig := moduleSig m }

/-- The code of a routine keeps to the discipline in a module with the library. -/
theorem Routine.checks {m : Module} {l : Links} (h : Placed m l) (r : Routine) :
    Checks (r.envIn m) .before [] [] (r.body l).code := by
  rw [(r.body_relocate l).1]
  exact r.env_checks.relocate fun n s => h.librarySig

theorem Routine.fits {ω : Type} (m : Processor ω) (r : Routine) : (r.envIn m.program).Fits m where
  sig func params results hs := ⟨_, moduleSig_signature hs, rfl, rfl⟩
  fill hm := Routine.kinds_fill (beq_eq_false_iff_ne.1 hm)
  publish := r.kinds_publish
  measure hm := by
    obtain rfl : r = .arrSetInt := beq_iff_eq.1 hm
    rfl

theorem zeroKind_holds (h : Heap) (hidden mine : Nat → Prop) (first : Val) (t : ValType) :
    (zeroKind t).Holds h hidden mine first (Val.zero t) := by
  cases t with
  | ref => exact rfl
  | i32 | i8 | i64 | f64 => exact ⟨_, rfl⟩
  | void | unknown => exact rfl

theorem zeroKinds_hold (h : Heap) (hidden mine : Nat → Prop) (first : Val) (ts : List ValType) :
    AllHold h hidden mine first (ts.map zeroKind) (ts.map Val.zero) := by
  refine List.forall₂_map_left_iff.2 (List.forall₂_map_right_iff.2 (List.forall₂_same.2 ?_))
  exact fun t _ => zeroKind_holds h hidden mine first t

/-- New activations of a routine have the locals that its code relies on. -/
theorem Routine.starts (m : Module) (l : Links) (r : Routine) :
    (r.envIn m).Starts r.params (r.body l).locals := by
  intro heap args hargs
  rw [(r.body_relocate l).2]
  have hzeros (first : Val) := zeroKinds_hold heap nowhere nowhere first (r.body ⟨0⟩).locals
  have hplain (first : Val) := List.rel_append (allHold_typed.2 hargs) (hzeros first)
  have hfit (first : Val) {vs : List Val} (h : AllHold heap nowhere nowhere first r.startKinds vs) :
      AllHold heap nowhere nowhere first ((r.envIn m).locals .before) vs :=
    h.fit (fun hk => Bool.noConfusion (hk : false = true)) r.kinds_start
  cases r with
  | arrSetInt =>
    obtain ⟨v, vs, hv, hvs, rfl⟩ := List.forall₂_cons_left_iff.1 hargs
    refine ⟨v, hfit v (.cons ⟨rfl, hv⟩ ?_)⟩
    exact List.rel_append (allHold_typed.2 hvs) (hzeros v)
  | _ => exact ⟨.null, hfit .null (hplain .null)⟩

/-! ## The host -/

theorem sound_echo : SoundHost echo [Shape.bytesRef] [] := by
  intro w w' args vs hrun hs hargs
  obtain ⟨v, _, hv, hnil, rfl⟩ := List.forall₂_cons_left_iff.1 hargs
  obtain rfl := List.forall₂_nil_left_iff.1 hnil
  unfold echo at hrun
  dsimp only at hrun
  split at hrun
  · split at hrun
    · cases hrun
      exact ⟨.none, hs, .nil⟩
    · cases hrun
  · cases hrun

theorem sound_renderFloat : SoundHost renderFloat [.f64] [Shape.bytesRef] := by
  intro w w' args vs hrun hs hargs
  obtain ⟨_, _, ⟨x, rfl⟩, hnil, rfl⟩ := List.forall₂_cons_left_iff.1 hargs
  obtain rfl := List.forall₂_nil_left_iff.1 hnil
  cases hrun
  let c : Cell := .array Shape.bytes
    ((textBytes (displayFloat x)).map fun b => Val.i32 b.toUInt32.toInt32).toArray
  refine ⟨.made c, hs.push (.refl _ _) (fun a ha => ha.elim) ⟨.i32, rfl, ?_⟩, .cons (.inr ?_) .nil⟩
  · intro v hv
    obtain ⟨b, -, rfl⟩ := List.mem_map.1 (List.mem_toArray.1 hv)
    exact ⟨_, rfl⟩
  · exact ⟨w.heap.size, c, rfl, Array.getElem?_push_size, .inr rfl, id⟩

end HeapScript.Library
