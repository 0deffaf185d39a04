import HeapScript.Execution.Run
import HeapScript.Proofs.Library.Builders

/-!
# Machines that hold the library

What the rules for the routines need to know of a machine: where it has the library, and that
there is room for the activations that a routine opens.
-/

namespace HeapScript.Library

open Machine Machine.Processor Code Execution

/-- A machine holds the library at the given place. -/
structure Installed (m : Processor Output) (l : Links) : Prop where
  types : ∀ (i : Nat) (d : TypeDef), Shape.definitions[i]? = some d → m.program.types[i]? = some d
  signature : ∀ r, m.program.signature? (l.index r) = some (.func r.params r.results)
  callee : ∀ r, m.callee? (l.index r) =
    some (.code ("rt." ++ r.name) r.results.length ((r.body l).locals.map Val.zero)
      (r.body l).code)
  echoSignature : m.program.signature? l.echo = some (.func [Shape.bytesRef] [])
  echo : m.callee? l.echo = some (.host "env.echo" Execution.echo)
  renderSignature : m.program.signature? l.floatToBytes = some (.func [.f64] [Shape.bytesRef])
  render : m.callee? l.floatToBytes = some (.host "env.float_to_string" renderFloat)
  data : ∀ (i : Nat) (s : String), ownStrings[i]? = some s →
    ∃ d, m.program.data[i]? = some d ∧ d.bytes = textBytes s

/-- A number of further activations may be opened at a depth. -/
def Room {ω : Type} (m : Processor ω) (depth k : Nat) : Prop :=
  m.maxDepth ≤ 0 ∨ (depth + k : Nat) ≤ m.maxDepth

theorem Room.mono {ω : Type} {m : Processor ω} {depth k depth' k' : Nat} (h : Room m depth k)
    (hk : depth' + k' ≤ depth + k) : Room m depth' k' := by
  unfold Room at *
  omega

theorem Room.inner {ω : Type} {m : Processor ω} {d k : Nat} (h : Room m d (k + 1)) :
    Room m (d + 1) k := h.mono (by omega)

theorem Room.not_full {ω : Type} {m : Processor ω} {depth k : Nat} (h : Room m depth (k + 1)) :
    m.full depth = false := by
  unfold Room at h
  simp [full]
  omega

section Shapes

variable {m : Processor Output} {l : Links}

theorem Installed.type_at (hi : Installed m l) {t : Int} {d : TypeDef}
    (h : at? Shape.definitions t = some d) : at? m.program.types t = some d := by
  cases t with
  | ofNat n => exact hi.types n d h
  | negSucc n => cases h

theorem Installed.bytes (hi : Installed m l) :
    at? m.program.types Shape.bytes = some (.array ⟨.i8, true⟩) := hi.type_at rfl

theorem Installed.value (hi : Installed m l) :
    at? m.program.types Shape.value = some (.struct [⟨.i32, true⟩, ⟨.i64, true⟩, ⟨.f64, true⟩,
      ⟨Shape.bytesRef, true⟩, ⟨.anyref, true⟩]) := hi.type_at rfl

theorem Installed.dense (hi : Installed m l) :
    at? m.program.types Shape.dense = some (.array ⟨Shape.valueRef, true⟩) := hi.type_at rfl

theorem Installed.entry (hi : Installed m l) :
    at? m.program.types Shape.entry = some (.struct [⟨Shape.valueRef, false⟩,
      ⟨Shape.valueRef, true⟩, ⟨.i32, false⟩, ⟨.i32, true⟩]) := hi.type_at rfl

theorem Installed.buckets (hi : Installed m l) :
    at? m.program.types Shape.buckets = some (.array ⟨Shape.entryRef, true⟩) := hi.type_at rfl

theorem Installed.hash (hi : Installed m l) :
    at? m.program.types Shape.hash = some (.struct [⟨Shape.bucketsRef, true⟩, ⟨.i32, true⟩,
      ⟨.i32, true⟩, ⟨.i64, true⟩]) := hi.type_at rfl

end Shapes

attribute [simp] Links.call Routine.params Tag.code

section Calls

variable {m : Processor Output} {l : Links} {depth k : Nat} {args : List Val} {heap : Heap}
  {host : Output} {Q : Post Output}

theorem calls_routine (hi : Installed m l) (hr : Room m depth (k + 1)) {r : Routine}
    (h : m.wp ⟨"rt." ++ r.name, r.results.length, depth + 1⟩ (r.body l).code [] Q.later
      ⟨heap, host, args ++ (r.body l).locals.map Val.zero, []⟩) :
    m.Calls depth (l.index r) args heap host Q := by
  simp only [Calls, hi.callee r, hr.not_full, Bool.false_eq_true, if_false]
  exact .inr h

/-- A routine is called with as many operands as it has parameters. -/
theorem wp_call_routine (hi : Installed m l) {r : Routine} {a : Act} {rest : Code}
    {conts : List Cont} {ls st : List Val} :
    m.wp a (.call (l.index r) :: rest) conts Q ⟨heap, host, ls, st⟩ ↔
      match Frame.popMany r.params.length st [] with
      | some (args, below) =>
        m.Calls a.depth (l.index r) args heap host (resume m a rest conts Q ls below)
      | none => False := by
  rw [wp_call]
  simp only [hi.signature r, Option.some.injEq, exists_eq_left']
  exact Iff.rfl

end Calls

end HeapScript.Library
