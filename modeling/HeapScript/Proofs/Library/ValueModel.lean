import HeapScript.Proofs.Compile.Assembly
import HeapScript.Proofs.Execution.Decoding

/-!
# The routines compute the operations on values

Every conversion and every operator exists twice: as a function on values and as a routine of the
library that works on records of the heap. `meaning?` lists what the functions on values say, and
the routines say the same.
-/

namespace HeapScript.Library

open Machine Machine.Processor Code Execution Compile
open Value (OperatorError)

/-- A value without parts whose string, if it is one, is shorter than `2 ^ 30` bytes. -/
def Plain : Value → Prop
  | .str s => s.length < 2 ^ 30
  | .array .. | .object .. => False
  | _ => True

/-- What a routine on values can leave. -/
inductive Result where
  | value (x : Value)
  | flag (b : Bool)
  | int (i : Int64)
  | float (f : Float)
  | bytes (s : Bytes)
  | word (n : UInt32)

/-- An operand stands for a result. The record of a value also reads back as that value. -/
def Result.Held (h : Heap) (v : Val) : Result → Prop
  | value x => Boxed h v x ∧ decode h v = .ok x
  | flag b => v = .i32 (if b then 1 else 0)
  | int i => v = .i64 i
  | float f => v = .f64 f
  | bytes s => IsBytes h v s
  | word n => v = .i32 n.toInt32

/-- What the functions on values say a routine gives, for the routines that have such a
function. -/
def meaning? : Routine → List Value → Option (Except OperatorError Result)
  | .toNumber, [x] => some (.ok (.value x.toNumber))
  | .toFloat, [x] => some (.ok (.float x.toFloat))
  | .toInt, [x] => some (.ok (.int x.toInt))
  | .toBool, [x] => some (.ok (.flag x.toBool))
  | .toBytes, [x] => some (.ok (.bytes x.toBytes))
  | .isNumeric, [x] => some (.ok (.flag x.isNumeric))
  | .negate, [x] => some (.ok (.value x.negate))
  | .arith op, [x, y] => some ((x.arith op y).map .value)
  | .concat, [x, y] => some (.ok (.value (x.concat y)))
  | .order op, [x, y] => some (.ok (.flag (x.compare op y)))
  | .looseEq, [x, y] => some (.ok (.flag (x.looseEq y)))
  | .strictEq, [x, y] => some (.ok (.flag (x.strictEq y)))
  | .normalizeKey, [x] => some (.ok (.value x.normalizeKey))
  | .hashKey, [.int i] => some (.ok (.word (Value.int i).hashKey))
  | .hashKey, [.str s] => some (.ok (.word (Value.str s).hashKey))
  | _, _ => none

/-- A call ended as an operation says: with its result, or with a trap where there is none because
of a division by zero. -/
def Answers (a : Except OperatorError Result) (h : Heap) : Ending → Prop
  | .returned vs => ∃ r v, a = .ok r ∧ vs = [v] ∧ r.Held h v
  | .trapped _ => a = .error .divisionByZero
  | .malformed => False

/-- An end as an operation says, with the operands still there and nothing written. -/
def answering (a : Except OperatorError Result) (h : Heap) (w : Output) : Post Output where
  returned vs h' w' := Extends h h' ∧ w' = w ∧ ∃ r v, a = .ok r ∧ vs = [v] ∧ r.Held h' v
  trapped _ _ h' w' := Extends h h' ∧ w' = w ∧ a = .error .divisionByZero
  fuel := none

/-! ## Values without parts -/

theorem Plain.hasKey {x : Value} (hx : Plain x) : HasKey x := by
  cases x with
  | array | object => exact hx.elim
  | _ => trivial

theorem hasKey_toNumber (x : Value) : HasKey x.toNumber := by
  rcases toNumber_cases x with ⟨i, hx⟩ | ⟨f, hx⟩ <;> rw [hx] <;> trivial

theorem hasKey_negate (x : Value) : HasKey x.negate := by
  unfold Value.negate
  rcases toNumber_cases x with ⟨i, hx⟩ | ⟨f, hx⟩ <;> rw [hx] <;> trivial

theorem hasKey_numeric (onInt : Int64 → Int64 → Int64) (onFloat : Float → Float → Float)
    (x y : Value) : HasKey (Value.numeric onInt onFloat x y) := by
  unfold Value.numeric
  split <;> trivial

theorem hasKey_arith {op : ArithOp} {x y z : Value} (h : x.arith op y = .ok z) : HasKey z := by
  cases op with
  | add | sub | mul =>
    cases h
    exact hasKey_numeric ..
  | div | mod =>
    simp only [Value.arith] at h
    split at h <;> cases h
    trivial

theorem Plain.hasKey_normalizeKey {x : Value} (hx : Plain x) : HasKey x.normalizeKey := by
  cases x with
  | str s =>
    simp only [Value.normalizeKey]
    split <;> trivial
  | array | object => exact hx.elim
  | _ => trivial

theorem Plain.length_toBytes {x : Value} (hx : Plain x) : x.toBytes.length < 2 ^ 30 := by
  cases x with
  | null => decide
  | bool b => cases b <;> (simp only [Value.toBytes, textBytes_eq]; decide)
  | int i => exact Nat.lt_of_le_of_lt (length_intBytes _) (by decide)
  | float f => exact Nat.lt_trans (length_displayFloat f) (by decide)
  | str s => exact hx
  | array | object => exact hx.elim

/-- Records of values without parts refer to no store. -/
theorem HasKey.apart {h : Heap} {u v : Val} {x : Value} (hx : HasKey x) (hu : Boxed h u x) :
    Apart h u v := by
  intro a b t t' i i' f f' s s' r hua _ ha _
  subst hua
  cases hu with
  | null hc | bool hc | int hc | float hc | str hc =>
    rw [hc] at ha
    simp [valueCell] at ha
  | array | object => exact hx.elim

/-! ## Calls -/

section Calls

variable {m : Processor Output} {l : Links} {d : Nat} {h : Heap} {w : Output}

theorem boxed_one {vs : List Val} {x : Value} (h' : List.Forall₂ (Boxed h) vs [x]) :
    ∃ u, vs = [u] ∧ Boxed h u x := by
  cases h' with
  | cons hu hn =>
    cases hn
    exact ⟨_, rfl, hu⟩

theorem boxed_two {vs : List Val} {x y : Value} (h' : List.Forall₂ (Boxed h) vs [x, y]) :
    ∃ u v, vs = [u, v] ∧ Boxed h u x ∧ Boxed h v y := by
  cases h' with
  | cons hu hn =>
    obtain ⟨v, rfl, hv⟩ := boxed_one hn
    exact ⟨_, _, rfl, hu, hv⟩

/-- A call of a routine ends as its meaning says. -/
theorem routine_answers (hi : Installed m l) (hr : Room m d 4) {r : Routine} {xs : List Value}
    {a : Except OperatorError Result} (ha : meaning? r xs = some a) (hp : ∀ x ∈ xs, Plain x)
    {vs : List Val} (hv : List.Forall₂ (Boxed h) vs xs) :
    m.Calls d (l.index r) vs h w (answering a h w) := by
  have grown {x : Value} (hx : HasKey x) (r : Val) (h' : Heap) (he : Extends h h')
      (hb : Boxed h' r x) : (answering (.ok (.value x)) h w).returned [r] h' w :=
    ⟨he, rfl, _, _, rfl, rfl, hb, Boxed.decode_eq hb hx⟩
  have same {r : Result} {v : Val} (hv : r.Held h v) : (answering (.ok r) h w).returned [v] h w :=
    ⟨.refl h, rfl, _, _, rfl, rfl, hv⟩
  have hr₂ : Room m d (2 + 2) := hr
  have hr₃ : Room m d (1 + 3) := hr
  unfold meaning? at ha
  split at ha
  case h_16 => cases ha
  case h_8 op x y =>
    cases ha
    obtain ⟨u, v, rfl, hu, hv⟩ := boxed_two hv
    refine arith_calls hi hr₃ op hu hv (fun z hz => ?_) fun he h' hx => ?_
    · rw [hz]
      exact grown (hasKey_arith hz)
    · rw [he]
      exact ⟨hx, rfl, rfl⟩
  case h_9 x y =>
    cases ha
    obtain ⟨u, v, rfl, hu, hv⟩ := boxed_two hv
    have hx : x.toBytes.length < 2 ^ 30 := (hp x (by simp)).length_toBytes
    have hy : y.toBytes.length < 2 ^ 30 := (hp y (by simp)).length_toBytes
    exact concat_calls hi hr₃ hu hv (fun _ => grown trivial) (by omega)
  case h_10 op x y =>
    cases ha
    obtain ⟨u, v, rfl, hu, hv⟩ := boxed_two hv
    exact order_calls hi hr₃ op hu hv (same rfl)
  case h_11 x y =>
    cases ha
    obtain ⟨u, v, rfl, hu, hv⟩ := boxed_two hv
    exact looseEq_calls (k := 0) hi hr hu hv ((hp x (by simp)).hasKey.apart hu) (same rfl)
  case h_12 x y =>
    cases ha
    obtain ⟨u, v, rfl, hu, hv⟩ := boxed_two hv
    exact strictEq_calls hi hr₂ hu hv ((hp x (by simp)).hasKey.apart hu) (same rfl)
  all_goals
    cases ha
    obtain ⟨u, rfl, hu⟩ := boxed_one hv
  · exact toNumber_calls hi hr₂ hu (grown (hasKey_toNumber _))
  · exact toFloat_calls hi hr₂ hu (same rfl)
  · exact toInt_calls hi hr₂ hu (same rfl)
  · exact toBool_calls hi hr₃ hu (same rfl)
  · exact toBytes_calls hi hr₂ hu fun r h' he hb => ⟨he, rfl, _, _, rfl, rfl, hb⟩
  · exact isNumeric_calls hi hr₂ hu (same rfl)
  · exact negate_calls hi hr₃ hu (grown (hasKey_negate _))
  · have hx : Plain _ := hp _ (List.mem_singleton_self _)
    exact normalizeKey_calls hi hr₂ hu (fun _ => grown hx.hasKey_normalizeKey)
      fun hn => absurd hx.hasKey hn
  · exact hashKey_calls hi hr₂ hu trivial (same rfl)
  · exact hashKey_calls hi hr₂ hu trivial (same rfl)

/-- What a routine takes in the form of records is as many operands as it has parameters. -/
theorem length_params {r : Routine} {xs : List Value} {a : Except OperatorError Result}
    (ha : meaning? r xs = some a) : r.params.length = xs.length := by
  unfold meaning? at ha
  split at ha <;> first | rfl | cases ha

end Calls

/-! ## Compiled programs -/

/-- On the machine of every compiled program, a routine that is called on the records of values
without parts ends as the operation on these values says: it returns the result, and it traps
exactly where a division by zero leaves none. The operands stay as they are. -/
theorem library_computes_value_model {p : Program} {o : Options} {c : Compiled}
    (hc : (Program.compile p o).outcome = .ok c) :
    ∃ m, machineFor c 0 = .ok m ∧
      ∀ (r : Routine) (xs : List Value) (a : Except OperatorError Result),
        meaning? r xs = some a → (∀ x ∈ xs, Plain x) →
        ∀ (w : World Output) (vs : List Val), List.Forall₂ (Boxed w.heap) vs xs →
          ∃ ending w', m.Ends w (c.links.index r) vs ending w' ∧ Answers a w'.heap ending ∧
            Extends w.heap w'.heap ∧ w'.host = w.host := by
  obtain ⟨m, hm, hready⟩ := ready_of_compiled hc
  refine ⟨m, hm, fun r xs a ha hp w vs hv => ?_⟩
  have hroom : Room m 0 4 := hready.room.mono (by decide)
  have hparams : r.params.length = vs.length := (length_params ha).trans hv.length_eq.symm
  obtain ⟨ending, w', hends, haccept⟩ := hready.ends hparams rfl
    (routine_answers hready.installed hroom ha hp hv (w := w.host))
  refine ⟨ending, w', hends, ?_⟩
  cases ending with
  | returned vs =>
    obtain ⟨he, hw, hr⟩ := haccept
    exact ⟨hr, he, hw⟩
  | trapped t =>
    obtain ⟨he, hw, hr⟩ := haccept
    exact ⟨hr, he, hw⟩
  | malformed => exact haccept.elim

/-- A heap with the records of 7, of the string `3` and of 0. -/
def threeRecords : Heap :=
  #[valueCell .int 7 0 .null .null, .array Shape.bytes (byteVals [51]),
    valueCell .string 0 0 (.ref 1) .null, valueCell .int 0 0 .null .null]

/-- The remainder of 7 by the string `3` is the integer 1, and that by 0 is a trap. -/
theorem library_computes_remainder :
    ∃ c m, (Program.compile [] {}).outcome = .ok c ∧ machineFor c 0 = .ok m ∧
      (∃ ending w', m.Ends ⟨threeRecords, #[], 0⟩ (c.links.index (.arith .mod)) [.ref 0, .ref 2]
        ending w' ∧ Answers (.ok (.value (.int 1))) w'.heap ending) ∧
      ∃ ending w', m.Ends ⟨threeRecords, #[], 0⟩ (c.links.index (.arith .mod)) [.ref 0, .ref 3]
        ending w' ∧ Answers (.error .divisionByZero) w'.heap ending := by
  obtain ⟨c, hc⟩ := compile_nothing
  obtain ⟨m, hm, hall⟩ := library_computes_value_model hc
  have h7 : Boxed threeRecords (.ref 0) (.int 7) := .int rfl
  have h3 : Boxed threeRecords (.ref 2) (.str [51]) := .str rfl ⟨1, rfl, rfl⟩ (by decide)
  have h0 : Boxed threeRecords (.ref 3) (.int 0) := .int rfl
  refine ⟨c, m, hc, hm, ?_, ?_⟩
  · obtain ⟨ending, w', hends, hans, -⟩ := hall (.arith .mod) [.int 7, .str [51]] _ rfl
      (by simp [Plain]) ⟨threeRecords, #[], 0⟩ [.ref 0, .ref 2] (.cons h7 (.cons h3 .nil))
    exact ⟨ending, w', hends, hans⟩
  · obtain ⟨ending, w', hends, hans, -⟩ := hall (.arith .mod) [.int 7, .int 0] _ rfl
      (by simp [Plain]) ⟨threeRecords, #[], 0⟩ [.ref 0, .ref 3] (.cons h7 (.cons h0 .nil))
    exact ⟨ending, w', hends, hans⟩

end HeapScript.Library
