import HeapScript.Proofs.Library.Digits
import HeapScript.Proofs.Library.Strings

/-!
# Conversions

The routines that read a value as a number, a truth value or a byte string compute the coercions
of the language.
-/

namespace HeapScript.Library

open Machine Machine.Processor Code Execution

variable {m : Processor Output} {l : Links} {d k : Nat} {h : Heap} {w : Output} {Q : Post Output}
  {v : Val} {x : Value}

/-! ## Numbers -/

theorem digits_of_int {bs : Bytes} (hf : Bytes.numericForm? bs = some .int) :
    ∀ b ∈ (Bytes.unsigned bs).2, Bytes.isDigit b = true := by
  simp only [Bytes.numericForm?] at hf
  split at hf <;> try cases hf
  rename_i hall
  split at hf <;> try cases hf
  intro b hb
  have hdot : Bytes.ascii '.' ∉ (Bytes.unsigned bs).2 := by
    rw [← List.count_eq_zero]
    split at hf <;> simp_all
  have := List.all_eq_true.mp hall b hb
  simp only [Bool.or_eq_true, beq_iff_eq] at this
  rcases this with h | h
  · exact h
  · exact absurd (h ▸ hb) hdot

theorem digits_of_float {bs : Bytes} (hf : Bytes.numericForm? bs = some .float) :
    ∀ b ∈ (Bytes.unsigned bs).2, Bytes.isDigit b = true ∨ b = Bytes.ascii '.' := by
  simp only [Bytes.numericForm?] at hf
  split at hf <;> try cases hf
  rename_i hall
  intro b hb
  simpa using List.all_eq_true.mp hall b hb

theorem toNumber_calls (hi : Installed m l) (hr : Room m d (k + 2)) (hv : Boxed h v x)
    (hq : ∀ r h', Extends h h' → Boxed h' r x.toNumber → Q.returned [r] h' w) :
    m.Calls d (l.index .toNumber) [v] h w Q := by
  have hr' := hr.inner
  refine calls_routine hi hr ?_
  have hint {i : Int64} (hx : x.toNumber = .int i) :
      Q.returned [.ref h.size] (h.push (valueCell .int i 0 .null .null)) w :=
    hq _ _ (.push h _) (hx ▸ .int (getElem?_push_size h _))
  cases hv with
  | null ha | bool ha | array ha | object ha =>
    simp [Routine.body, toNumber, Routine.results, ha, valueCell, wp_call_routine hi]
    exact newInt_calls hi hr' (by simpa using hint rfl)
  | int ha =>
    simp [Routine.body, toNumber, Routine.results, ha, valueCell]
    exact hq _ _ (.refl h) (.int ha)
  | float ha =>
    simp [Routine.body, toNumber, Routine.results, ha, valueCell]
    exact hq _ _ (.refl h) (.float ha)
  | @str _ _ bs ha hs hl =>
    simp [Routine.body, toNumber, Routine.results, ha, valueCell, wp_call_routine hi]
    refine strScan_calls hi hr' hs hl ?_
    simp only [Value.toNumber] at hint hq
    cases hf : Bytes.numericForm? bs with
    | none =>
      simp [scanTag, hf, wp_call_routine hi]
      exact newInt_calls hi hr' (by simpa using hint (by rw [hf]))
    | some form =>
      cases form with
      | int =>
        simp [scanTag, hf, NumericForm.tag, ha, valueCell, wp_call_routine hi]
        refine strParseInt_calls hi hr' hs hl (digits_of_int hf) ?_
        simp [wp_call_routine hi]
        exact newInt_calls hi hr' (by simpa using hint (by rw [hf]))
      | float =>
        simp [scanTag, hf, NumericForm.tag, ha, valueCell, wp_call_routine hi]
        refine strParseFloat_calls hi hr' hs hl (digits_of_float hf) ?_
        simp [wp_call_routine hi]
        rw [hf] at hq
        exact newFloat_calls hi hr'
          (by simpa using hq _ _ (.push h _) (.float (getElem?_push_size h _)))

theorem toFloat_calls (hi : Installed m l) (hr : Room m d (k + 2)) (hv : Boxed h v x)
    (hq : Q.returned [.f64 x.toFloat] h w) :
    m.Calls d (l.index .toFloat) [v] h w Q := by
  have hr' := hr.inner
  refine calls_routine hi hr ?_
  cases hv with
  | null ha | bool ha | int ha | float ha | array ha | object ha =>
    simp [Routine.body, toFloat, Routine.results, ha, valueCell]
    exact hq
  | @str _ _ bs ha hs hl =>
    simp [Routine.body, toFloat, Routine.results, ha, valueCell, wp_call_routine hi]
    refine strScan_calls hi hr' hs hl ?_
    simp only [Value.toFloat, Value.toNumber] at hq
    cases hf : Bytes.numericForm? bs with
    | none =>
      rw [hf] at hq
      simp [scanTag, hf]
      exact hq
    | some form =>
      rw [hf] at hq
      cases form with
      | int =>
        simp [scanTag, hf, NumericForm.tag, ha, valueCell, wp_call_routine hi]
        refine strParseInt_calls hi hr' hs hl (digits_of_int hf) ?_
        simpa using hq
      | float =>
        simp [scanTag, hf, NumericForm.tag, ha, valueCell, wp_call_routine hi]
        refine strParseFloat_calls hi hr' hs hl (digits_of_float hf) ?_
        simpa using hq

theorem toInt_calls (hi : Installed m l) (hr : Room m d (k + 2)) (hv : Boxed h v x)
    (hq : Q.returned [.i64 x.toInt] h w) :
    m.Calls d (l.index .toInt) [v] h w Q := by
  have hr' := hr.inner
  refine calls_routine hi hr ?_
  cases hv with
  | null ha | bool ha | int ha | float ha | array ha | object ha =>
    simp [Routine.body, toInt, Routine.results, ha, valueCell]
    exact hq
  | @str _ _ bs ha hs hl =>
    simp [Routine.body, toInt, Routine.results, ha, valueCell, wp_call_routine hi]
    refine strScan_calls hi hr' hs hl ?_
    simp only [Value.toInt, Value.toNumber] at hq
    cases hf : Bytes.numericForm? bs with
    | none =>
      rw [hf] at hq
      simp [scanTag, hf]
      exact hq
    | some form =>
      rw [hf] at hq
      cases form with
      | int =>
        simp [scanTag, hf, NumericForm.tag, ha, valueCell, wp_call_routine hi]
        refine strParseInt_calls hi hr' hs hl (digits_of_int hf) ?_
        simpa using hq
      | float =>
        simp [scanTag, hf, NumericForm.tag, ha, valueCell, wp_call_routine hi]
        refine strParseFloat_calls hi hr' hs hl (digits_of_float hf) ?_
        simpa using hq

theorem isNumeric_calls (hi : Installed m l) (hr : Room m d (k + 2)) (hv : Boxed h v x)
    (hq : Q.returned [.i32 (flag x.isNumeric)] h w) :
    m.Calls d (l.index .isNumeric) [v] h w Q := by
  have hr' := hr.inner
  refine calls_routine hi hr ?_
  cases hv with
  | null ha | bool ha | int ha | float ha | array ha | object ha =>
    simp [Routine.body, isNumeric, Routine.results, ha, valueCell]
    exact hq
  | @str _ _ bs ha hs hl =>
    simp [Routine.body, isNumeric, Routine.results, ha, valueCell, wp_call_routine hi]
    refine strScan_calls hi hr' hs hl ?_
    simp only [Value.isNumeric] at hq
    cases hf : Bytes.numericForm? bs with
    | none => simpa [scanTag, hf] using hq
    | some form => cases form <;> simpa [scanTag, hf, NumericForm.tag] using hq

/-! ## Truth -/

theorem isHash_calls (hi : Installed m l) (hr : Room m d (k + 1)) {a : Nat} {n : Int64}
    {r : Val} (ha : h[a]? = some (valueCell .array n 0 .null r))
    (hq : Q.returned [.i32 (flag (h.typeOf r == Shape.hash))] h w) :
    m.Calls d (l.index .isHash) [.ref a] h w Q := by
  refine calls_routine hi hr ?_
  simpa [Routine.body, isHash, Routine.results, ha, valueCell] using hq

theorem arrCount_calls (hi : Installed m l) (hr : Room m d (k + 2)) {a : Nat} {n count : Int64}
    {r : Val} (ha : h[a]? = some (valueCell .array n 0 .null r)) (hs : Stored h n r count)
    (hq : Q.returned [.i64 count] h w) :
    m.Calls d (l.index .arrCount) [.ref a] h w Q := by
  have hr' := hr.inner
  refine calls_routine hi hr ?_
  simp [Routine.body, arrCount, Routine.results, ha, valueCell, wp_call_routine hi]
  refine isHash_calls hi hr' ha ?_
  cases hs with
  | dense hs =>
    have ht : ¬ Shape.dense = Shape.hash := by decide
    simpa [Heap.typeOf, hs, Cell.type, ht, ha, valueCell] using hq
  | hash hs => simpa [Heap.typeOf, hs, Cell.type, ha, valueCell] using hq

theorem toBool_calls (hi : Installed m l) (hr : Room m d (k + 3)) (hv : Boxed h v x)
    (hq : Q.returned [.i32 (flag x.toBool)] h w) :
    m.Calls d (l.index .toBool) [v] h w Q := by
  have hr' := hr.inner
  refine calls_routine hi hr ?_
  cases hv with
  | null ha | int ha | float ha | object ha =>
    simp [Routine.body, toBool, Routine.results, ha, valueCell]
    exact hq
  | @bool _ b ha =>
    simp [Routine.body, toBool, Routine.results, ha, valueCell]
    cases b <;> exact hq
  | @str _ _ bs ha hs hl =>
    obtain ⟨y, rfl, hy⟩ := hs
    have hempty : (num bs.length != 0) = !bs.isEmpty := by
      rw [Bool.eq_iff_iff]
      simp [num_eq_zero hl]
    simp [Routine.body, toBool, Routine.results, ha, valueCell, hy, hempty]
    exact hq
  | @array _ _ count _ entries ha hs he =>
    have hempty : (count != 0) = !entries.isEmpty := by
      rw [Bool.eq_iff_iff]
      simp [he]
    simp [Routine.body, toBool, Routine.results, ha, valueCell, wp_call_routine hi]
    refine arrCount_calls hi hr' ha hs ?_
    simp [hempty]
    exact hq

/-! ## Byte strings -/

section Literals

variable {a : Act} {rest : Code} {conts : List Cont} {ls st : List Val} {i : Nat}

theorem wp_bytesLiteral {data : DataSegment} (hdata : m.program.data[i]? = some data)
    (hlen : data.bytes.length < 2 ^ 31) :
    m.wp a (bytesLiteral data.bytes.length i ++ rest) conts Q ⟨h, w, ls, st⟩ ↔
      m.wp a rest conts Q
        ⟨h.push (.array Shape.bytes (byteVals data.bytes)), w, ls, .ref h.size :: st⟩ := by
  have hnot : ¬ (data.bytes.length : Int) < 0 := by omega
  have htake : (data.bytes.map fun b => Val.i32 b.toUInt32.toInt32).take data.bytes.length =
      data.bytes.map fun b => Val.i32 b.toUInt32.toInt32 := List.take_of_length_le (by simp)
  simp [hdata, toInt_num hlen, Heap.allocBytes, Heap.alloc, byteVals, hnot, htake]

@[simp] theorem nests_ownString {opened : List Bool} :
    Nests (ownString i ++ rest) opened ↔ Nests rest opened := by
  simp [ownString]

@[simp] theorem nests_ownString_last : Nests (ownString i) [] := by
  simp [ownString]

theorem wp_ownString (hi : Installed m l) (i : Nat) {s : String} (hs : ownStrings[i]? = some s) :
    m.wp a (ownString i ++ rest) conts Q ⟨h, w, ls, st⟩ ↔
      m.wp a rest conts Q
        ⟨h.push (.array Shape.bytes (byteVals (textBytes s))), w, ls, .ref h.size :: st⟩ := by
  obtain ⟨data, hdata, hbytes⟩ := hi.data i s hs
  have hlen : data.bytes.length < 2 ^ 31 := by
    have hmem : s ∈ ownStrings := List.mem_of_getElem? hs
    have hall : ∀ s ∈ ownStrings, (textBytes s).length < 2 ^ 31 := by
      simp only [textBytes_eq]
      decide
    rw [hbytes]
    exact hall s hmem
  rw [← hbytes, ← wp_bytesLiteral hdata hlen, ownString, List.getD_eq_getElem?_getD, hs,
    Option.getD_some, hbytes]

theorem wp_ownString_last (hi : Installed m l) (i : Nat) {s : String}
    (hs : ownStrings[i]? = some s) :
    m.wp a (ownString i) conts Q ⟨h, w, ls, st⟩ ↔
      m.wp a [] conts Q
        ⟨h.push (.array Shape.bytes (byteVals (textBytes s))), w, ls, .ref h.size :: st⟩ := by
  rw [← wp_ownString hi i hs, List.append_nil]

end Literals

theorem renderFloat_calls (hi : Installed m l) {f : Float}
    (hq : Q.returned [.ref h.size]
      (h.push (.array Shape.bytes (byteVals (textBytes (displayFloat f))))) w) :
    m.Calls d l.floatToBytes [.f64 f] h w Q := by
  simp only [Calls, hi.render]
  exact hq

theorem toBytes_calls (hi : Installed m l) (hr : Room m d (k + 2)) (hv : Boxed h v x)
    (hq : ∀ r h', Extends h h' → IsBytes h' r x.toBytes → Q.returned [r] h' w) :
    m.Calls d (l.index .toBytes) [v] h w Q := by
  have hr' := hr.inner
  refine calls_routine hi hr ?_
  have hnew {bs : Bytes} (hx : x.toBytes = bs) :
      Q.returned [.ref h.size] (h.push (.array Shape.bytes (byteVals bs))) w :=
    hq _ _ (.push h _) ⟨_, rfl, hx ▸ getElem?_push_size h _⟩
  cases hv with
  | null ha =>
    simp [Routine.body, toBytes, Routine.results, ha, valueCell, wp_ownString_last hi 0 rfl]
    exact hnew rfl
  | @bool _ b ha =>
    cases b with
    | false => 
      simp [Routine.body, toBytes, Routine.results, ha, valueCell, wp_ownString_last hi 0 rfl]
      exact hnew rfl
    | true =>
      simp [Routine.body, toBytes, Routine.results, ha, valueCell, wp_ownString_last hi 1 rfl]
      exact hnew rfl
  | int ha =>
    simp [Routine.body, toBytes, Routine.results, ha, valueCell, wp_call_routine hi]
    refine intToString_calls hi hr' fun r h' he hb => ?_
    simpa using hq r h' he hb
  | float ha =>
    simp [Routine.body, toBytes, Routine.results, ha, valueCell, hi.renderSignature,
      TypeDef.params]
    refine renderFloat_calls hi ?_
    simp
    exact hnew rfl
  | array ha =>
    simp [Routine.body, toBytes, Routine.results, ha, valueCell, wp_ownString hi 2 rfl]
    exact hnew rfl
  | object ha =>
    simp [Routine.body, toBytes, Routine.results, ha, valueCell, wp_ownString hi 3 rfl]
    exact hnew rfl
  | str ha hs hl =>
    simp [Routine.body, toBytes, Routine.results, ha, valueCell]
    exact hq _ _ (.refl h) hs

end HeapScript.Library
