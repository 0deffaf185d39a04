import HeapScript.Proofs.Library.Installed

/-!
# Values on the heap

When an operand stands for a value, and that it keeps doing so while the heap only grows.
-/

namespace HeapScript.Library

open Machine Machine.Processor Code Execution

/-! ## Growing heaps -/

/-- Every cell of a heap is still there. -/
def Extends (h h' : Heap) : Prop :=
  ∀ (a : Nat) (c : Cell), h[a]? = some c → h'[a]? = some c

namespace Extends

variable {h h' h'' : Heap}

theorem refl (h : Heap) : Extends h h := fun _ _ hc => hc

theorem trans (h₁ : Extends h h') (h₂ : Extends h' h'') : Extends h h'' :=
  fun a c hc => h₂ a c (h₁ a c hc)

/-- An address without a cell had none before. -/
theorem fresh (he : Extends h h') {a : Nat} (ha : h'[a]? = none) : h[a]? = none := by
  by_contra hne
  obtain ⟨c, hc⟩ := Option.ne_none_iff_exists'.mp hne
  rw [he a c hc] at ha
  cases ha

theorem push (h : Heap) (c : Cell) : Extends h (h.push c) := by
  intro a c' hc
  obtain ⟨ha, rfl⟩ := Array.getElem?_eq_some_iff.1 hc
  rw [Array.getElem?_push, if_neg (by omega)]
  exact hc

end Extends

@[simp] theorem getElem?_push_size (h : Heap) (c : Cell) : (h.push c)[h.size]? = some c := by
  simp

theorem getElem?_push_at {h : Heap} {n : Nat} (hn : h.size = n) (c : Cell) :
    (h.push c)[n]? = some c := by
  rw [← hn, getElem?_push_size]

/-! ## Records -/

def valueCell (t : Tag) (i : Int64) (x : Float) (s r : Val) : Cell :=
  .struct Shape.value #[.i32 t.code, .i64 i, .f64 x, s, r]

def byteVals (bs : Bytes) : Array Val := (bs.map fun b => Val.i32 b.toUInt32.toInt32).toArray

@[simp] theorem size_byteVals (bs : Bytes) : (byteVals bs).size = bs.length := by
  simp [byteVals]

@[simp] theorem getElem?_byteVals (bs : Bytes) (i : Nat) :
    (byteVals bs)[i]? = bs[i]?.map fun b => Val.i32 b.toUInt32.toInt32 := by
  simp [byteVals]

@[simp] theorem getElem_byteVals (bs : Bytes) (i : Nat) (hi : i < (byteVals bs).size) :
    (byteVals bs)[i] = Val.i32 (bs.get ⟨i, by simpa using hi⟩).toUInt32.toInt32 := by
  simp [byteVals]

@[simp] theorem extract_byteVals (bs : Bytes) : (byteVals bs).extract 0 bs.length = byteVals bs := by
  rw [← size_byteVals, Array.extract_size]

/-- An operand refers to a byte string. -/
def IsBytes (h : Heap) (v : Val) (bs : Bytes) : Prop :=
  ∃ a, v = .ref a ∧ h[a]? = some (.array Shape.bytes (byteVals bs))

/-- What the integer and the reference of an array value say: the number of its elements. -/
inductive Stored (h : Heap) (n : Int64) : Val → Int64 → Prop
  | dense {a : Nat} {elems : Array Val} (ha : h[a]? = some (.array Shape.dense elems)) :
    Stored h n (.ref a) n
  | hash {a : Nat} {buckets : Val} {size count : Int32} {next : Int64}
    (ha : h[a]? = some (.struct Shape.hash #[buckets, .i32 size, .i32 count, .i64 next])) :
    Stored h n (.ref a) count.toInt64

/-- An operand refers to the record of a value. -/
inductive Boxed (h : Heap) : Val → Value → Prop
  | null {a : Nat} (ha : h[a]? = some (valueCell .null 0 0 .null .null)) :
    Boxed h (.ref a) .null
  | bool {a : Nat} {b : Bool}
    (ha : h[a]? = some (valueCell .bool (if b then 1 else 0) 0 .null .null)) :
    Boxed h (.ref a) (.bool b)
  | int {a : Nat} {i : Int64} (ha : h[a]? = some (valueCell .int i 0 .null .null)) :
    Boxed h (.ref a) (.int i)
  | float {a : Nat} {x : Float} (ha : h[a]? = some (valueCell .float 0 x .null .null)) :
    Boxed h (.ref a) (.float x)
  | str {a : Nat} {s : Val} {bs : Bytes} (ha : h[a]? = some (valueCell .string 0 0 s .null))
    (hs : IsBytes h s bs) (hl : bs.length < 2 ^ 31) : Boxed h (.ref a) (.str bs)
  | array {a : Nat} {n count : Int64} {r : Val} {entries : List (Value × Value)}
    (ha : h[a]? = some (valueCell .array n 0 .null r)) (hr : Stored h n r count)
    (he : entries = [] ↔ count = 0) : Boxed h (.ref a) (.array (a + 1) entries)
  | object {a o : Nat} {classId : Int32} {props : Val} {values : List Value}
    (ha : h[a]? = some (valueCell .object 0 0 .null (.ref o)))
    (ho : h[o]? = some (.struct Shape.object #[.i32 classId, props])) :
    Boxed h (.ref a) (.object (a + 1) classId values)

theorem Boxed.int_cell {h : Heap} {v : Val} {i : Int64} (hv : Boxed h v (.int i)) :
    ∃ a, v = .ref a ∧ h[a]? = some (valueCell .int i 0 .null .null) := by
  cases hv with
  | int ha => exact ⟨_, rfl, ha⟩

theorem Boxed.float_cell {h : Heap} {v : Val} {x : Float} (hv : Boxed h v (.float x)) :
    ∃ a, v = .ref a ∧ h[a]? = some (valueCell .float 0 x .null .null) := by
  cases hv with
  | float ha => exact ⟨_, rfl, ha⟩

section Growth

variable {h h' : Heap} {v : Val}

theorem IsBytes.mono {bs : Bytes} (he : Extends h h') (hb : IsBytes h v bs) : IsBytes h' v bs := by
  obtain ⟨a, rfl, ha⟩ := hb
  exact ⟨a, rfl, he _ _ ha⟩

theorem Stored.is_ref {n count : Int64} (hs : Stored h n v count) : ∃ a, v = .ref a := by
  cases hs with
  | dense | hash => exact ⟨_, rfl⟩

theorem Stored.mono {n count : Int64} (he : Extends h h') (hs : Stored h n v count) :
    Stored h' n v count := by
  cases hs with
  | dense ha => exact .dense (he _ _ ha)
  | hash ha => exact .hash (he _ _ ha)

theorem Boxed.mono {x : Value} (he : Extends h h') (hb : Boxed h v x) : Boxed h' v x := by
  cases hb with
  | null ha => exact .null (he _ _ ha)
  | bool ha => exact .bool (he _ _ ha)
  | int ha => exact .int (he _ _ ha)
  | float ha => exact .float (he _ _ ha)
  | str ha hs hl => exact .str (he _ _ ha) (hs.mono he) hl
  | array ha hr hc => exact .array (he _ _ ha) (hr.mono he) hc
  | object ha ho => exact .object (he _ _ ha) (he _ _ ho)

theorem IsBytes.push {bs : Bytes} {c : Cell} (hb : IsBytes h v bs) : IsBytes (h.push c) v bs :=
  hb.mono (.push h c)

theorem Boxed.push {x : Value} {c : Cell} (hb : Boxed h v x) : Boxed (h.push c) v x :=
  hb.mono (.push h c)

end Growth

/-! ## Making values -/

section Boxing

variable {m : Processor Output} {l : Links} {d k : Nat} {h : Heap} {w : Output} {Q : Post Output}

theorem newNull_calls (hi : Installed m l) (hr : Room m d (k + 1))
    (hq : Q.returned [.ref h.size] (h.push (valueCell .null 0 0 .null .null)) w) :
    m.Calls d (l.index .newNull) [] h w Q := by
  refine calls_routine hi hr ?_
  simp [Routine.body, newNull, Routine.results, hi.value, TypeDef.fieldCount, Frame.popMany]
  exact hq

theorem newInt_calls (hi : Installed m l) (hr : Room m d (k + 1)) {i : Int64}
    (hq : Q.returned [.ref h.size] (h.push (valueCell .int i 0 .null .null)) w) :
    m.Calls d (l.index .newInt) [.i64 i] h w Q := by
  refine calls_routine hi hr ?_
  simp [Routine.body, newInt, Routine.results, hi.value, TypeDef.fieldCount, Frame.popMany]
  exact hq

theorem newFloat_calls (hi : Installed m l) (hr : Room m d (k + 1)) {x : Float}
    (hq : Q.returned [.ref h.size] (h.push (valueCell .float 0 x .null .null)) w) :
    m.Calls d (l.index .newFloat) [.f64 x] h w Q := by
  refine calls_routine hi hr ?_
  simp [Routine.body, newFloat, Routine.results, hi.value, TypeDef.fieldCount, Frame.popMany]
  exact hq

theorem newString_calls (hi : Installed m l) (hr : Room m d (k + 1)) {s : Val}
    (hq : Q.returned [.ref h.size] (h.push (valueCell .string 0 0 s .null)) w) :
    m.Calls d (l.index .newString) [s] h w Q := by
  refine calls_routine hi hr ?_
  simp [Routine.body, newString, Routine.results, hi.value, TypeDef.fieldCount, Frame.popMany]
  exact hq

end Boxing

end HeapScript.Library
