import HeapScript.Proofs.Machine.Cells
import HeapScript.Proofs.Memory.Kinds

/-!
# Sound heaps

On the heap of a running program every cell has one of the shapes of the library, and values,
vectors, tables and objects refer to what they should. An array value refers to a vector or a table,
an object value to an object, and all other values to nothing. Buffers that are being filled are
hidden: no cell refers to them.
-/

namespace HeapScript.Library

open Machine

/-! ## Types -/

/-- An operand of a type; a reference leads to a cell that is not hidden. -/
def Admits (h : Heap) (hidden : Nat → Prop) : ValType → Val → Prop
  | .i32, v | .i8, v => ∃ x, v = .i32 x
  | .i64, v => ∃ x, v = .i64 x
  | .f64, v => ∃ x, v = .f64 x
  | .ref t, v =>
    v = .null ∨ ∃ a c, v = .ref a ∧ h[a]? = some c ∧ (t = anyHeap ∨ c.type = t) ∧ ¬ hidden a
  | .void, v | .unknown _, v => v = .null

theorem admits_zero (h : Heap) (hidden : Nat → Prop) (t : ValType) :
    Admits h hidden t (Val.zero t) := by
  cases t with
  | i32 | i8 | i64 | f64 => exact ⟨_, rfl⟩
  | ref => exact .inl rfl
  | void | unknown => exact rfl

theorem Admits.not_hidden {h : Heap} {hidden : Nat → Prop} {t : ValType} {a : Nat}
    (ha : Admits h hidden t (.ref a)) : ¬ hidden a := by
  cases t with
  | i32 | i8 | i64 | f64 =>
    obtain ⟨x, hx⟩ := ha
    cases hx
  | void | unknown => cases ha
  | ref t =>
    rcases ha with ha | ⟨b, c, hb, -, -, hn⟩
    · cases ha
    · cases hb
      exact hn

/-! ## Cells -/

def Tagged (h : Heap) (fields : Array Val) : Prop :=
  ∀ a, fields[ValueField.ref.index]? = some (.ref a) → ∃ c, h[a]? = some c ∧
    (((c.type = Shape.dense ∨ c.type = Shape.hash) ∧
        fields[ValueField.tag.index]? = some (.i32 Tag.array.code)) ∨
      (c.type = Shape.object ∧ fields[ValueField.tag.index]? = some (.i32 Tag.object.code)))

/-- A cell has one of the shapes, with contents of the right types. -/
def SoundCell (h : Heap) (hidden : Nat → Prop) : Cell → Prop
  | .struct t fields =>
    (∃ types, Shape.fields? t = some types ∧
      List.Forall₂ (Admits h hidden) types fields.toList) ∧ (t = Shape.value → Tagged h fields)
  | .array t elems => ∃ e, Shape.elem? t = some e ∧ ∀ v ∈ elems, Admits h hidden e v

/-- Every cell of a heap is sound, and what is hidden is there. -/
structure SoundHeap (h : Heap) (hidden : Nat → Prop) : Prop where
  cells : ∀ (a : Nat) (c : Cell), h[a]? = some c → SoundCell h hidden c
  within : ∀ a, hidden a → a < h.size

/-- A cell that another one may become: of the same shape and, for a value, with the same tag. -/
def Alike : Cell → Cell → Prop
  | .struct t fields, .struct t' fields' =>
    t = t' ∧ (t = Shape.value → fields[ValueField.tag.index]? = fields'[ValueField.tag.index]?)
  | .array t _, .array t' _ => t = t'
  | _, _ => False

theorem Alike.refl (c : Cell) : Alike c c := by
  cases c with
  | struct => exact ⟨rfl, fun _ => rfl⟩
  | array => exact rfl

theorem Alike.trans {c c' c'' : Cell} (h : Alike c c') (h' : Alike c' c'') : Alike c c'' := by
  cases c <;> cases c' <;> cases c'' <;> first | exact h.elim | exact h'.elim | skip
  · exact ⟨h.1.trans h'.1, fun ht => (h.2 ht).trans (h'.2 (h.1 ▸ ht))⟩
  · exact Eq.trans h h'

theorem Alike.type {c c' : Cell} (h : Alike c c') : c.type = c'.type := by
  cases c with
  | struct =>
    cases c' with
    | struct => exact h.1
    | array => exact h.elim
  | array =>
    cases c' with
    | struct => exact h.elim
    | array => exact h

/-- A heap that another one may become. -/
def Later (h h' : Heap) : Prop :=
  ∀ (a : Nat) (c : Cell), h[a]? = some c → ∃ c', h'[a]? = some c' ∧ Alike c c'

def IsArray (h : Heap) (v : Val) : Prop :=
  ∃ a fields, v = .ref a ∧ h[a]? = some (.struct Shape.value fields) ∧
    fields[ValueField.tag.index]? = some (.i32 Tag.array.code)

section Later

variable {h h' : Heap} {hidden hidden' : Nat → Prop}

theorem Later.refl (h : Heap) : Later h h := fun _ c hc => ⟨c, hc, .refl c⟩

theorem Later.trans {h'' : Heap} (hl : Later h h') (hl' : Later h' h'') : Later h h'' := by
  intro a c hc
  obtain ⟨c', hc', hal⟩ := hl a c hc
  obtain ⟨c'', hc'', hal'⟩ := hl' a c' hc'
  exact ⟨c'', hc'', hal.trans hal'⟩

theorem Later.push (h : Heap) (c : Cell) : Later h (h.push c) := by
  intro a c' hc
  have ha := (Array.getElem?_eq_some_iff.1 hc).1
  exact ⟨c', by rw [Array.getElem?_push_lt ha, ← hc, Array.getElem?_eq_getElem], .refl c'⟩

theorem Later.size_le (hl : Later h h') : h.size ≤ h'.size := by
  by_contra hlt
  obtain ⟨c, hc, -⟩ := hl h'.size _ (Array.getElem?_eq_getElem (Nat.lt_of_not_le hlt))
  exact absurd (Array.getElem?_eq_some_iff.1 hc).1 (Nat.lt_irrefl _)

theorem IsArray.mono (hl : Later h h') {v : Val} (hv : IsArray h v) : IsArray h' v := by
  obtain ⟨a, fields, rfl, ha, ht⟩ := hv
  obtain ⟨c', hc', hal⟩ := hl _ _ ha
  cases c' with
  | array => exact hal.elim
  | struct t fields' =>
    obtain ⟨rfl, htag⟩ := hal
    exact ⟨a, fields', rfl, hc', (htag rfl) ▸ ht⟩

/-- What is hidden later was hidden before or is new. -/
def Reveals (h : Heap) (hidden hidden' : Nat → Prop) : Prop :=
  ∀ a, hidden' a → hidden a ∨ h.size ≤ a

theorem Reveals.refl (h : Heap) (hidden : Nat → Prop) : Reveals h hidden hidden :=
  fun _ ha => .inl ha

theorem Reveals.not_hidden (hh : Reveals h hidden hidden') {a : Nat} {c : Cell}
    (hc : h[a]? = some c) (hn : ¬ hidden a) : ¬ hidden' a := by
  intro ha
  rcases hh a ha with ha | ha
  · exact hn ha
  · exact absurd (Array.getElem?_eq_some_iff.1 hc).1 (Nat.not_lt.2 ha)

theorem Admits.mono (hl : Later h h') (hh : Reveals h hidden hidden') {t : ValType} {v : Val}
    (hv : Admits h hidden t v) : Admits h' hidden' t v := by
  cases t with
  | i32 | i8 | i64 | f64 | void | unknown => exact hv
  | ref t =>
    rcases hv with hv | ⟨a, c, rfl, hc, ht, hn⟩
    · exact .inl hv
    · obtain ⟨c', hc', hal⟩ := hl a c hc
      exact .inr ⟨a, c', rfl, hc', hal.type ▸ ht, hh.not_hidden hc hn⟩

theorem Tagged.mono (hl : Later h h') {fields : Array Val} (ht : Tagged h fields) :
    Tagged h' fields := by
  intro a ha
  obtain ⟨c, hc, hr⟩ := ht a ha
  obtain ⟨c', hc', hal⟩ := hl a c hc
  exact ⟨c', hc', hal.type ▸ hr⟩

theorem SoundCell.mono (hl : Later h h') (hh : Reveals h hidden hidden') {c : Cell}
    (hc : SoundCell h hidden c) : SoundCell h' hidden' c := by
  cases c with
  | struct t fields =>
    obtain ⟨⟨types, ht, hf⟩, htag⟩ := hc
    exact ⟨⟨types, ht, hf.imp fun _ _ hv => hv.mono hl hh⟩, fun hv => (htag hv).mono hl⟩
  | array t elems =>
    obtain ⟨e, he, hv⟩ := hc
    exact ⟨e, he, fun v hm => (hv v hm).mono hl hh⟩

/-- A heap stays sound if every cell that is new or changed is sound. -/
theorem SoundHeap.mono (hs : SoundHeap h hidden) (hl : Later h h') (hh : Reveals h hidden hidden')
    (hw : ∀ a, hidden' a → a < h'.size)
    (hnew : ∀ (a : Nat) (c : Cell), h'[a]? = some c → h[a]? = some c ∨ SoundCell h' hidden' c) :
    SoundHeap h' hidden' := by
  refine ⟨fun a c hc => ?_, hw⟩
  rcases hnew a c hc with hold | hc'
  · exact (hs.cells a c hold).mono hl hh
  · exact hc'

theorem SoundHeap.within_later (hs : SoundHeap h hidden) (hl : Later h h') :
    ∀ a, hidden a → a < h'.size :=
  fun a ha => Nat.lt_of_lt_of_le (hs.within a ha) hl.size_le

theorem SoundHeap.push (hs : SoundHeap h hidden) {c : Cell} (hh : Reveals h hidden hidden')
    (hw : ∀ a, hidden' a → a < h.size + 1) (hc : SoundCell (h.push c) hidden' c) :
    SoundHeap (h.push c) hidden' := by
  refine hs.mono (.push h c) hh (by simpa using hw) fun a c' hc' => ?_
  rw [Array.getElem?_push] at hc'
  split at hc'
  · cases hc'
    exact .inr hc
  · exact .inl hc'

end Later

/-! ## Changes -/

/-- What one instruction may do to a heap, given which byte strings it may write: nothing, a new
cell, or a store into an array value, a table, an entry or a vector. -/
inductive Change (writable : Nat → Prop) (h : Heap) : Heap → Prop where
  | none : Change writable h h
  | made (c : Cell) : Change writable h (h.push c)
  | arrayValue {a : Nat} {fields : Array Val} {f : ValueField} {v : Val}
      (hc : h[a]? = some (.struct Shape.value fields))
      (ht : fields[ValueField.tag.index]? = some (.i32 Tag.array.code)) (hf : f = .int ∨ f = .ref) :
      Change writable h (h.setField a f.index v)
  | table {a : Nat} {fields : Array Val} {f : HashField} {v : Val}
      (hc : h[a]? = some (.struct Shape.hash fields)) : Change writable h (h.setField a f.index v)
  | entry {a : Nat} {fields : Array Val} {f : EntryField} {v : Val}
      (hc : h[a]? = some (.struct Shape.entry fields)) (hf : f = .value ∨ f = .next) :
      Change writable h (h.setField a f.index v)
  | elements {a : Nat} {t : Int} {elems elems' : Array Val} (hc : h[a]? = some (.array t elems))
      (hn : elems'.size = elems.size)
      (ht : t = Shape.dense ∨ t = Shape.buckets ∨ (t = Shape.bytes ∧ writable a)) :
      Change writable h (h.setIfInBounds a (.array t elems'))

section Changes

variable {h h' : Heap} {a : Nat} {t : Int} {fields elems elems' : Array Val} {v : Val}

theorem later_setField {f : Nat} (hc : h[a]? = some (.struct t fields))
    (hf : t = Shape.value → f ≠ ValueField.tag.index) : Later h (h.setField a f v) := by
  intro b c hb
  by_cases hab : b = a
  · subst hab
    obtain rfl := Option.some.inj (hb.symm.trans hc)
    refine ⟨_, Heap.setField_same hc, rfl, fun ht => ?_⟩
    rw [Array.getElem?_setIfInBounds_ne (hf ht)]
  · exact ⟨c, by rw [Heap.setField_other hab, hb], .refl c⟩

theorem later_setArray (hc : h[a]? = some (.array t elems)) :
    Later h (h.setIfInBounds a (.array t elems')) := by
  intro b c hb
  by_cases hab : a = b
  · subst hab
    obtain rfl := Option.some.inj (hb.symm.trans hc)
    have ha := (Array.getElem?_eq_some_iff.1 hc).1
    exact ⟨.array t elems', by rw [Array.getElem?_setIfInBounds_self_of_lt ha], rfl⟩
  · exact ⟨c, by rw [Array.getElem?_setIfInBounds_ne hab, hb], .refl c⟩

theorem Change.later {writable : Nat → Prop} (hc : Change writable h h') : Later h h' := by
  cases hc with
  | none => exact .refl h
  | made c => exact .push h c
  | arrayValue hc _ hf =>
    refine later_setField hc fun _ => ?_
    rcases hf with rfl | rfl <;> decide
  | table hc => exact later_setField hc fun ht => absurd ht (by decide)
  | entry hc => exact later_setField hc fun ht => absurd ht (by decide)
  | elements hc => exact later_setArray hc

end Changes

/-! ## Cells behind references -/

section Cells

variable {h : Heap} {hidden : Nat → Prop} {a : Nat} {t t' : Int} {fields elems : Array Val}

theorem anyHeap_no_fields : Shape.fields? anyHeap = none := rfl

theorem anyHeap_no_elem : Shape.elem? anyHeap = none := rfl

/-- The record behind a reference to a record shape. -/
theorem SoundHeap.record (hs : SoundHeap h hidden) {types : List ValType}
    (ht : Shape.fields? t = some types) (hv : Admits h hidden (.ref t) (.ref a))
    (hc : h[a]? = some (.struct t' fields)) :
    t' = t ∧ List.Forall₂ (Admits h hidden) types fields.toList := by
  rcases hv with hv | ⟨b, c, hb, hc', hty, -⟩
  · cases hv
  cases hb
  obtain rfl := Option.some.inj (hc'.symm.trans hc)
  have hne : t ≠ anyHeap := by
    rintro rfl
    cases anyHeap_no_fields.symm.trans ht
  obtain rfl : t' = t := hty.resolve_left hne
  obtain ⟨⟨types', ht', hf⟩, -⟩ := hs.cells a _ hc
  obtain rfl := Option.some.inj (ht'.symm.trans ht)
  exact ⟨rfl, hf⟩

/-- The array behind a reference to an array shape. -/
theorem SoundHeap.array (hs : SoundHeap h hidden) {e : ValType} (ht : Shape.elem? t = some e)
    (hv : Admits h hidden (.ref t) (.ref a)) (hc : h[a]? = some (.array t' elems)) :
    t' = t ∧ ∀ v ∈ elems, Admits h hidden e v := by
  rcases hv with hv | ⟨b, c, hb, hc', hty, -⟩
  · cases hv
  cases hb
  obtain rfl := Option.some.inj (hc'.symm.trans hc)
  have hne : t ≠ anyHeap := by
    rintro rfl
    cases anyHeap_no_elem.symm.trans ht
  obtain rfl : t' = t := hty.resolve_left hne
  obtain ⟨e', he', hf⟩ := hs.cells a _ hc
  obtain rfl := Option.some.inj (he'.symm.trans ht)
  exact ⟨rfl, hf⟩

end Cells

/-! ## Stores -/

section Stores

variable {h : Heap} {hidden : Nat → Prop} {a : Nat} {t : Int} {fields elems elems' : Array Val}
  {v : Val}

theorem forall₂_set {α β : Type} {R : α → β → Prop} {xs : List α} {ys : List β}
    (hr : List.Forall₂ R xs ys) {n : Nat} {x : α} {y : β} (hx : xs[n]? = some x) (hxy : R x y) :
    List.Forall₂ R xs (ys.set n y) := by
  induction hr generalizing n with
  | nil => exact .nil
  | cons h hr ih =>
    cases n with
    | zero =>
      cases hx
      exact .cons hxy hr
    | succ n => exact .cons h (ih hx)

theorem forall₂_getElem? {α β : Type} {R : α → β → Prop} {xs : List α} {ys : List β}
    (hr : List.Forall₂ R xs ys) {n : Nat} {x : α} {y : β} (hx : xs[n]? = some x)
    (hy : ys[n]? = some y) : R x y := by
  induction hr generalizing n with
  | nil => cases hx
  | cons h _ ih =>
    cases n with
    | zero =>
      cases hx
      cases hy
      exact h
    | succ n => exact ih hx hy

/-- A store into a record keeps the heap sound. -/
theorem SoundHeap.setField (hs : SoundHeap h hidden) (hc : h[a]? = some (.struct t fields))
    {types : List ValType} {type : ValType} {f : Nat} (ht : Shape.fields? t = some types)
    (hf : types[f]? = some type) (hv : Admits h hidden type v)
    (htag : t = Shape.value → f ≠ ValueField.tag.index ∧ Tagged h (fields.setIfInBounds f v)) :
    SoundHeap (h.setField a f v) hidden := by
  have hl : Later h (h.setField a f v) := later_setField hc fun ht => (htag ht).1
  refine hs.mono hl (.refl _ _) (hs.within_later hl) fun b c hb => ?_
  by_cases hab : b = a
  · subst hab
    obtain rfl := Option.some.inj (hb.symm.trans (Heap.setField_same hc))
    obtain ⟨⟨types', ht', hold⟩, -⟩ := hs.cells b _ hc
    obtain rfl := Option.some.inj (ht'.symm.trans ht)
    refine .inr ⟨⟨types', ht', ?_⟩, fun hval => (htag hval).2.mono hl⟩
    rw [Array.toList_setIfInBounds]
    exact (forall₂_set hold hf hv).imp fun _ _ hv => hv.mono hl (.refl _ _)
  · exact .inl (by rw [← hb, Heap.setField_other hab])

/-- A change of the elements of an array keeps the heap sound. -/
theorem SoundHeap.setArray (hs : SoundHeap h hidden) (hc : h[a]? = some (.array t elems))
    {e : ValType} (ht : Shape.elem? t = some e) (hv : ∀ v ∈ elems', Admits h hidden e v) :
    SoundHeap (h.setIfInBounds a (.array t elems')) hidden := by
  have hl : Later h (h.setIfInBounds a (.array t elems')) := later_setArray hc
  refine hs.mono hl (.refl _ _) (hs.within_later hl) fun b c hb => ?_
  by_cases hab : a = b
  · subst hab
    rw [Array.getElem?_setIfInBounds_self_of_lt (Array.getElem?_eq_some_iff.1 hc).1] at hb
    obtain rfl := Option.some.inj hb
    exact .inr ⟨e, ht, fun v hm => (hv v hm).mono hl (.refl _ _)⟩
  · exact .inl (by rw [← hb, Array.getElem?_setIfInBounds_ne hab])

theorem modify_eq {c : Cell} (hc : h[a]? = some c) (f : Cell → Cell) :
    h.modify a f = h.setIfInBounds a (f c) := by
  apply Array.ext_getElem?
  intro b
  rw [Array.getElem?_modify]
  by_cases hab : a = b
  · subst hab
    rw [if_pos rfl, hc, Array.getElem?_setIfInBounds_self_of_lt (Array.getElem?_eq_some_iff.1 hc).1]
    rfl
  · rw [if_neg hab, Array.getElem?_setIfInBounds_ne hab]

theorem setElem_eq (hc : h[a]? = some (.array t elems)) (j : Nat) :
    h.setElem a j v = h.setIfInBounds a (.array t (elems.setIfInBounds j v)) :=
  modify_eq hc _

theorem setElems_eq (hc : h[a]? = some (.array t elems)) (start : Nat) (vs : Array Val) :
    h.setElems a start vs = h.setIfInBounds a (.array t (Heap.write elems start vs)) :=
  modify_eq hc _

theorem mem_write {start : Nat} {vs : Array Val} (hv : v ∈ Heap.write elems start vs) :
    v ∈ elems ∨ v ∈ vs := by
  obtain ⟨vs⟩ := vs
  simp only [Heap.write, List.foldl_toArray'] at hv
  induction vs generalizing elems start with
  | nil => exact .inl hv
  | cons u vs ih =>
    rcases ih hv with h | h
    · rcases Array.mem_or_eq_of_mem_setIfInBounds h with h | rfl
      · exact .inl h
      · exact .inr (by simp)
    · exact .inr (by simp_all)

end Stores

end HeapScript.Library
