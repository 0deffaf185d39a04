import HeapScript.Proofs.Library.TableMaps

/-!
# The elements of dense arrays

A dense array is a list of elements with holes in an array of cells that may be longer than the list.
Writing behind the end fills up with holes.
-/

namespace HeapScript.Library

open Machine

/-! ## Cells -/

/-- The operand for an element; a hole is a null reference. -/
def slot : Option Val → Val
  | some v => v
  | none => .null

def elemsOf (cap : Nat) (items : List (Option Val)) : Array Val :=
  Array.ofFn (n := cap) fun i => slot items[i.val]?.join

/-- The elements after a write. -/
def setAt (items : List (Option Val)) (i : Nat) (v : Val) : List (Option Val) :=
  if i < items.length then items.set i (some v)
  else items ++ List.replicate (i - items.length) none ++ [some v]

section Cells

variable {cap i j : Nat} {items : List (Option Val)} {v : Val}

@[simp] theorem size_elemsOf : (elemsOf cap items).size = cap := by simp [elemsOf]

theorem getElem?_elemsOf (items : List (Option Val)) (hi : i < cap) : (elemsOf cap items)[i]? = some (slot items[i]?.join) := by
  simp [elemsOf, hi]

theorem getElem?_setAt : (setAt items i v)[j]?.join = if j = i then some v else items[j]?.join := by
  unfold setAt
  split
  · rename_i hi
    rw [List.getElem?_set]
    split <;> rename_i hij
    · simp [hij.symm]
    · rw [if_neg (Ne.symm hij)]
  · rename_i hi
    rcases Nat.lt_trichotomy j i with hlt | rfl | hgt
    · rw [if_neg (by omega), List.getElem?_append_left (by simp; omega)]
      rcases Nat.lt_or_ge j items.length with hj | hj
      · rw [List.getElem?_append_left hj]
      · rw [List.getElem?_append_right hj, List.getElem?_replicate, List.getElem?_eq_none hj,
          if_pos (by omega)]
        rfl
    · rw [if_pos rfl, List.getElem?_append_right (by simp; omega)]
      have hzero : j - (items ++ List.replicate (j - items.length) none).length = 0 := by
        simp
        omega
      rw [hzero]
      rfl
    · rw [if_neg (by omega), List.getElem?_eq_none (by simp; omega),
        List.getElem?_eq_none (by omega)]

theorem length_setAt (items : List (Option Val)) (i : Nat) (v : Val) :
    (setAt items i v).length = if i < items.length then items.length else i + 1 := by
  unfold setAt
  split
  · rw [List.length_set]
  · simp
    omega

/-- A write into the cells is a write into the list. -/
theorem elemsOf_setAt (hi : i < cap) :
    (elemsOf cap items).setIfInBounds i v = elemsOf cap (setAt items i v) := by
  apply Array.ext_getElem?
  intro j
  rcases Nat.lt_or_ge j cap with hj | hj
  · rw [getElem?_elemsOf _ hj, getElem?_setAt, Array.getElem?_setIfInBounds]
    split <;> rename_i hij
    · simp [hij.symm, hi, slot]
    · rw [if_neg (Ne.symm hij), getElem?_elemsOf _ hj]
  · rw [Array.getElem?_eq_none (by simpa using hj), Array.getElem?_eq_none (by simpa using hj)]

/-- A longer array that the cells are copied to has the same elements. -/
theorem write_elemsOf {cap' : Nat} (hlen : items.length ≤ cap) (hcap : cap ≤ cap') :
    Heap.write (Array.replicate cap' .null) 0 (elemsOf cap items) = elemsOf cap' items := by
  have hsplit : Array.replicate cap' Val.null =
      ([] ++ List.replicate cap Val.null ++ List.replicate (cap' - cap) Val.null).toArray := by
    rw [List.nil_append, List.replicate_append_replicate, List.toArray_replicate,
      Nat.add_sub_cancel' hcap]
  have hwrite := Heap.write_toArray [] (List.replicate (cap' - cap) Val.null) (elemsOf cap items).toList
    (List.replicate cap .null) (by simp)
  rw [← hsplit, List.length_nil, Array.toArray_toList] at hwrite
  rw [hwrite]
  apply Array.ext_getElem?
  intro j
  rw [List.getElem?_toArray, List.nil_append]
  rcases Nat.lt_or_ge j cap with hj | hj
  · rw [List.getElem?_append_left (by simpa using hj), Array.getElem?_toList, getElem?_elemsOf _ hj,
      getElem?_elemsOf _ (by omega)]
  · rw [List.getElem?_append_right (by simpa using hj), List.getElem?_replicate]
    simp only [Array.length_toList, size_elemsOf]
    rcases Nat.lt_or_ge j cap' with hj' | hj'
    · rw [if_pos (by omega), getElem?_elemsOf _ hj', List.getElem?_eq_none (by omega)]
      rfl
    · rw [if_neg (by omega), Array.getElem?_eq_none (by simpa using hj')]

theorem mem_setAt {u : Val} (hu : some u ∈ setAt items i v) : u = v ∨ some u ∈ items := by
  unfold setAt at hu
  split at hu
  · rcases List.mem_or_eq_of_mem_set hu with hu | hu
    · exact .inr hu
    · exact .inl (Option.some.inj hu)
  · simp only [List.mem_append, List.mem_replicate, List.mem_singleton, reduceCtorEq, and_false,
      or_false, Option.some.injEq] at hu
    exact hu.symm

end Cells

/-! ## Entries -/

def indexKey (i : Nat) : Value := .int (Int64.ofNat i)

/-- The keys and values of a list of elements, in the order of the indices. -/
def entriesOf (items : List (Option Val)) : List (Value × Val) :=
  items.zipIdx.filterMap fun p => p.1.map fun v => (indexKey p.2, v)

section Entries

variable {items : List (Option Val)}

theorem entriesOf_append (o : Option Val) :
    entriesOf (items ++ [o]) =
      entriesOf items ++ (o.map fun v => (indexKey items.length, v)).toList := by
  simp only [entriesOf, List.zipIdx_append, List.filterMap_append, Nat.zero_add]
  cases o <;> rfl

/-- The elements in front of an index and the one at the index. -/
theorem entriesOf_take {i : Nat} {o : Option Val} (ho : items[i]? = some o) :
    entriesOf (items.take (i + 1)) =
      entriesOf (items.take i) ++ (o.map fun v => (indexKey i, v)).toList := by
  have hi := (List.getElem?_eq_some_iff.mp ho).1
  rw [List.take_add_one, ho, Option.toList_some, entriesOf_append, List.length_take,
    Nat.min_eq_left hi.le]

theorem mem_entriesOf {p : Value × Val} :
    p ∈ entriesOf items ↔ ∃ i v, items[i]? = some (some v) ∧ p = (indexKey i, v) := by
  simp only [entriesOf, List.mem_filterMap, Prod.exists, List.mem_zipIdx_iff_getElem?,
    Option.map_eq_some_iff]
  constructor
  · rintro ⟨o, i, hi, v, rfl, rfl⟩
    exact ⟨i, v, hi, rfl⟩
  · rintro ⟨i, v, hi, rfl⟩
    exact ⟨some v, i, hi, v, rfl, rfl⟩

theorem indexKey_inj {i j : Nat} (hi : i < 2 ^ 63) (hj : j < 2 ^ 63) :
    indexKey i = indexKey j ↔ i = j := by
  constructor
  · intro h
    have := congrArg Int64.toInt (Value.int.inj h)
    rw [Int64.toInt_ofNat_of_lt hi, Int64.toInt_ofNat_of_lt hj] at this
    omega
  · rintro rfl
    rfl

/-- A key that is no index of the list is not among its keys. -/
theorem hasKey_entriesOf {x : Value} (hx : IsKey x)
    (hne : ∀ i, i < items.length → indexKey i ≠ x) : hasKey (entriesOf items) x = false := by
  rw [← Bool.not_eq_true, hasKey, List.any_eq_true]
  rintro ⟨p, hp, heq⟩
  obtain ⟨i, v, hi, rfl⟩ := mem_entriesOf.mp hp
  have hkey : IsKey (indexKey i) := trivial
  exact hne i (List.getElem?_eq_some_iff.mp hi).1 ((strictEq_iff hkey hx).mp heq)

end Entries

end HeapScript.Library
