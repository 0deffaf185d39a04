import Mathlib
import HeapScript.Machine.Heap

/-!
# Stores into cells

What the heap holds after a store: the new contents at the address stored to, and everywhere else
what it held before.
-/

namespace HeapScript.Machine.Heap

variable {h : Heap} {a b i : Nat} {t : Int} {vs : Array Val} {v : Val}

/-! ## Sizes -/

@[simp] theorem size_setElems : (h.setElems a i vs).size = h.size := by simp [setElems]

/-! ## The cell stored to -/

theorem setField_same (ha : h[a]? = some (.struct t vs)) :
    (h.setField a i v)[a]? = some (.struct t (vs.setIfInBounds i v)) := by
  simp [setField, Array.getElem?_modify, ha]

theorem setElem_same (ha : h[a]? = some (.array t vs)) :
    (h.setElem a i v)[a]? = some (.array t (vs.setIfInBounds i v)) := by
  simp [setElem, Array.getElem?_modify, ha]

/-! ## The other cells -/

theorem setField_other (hb : b ≠ a) : (h.setField a i v)[b]? = h[b]? := by
  simp [setField, Array.getElem?_modify, hb.symm]

theorem setElem_other (hb : b ≠ a) : (h.setElem a i v)[b]? = h[b]? := by
  simp [setElem, Array.getElem?_modify, hb.symm]

/-! ## Stores into the cell made last -/

theorem modify_push {c : Cell} {f : Cell → Cell} :
    (h.push c).modify h.size f = h.push (f c) := by
  apply Array.ext_getElem?
  intro b
  simp only [Array.getElem?_modify, Array.getElem?_push]
  by_cases hb : b = h.size
  · simp [hb]
  · simp [hb, Ne.symm hb]

@[simp] theorem setElem_push :
    setElem (h.push (.array t vs)) h.size i v =
      h.push (.array t (vs.setIfInBounds i v)) := by
  simp only [setElem, modify_push]

def write (elems : Array Val) (start : Nat) (vs : Array Val) : Array Val :=
  (vs.foldl (fun (state : Array Val × Nat) v =>
    (state.1.setIfInBounds state.2 v, state.2 + 1)) (elems, start)).1

@[simp] theorem setElems_push {elems : Array Val} :
    setElems (h.push (.array t elems)) h.size i vs =
      h.push (.array t (write elems i vs)) := by
  simp only [setElems, modify_push, write]

@[simp] theorem size_write (elems : Array Val) (start : Nat) (vs : Array Val) :
    (write elems start vs).size = elems.size := by
  obtain ⟨vs⟩ := vs
  simp only [write, List.foldl_toArray']
  induction vs generalizing elems start with
  | nil => rfl
  | cons v vs ih =>
    rw [List.foldl_cons, ih]
    simp

theorem write_toArray (front back : List Val) (new old : List Val) (hl : new.length = old.length) :
    write (front ++ old ++ back).toArray front.length new.toArray =
      (front ++ new ++ back).toArray := by
  induction new generalizing front old with
  | nil =>
    obtain rfl : old = [] := List.length_eq_zero_iff.mp hl.symm
    rfl
  | cons v new ih =>
    obtain ⟨u, old, rfl⟩ : ∃ u us, old = u :: us := by
      cases old with
      | nil => cases hl
      | cons u us => exact ⟨u, us, rfl⟩
    have hset : (front ++ u :: old ++ back).toArray.setIfInBounds front.length v =
        ((front ++ [v]) ++ old ++ back).toArray := by
      simp
    have hstep : write (front ++ u :: old ++ back).toArray front.length (v :: new).toArray =
        write ((front ++ u :: old ++ back).toArray.setIfInBounds front.length v)
          (front.length + 1) new.toArray := by
      simp [write]
    rw [hstep, hset]
    have := ih (front ++ [v]) old (by simpa using hl)
    rw [List.length_append, List.length_singleton] at this
    rw [this]
    simp

/-- An array of its own length is written over as a whole. -/
theorem write_replicate (v : Val) (new : List Val) :
    write (Array.replicate new.length v) 0 new.toArray = new.toArray := by
  have := write_toArray [] [] new (List.replicate new.length v) (by simp)
  simpa using this

/-- Two pieces written behind each other into an array of their length. -/
theorem write_write (v : Val) (as bs : List Val) :
    write (write (Array.replicate (as.length + bs.length) v) 0 as.toArray) as.length bs.toArray =
      (as ++ bs).toArray := by
  have h₁ := write_toArray [] (List.replicate bs.length v) as (List.replicate as.length v) (by simp)
  have h₂ := write_toArray as [] bs (List.replicate bs.length v) (by simp)
  simp only [List.nil_append, List.append_nil, List.length_nil, List.replicate_append_replicate]
    at h₁ h₂
  rw [← List.toArray_replicate, h₁, h₂]

end HeapScript.Machine.Heap
