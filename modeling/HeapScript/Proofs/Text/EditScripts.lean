import Mathlib.Order.Bounds.Basic
import Mathlib.Order.MinMax
import HeapScript.Text.EditDistance

/-!
# Edit scripts

A script turns one byte string into another by single edits, in any order and at any places. The
edit distance is the length of the shortest script.

The distance is computed from one row of a table, which is overwritten from the left. What the rows
hold is the recurrence `tableEntry` over pairs of prefixes. Its last step can be undone, so an edit
of one string changes an entry by at most one, and no script is shorter than the entry says.
-/

namespace HeapScript.Text

/-! ## Scripts -/

/-- One edit of a byte string: somewhere a byte is put in, taken out or replaced. -/
inductive Edit : Bytes → Bytes → Prop
  | insert (front rest : Bytes) (b : UInt8) : Edit (front ++ rest) (front ++ b :: rest)
  | delete (front rest : Bytes) (b : UInt8) : Edit (front ++ b :: rest) (front ++ rest)
  | substitute (front rest : Bytes) (a b : UInt8) : Edit (front ++ a :: rest) (front ++ b :: rest)

/-- A number of edits, one after the other. -/
inductive Script : Nat → Bytes → Bytes → Prop
  | done (s : Bytes) : Script 0 s s
  | edit {n : Nat} {s t u : Bytes} (first : Edit s t) (others : Script n t u) : Script (n + 1) s u

theorem Edit.symm {s t : Bytes} (h : Edit s t) : Edit t s := by
  cases h with
  | insert front rest b => exact .delete front rest b
  | delete front rest b => exact .insert front rest b
  | substitute front rest a b => exact .substitute front rest b a

/-- An edit can be made behind another byte. -/
theorem Edit.cons {s t : Bytes} (h : Edit s t) (a : UInt8) : Edit (a :: s) (a :: t) := by
  cases h with
  | insert front rest b => exact .insert (a :: front) rest b
  | delete front rest b => exact .delete (a :: front) rest b
  | substitute front rest b c => exact .substitute (a :: front) rest b c

theorem Edit.reverse {s t : Bytes} (h : Edit s t) : Edit s.reverse t.reverse := by
  cases h with
  | insert front rest b => simpa using Edit.insert rest.reverse front.reverse b
  | delete front rest b => simpa using Edit.delete rest.reverse front.reverse b
  | substitute front rest a b => simpa using Edit.substitute rest.reverse front.reverse a b

namespace Script

variable {n k : Nat} {s t u : Bytes}

theorem single (h : Edit s t) : Script 1 s t := .edit h (.done t)

theorem trans (h : Script n s t) (h' : Script k t u) : Script (n + k) s u := by
  induction h with
  | done s => rwa [Nat.zero_add]
  | edit first _ ih =>
    rw [Nat.add_right_comm]
    exact .edit first (ih h')

theorem symm (h : Script n s t) : Script n t s := by
  induction h with
  | done s => exact .done s
  | edit first _ ih => exact ih.trans (single first.symm)

theorem cons (h : Script n s t) (a : UInt8) : Script n (a :: s) (a :: t) := by
  induction h with
  | done s => exact .done (a :: s)
  | edit first _ ih => exact .edit (first.cons a) ih

theorem reverse (h : Script n s t) : Script n s.reverse t.reverse := by
  induction h with
  | done s => exact .done s.reverse
  | edit first _ ih => exact .edit first.reverse ih

theorem eq_of_zero (h : Script 0 s t) : s = t := by
  cases h
  rfl

theorem insertAll (t : Bytes) : Script t.length [] t := by
  induction t with
  | nil => exact .done []
  | cons b t ih => exact .edit (.insert [] [] b) (ih.cons b)

end Script

/-! ## The table -/

/-- The entry of the table for two prefixes, which are read backwards. -/
def tableEntry : Bytes → Bytes → Nat
  | [], t => t.length
  | s, [] => s.length
  | a :: s, b :: t =>
    min (min (tableEntry s (b :: t) + 1) (tableEntry (a :: s) t + 1))
      (tableEntry s t + if a = b then 0 else 1)
termination_by s t => s.length + t.length

@[simp] theorem tableEntry_nil_left (t : Bytes) : tableEntry [] t = t.length := by
  rw [tableEntry]

@[simp] theorem tableEntry_nil_right (s : Bytes) : tableEntry s [] = s.length := by
  cases s <;> simp [tableEntry]

theorem tableEntry_cons (a b : UInt8) (s t : Bytes) :
    tableEntry (a :: s) (b :: t) =
      min (min (tableEntry s (b :: t) + 1) (tableEntry (a :: s) t + 1))
        (tableEntry s t + if a = b then 0 else 1) := by
  rw [tableEntry]

/-- The entries of a row behind the one for `left`, for the rest of the target. -/
def rowBehind (source : Bytes) : (left : Bytes) → (target : Bytes) → List Nat
  | _, [] => []
  | left, c :: target => tableEntry source (c :: left) :: rowBehind source (c :: left) target

/-- A row that is overwritten up to some entry is completed to the next row. -/
theorem nextEntries_rowBehind (b : UInt8) (source left target : Bytes) :
    nextEntries b (tableEntry source left) (tableEntry (b :: source) left) target
      (rowBehind source left target) = rowBehind (b :: source) left target := by
  induction target generalizing left with
  | nil => rfl
  | cons c target ih =>
    simp only [rowBehind, nextEntries]
    rw [← tableEntry_cons, ih]

def tableRow (source target : Bytes) : List Nat :=
  tableEntry source [] :: rowBehind source [] target

theorem nextRow_tableRow (b : UInt8) (source target : Bytes) :
    nextRow b target (tableRow source target) = tableRow (b :: source) target := by
  have h := nextEntries_rowBehind b source [] target
  simp only [tableEntry_nil_right, List.length_cons] at h
  simp only [tableRow, nextRow, tableEntry_nil_right, List.length_cons, h]

theorem rowBehind_nil (left target : Bytes) :
    rowBehind [] left target = List.range' (left.length + 1) target.length := by
  induction target generalizing left with
  | nil => rfl
  | cons c target ih => simp [rowBehind, ih, List.range'_succ]

/-- The first row counts the bytes of the target. -/
theorem tableRow_nil (target : Bytes) : tableRow [] target = List.range (target.length + 1) := by
  simp [tableRow, rowBehind_nil, List.range_eq_range', List.range'_succ]

theorem foldl_nextRow (source done target : Bytes) :
    source.foldl (fun row b => nextRow b target row) (tableRow done target) =
      tableRow (source.reverse ++ done) target := by
  induction source generalizing done with
  | nil => rfl
  | cons b source ih => simp [nextRow_tableRow, ih]

theorem getLastD_rowBehind (source left target : Bytes) :
    (rowBehind source left target).getLastD (tableEntry source left) =
      tableEntry source (target.reverse ++ left) := by
  induction target generalizing left with
  | nil => rfl
  | cons c target ih =>
    rw [rowBehind, List.getLastD_cons, ih]
    simp

/-- The last row ends with the entry for the whole strings. -/
theorem editDistance_eq (source target : Bytes) :
    editDistance source target = tableEntry source.reverse target.reverse := by
  have h := foldl_nextRow source [] target
  rw [tableRow_nil, List.append_nil] at h
  rw [editDistance, h, tableRow, List.getLastD_cons, getLastD_rowBehind, List.append_nil]

/-! ## Shortest scripts -/

theorem script_tableEntry (s t : Bytes) : Script (tableEntry s t) s t := by
  fun_induction tableEntry s t with
  | case1 t => exact Script.insertAll t
  | case2 s => exact (Script.insertAll s).symm
  | case3 a s b t ihDelete ihInsert ihBoth =>
    have hDelete : Script (tableEntry s (b :: t) + 1) (a :: s) (b :: t) :=
      .edit (.delete [] s a) ihDelete
    have hInsert : Script (tableEntry (a :: s) t + 1) (a :: s) (b :: t) :=
      ihInsert.trans (.single (.insert [] t b))
    have hBoth : Script (tableEntry s t + if a = b then 0 else 1) (a :: s) (b :: t) := by
      split
      · rename_i hab
        exact hab ▸ ihBoth.cons a
      · exact (ihBoth.cons a).trans (.single (.substitute [] t a b))
    apply min_rec' (Script · (a :: s) (b :: t))
    · exact min_rec' (Script · (a :: s) (b :: t)) hDelete hInsert
    · exact hBoth

theorem tableEntry_cons_left (a : UInt8) (s u : Bytes) :
    tableEntry (a :: s) u ≤ tableEntry s u + 1 := by
  cases u with
  | nil => simp
  | cons c u =>
    rw [tableEntry_cons]
    omega

theorem tableEntry_cons_right (s u : Bytes) (c : UInt8) :
    tableEntry s (c :: u) ≤ tableEntry s u + 1 := by
  cases s with
  | nil => simp
  | cons a s =>
    rw [tableEntry_cons]
    omega

/-- A byte more on the left does not bring strings closer by more than one. -/
theorem tableEntry_le_cons (a : UInt8) (s u : Bytes) :
    tableEntry s u ≤ tableEntry (a :: s) u + 1 := by
  induction u with
  | nil =>
    simp only [tableEntry_nil_right, List.length_cons]
    omega
  | cons c u ih =>
    have h := tableEntry_cons_right s u c
    rw [tableEntry_cons]
    omega

theorem tableEntry_substitute (a b : UInt8) (s u : Bytes) :
    tableEntry (a :: s) u ≤ tableEntry (b :: s) u + 1 := by
  induction u with
  | nil => simp
  | cons c u ih =>
    rw [tableEntry_cons, tableEntry_cons]
    split <;> split <;> omega

/-- What an edit does to an entry it also does behind a common byte. -/
theorem tableEntry_common {s t : Bytes} (h : ∀ u, tableEntry s u ≤ tableEntry t u + 1) (a : UInt8)
    (u : Bytes) : tableEntry (a :: s) u ≤ tableEntry (a :: t) u + 1 := by
  induction u with
  | nil => simpa using h []
  | cons c u ih =>
    have hDelete := h (c :: u)
    have hBoth := h u
    rw [tableEntry_cons, tableEntry_cons]
    omega

theorem tableEntry_edit {s t : Bytes} (h : Edit s t) (u : Bytes) :
    tableEntry s u ≤ tableEntry t u + 1 := by
  have behind (front : Bytes) {s t : Bytes} (h : ∀ u, tableEntry s u ≤ tableEntry t u + 1) :
      ∀ u, tableEntry (front ++ s) u ≤ tableEntry (front ++ t) u + 1 := by
    induction front with
    | nil => exact h
    | cons a front ih => exact tableEntry_common ih a
  cases h with
  | insert front rest b => exact behind front (tableEntry_le_cons b rest) u
  | delete front rest b => exact behind front (tableEntry_cons_left b rest) u
  | substitute front rest a b => exact behind front (tableEntry_substitute a b rest) u

theorem tableEntry_self (s : Bytes) : tableEntry s s = 0 := by
  induction s with
  | nil => simp
  | cons a s ih =>
    rw [tableEntry_cons, ih]
    simp

theorem tableEntry_le {n : Nat} {s t : Bytes} (h : Script n s t) : tableEntry s t ≤ n := by
  induction h with
  | done s => rw [tableEntry_self]
  | edit first _ ih => exact (tableEntry_edit first _).trans (Nat.succ_le_succ ih)

theorem script_reverse_iff {n : Nat} {s t : Bytes} : Script n s.reverse t.reverse ↔ Script n s t :=
  ⟨fun h => by simpa using h.reverse, Script.reverse⟩

theorem script_editDistance (s t : Bytes) : Script (editDistance s t) s t := by
  rw [editDistance_eq, ← script_reverse_iff]
  exact script_tableEntry s.reverse t.reverse

theorem editDistance_le {n : Nat} {s t : Bytes} (h : Script n s t) : editDistance s t ≤ n := by
  rw [editDistance_eq]
  exact tableEntry_le h.reverse

/-- The edit distance is the length of a shortest script, and so a metric on byte strings. -/
theorem editDistance_is_shortest_script (s t : Bytes) :
    IsLeast {n | Script n s t} (editDistance s t) ∧
      editDistance s t = editDistance t s ∧
      (editDistance s t = 0 ↔ s = t) ∧
      ∀ u, editDistance s u ≤ editDistance s t + editDistance t u := by
  refine ⟨⟨script_editDistance s t, fun n hn => editDistance_le hn⟩, ?_, ?_, fun u => ?_⟩
  · apply Nat.le_antisymm
    · exact editDistance_le (script_editDistance t s).symm
    · exact editDistance_le (script_editDistance s t).symm
  · constructor
    · intro h
      exact (h ▸ script_editDistance s t).eq_of_zero
    · rintro rfl
      exact Nat.le_zero.1 (editDistance_le (.done s))
  · exact editDistance_le ((script_editDistance s t).trans (script_editDistance t u))

example : editDistance (textBytes "kitten") (textBytes "sitting") = 3 := by decide +kernel

end HeapScript.Text
