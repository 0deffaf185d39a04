import HeapScript.Text.Bytes
import HeapScript.Text.Lowercase

/-!
# Edit distance and similar names

The edit distance of two byte strings counts the insertions, deletions and substitutions of
single bytes that turn one into the other. It is computed row by row. `similarNames` uses it to
find the names that a misspelt one may have meant.
-/

namespace HeapScript.Text

/-- The rest of the next row, from the entry above to the left, the entry to the left, the
remaining target and the remaining row above. -/
def nextEntries (b : UInt8) : (diag left : Nat) → Bytes → List Nat → List Nat
  | diag, left, c :: target, up :: row =>
    let entry := min (min (up + 1) (left + 1)) (diag + if b = c then 0 else 1)
    entry :: nextEntries b up entry target row
  | _, _, _, _ => []

/-- The row that follows `row` when one more byte of the source is taken. -/
def nextRow (b : UInt8) (target : Bytes) : List Nat → List Nat
  | [] => []
  | d :: row => (d + 1) :: nextEntries b d (d + 1) target row

/-- The least number of single-byte edits that turn one byte string into the other. -/
def editDistance (source target : Bytes) : Nat :=
  (source.foldl (fun row b => nextRow b target row) (List.range (target.length + 1))).getLastD 0

/-- Names further away than this are not suggested. -/
def suggestionRadius : Nat := 3

def nameDistance (a b : String) : Nat :=
  editDistance (textBytes (lowercase a)) (textBytes (lowercase b))

/-- Whether a suggestion goes before another: nearer first, then by name. -/
def suggestsBefore (a b : Nat × String) : Bool :=
  if a.1 = b.1 then a.2 ≤ b.2 else a.1 < b.1

/-- At most `count` known names near a given one, the nearest first. -/
def similarNames (name : String) (known : List String) (count : Nat) : List String :=
  let near := (known.map fun k => (nameDistance name k, k)).filter fun s =>
    s.2 != name && s.1 ≤ suggestionRadius
  ((near.mergeSort suggestsBefore).take count).map (·.2)

end HeapScript.Text
