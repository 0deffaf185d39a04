import HeapScript.Text.Bytes

/-!
# Shells

What a command can do to the world around it. The commands are written for any shell, so that
they run on the files of a computer as well as on a disk that is only a value.
-/

namespace HeapScript

/-- Access to files and to the two streams of a command. A failed access says why. -/
structure Shell (m : Type → Type) where
  read : String → m (Except String Bytes)
  /-- Makes a file with the given contents, or replaces those it has. -/
  write : String → Bytes → m (Except String Unit)
  /-- The paths of all files below a folder, or the path of a file itself. -/
  filesBelow : String → m (Except String (List String))
  present : String → m Bool
  out : Bytes → m Unit
  err : Bytes → m Unit
  /-- Does something at every change of a file, the first of which has number 1. -/
  follow : String → (Nat → m Unit) → m Unit

end HeapScript
