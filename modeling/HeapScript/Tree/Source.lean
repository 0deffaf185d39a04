import HeapScript.Diagnostic.Failure
import HeapScript.Document.Compose
import HeapScript.Tree.Load

/-!
# Programs from text

Reads the program in the text of a file: the first document of the text, as a syntax tree. A
text without a document is the empty program.
-/

namespace HeapScript

def Program.ofText (file text : String) : Except Failure Program :=
  match Document.Node.ofText text with
  | .error _ => .error (.syntactic file)
  | .ok none => .ok []
  | .ok (some root) =>
    match Program.ofNode file root with
    | .ok p => .ok p
    | .error d => .error (.unreadable d)

end HeapScript
