import HeapScript.Diagnostic.Report
import HeapScript.Machine.Step

/-!
# Failures

Everything that can end a command: a text that is no document, a document that is no program, a
program that does not compile, a run that stops, or something about the command itself. The
message of a failure is a byte string, because it can quote a part of a text that ends within a
character.
-/

namespace HeapScript

inductive Failure where
  /-- The text of a file is not a document. -/
  | syntactic (file : String)
  /-- The document is not a program. -/
  | unreadable (d : Diagnostic)
  | rejected (c : Collector)
  | stopped (t : Machine.Trap)
  | malformed
  /-- A collection stands where things are told apart by comparing them. -/
  | incomparable
  | other (message : Bytes)

namespace Failure

def syntacticDiagnostic (file : String) : Diagnostic :=
  .input "yaml: malformed document" { file := file }

def ofText (message : String) : Failure := other (textBytes message)

def message : Failure → Bytes
  | syntactic file => textBytes (syntacticDiagnostic file).text
  | unreadable d => textBytes d.text
  | rejected c => textBytes c.text
  | stopped t => textBytes t.message
  | malformed => textBytes "malformed code"
  | incomparable => textBytes "incomparable key"
  | other message => message

def inFile (path : String) : Failure → Failure
  | other message => other (textBytes (path ++ ": ") ++ message)
  | f => f

def exitCode : Failure → UInt32
  | incomparable => 2
  | _ => 1

/-- A text without the line ends at its end. -/
def withoutLineEnds (s : String) : String :=
  String.ofList ((s.toList.reverse.dropWhile (· == '\n')).reverse)

/-- A failure as it is shown: diagnostics in full, anything else on one line. -/
def shown (color : Bool) : Failure → Bytes
  | syntactic file => textBytes (withoutLineEnds ((syntacticDiagnostic file).format color))
  | unreadable d => textBytes (withoutLineEnds (d.format color))
  | rejected c => textBytes (withoutLineEnds (c.report color))
  | f => textBytes "Error: " ++ f.message

end Failure

end HeapScript
