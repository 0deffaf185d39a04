/-!
# Stages of a compilation

A compilation goes through its stages in order; none is skipped or repeated. `Pipeline` records
the stages reached and refuses everything else.
-/

namespace HeapScript

/-- One step of turning a syntax tree into a module. -/
inductive Stage where
  | start | collection | analysis | library | generation | complete
  | unknown (code : Int)
  deriving DecidableEq, Repr

namespace Stage

def ofCode (n : Int) : Stage :=
  match n with
  | 0 => start
  | 1 => collection
  | 2 => analysis
  | 3 => library
  | 4 => generation
  | 5 => complete
  | n => unknown n

def code : Stage → Int
  | start => 0
  | collection => 1
  | analysis => 2
  | library => 3
  | generation => 4
  | complete => 5
  | unknown n => n

def name : Stage → String
  | start => "Initialization"
  | collection => "Declaration Collection"
  | analysis => "Type and Escape Analysis"
  | library => "Runtime Generation"
  | generation => "Code Generation"
  | complete => "Compilation Complete"
  | unknown n => "Unknown Stage " ++ toString n

end Stage

/-- The stages a compilation has reached. -/
structure Pipeline where
  current : Stage := .start
  reached : List Stage := [.start]

/-- Why a pipeline refuses an operation. -/
inductive StageError where
  | transition (source target : Stage) (history : String)
  | wrongStage (operation : String) (current expected : Stage)

def StageError.message : StageError → String
  | transition s t history =>
    "invalid compilation stage transition " ++ s.name ++ " -> " ++ t.name ++
      " (history: " ++ history ++ ")"
  | wrongStage operation current expected =>
    operation ++ " during " ++ current.name ++ ", allowed only during " ++ expected.name

namespace Pipeline

def history (p : Pipeline) : String := String.intercalate " -> " (p.reached.map Stage.name)

def advance (p : Pipeline) (stage : Stage) : Except StageError Pipeline :=
  if stage.code = p.current.code + 1 ∧ p.current ≠ .complete then
    .ok ⟨stage, p.reached ++ [stage]⟩
  else .error (.transition p.current stage p.history)

def require (p : Pipeline) (expected : Stage) (operation : String) : Except StageError Unit :=
  if p.current = expected then .ok () else .error (.wrongStage operation p.current expected)

end Pipeline

end HeapScript
