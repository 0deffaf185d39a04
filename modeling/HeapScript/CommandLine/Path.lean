/-!
# Paths

The parts of a path that decide what a file is and what is made from it.
-/

namespace HeapScript.Path

def parts (path : String) : List String := path.splitOn "/"

/-- The extension of a path: what its last component has from the last point on. -/
def extension (path : String) : String :=
  match ((parts path).getLastD "").splitOn "." with
  | [] | [_] => ""
  | pieces => "." ++ pieces.getLastD ""

/-- The last component of a path, slashes at the end not counted. -/
def last (path : String) : String :=
  if path = "" then "."
  else ((parts path).filter (· ≠ "")).getLastD "/"

/-- A path without an ending, if it has it. -/
def withoutEnding (path ending : String) : String :=
  if path.endsWith ending then (path.dropEnd ending.length).toString else path

/-- The components left when a step back takes away the component before it; `above` tells
whether steps back that take nothing away remain. -/
def cleanParts (above : Bool) : List String → List String → List String
  | done, [] => done.reverse
  | done, c :: rest =>
    if c = "" ∨ c = "." then cleanParts above done rest
    else if c = ".." then
      match done with
      | d :: ds =>
        if d = ".." then cleanParts above (".." :: done) rest else cleanParts above ds rest
      | [] => if above then cleanParts above [".."] rest else cleanParts above [] rest
    else cleanParts above (c :: done) rest

/-- The shortest path that reads the same. -/
def clean (path : String) : String :=
  if path.startsWith "/" then "/" ++ String.intercalate "/" (cleanParts false [] (parts path))
  else
    match cleanParts true [] (parts path) with
    | [] => "."
    | cs => String.intercalate "/" cs

def join (folder path : String) : String :=
  if folder = "" then clean path else clean (folder ++ "/" ++ path)

end HeapScript.Path
