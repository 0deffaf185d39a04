import HeapScript.CommandLine.Path
import HeapScript.CommandLine.Shell

/-!
# Disks

Files and folders as a value, seen from one folder: the top. Nothing outside the top can be
reached.
-/

namespace HeapScript

/-- Where a file or folder is: its components below the top. -/
abbrev Trail := List String

/-- Files with their contents, and folders that may be empty. -/
structure Disk where
  files : List (Trail × Bytes) := []
  folders : List Trail := []

/-- Why a path does not lead to what is wanted. -/
inductive PathFault where
  | missing
  | isFolder
  | notFolder

def PathFault.message : PathFault → String
  | missing => "no such file or directory"
  | isFolder => "is a directory"
  | notFolder => "not a directory"

inductive Entry where
  | file (contents : Bytes)
  | folder

namespace Disk

/-- What is at a place, if anything. A folder is there with everything below it. -/
def entry? (d : Disk) (p : Trail) : Option Entry :=
  match d.files.lookup p with
  | some bs => some (.file bs)
  | none =>
    if p.isEmpty || d.folders.any p.isPrefixOf || d.files.any (fun f => p.isPrefixOf f.1) then
      some .folder
    else none

/-- Follows components from a place; every place passed must be a folder. -/
def walk (d : Disk) : Trail → List String → Except PathFault Trail
  | p, [] => .ok p
  | p, c :: cs =>
    match d.entry? p with
    | none => .error .missing
    | some (.file _) => .error .notFolder
    | some .folder =>
      if c = "" ∨ c = "." then d.walk p cs
      else if c = ".." then
        if p.isEmpty then .error .missing else d.walk p.dropLast cs
      else d.walk (p ++ [c]) cs

def resolve (d : Disk) (path : String) : Except PathFault Trail :=
  if path = "" ∨ path.startsWith "/" then .error .missing else d.walk [] (Path.parts path)

/-- The message of a failed access. -/
def refusal (action path : String) (f : PathFault) : String :=
  action ++ " " ++ path ++ ": " ++ f.message

def read (d : Disk) (path : String) : Except String Bytes :=
  match d.resolve path with
  | .error f => .error (refusal "open" path f)
  | .ok p =>
    match d.entry? p with
    | none => .error (refusal "open" path .missing)
    | some .folder => .error (refusal "read" path .isFolder)
    | some (.file bs) => .ok bs

/-- The disk with other contents at the place of a file. -/
def put (d : Disk) (p : Trail) (bs : Bytes) : Disk :=
  { d with files := d.files.filter (fun f => f.1 ≠ p) ++ [(p, bs)] }

def write (d : Disk) (path : String) (bs : Bytes) : Except String Disk :=
  let named := if path.endsWith "/" then Path.withoutEnding path "/" else path
  match d.resolve named with
  | .error f => .error (refusal "open" path f)
  | .ok p =>
    match d.entry? p with
    | some .folder => .error (refusal "open" path .isFolder)
    | some (.file _) =>
      if path.endsWith "/" then .error (refusal "open" path .notFolder) else .ok (d.put p bs)
    | none =>
      if path.endsWith "/" then .error (refusal "open" path .isFolder) else .ok (d.put p bs)

def filesBelow (d : Disk) (path : String) : Except String (List String) :=
  match d.resolve path with
  | .error f => .error (refusal "lstat" path f)
  | .ok p =>
    match d.entry? p with
    | none => .error (refusal "lstat" path .missing)
    | some (.file _) => .ok [path]
    | some .folder =>
      .ok ((d.files.filter fun f => p.isPrefixOf f.1).map fun f =>
        Path.join path (String.intercalate "/" (f.1.drop p.length)))

end Disk

structure Terminal where
  disk : Disk := {}
  out : Bytes := []
  err : Bytes := []

/-- Access to a disk; nothing changes by itself. -/
def Terminal.shell : Shell (StateM Terminal) where
  read path := return (← get).disk.read path
  write path bs := do
    match (← get).disk.write path bs with
    | .error e => return .error e
    | .ok d =>
      modify fun t => { t with disk := d }
      return .ok ()
  filesBelow path := return (← get).disk.filesBelow path
  present path := do
    let d := (← get).disk
    return match d.resolve path with
      | .ok p => (d.entry? p).isSome
      | .error _ => false
  out bs := modify fun t => { t with out := t.out ++ bs }
  err s := modify fun t => { t with err := t.err ++ s }
  follow _ _ := pure ()

end HeapScript
