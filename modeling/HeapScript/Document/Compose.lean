import HeapScript.Document.Draft
import HeapScript.Document.Scalar
import HeapScript.Document.Scan

/-!
# From tokens to documents

Builds the node of the first document of a text. An alias stands for the node that its name was
last given to, which may be one that contains it.
-/

namespace HeapScript.Document

/-- What is left to read, and the anchored nodes so far. -/
structure Composer where
  scanner : Scanner
  handles : List (String × String) := []
  /-- The anchored nodes; one that is not complete yet stands here as an empty scalar. -/
  anchors : Array Draft := #[]
  /-- The names of the anchors, the latest first, with their numbers. -/
  names : List (String × Nat) := []
  /-- The numbers of the anchored nodes that are not complete yet. -/
  pending : List Nat := []
  /-- Whether there is an alias inside the node it names. -/
  knotted : Bool := false

/-- Reads from the tokens, or finds that they make no document. -/
abbrev Compose := StateT Composer Scan

namespace Compose

def peek : Compose Token := fun s => do
  let (t, scanner) ← s.scanner.peek
  return (t, { s with scanner := scanner })

def skip : Compose Unit := modify fun s => { s with scanner := s.scanner.skip }

def advance : Compose Token := do
  skip
  peek

/-- A scalar that is not written at all. -/
def empty (pos : Position) : Draft := .empty pos

/-- Gives a name to the node that follows. -/
def register (anchor : Option String) (pos : Position) : Compose Unit :=
  match anchor with
  | some name => modify fun s =>
    let n := s.anchors.size
    { s with
      anchors := s.anchors.push (.empty pos), names := (name, n) :: s.names,
      pending := n :: s.pending }
  | none => pure ()

/-- The node with the latest name that is still pending is complete. -/
def complete (anchor : Option String) (d : Draft) : Compose Draft := do
  if anchor.isSome then
    modify fun s =>
      match s.pending with
      | n :: pending => { s with anchors := s.anchors.setIfInBounds n d, pending := pending }
      | [] => s
  return d

def aliasOf (pos : Position) (name : String) : Compose Draft := do
  let s ← get
  match s.names.lookup name with
  | some n =>
    if s.pending.contains n then set { s with knotted := true }
    return .reference pos name n
  | none => throw {}

def longTag (handle suffix : String) : Compose String := do
  if handle = "" then return suffix
  else
    match (← get).handles.lookup handle with
    | some stem => return stem ++ suffix
    | none => throw {}

/-- The anchor and tag in front of a node, in either order, and the token after them. -/
def properties (t : Token) : Compose (Option String × Option String × Token) := do
  match t.kind with
  | .anchor name =>
    let t ← advance
    match t.kind with
    | .tag handle suffix =>
      let t ← advance
      return (some name, some (← longTag handle suffix), t)
    | _ => return (some name, none, t)
  | .tag handle suffix =>
    let t ← advance
    match t.kind with
    | .anchor name =>
      let t ← advance
      return (some name, some (← longTag handle suffix), t)
    | _ => return (none, some (← longTag handle suffix), t)
  | _ => return (none, none, t)

def formOf (tag : Option String) (quoted : Bool) : Form :=
  match tag with
  | some t => if t = "!" then (if quoted then .quoted else .plain) else .tagged (Scalar.shortTag t)
  | none => if quoted then .quoted else .plain

def tagOf (tag : Option String) : String :=
  match tag with
  | some t => if t = "!" then "" else Scalar.shortTag t
  | none => ""

/-- A node that is complete as soon as it is named. -/
def leaf (anchor : Option String) (d : Draft) (pos : Position) : Compose Draft := do
  register anchor pos
  complete anchor d

mutual

/-- A node. `block` says whether it may be a block collection, `indentless` whether it may be a
block sequence without indentation. -/
def node (fuel : Nat) (block indentless : Bool) : Compose Draft :=
  match fuel with
  | 0 => throw {}
  | fuel + 1 => do
    let first ← peek
    match first.kind with
    | .reference name =>
      skip
      aliasOf first.start name
    | _ =>
      let pos := first.start
      let (anchor, tag, t) ← properties first
      match t.kind with
      | .scalar quoted text =>
        skip
        leaf anchor (.scalar pos (formOf tag quoted) text) pos
      | .blockEntry =>
        if indentless then do
          register anchor pos
          complete anchor (.sequence pos (tagOf tag) (← indentlessItems fuel))
        else missing anchor tag pos
      | .flowSequenceStart =>
        register anchor pos
        skip
        complete anchor (.sequence pos (tagOf tag) (← flowItems fuel true))
      | .flowMappingStart =>
        register anchor pos
        skip
        complete anchor (.mapping pos (tagOf tag) (← flowEntries fuel true))
      | .blockSequenceStart =>
        if block then do
          register anchor pos
          skip
          complete anchor (.sequence pos (tagOf tag) (← blockItems fuel))
        else missing anchor tag pos
      | .blockMappingStart =>
        if block then do
          register anchor pos
          skip
          complete anchor (.mapping pos (tagOf tag) (← blockEntries fuel))
        else missing anchor tag pos
      | _ => missing anchor tag pos
where
  /-- Nothing follows: an empty scalar after an anchor or tag, else an error. -/
  missing (anchor tag : Option String) (pos : Position) : Compose Draft :=
    if anchor.isSome || tag.isSome then leaf anchor (.scalar pos (formOf tag false) "") pos
    else throw {}

def blockItems (fuel : Nat) : Compose (List Draft) :=
  match fuel with
  | 0 => throw {}
  | fuel + 1 => do
    let t ← peek
    match t.kind with
    | .blockEntry =>
      let after ← advance
      let item ← match after.kind with
        | .blockEntry | .blockEnd => pure (empty t.finish)
        | _ => node fuel true false
      return item :: (← blockItems fuel)
    | .blockEnd =>
      skip
      return []
    | _ => throw {}

/-- The items of a block sequence without indentation. -/
def indentlessItems (fuel : Nat) : Compose (List Draft) :=
  match fuel with
  | 0 => throw {}
  | fuel + 1 => do
    let t ← peek
    match t.kind with
    | .blockEntry =>
      let after ← advance
      let item ← match after.kind with
        | .blockEntry | .key | .value | .blockEnd => pure (empty t.finish)
        | _ => node fuel true false
      return item :: (← indentlessItems fuel)
    | _ => return []

def blockEntries (fuel : Nat) : Compose (List (Draft × Draft)) :=
  match fuel with
  | 0 => throw {}
  | fuel + 1 => do
    let t ← peek
    match t.kind with
    | .key =>
      let after ← advance
      let key ← match after.kind with
        | .key | .value | .blockEnd => pure (empty t.finish)
        | _ => node fuel true true
      let value ← blockValue fuel
      return (key, value) :: (← blockEntries fuel)
    | .blockEnd =>
      skip
      return []
    | _ => throw {}

def blockValue (fuel : Nat) : Compose Draft :=
  match fuel with
  | 0 => throw {}
  | fuel + 1 => do
    let t ← peek
    match t.kind with
    | .value =>
      let after ← advance
      match after.kind with
      | .key | .value | .blockEnd => return empty t.finish
      | _ => node fuel true true
    | _ => return empty t.start

/-- The items of a flow sequence; an item may be a mapping with a single entry. -/
def flowItems (fuel : Nat) (first : Bool) : Compose (List Draft) :=
  match fuel with
  | 0 => throw {}
  | fuel + 1 => do
    let t ← peek
    let t ← if first then pure t else match t.kind with
      | .flowEntry => advance
      | .flowSequenceEnd => pure t
      | _ => throw {}
    match t.kind with
    | .flowSequenceEnd =>
      skip
      return []
    | .key =>
      let after ← advance
      let key ← match after.kind with
        | .value | .flowEntry | .flowSequenceEnd =>
          skip
          pure (empty after.finish)
        | _ => node fuel false false
      let value ← singleValue fuel
      return .mapping t.start "" [(key, value)] :: (← flowItems fuel false)
    | _ =>
      let item ← node fuel false false
      return item :: (← flowItems fuel false)

/-- The value of a mapping with a single entry inside a flow sequence. -/
def singleValue (fuel : Nat) : Compose Draft :=
  match fuel with
  | 0 => throw {}
  | fuel + 1 => do
    let t ← peek
    match t.kind with
    | .value =>
      let after ← advance
      match after.kind with
      | .flowEntry | .flowSequenceEnd => return empty t.start
      | _ => node fuel false false
    | _ => return empty t.start

/-- The entries of a flow mapping; a key may stand alone. -/
def flowEntries (fuel : Nat) (first : Bool) : Compose (List (Draft × Draft)) :=
  match fuel with
  | 0 => throw {}
  | fuel + 1 => do
    let t ← peek
    let t ← if first then pure t else match t.kind with
      | .flowEntry => advance
      | .flowMappingEnd => pure t
      | _ => throw {}
    match t.kind with
    | .flowMappingEnd =>
      skip
      return []
    | .key =>
      let after ← advance
      let key ← match after.kind with
        | .value | .flowEntry | .flowMappingEnd => pure (empty after.start)
        | _ => node fuel false false
      let value ← flowValue fuel
      return (key, value) :: (← flowEntries fuel false)
    | _ =>
      let key ← node fuel false false
      let after ← peek
      return (key, empty after.start) :: (← flowEntries fuel false)

def flowValue (fuel : Nat) : Compose Draft :=
  match fuel with
  | 0 => throw {}
  | fuel + 1 => do
    let t ← peek
    match t.kind with
    | .value =>
      let after ← advance
      match after.kind with
      | .flowEntry | .flowMappingEnd => return empty after.start
      | _ => node fuel false false
    | _ => return empty t.start

end

/-- Goes over the directives in front of a document and gives the token after them. There is at
most one version, 1.1, and no handle is given twice. -/
def directives : (fuel : Nat) → (versioned : Bool) → Token → Compose Token
  | 0, _, t => return t
  | fuel + 1, versioned, t => do
    match t.kind with
    | .version major minor =>
      if versioned || major ≠ 1 || minor ≠ 1 then throw {}
      else directives fuel true (← advance)
    | .handle name stem =>
      if ((← get).handles.lookup name).isSome then throw {}
      else
        modify fun s => { s with handles := s.handles ++ [(name, stem)] }
        directives fuel versioned (← advance)
    | _ => return t

/-- The handles that always stand for something, unless a directive says otherwise. -/
def defaultHandles : List (String × String) := [("!", "!"), ("!!", "tag:yaml.org,2002:")]

def isDirective (t : Token) : Bool :=
  match t.kind with
  | .version .. | .handle .. => true
  | _ => false

/-- The node of a document, and a look at what follows it. -/
def contents (fuel : Nat) : Compose (Option Draft) := do
  let d ← node fuel true false
  let _ ← peek
  return some d

def document (fuel : Nat) : Compose (Option Draft) := do
  let first ← peek
  let t ← directives fuel false first
  modify fun s => { s with handles := s.handles ++ defaultHandles }
  match t.kind with
  | .documentStart =>
    let after ← advance
    match after.kind with
    | .version .. | .handle .. | .documentStart | .documentEnd | .streamEnd =>
      return some (empty after.start)
    | _ => contents fuel
  | kind =>
    if isDirective first then throw {}
    else if kind = .streamEnd then return none
    else contents fuel

end Compose

def Node.ofText (text : String) : Except Malformed (Option Node) :=
  if text.toList.all isAllowed then do
    let (d, s) ← (Compose.document (3 * text.length + 16)).run { scanner := .ofText text }
    return d.map (Draft.close s.anchors s.knotted)
  else .error {}

end HeapScript.Document
