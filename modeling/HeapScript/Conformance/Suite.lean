import HeapScript.Diagnostic.Failure
import HeapScript.Document.Compose

/-!
# Conformance suites

A suite is a document that lists programs with what they are expected to do. Everything wrong
with the shape of a suite is collected, line by line, before it is refused. A mapping can take
over entries of others under the key `<<`; entries of its own come first, then those of the
others in order.
-/

namespace HeapScript.Conformance

open Document Text

/-- A program and what is expected of it. -/
structure Case where
  name : Bytes := []
  /-- Why the case is left out; empty if it is not. -/
  skip : Bytes := []
  program : Option Node := none
  output : Bytes := []
  /-- A part of the error the program must be refused with; empty if it must compile. -/
  error : Bytes := []
  /-- Whether the run must be stopped. -/
  trap : Bool := false

structure Suite where
  name : Bytes := []
  tests : List Case := []

/-! ## Reading -/

/-- How far the reading of a document has come. -/
structure Progress where
  /-- The complaints so far, the latest first. -/
  complaints : List Bytes := []
  /-- The number of nodes that have been looked at. -/
  visits : Nat := 0
  aliased : Nat := 0
  /-- The places of the aliases that are being followed. -/
  followed : List Position := []
  /-- While entries are taken over: the keys that are already there. -/
  merged : Option (List Bytes) := none

/-- The reading of a document, or the failure that ends it. -/
abbrev Read := ExceptT Failure (StateM Progress)

def fault {α : Type} (message : String) : Read α := throw (.ofText ("yaml: " ++ message))

def complain (line : Nat) (what : Bytes) : Read Unit :=
  modify fun p =>
    { p with complaints := (textBytes ("line " ++ toString line ++ ": ") ++ what) :: p.complaints }

/-- The largest part of the visits that may be behind aliases: the more there are, the less. -/
def aliasedPart (visits : Nat) : Float :=
  if visits ≤ 400000 then 0.99
  else if 4000000 ≤ visits then 0.10
  else 0.99 - 0.89 * ((visits - 400000).toFloat / 3600000.0)

/-- Counts a look at a node. Too many behind aliases end the reading. -/
def visit : Read Unit := do
  modify fun p =>
    { p with visits := p.visits + 1, aliased := p.aliased + (if p.followed.isEmpty then 0 else 1) }
  let p ← get
  if p.aliased > 100 ∧ p.visits > 1000 ∧
      aliasedPart p.visits < p.aliased.toFloat / p.visits.toFloat then
    fault "document contains excessive aliasing"

/-- Follows an alias. One that leads to itself ends the reading. -/
def following {α : Type} (pos : Position) (name : String) (x : Read α) : Read α := do
  visit
  let p ← get
  if p.followed.contains pos then fault ("anchor '" ++ name ++ "' value contains itself")
  set { p with followed := pos :: p.followed }
  let a ← x
  modify fun q => { q with followed := p.followed }
  return a

/-- Looks at a node, behind its aliases. -/
def looking {α : Type} (k : Node → Read α) : Node → Read α
  | .reference pos name target => following pos name (looking k target)
  | n => do
    visit
    k n

/-- Complains that a node is not of the wanted kind. -/
def misfit (n : Node) (kind : String) : Read Unit :=
  match n with
  | .sequence pos tag _ =>
    complain pos.line (Scalar.misfit (if tag = "" then "!!seq" else tag) "" kind)
  | .mapping pos tag _ =>
    complain pos.line (Scalar.misfit (if tag = "" then "!!map" else tag) "" kind)
  | .scalar pos form text => complain pos.line (Scalar.misfit (Scalar.shownTag form text) text kind)
  | .reference .. => pure ()

/-- What a scalar denotes; one that denotes nothing ends the reading. -/
def meaning (form : Form) (text : String) : Read Scalar :=
  match Scalar.read form text with
  | .ok s => pure s
  | .error e => throw (.ofText e.message)

def sameKey : Node → Node → Bool
  | .scalar _ _ a, .scalar _ _ b => a == b
  | .reference _ a _, .reference _ b _ => a == b
  | .sequence .., .sequence .. => true
  | .mapping .., .mapping .. => true
  | _, _ => false

/-- Complains about keys that occur again; tells whether there are none. -/
def distinctKeys : List (Node × Node) → Read Bool
  | [] => pure true
  | (k, _) :: rest => do
    let again := rest.filter fun e => sameKey k e.1
    for e in again do
      complain e.1.pos.line
        (textBytes ("mapping key " ++ quote k.label ++ " already defined at line " ++
          toString k.pos.line))
    let others ← distinctKeys rest
    return again.isEmpty && others

/-- Complains about a node that is neither null nor of the wanted kind. -/
def refuse (kind : String) (n : Node) : Read Unit := do
  match n with
  | .mapping _ _ entries => if ← distinctKeys entries then misfit n kind
  | _ => misfit n kind

/-- The bytes of what a scalar denotes if it is read as a string. -/
def bytesOf (text : String) : Scalar → Bytes
  | .data bytes => bytes
  | _ => textBytes text

/-- The text of a scalar, whatever it denotes; null gives none. -/
def readText : Node → Read (Option Bytes) := looking fun
  | .scalar _ form text => do
    match ← meaning form text with
    | .null => return none
    | s => return some (bytesOf text s)
  | n => do
    refuse "string" n
    return none

/-- The truth value of a scalar; null gives none. -/
def readFlag : Node → Read (Option Bool) := looking fun
  | .scalar pos form text => do
    match ← meaning form text with
    | .null => return none
    | s =>
      match s.toBool? with
      | some b => return some b
      | none =>
        refuse "bool" (.scalar pos form text)
        return none
  | n => do
    refuse "bool" n
    return none

/-! ## Records -/

/-- How a mapping is read into a record. -/
structure Layout (α : Type) where
  /-- What the record is called in complaints. -/
  kind : String
  /-- The keys, with how their values are read into the record. -/
  fields : List (String × (Node → α → Read α))

/-- Whether a key tells to take over entries of other mappings. -/
def isMergeKey : Node → Bool
  | .scalar _ form text => text = "<<" && (form = .plain || form = .tagged "!!merge")
  | _ => false

/-- A key as a text, while the keys of a mapping are gathered. Keys are compared, and collections
cannot be: one among them ends the reading. -/
def keyText : Node → Read (Option Bytes) := looking fun
  | .scalar _ form text => do
    match ← meaning form text with
    | .str _ => return some (textBytes text)
    | .data bytes => return some bytes
    | _ => return none
  | .mapping _ _ entries => do
    if ← distinctKeys entries then throw .incomparable
    return none
  | _ => throw .incomparable

/-- Ends the reading: something else than mappings cannot be taken over. -/
def refuseMerge {α : Type} : Read α :=
  fault "map merge requires map or sequence of maps as the value"

/-- Reads the value under a key into a record. While entries are taken over, a key that is already
there is passed over. `done` are the keys of the record that have been read. -/
def readField {α : Type} (l : Layout α) (k v : Node) (key : Bytes) (merged : Option (List Bytes))
    (done : List Bytes) (a : α) : Read (Option (List Bytes) × List Bytes × α) := do
  if merged.any (·.contains key) then return (merged, done, a)
  let merged := merged.map (· ++ [key])
  match l.fields.find? fun f => textBytes f.1 = key with
  | none => return (merged, done, a)
  | some (name, read) =>
    if done.contains key then
      complain k.pos.line (textBytes ("field " ++ name ++ " already set in type " ++ l.kind))
      return (merged, done, a)
    else return (merged, key :: done, ← read v a)

/-- Reads the entries of a mapping into a record, those to take over excepted. -/
def readEntries {α : Type} (l : Layout α) (merged : Option (List Bytes)) (done : List Bytes) (a : α) :
    List (Node × Node) → Read (Option (List Bytes) × α)
  | [] => return (merged, a)
  | (k, v) :: rest => do
    if isMergeKey k then readEntries l merged done a rest
    else
      match ← readText k with
      | none => readEntries l merged done a rest
      | some key =>
        let (merged, done, a) ← readField l k v key merged done a
        readEntries l merged done a rest

/-- Takes entries over while it is known which keys are already there: those of the mapping at
first. -/
def merging {α : Type} (entries : List (Node × Node)) (x : Read α) : Read α := do
  let before := (← get).merged
  if before.isNone then
    let keys ← entries.filterMapM fun e => keyText e.1
    modify fun p => { p with merged := some keys }
    let a ← x
    modify fun p => { p with merged := none }
    return a
  else x

/-- Whether something can be taken over on its own. -/
def isMergeable (n : Node) : Bool := n.resolved.isMapping

mutual

/-- A node read into a record; none if it is not a mapping. -/
def readRecord {α : Type} (l : Layout α) (a : α) : Node → Read (Option α)
  | .reference pos name target => following pos name (readRecord l a target)
  | .mapping _ _ entries => do
    visit
    if ← distinctKeys entries then
      let merged := (← get).merged
      modify fun p => { p with merged := none }
      let (merged, a) ← readEntries l merged [] a entries
      modify fun p => { p with merged := merged }
      return some (← mergeEntries l entries a entries)
    else return none
  | .scalar pos form text => do
    visit
    match ← meaning form text with
    | .null => return none
    | _ =>
      refuse l.kind (.scalar pos form text)
      return none
  | .sequence pos tag items => do
    visit
    refuse l.kind (.sequence pos tag items)
    return none

/-- Takes over what stands under the key for it, if there is one. -/
def mergeEntries {α : Type} (l : Layout α) (all : List (Node × Node)) (a : α) :
    List (Node × Node) → Read α
  | [] => return a
  | (k, v) :: rest =>
    if isMergeKey k then merging all (mergeValue l a v) else mergeEntries l all a rest

/-- Takes over the entries of a mapping, or of several. -/
def mergeValue {α : Type} (l : Layout α) (a : α) : Node → Read α
  | .sequence _ _ items => mergeItems l a items
  | .mapping pos tag entries => return (← readRecord l a (.mapping pos tag entries)).getD a
  | .reference pos name target =>
    if target.isMapping then do
      return (← readRecord l a (.reference pos name target)).getD a
    else refuseMerge
  | .scalar .. => refuseMerge

/-- Takes over the entries of mappings one after another. -/
def mergeItems {α : Type} (l : Layout α) (a : α) : List Node → Read α
  | [] => return a
  | n :: rest => do
    if isMergeable n then
      let a := (← readRecord l a n).getD a
      mergeItems l a rest
    else refuseMerge

end

/-! ## Suites -/

def textField {α : Type} (set : Bytes → α → α) (v : Node) (a : α) : Read α := do
  return ((← readText v).map (set · a)).getD a

def caseLayout : Layout Case where
  kind := "main.ConformanceCase"
  fields :=
    [("name", textField fun s c => { c with name := s }),
     ("skip", textField fun s c => { c with skip := s }),
     ("program", fun v c => do
       visit
       return { c with program := some v }),
     ("output", textField fun s c => { c with output := s }),
     ("error", textField fun s c => { c with error := s }),
     ("trap", fun v c => do return { c with trap := (← readFlag v).getD c.trap })]

def readCases (before : List Case) : Node → Read (List Case) := looking fun
  | .sequence _ _ items => items.filterMapM (readRecord caseLayout {})
  | .scalar pos form text => do
    match ← meaning form text with
    | .null => return []
    | _ =>
      refuse "[]main.ConformanceCase" (.scalar pos form text)
      return before
  | n => do
    refuse "[]main.ConformanceCase" n
    return before

def suiteLayout : Layout Suite where
  kind := "main.ConformanceSuite"
  fields :=
    [("name", textField fun s suite => { suite with name := s }),
     ("description", textField fun _ suite => suite),
     ("tests", fun v suite => do return { suite with tests := ← readCases suite.tests v })]

def Suite.ofNode (root : Node) : Except Failure Suite :=
  match (readRecord suiteLayout {} root).run { visits := 1 } with
  | (.error f, _) => .error f
  | (.ok s, p) =>
    if p.complaints.isEmpty then .ok (s.getD {})
    else .error (.other (Scalar.complaintsMessage p.complaints.reverse))

/-- The suite in a text; a text without a document is an empty suite. -/
def Suite.ofText (text : String) : Except Failure Suite :=
  match Node.ofText text with
  | .error _ => .error (.ofText "yaml: malformed document")
  | .ok none => .ok {}
  | .ok (some root) => Suite.ofNode root

end HeapScript.Conformance
