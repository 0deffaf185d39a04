/-!
# Documents

A document is a tree of scalars, sequences and mappings. An alias stands for a node that was
given elsewhere. Every node knows its place.
-/

namespace HeapScript.Document

structure Position where
  line : Nat
  column : Nat
  deriving DecidableEq, Repr, Inhabited

inductive Form where
  /-- Without quotes or a tag; its text decides what it is. -/
  | plain
  /-- Quoted or as a block, and so always a string. -/
  | quoted
  | tagged (tag : String)
  deriving DecidableEq, Repr

/-- A node of a document. The tag of a sequence or mapping is empty unless it is explicit. -/
inductive Node where
  | scalar (pos : Position) (form : Form) (text : String)
  | sequence (pos : Position) (tag : String) (items : List Node)
  | mapping (pos : Position) (tag : String) (entries : List (Node × Node))
  | reference (pos : Position) (name : String) (target : Node)
  deriving Inhabited

namespace Node

def pos : Node → Position
  | scalar pos .. | sequence pos .. | mapping pos .. | reference pos .. => pos

/-- The text of a scalar or the name of an alias; sequences and mappings have none. -/
def label : Node → String
  | scalar _ _ text => text
  | reference _ name _ => name
  | _ => ""

def resolved : Node → Node
  | reference _ _ target => target
  | n => n

def behind : Node → Node
  | reference _ _ target => target.behind
  | n => n

def isMapping : Node → Bool
  | mapping .. => true
  | _ => false

end Node

end HeapScript.Document
