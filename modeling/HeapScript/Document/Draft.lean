import HeapScript.Document.Node

/-!
# Documents with open aliases

While a document is read, an alias can name a node that is not complete yet: one that contains
the alias. A draft therefore keeps the number of the anchor that an alias names, and the aliases
are replaced when all anchored nodes are known.

An alias inside the node it names stands for that node again, alias included, without end. In the
tree it is followed a fixed number of times and then stands for nothing.
-/

namespace HeapScript.Document

/-- A node whose aliases tell the number of the anchor they name. -/
inductive Draft where
  | scalar (pos : Position) (form : Form) (text : String)
  | sequence (pos : Position) (tag : String) (items : List Draft)
  | mapping (pos : Position) (tag : String) (entries : List (Draft × Draft))
  | reference (pos : Position) (name : String) (anchor : Nat)
  deriving Inhabited

namespace Draft

/-- A scalar that is not written at all. -/
def empty (pos : Position) : Draft := scalar pos .plain ""

mutual

/-- The node of a draft, given what its aliases stand for. -/
def link (targets : Array Node) : Draft → Node
  | scalar pos form text => .scalar pos form text
  | sequence pos tag items => .sequence pos tag (linkItems targets items)
  | mapping pos tag entries => .mapping pos tag (linkEntries targets entries)
  | reference pos name anchor => .reference pos name (targets[anchor]?.getD (.scalar pos .plain ""))

def linkItems (targets : Array Node) : List Draft → List Node
  | [] => []
  | d :: rest => link targets d :: linkItems targets rest

def linkEntries (targets : Array Node) : List (Draft × Draft) → List (Node × Node)
  | [] => []
  | (k, v) :: rest => (link targets k, link targets v) :: linkEntries targets rest

end

/-- The anchored nodes, with the aliases in them followed `n` times. -/
def unfold (anchors : Array Draft) : (n : Nat) → Array Node
  | 0 => #[]
  | n + 1 =>
    let targets := unfold anchors n
    anchors.map (link targets)

/-- In how many ways a node behind an alias can be read: as a statement, an expression, a method, a
property or a case. Following aliases so often for each anchor is enough, because a node that is
read once more in the same way inside itself would never be read to its end. -/
def ways : Nat := 5

/-- The node of a draft. Unless an alias stands inside the node it names, following aliases leads
through each anchored node at most once. -/
def close (anchors : Array Draft) (knotted : Bool) (d : Draft) : Node :=
  d.link (unfold anchors (if knotted then ways * anchors.size else anchors.size))

end Draft

end HeapScript.Document
