import HeapScript.Machine.Type

/-!
# Locals and temporaries

The locals of a function: its parameters, then what was declared, in order. Temporaries are
locals that are handed out and taken back. One that was taken back is handed out again for the
same kind, the latest first, so that frames stay small.
-/

namespace HeapScript.Compile

open Machine

/-- What a temporary holds. -/
inductive SlotKind where
  | int | float | bool | ref
  deriving DecidableEq, Repr

def SlotKind.name : SlotKind → String
  | int => "int"
  | float => "float"
  | bool => "bool"
  | ref => "ref"

def SlotKind.ofCode? (n : Int) : Option SlotKind :=
  match n with
  | 0 => some int
  | 1 => some float
  | 2 => some bool
  | 3 => some ref
  | _ => none

structure Layout where
  refType : ValType
  params : List ValType
  locals : Array ValType := #[]
  /-- Every temporary ever created, with its kind. -/
  kinds : List (Nat × SlotKind) := []
  /-- The temporaries that can be handed out again, the latest first. -/
  free : List Nat := []
  /-- The temporaries that are handed out. -/
  inUse : List Nat := []

/-- Why temporaries cannot be handled. -/
inductive SlotError where
  | noFunction
  | foreign (slot : Int)
  | releasedTwice (slot : Int) (kind : SlotKind)
  deriving DecidableEq, Repr

def SlotError.message : SlotError → String
  | noFunction => "slot allocator used before Reset"
  | foreign slot => "slot " ++ toString slot ++ " was not handed out by this allocator"
  | releasedTwice slot kind => "slot " ++ toString slot ++ " (" ++ kind.name ++ ") freed twice"

namespace Layout

def size (l : Layout) : Nat := l.params.length + l.locals.size

def typeOf? (l : Layout) (i : Nat) : Option ValType :=
  if i < l.params.length then l.params[i]? else l.locals[i - l.params.length]?

def declare (l : Layout) (t : ValType) : Nat × Layout :=
  (l.size, { l with locals := l.locals.push t })

def slotType (l : Layout) : SlotKind → ValType
  | .int => .i64
  | .float => .f64
  | .bool => .i32
  | .ref => l.refType

def kindOf? (l : Layout) (slot : Nat) : Option SlotKind := l.kinds.lookup slot

/-- A temporary of a kind: the latest one taken back, else a new local. -/
def allocate (l : Layout) (k : SlotKind) : Nat × Layout :=
  match l.free.find? fun s => l.kindOf? s == some k with
  | some s => (s, { l with free := l.free.erase s, inUse := s :: l.inUse })
  | none =>
    let (s, l') := l.declare (l.slotType k)
    (s, { l' with kinds := (s, k) :: l.kinds, inUse := s :: l.inUse })

def release (l : Layout) (slot : Nat) : Except SlotError Layout :=
  match l.kindOf? slot with
  | none => .error (.foreign slot)
  | some k =>
    if slot ∈ l.inUse then
      .ok { l with free := slot :: l.free, inUse := l.inUse.erase slot }
    else .error (.releasedTwice slot k)

end Layout

/-- Temporaries of the function at hand, if there is one. -/
abbrev Slots := Option Layout

namespace Slots

def reset (refType : ValType) (params : List ValType) : Slots :=
  some { refType := refType, params := params }

def allocate (s : Slots) (k : SlotKind) : Except SlotError (Nat × Slots) :=
  match s with
  | none => .error .noFunction
  | some l => .ok ((l.allocate k).1, some (l.allocate k).2)

/-- Takes back a temporary, given by any number. -/
def release (s : Slots) (slot : Int) : Except SlotError Slots :=
  match s with
  | none => .error (.foreign slot)
  | some l => if slot < 0 then .error (.foreign slot) else (l.release slot.toNat).map some

/-- The kind of a temporary, given by any number. -/
def kindOf (s : Slots) (slot : Int) : Except SlotError SlotKind :=
  match if slot < 0 then none else s.bind fun l => l.kindOf? slot.toNat with
  | some k => .ok k
  | none => .error (.foreign slot)

def created (s : Slots) : Nat := (s.map fun l => l.kinds.length).getD 0

def inUse (s : Slots) : Nat := (s.map fun l => l.inUse.length).getD 0

end Slots

end HeapScript.Compile
