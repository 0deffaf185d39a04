import HeapScript.Library.Shape

/-!
# Writing code

Small builders for instruction sequences, so that code reads close to what it computes. All of
them produce plain lists of instructions.
-/

namespace HeapScript.Library

open Machine

abbrev Code := List Instr

namespace Code

def seq (pieces : List Code) : Code := pieces.flatten

/-! ## Operands -/

def load (i : Nat) : Code := [.localGet i]

def store (i : Nat) : Code := [.localSet i]

def keep (i : Nat) : Code := [.localTee i]

def const32 (n : Int) : Code := [.i32Const n]

def const64 (n : Int64) : Code := [.i64Const n]

def constF (x : Float) : Code := [.f64Const x]

def char (c : Char) : Code := const32 c.toNat

def noBytes : Code := [.refNull Shape.bytes]

def noRef : Code := [.refNull anyHeap]

def increment (i : Nat) : Code := load i ++ const32 1 ++ [.i32 .add] ++ store i

def localIs (i : Nat) (n : Int) : Code := load i ++ const32 n ++ [.i32 .eq]

def localIsChar (i : Nat) (c : Char) : Code := localIs i c.toNat

def localIsTag (i : Nat) (t : Tag) : Code := localIs i t.code.toInt

/-! ## Control -/

def when (body : Code) : Code := [.branchIf .void] ++ body ++ [.close]

/-- Runs one of two pieces of code, neither leaving a result. -/
def ifElse (yes no : Code) : Code := [.branchIf .void] ++ yes ++ [.otherwise] ++ no ++ [.close]

/-- Runs one of two pieces of code that leave a result. -/
def choose (t : ValType) (yes no : Code) : Code :=
  [.branchIf t] ++ yes ++ [.otherwise] ++ no ++ [.close]

/-- Runs code again and again until it is left by `leaveIf`. -/
def forever (body : Code) : Code := [.block .void, .loop] ++ body ++ [.br 0, .close, .close]

/-- Leaves the enclosing `forever` if the condition holds. -/
def leaveIf (cond : Code) : Code := cond ++ [.brIf 1]

/-- Runs code until it leaves zero on top. -/
def doWhile (body : Code) : Code := [.loop] ++ body ++ [.brIf 0, .close]

def give (code : Code) : Code := code ++ [.ret]

/-! ## Records and arrays -/

def valueField (i : Nat) (f : ValueField) : Code := load i ++ [.structGet Shape.value f.index]

def tagIs (i : Nat) (t : Tag) : Code :=
  valueField i .tag ++ const32 t.code.toInt ++ [.i32 .eq]

def entryField (f : EntryField) : Code := [.structGet Shape.entry f.index]

def hashField (f : HashField) : Code := [.structGet Shape.hash f.index]

def objectField (f : ObjectField) : Code := [.structGet Shape.object f.index]

def setValueField (f : ValueField) : Code := [.structSet Shape.value f.index]

def setEntryField (f : EntryField) : Code := [.structSet Shape.entry f.index]

def setHashField (f : HashField) : Code := [.structSet Shape.hash f.index]

def byteAt (s i : Nat) : Code := load s ++ load i ++ [.arrayGetU Shape.bytes]

def firstByte (s : Nat) : Code := load s ++ const32 0 ++ [.arrayGetU Shape.bytes]

def tableOf (i : Nat) : Code := valueField i .ref ++ [.refCast Shape.hash]

def denseOf (i : Nat) : Code := valueField i .ref ++ [.refCast Shape.dense]

def propsOf (i : Nat) : Code := valueField i .ref ++ [.refCast Shape.object] ++ objectField .props

/-- A new value record from the code of its payload. -/
def newValue (t : Tag) (int float str ref : Code) : Code :=
  const32 t.code.toInt ++ int ++ float ++ str ++ ref ++ [.structNew Shape.value]

/-- A new value with a number in a local of the given type as its payload. -/
def boxLocal (t : Tag) (i : Nat) : ValType → Code
  | .i64 => newValue t (load i) (constF 0) noBytes noRef
  | .f64 => newValue t (const64 0) (load i) noBytes noRef
  | .i32 => newValue t (load i ++ [.i64ExtendI32U]) (constF 0) noBytes noRef
  | _ => newValue t (const64 0) (constF 0) noBytes noRef

/-- A new byte string with the contents of a data segment of the given length. -/
def bytesLiteral (length segment : Nat) : Code :=
  const32 0 ++ const32 length ++ [.arrayNewData Shape.bytes segment]

end Code

end HeapScript.Library
