import HeapScript.Library.Arrays

/-!
# Installing the library

Adds the functions of the host and all routines to a module. The indices of the routines are
handed out before any body is defined, so that bodies can refer to each other.
-/

namespace HeapScript.Library

open Machine

def Routine.body (l : Links) : Routine → Body
  | newNull => Library.newNull
  | newBool => Library.newBool
  | newInt => Library.newInt
  | newFloat => Library.newFloat
  | newString => Library.newString
  | strScan => Library.strScan
  | strParseInt => Library.strParseInt
  | strParseFloat => Library.strParseFloat
  | toNumber => Library.toNumber l
  | toFloat => Library.toFloat l
  | toInt => Library.toInt l
  | toBool => Library.toBool l
  | intToString => Library.intToString
  | toBytes => Library.toBytes l
  | bytesEq => Library.bytesEq
  | concat => Library.concat l
  | isNumeric => Library.isNumeric l
  | looseEq => Library.looseEq l
  | strictEq => Library.strictEq l
  | order op => orderBody l op
  | arith op => arithBody l op
  | negate => Library.negate l
  | normalizeKey => Library.normalizeKey l
  | illegalOffset => Library.illegalOffset
  | strIsCanonicalInt => Library.strIsCanonicalInt
  | hashBytes => Library.hashBytes
  | hashInt => Library.hashInt
  | hashKey => Library.hashKey l
  | keyEq => Library.keyEq l
  | hashNew => Library.hashNew
  | hashFind => Library.hashFind l
  | hashLink => Library.hashLink
  | hashGrow => Library.hashGrow l
  | hashInsert => Library.hashInsert l
  | hashLookup => Library.hashLookup l
  | arrNew => Library.arrNew
  | isHash => Library.isHash
  | arrCount => Library.arrCount l
  | arrPromote => Library.arrPromote l
  | arrGet => Library.arrGet l
  | arrGetInt => Library.arrGetInt l
  | arrSet => Library.arrSet l
  | arrSetInt => Library.arrSetInt l
  | arrPush => Library.arrPush l
  | arrAutoviv => Library.arrAutoviv l
  | arrIterLen => Library.arrIterLen l
  | arrIterHas => Library.arrIterHas l
  | arrIterEntry => Library.arrIterEntry
  | arrIterKey => Library.arrIterKey l
  | arrIterValue => Library.arrIterValue l
  | objNew => Library.objNew
  | objClass => Library.objClass
  | objGet => Library.objGet l
  | objSet => Library.objSet l
  | undefinedProperty => Library.undefinedProperty

/-- A module that has the heap shapes and nothing else. -/
def emptyModule : Module := { types := Shape.definitions }

def addHost (m : Module) : Module :=
  let (echoType, m) := m.addType [Shape.bytesRef] []
  let (_, m) := m.addImport "env" "echo" echoType
  let (renderType, m) := m.addType [.f64] [Shape.bytesRef]
  (m.addImport "env" "float_to_string" renderType).2

def reserveAll : List Routine → Module → Module
  | [], m => m
  | _ :: rs, m => reserveAll rs m.reserve.2

def defineAll (l : Links) : List Routine → Module → Except DefineError Module
  | [], m => .ok m
  | r :: rs, m => do
    let (type, m) := m.addType r.params r.results
    let b := r.body l
    defineAll l rs (← m.define (l.index r) ("rt." ++ r.name) type b.locals b.code.toArray)

def install (m : Module) : Except DefineError (Links × Module) := do
  let l : Links := ⟨m.funcs.size⟩
  let m ← defineAll l Routine.all (reserveAll Routine.all (addHost m))
  return (l, ownStrings.foldl (fun m s => (m.addData 0 (textBytes s)).2) m)

def routineNames : List String := (Routine.all.map Routine.name).mergeSort (· ≤ ·)

end HeapScript.Library
