import HeapScript.Library.Values

/-!
# Routines on arrays and objects

Keys, hash tables, dense and hash arrays, iteration and objects. A dense array that gets a key
it cannot hold is copied into a hash array; the routines that write return the array to use from
then on. Parameters are the first locals.
-/

namespace HeapScript.Library

open Machine Code Shape

/-! ## Keys -/

def normalizeKey (l : Links) : Body where
  code := seq [
    tagIs 0 .int, when (give (load 0)),
    tagIs 0 .string, when (seq [
      valueField 0 .str, l.call .strIsCanonicalInt,
        when (give (valueField 0 .str ++ l.call .strParseInt ++ l.call .newInt)),
      give (load 0)]),
    tagIs 0 .bool, when (give (valueField 0 .int ++ l.call .newInt)),
    tagIs 0 .float, when (give (valueField 0 .float ++ [.i64TruncSatF64S] ++ l.call .newInt)),
    tagIs 0 .null, when (give (ownString 0 ++ l.call .newString)),
    l.call .illegalOffset,
    load 0]

/-- Stops the program: arrays and objects are no keys, and no array is that long. -/
def illegalOffset : Body where
  code := [.unreachable]

/-- Gives up at a byte that is no digit. -/
def digitStep (n i : Nat) : Code :=
  seq [
    leaveIf (load i ++ load n ++ [.i32 .geS]),
    byteAt 0 i, char '0', [.i32 .sub], const32 10, [.i32 .geU],
      when (give (const32 0)),
    increment i]

/-- Whether the bytes from `i` on are the digits of an integer key: at least one and at most 18,
without a leading zero unless it stands alone and no sign has been skipped. -/
def checkDigits (n i d : Nat) : Code :=
  seq [
    load n, load i, [.i32 .sub], keep d, [.i32Eqz], when (give (const32 0)),
    load d, const32 18, [.i32 .gtS], when (give (const32 0)),
    byteAt 0 i, char '0', [.i32 .eq], when (seq [
      load d, const32 1, [.i32 .gtS], load i, [.i32 .or], when (give (const32 0))]),
    forever (digitStep n i),
    const32 1]

/-- Whether a byte string is the decimal form of an integer of at most 18 digits. -/
def strIsCanonicalInt : Body :=
  let (n, i, d) := (1, 2, 3)
  { locals := [.i32, .i32, .i32]
    code := seq [
      load 0, [.arrayLen], store n,
      load n, when (seq [firstByte 0, char '-', [.i32 .eq], when (const32 1 ++ store i)]),
      checkDigits n i d] }

def hashOffset : Int := Int32.toInt (UInt32.toInt32 2166136261)

def hashFactor : Int := 16777619

def hashByteStep (hv i n : Nat) : Code :=
  seq [
    leaveIf (load i ++ load n ++ [.i32 .geS]),
    load hv, byteAt 0 i, [.i32 .xor], const32 hashFactor, [.i32 .mul], store hv,
    increment i]

def hashBytes : Body :=
  let (hv, i, n) := (1, 2, 3)
  { locals := [.i32, .i32, .i32]
    code := seq [
      const32 hashOffset, store hv,
      load 0, [.arrayLen], store n,
      forever (hashByteStep hv i n),
      load hv] }

def hashShiftStep (hv shift : Nat) : Code :=
  seq [
    leaveIf (load shift ++ const64 64 ++ [.i64Rel .geS]),
    load hv,
    load 0, load shift, [.i64 .shrU, .i32WrapI64], const32 0xff, [.i32 .and],
    [.i32 .xor], const32 hashFactor, [.i32 .mul], store hv,
    load shift, const64 8, [.i64 .add], store shift]

/-- The hash of an integer, which is that of its eight bytes, the lowest first. -/
def hashInt : Body :=
  let (hv, shift) := (1, 2)
  { locals := [.i32, .i64]
    code := seq [
      const32 hashOffset, store hv,
      forever (hashShiftStep hv shift),
      load hv] }

def hashKey (l : Links) : Body where
  code :=
    tagIs 0 .int ++
      choose .i32 (valueField 0 .int ++ l.call .hashInt) (valueField 0 .str ++ l.call .hashBytes)

def keyEq (l : Links) : Body where
  code := seq [
    valueField 0 .tag, valueField 1 .tag, [.i32 .ne], when (give (const32 0)),
    tagIs 0 .int,
      choose .i32 (valueField 0 .int ++ valueField 1 .int ++ [.i64Rel .eq])
        (valueField 0 .str ++ valueField 1 .str ++ l.call .bytesEq)]

/-! ## Hash tables -/

def hashNew : Body where
  code := seq [
    load 0, const32 1, [.i32 .shl, .arrayNewDefault buckets],
    load 0, const32 0, const64 0, [.structNew hash]]

/-- The entry at the ordinal on top, given the slots and the number of buckets below it. -/
def entryAt : Code := [.i32 .add, .arrayGet buckets]

/-- Looks at one entry of the chain and goes on to the next. -/
def findStep (l : Links) (n b e next : Nat) : Code :=
  seq [
    leaveIf (load e ++ [.refIsNull]),
    load e, entryField .hash, load 2, [.i32 .eq], when (seq [
      load e, entryField .key, load 1, l.call .keyEq, when (give (load e))]),
    leaveIf (seq [load e, entryField .next, keep next, const32 0, [.i32 .ltS]]),
    load b, load n, load next, entryAt, store e]

def hashFind (l : Links) : Body :=
  let (n, b, e, next) := (3, 4, 5, 6)
  { locals := [.i32, bucketsRef, entryRef, .i32]
    code := seq [
      load 0, hashField .bucketCount, store n,
      load 0, hashField .buckets, store b,
      load b, load 2, load n, [.i32 .remU, .arrayGet buckets], store e,
      forever (findStep l n b e next),
      [.refNull entry]] }

/-- Goes on to the next entry of the chain. -/
def seekStep (n b cur next : Nat) : Code :=
  seq [
    leaveIf (seq [load cur, entryField .next, keep next, const32 0, [.i32 .ltS]]),
    load b, load n, load next, entryAt, store cur]

/-- Stores an entry at an ordinal and appends it to its chain. -/
def hashLink : Body :=
  let (n, b, bi, cur, next) := (3, 4, 5, 6, 7)
  { locals := [.i32, bucketsRef, .i32, entryRef, .i32]
    code := seq [
      load 0, hashField .bucketCount, store n,
      load 0, hashField .buckets, store b,
      load b, load n, load 2, [.i32 .add], load 1, [.arraySet buckets],
      load 1, entryField .hash, load n, [.i32 .remU], store bi,
      load b, load bi, [.arrayGet buckets], keep cur, [.refIsNull],
        when (give (seq [load b, load bi, load 1, [.arraySet buckets]])),
      forever (seekStep n b cur next),
      load cur, load 2, setEntryField .next] }

/-- Links the entry at one ordinal anew. -/
def relinkStep (l : Links) (old n cnt i e : Nat) : Code :=
  seq [
    leaveIf (load i ++ load cnt ++ [.i32 .geS]),
    load old, load n, load i, entryAt, store e,
    load e, const32 (-1), setEntryField .next,
    load 0, load e, load i, l.call .hashLink,
    increment i]

/-- Doubles the number of buckets and links all entries anew, in insertion order. -/
def hashGrow (l : Links) : Body :=
  let (old, n, cnt, n2, i, e) := (1, 2, 3, 4, 5, 6)
  { locals := [bucketsRef, .i32, .i32, .i32, .i32, entryRef]
    code := seq [
      load 0, hashField .buckets, store old,
      load 0, hashField .bucketCount, store n,
      load 0, hashField .count, store cnt,
      load n, const32 1, [.i32 .shl], store n2,
      load 0, load n2, const32 1, [.i32 .shl, .arrayNewDefault buckets],
        setHashField .buckets,
      load 0, load n2, setHashField .bucketCount,
      forever (relinkStep l old n cnt i e)] }

/-- Stores a value under a key and keeps the next free integer key. -/
def hashInsert (l : Links) : Body :=
  let (hv, e, ord) := (3, 4, 5)
  { locals := [.i32, entryRef, .i32]
    code := seq [
      load 1, l.call .hashKey, store hv,
      load 0, load 1, load hv, l.call .hashFind, keep e, [.refIsNull, .i32Eqz],
        when (give (load e ++ load 2 ++ setEntryField .value)),
      load 0, hashField .count, load 0, hashField .bucketCount, [.i32 .geS],
        when (load 0 ++ l.call .hashGrow),
      load 0, hashField .count, store ord,
      load 1, load 2, load hv, const32 (-1), [.structNew entry], store e,
      load 0, load ord, const32 1, [.i32 .add], setHashField .count,
      load 0, load e, load ord, l.call .hashLink,
      tagIs 1 .int, when (seq [
        valueField 1 .int, load 0, hashField .nextKey, [.i64Rel .geS],
          when (seq [load 0, valueField 1 .int, const64 1, [.i64 .add], setHashField .nextKey])])] }

def hashLookup (l : Links) : Body :=
  let e := 2
  { locals := [entryRef]
    code := seq [
      load 0, load 1, load 1, l.call .hashKey, l.call .hashFind, keep e, [.refIsNull],
        when (give [.refNull value]),
      load e, entryField .value] }

/-! ## Arrays -/

def arrNew : Body where
  code :=
    newValue .array (const64 0) (constF 0) noBytes (const32 denseCapacity ++ [.arrayNewDefault dense])

def isHash : Body where
  code := valueField 0 .ref ++ [.refTest hash]

/-- Returns null if the value is not an array. -/
def nullUnlessArray (l : Links) : Code :=
  tagIs 0 .array ++ [.i32Eqz] ++ when (give (l.call .newNull))

/-- The length of an array, 0 for anything else. -/
def arrCount (l : Links) : Body where
  code := seq [
    tagIs 0 .array, [.i32Eqz], when (give (const64 0)),
    load 0, l.call .isHash,
      when (give (tableOf 0 ++ hashField .count ++ [.i64ExtendI32S])),
    valueField 0 .int]

/-- Stores one element of the dense array, if it is there. -/
def promoteStep (l : Links) (d tbl i e n : Nat) : Code :=
  seq [
    leaveIf (load i ++ load n ++ [.i64Rel .geS]),
    load d, load i, [.i32WrapI64, .arrayGet dense], keep e, [.refIsNull, .i32Eqz],
      when (seq [load tbl, load i, l.call .newInt, load e, l.call .hashInsert]),
    load i, const64 1, [.i64 .add], store i]

def arrPromote (l : Links) : Body :=
  let (d, tbl, i, e, n) := (1, 2, 3, 4, 5)
  { locals := [denseRef, hashRef, .i64, valueRef, .i64]
    code := seq [
      denseOf 0, store d,
      valueField 0 .int, store n,
      const32 hashBuckets, l.call .hashNew, store tbl,
      forever (promoteStep l d tbl i e n),
      newValue .array (const64 0) (constF 0) noBytes (load tbl)] }

/-- Returns null if the reference that was just stored in a local is null, else its contents. -/
def nullIfMissing (l : Links) : Code := [.refIsNull] ++ when (give (l.call .newNull))

/-- The element under a value as key, null if there is none. -/
def arrGet (l : Links) : Body :=
  let k := 2
  { locals := [valueRef]
    code := seq [
      nullUnlessArray l,
      load 1, l.call .normalizeKey, store k,
      load 0, l.call .isHash, when (seq [
        tableOf 0, load k, l.call .hashLookup, keep k, nullIfMissing l,
        give (load k)]),
      tagIs k .int, when (give (load 0 ++ valueField k .int ++ l.call .arrGetInt)),
      l.call .newNull] }

/-- The element under an integer, null if there is none. -/
def arrGetInt (l : Links) : Body :=
  let e := 2
  { locals := [valueRef]
    code := seq [
      nullUnlessArray l,
      load 0, l.call .isHash, when (seq [
        tableOf 0, load 1, l.call .newInt, l.call .hashLookup, keep e, nullIfMissing l,
        give (load e)]),
      load 1, const64 0, [.i64Rel .ltS], when (give (l.call .newNull)),
      load 1, valueField 0 .int, [.i64Rel .geS], when (give (l.call .newNull)),
      denseOf 0, load 1, [.i32WrapI64, .arrayGet dense], keep e, nullIfMissing l,
      load e] }

def arrSet (l : Links) : Body :=
  let (k, p) := (3, 4)
  { locals := [valueRef, valueRef]
    code := seq [
      load 1, l.call .normalizeKey, store k,
      load 0, l.call .isHash,
        when (give (seq [tableOf 0, load k, load 2, l.call .hashInsert, load 0])),
      tagIs k .int,
        when (give (seq [load 0, valueField k .int, load 2, l.call .arrSetInt])),
      load 0, l.call .arrPromote, store p,
      tableOf p, load k, load 2, l.call .hashInsert,
      load p] }

/-- Stores an element under an integer. A dense array grows to twice its size, or more if the
index asks for it. -/
def arrSetInt (l : Links) : Body :=
  let (p, d, phys, capacity, nd) := (3, 4, 5, 6, 7)
  { locals := [valueRef, denseRef, .i32, .i32, denseRef]
    code := seq [
      load 0, l.call .isHash,
        when (give (seq [tableOf 0, load 1, l.call .newInt, load 2, l.call .hashInsert, load 0])),
      load 1, const64 0, [.i64Rel .ltS], when (seq [
        load 0, l.call .arrPromote, store p,
        tableOf p, load 1, l.call .newInt, load 2, l.call .hashInsert,
        give (load p)]),
      load 1, const64 denseMaxIndex, [.i64Rel .gtS], when (l.call .illegalOffset),
      denseOf 0, store d,
      load d, [.arrayLen], store phys,
      load 1, load phys, [.i64ExtendI32U, .i64Rel .geS], when (seq [
        load phys, const32 1, [.i32 .shl], store capacity,
        load 1, [.i32WrapI64], const32 1, [.i32 .add], load capacity, [.i32 .gtS],
          when (seq [load 1, [.i32WrapI64], const32 1, [.i32 .add], store capacity]),
        load capacity, [.arrayNewDefault dense], store nd,
        load nd, const32 0, load d, const32 0, load phys, [.arrayCopy dense dense],
        load 0, load nd, setValueField .ref,
        load nd, store d]),
      load d, load 1, [.i32WrapI64], load 2, [.arraySet dense],
      load 1, valueField 0 .int, [.i64Rel .geS],
        when (seq [load 0, load 1, const64 1, [.i64 .add], setValueField .int]),
      load 0] }

def arrPush (l : Links) : Body :=
  let tbl := 2
  { locals := [hashRef]
    code := seq [
      load 0, l.call .isHash, when (seq [
        tableOf 0, keep tbl, load tbl, hashField .nextKey, l.call .newInt, load 1,
          l.call .hashInsert,
        give (load 0)]),
      load 0, valueField 0 .int, load 1, l.call .arrSetInt] }

/-- The array itself, or a new one for anything else. -/
def arrAutoviv (l : Links) : Body where
  code := seq [
    load 0, [.refIsNull], when (give (l.call .arrNew)),
    tagIs 0 .array, when (give (load 0)),
    l.call .arrNew]

/-! ## Iteration -/

/-- The number of positions to visit. -/
def arrIterLen (l : Links) : Body where
  code := seq [
    tagIs 0 .array, [.i32Eqz], when (give (const32 0)),
    load 0, l.call .isHash, when (give (tableOf 0 ++ hashField .count)),
    valueField 0 .int, [.i32WrapI64]]

def arrIterHas (l : Links) : Body where
  code := seq [
    load 0, l.call .isHash, when (give (const32 1)),
    denseOf 0, load 1, [.arrayGet dense, .refIsNull, .i32Eqz]]

def arrIterEntry : Body :=
  let tbl := 2
  { locals := [hashRef]
    code := seq [
      tableOf 0, keep tbl, hashField .buckets,
      load tbl, hashField .bucketCount, load 1, entryAt] }

def arrIterKey (l : Links) : Body where
  code := seq [
    load 0, l.call .isHash,
      when (give (seq [load 0, load 1, l.call .arrIterEntry, entryField .key])),
    load 1, [.i64ExtendI32U], l.call .newInt]

def arrIterValue (l : Links) : Body where
  code := seq [
    load 0, l.call .isHash,
      when (give (seq [load 0, load 1, l.call .arrIterEntry, entryField .value])),
    denseOf 0, load 1, [.arrayGet dense]]

/-! ## Objects -/

def objNew : Body where
  code :=
    newValue .object (const64 0) (constF 0) noBytes
      (load 0 ++ load 1 ++ [.arrayNewDefault dense, .structNew object])

/-- The class of an object, -1 for anything else. -/
def objClass : Body where
  code := seq [
    tagIs 0 .object, [.i32Eqz], when (give (const32 (-1))),
    valueField 0 .ref, [.refCast object], objectField .classId]

/-- The property in a slot, null if there is none. -/
def objGet (l : Links) : Body :=
  let e := 2
  { locals := [valueRef]
    code := seq [
      tagIs 0 .object, [.i32Eqz], when (give (l.call .newNull)),
      load 1, const32 0, [.i32 .ltS], when (give (l.call .newNull)),
      propsOf 0, load 1, [.arrayGet dense], keep e, nullIfMissing l,
      load e] }

def objSet (l : Links) : Body where
  code := seq [
    tagIs 0 .object, [.i32Eqz], when [.unreachable],
    load 1, const32 0, [.i32 .ltS], when (l.call .undefinedProperty),
    propsOf 0, load 1, load 2, [.arraySet dense]]

/-- Stops the program: the class of the object does not declare the property. -/
def undefinedProperty : Body where
  code := [.unreachable]

end HeapScript.Library
