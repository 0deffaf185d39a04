import HeapScript.Library.Routine

/-!
# Routines on values

Boxing, conversions, comparison and arithmetic, on boxed values and byte strings. Parameters are
the first locals.
-/

namespace HeapScript.Library

open Machine Code Shape

/-! ## Boxing -/

def newNull : Body where
  code := newValue .null (const64 0) (constF 0) noBytes noRef

/-- Makes a Bool; any number but zero is true. -/
def newBool : Body where
  code := newValue .bool (load 0 ++ const32 0 ++ [.i32 .ne, .i64ExtendI32U]) (constF 0) noBytes noRef

def newInt : Body where
  code := boxLocal .int 0 .i64

def newFloat : Body where
  code := boxLocal .float 0 .f64

def newString : Body where
  code := newValue .string (const64 0) (constF 0) (load 0) noRef

/-! ## Numbers in byte strings -/

/-- Reads one byte: counts a point or a digit, and gives up at anything else. -/
def scanStep (n i c digits dots : Nat) : Code :=
  seq [
    leaveIf (load i ++ load n ++ [.i32 .geS]),
    byteAt 0 i, store c,
    localIsChar c '.',
    ifElse (increment dots) (seq [
      load c, char '0', [.i32 .sub], const32 10, [.i32 .ltU],
      ifElse (increment digits) (give (const32 0))]),
    increment i]

/-- The tag that the numbers of digits and points speak for. -/
def scanVerdict (digits dots : Nat) : Code :=
  seq [
    load digits, [.i32Eqz], when (give (const32 0)),
    load dots, [.i32Eqz], when (give (const32 Tag.int.code.toInt)),
    localIs dots 1, when (give (const32 Tag.float.code.toInt)),
    const32 0]

/-- The tag of the number a byte string spells, or 0: an optional sign, then digits with at most
one point among them. -/
def strScan : Body :=
  let (n, i, c, digits, dots) := (1, 2, 3, 4, 5)
  { locals := [.i32, .i32, .i32, .i32, .i32]
    code := seq [
      load 0, [.arrayLen], store n,
      load n, [.i32Eqz], when (give (const32 0)),
      firstByte 0, store c,
      localIsChar c '+', localIsChar c '-', [.i32 .or], when (const32 1 ++ store i),
      forever (scanStep n i c digits dots),
      scanVerdict digits dots] }

/-- Loads the length of the byte string into `n` and skips a sign; a minus is noted in `neg`. -/
def skipSign (n i neg c : Nat) : Code :=
  seq [
    load 0, [.arrayLen], store n,
    load n, when (seq [
      firstByte 0, store c,
      localIsChar c '-',
      ifElse (const32 1 ++ store neg ++ const32 1 ++ store i)
        (localIsChar c '+' ++ when (const32 1 ++ store i))])]

def parseIntStep (n i acc : Nat) : Code :=
  seq [
    leaveIf (load i ++ load n ++ [.i32 .geS]),
    load acc, const64 10, [.i64 .mul],
    byteAt 0 i, char '0', [.i32 .sub, .i64ExtendI32U],
    [.i64 .add], store acc,
    increment i]

def strParseInt : Body :=
  let (n, i, neg, c, acc) := (1, 2, 3, 4, 5)
  { locals := [.i32, .i32, .i32, .i32, .i64]
    code := seq [
      skipSign n i neg c,
      forever (parseIntStep n i acc),
      load neg, choose .i64 (const64 0 ++ load acc ++ [.i64 .sub]) (load acc)] }

/-- Reads one digit or the point. -/
def parseFloatStep (n i c dot acc scale : Nat) : Code :=
  seq [
    leaveIf (load i ++ load n ++ [.i32 .geS]),
    byteAt 0 i, store c,
    localIsChar c '.',
    ifElse (const32 1 ++ store dot) (seq [
      load acc, constF 10, [.f64 .mul],
      load c, char '0', [.i32 .sub, .i64ExtendI32U, .f64ConvertI64S],
      [.f64 .add], store acc,
      load dot, when (seq [load scale, constF 10, [.f64 .mul], store scale])]),
    increment i]

/-- The float a byte string spells: the digits divided by the scale of those after the point. -/
def strParseFloat : Body :=
  let (n, i, neg, c, dot, acc, scale) := (1, 2, 3, 4, 5, 6, 7)
  { locals := [.i32, .i32, .i32, .i32, .i32, .f64, .f64]
    code := seq [
      constF 1, store scale,
      skipSign n i neg c,
      forever (parseFloatStep n i c dot acc scale),
      load acc, load scale, [.f64 .div], store acc,
      load neg, choose .f64 (load acc ++ [.f64Neg]) (load acc)] }

/-! ## Conversions -/

def toNumber (l : Links) : Body :=
  let k := 1
  { locals := [.i32]
    code := seq [
      tagIs 0 .int, tagIs 0 .float, [.i32 .or], when (give (load 0)),
      tagIs 0 .bool, when (give (valueField 0 .int ++ l.call .newInt)),
      tagIs 0 .string, when (seq [
        valueField 0 .str, l.call .strScan, store k,
        localIsTag k .int,
          when (give (valueField 0 .str ++ l.call .strParseInt ++ l.call .newInt)),
        localIsTag k .float,
          when (give (valueField 0 .str ++ l.call .strParseFloat ++ l.call .newFloat))]),
      const64 0, l.call .newInt] }

def toFloat (l : Links) : Body :=
  let k := 1
  { locals := [.i32]
    code := seq [
      tagIs 0 .float, when (give (valueField 0 .float)),
      tagIs 0 .int, tagIs 0 .bool, [.i32 .or],
        when (give (valueField 0 .int ++ [.f64ConvertI64S])),
      tagIs 0 .string, when (seq [
        valueField 0 .str, l.call .strScan, store k,
        localIsTag k .int,
          when (give (valueField 0 .str ++ l.call .strParseInt ++ [.f64ConvertI64S])),
        localIsTag k .float, when (give (valueField 0 .str ++ l.call .strParseFloat))]),
      constF 0] }

def toInt (l : Links) : Body :=
  let k := 1
  { locals := [.i32]
    code := seq [
      tagIs 0 .int, tagIs 0 .bool, [.i32 .or], when (give (valueField 0 .int)),
      tagIs 0 .float, when (give (valueField 0 .float ++ [.i64TruncSatF64S])),
      tagIs 0 .string, when (seq [
        valueField 0 .str, l.call .strScan, store k,
        localIsTag k .int, when (give (valueField 0 .str ++ l.call .strParseInt)),
        localIsTag k .float,
          when (give (valueField 0 .str ++ l.call .strParseFloat ++ [.i64TruncSatF64S]))]),
      const64 0] }

def toBool (l : Links) : Body where
  code := seq [
    tagIs 0 .bool, tagIs 0 .int, [.i32 .or],
      when (give (valueField 0 .int ++ const64 0 ++ [.i64Rel .ne])),
    tagIs 0 .float, when (give (valueField 0 .float ++ constF 0 ++ [.f64Rel .ne])),
    tagIs 0 .string, when (give (seq [valueField 0 .str, [.arrayLen], const32 0, [.i32 .ne]])),
    tagIs 0 .array, when (give (seq [load 0, l.call .arrCount, const64 0, [.i64Rel .ne]])),
    tagIs 0 .object, when (give (const32 1)),
    const32 0]

/-- Writes the lowest digit in front of those already written; leaves whether there are more. -/
def writeDigit (u buf pos : Nat) : Code :=
  seq [
    load pos, const32 1, [.i32 .sub], store pos,
    load buf, load pos,
    load u, const64 10, [.i64 .remU, .i32WrapI64], char '0', [.i32 .add],
    [.arraySet bytes],
    load u, const64 10, [.i64 .divU], keep u, const64 0, [.i64Rel .ne]]

/-- Writes a minus in front of what is already written. -/
def writeMinus (buf pos : Nat) : Code :=
  seq [
    load pos, const32 1, [.i32 .sub], store pos,
    load buf, load pos, char '-', [.arraySet bytes]]

/-- A copy of what is written in a buffer of 20 bytes. -/
def copyWritten (buf pos out : Nat) : Code :=
  seq [
    const32 20, load pos, [.i32 .sub], [.arrayNewDefault bytes], store out,
    load out, const32 0, load buf, load pos, const32 20, load pos, [.i32 .sub],
      [.arrayCopy bytes bytes],
    load out]

/-- The decimal digits of an integer. The magnitude is taken as an unsigned number, so that the
least integer needs no case of its own. -/
def intToString : Body :=
  let (u, neg, buf, pos, out) := (1, 2, 3, 4, 5)
  { locals := [.i64, .i32, bytesRef, .i32, bytesRef]
    code := seq [
      load 0, const64 0, [.i64Rel .ltS], store neg,
      load neg, choose .i64 (const64 0 ++ load 0 ++ [.i64 .sub]) (load 0), store u,
      const32 20, [.arrayNewDefault bytes], store buf,
      const32 20, store pos,
      doWhile (writeDigit u buf pos),
      load neg, when (writeMinus buf pos),
      copyWritten buf pos out] }

/-- The byte strings that the routines themselves need, in the order of their data segments. -/
def ownStrings : List String := ["", "1", "Array", "Object"]

/-- A byte string that the routines themselves need. -/
def ownString (segment : Nat) : Code :=
  bytesLiteral (textBytes (ownStrings.getD segment "")).length segment

def toBytes (l : Links) : Body where
  code := seq [
    tagIs 0 .string, when (give (valueField 0 .str)),
    tagIs 0 .int, when (give (valueField 0 .int ++ l.call .intToString)),
    tagIs 0 .float, when (give (valueField 0 .float ++ [.call l.floatToBytes])),
    tagIs 0 .bool,
      when (give (valueField 0 .int ++ [.i64Eqz] ++ choose bytesRef (ownString 0) (ownString 1))),
    tagIs 0 .array, when (give (ownString 2)),
    tagIs 0 .object, when (give (ownString 3)),
    ownString 0]

/-! ## Comparison -/

def bytesEqStep (n i : Nat) : Code :=
  seq [
    leaveIf (load i ++ load n ++ [.i32 .geS]),
    byteAt 0 i, byteAt 1 i, [.i32 .ne], when (give (const32 0)),
    increment i]

def bytesEq : Body :=
  let (n, i) := (2, 3)
  { locals := [.i32, .i32]
    code := seq [
      load 0, load 1, [.refEq], when (give (const32 1)),
      load 0, [.arrayLen], keep n, load 1, [.arrayLen, .i32 .ne], when (give (const32 0)),
      forever (bytesEqStep n i),
      const32 1] }

def concat (l : Links) : Body :=
  let (a, b, la, lb, out) := (2, 3, 4, 5, 6)
  { locals := [bytesRef, bytesRef, .i32, .i32, bytesRef]
    code := seq [
      load 0, l.call .toBytes, keep a, [.arrayLen], store la,
      load 1, l.call .toBytes, keep b, [.arrayLen], store lb,
      load la, load lb, [.i32 .add], [.arrayNewDefault bytes], store out,
      load out, const32 0, load a, const32 0, load la, [.arrayCopy bytes bytes],
      load out, load la, load b, const32 0, load lb, [.arrayCopy bytes bytes],
      load out, l.call .newString] }

/-- Whether a value is a number or a string that spells one. -/
def isNumeric (l : Links) : Body where
  code := seq [
    tagIs 0 .int, tagIs 0 .float, [.i32 .or], when (give (const32 1)),
    tagIs 0 .string,
      when (give (seq [valueField 0 .str, l.call .strScan, const32 0, [.i32 .ne]])),
    const32 0]

/-- Whether two values are equal after conversion. -/
def looseEq (l : Links) : Body :=
  let (ta, tb) := (2, 3)
  let bothNumeric := seq [load 0, l.call .isNumeric, load 1, l.call .isNumeric, [.i32 .and]]
  let asFloats := seq [load 0, l.call .toFloat, load 1, l.call .toFloat, [.f64Rel .eq]]
  { locals := [.i32, .i32]
    code := seq [
      valueField 0 .tag, store ta,
      valueField 1 .tag, store tb,
      load ta, load tb, [.i32 .eq], when (seq [
        localIsTag ta .null, when (give (const32 1)),
        localIsTag ta .bool, localIsTag ta .int, [.i32 .or],
          when (give (valueField 0 .int ++ valueField 1 .int ++ [.i64Rel .eq])),
        localIsTag ta .float,
          when (give (valueField 0 .float ++ valueField 1 .float ++ [.f64Rel .eq])),
        localIsTag ta .string, when (
          bothNumeric ++ when (give asFloats) ++
          give (valueField 0 .str ++ valueField 1 .str ++ l.call .bytesEq)),
        give (valueField 0 .ref ++ valueField 1 .ref ++ [.refEq])]),
      localIsTag ta .bool, localIsTag tb .bool, [.i32 .or],
      localIsTag ta .null, [.i32 .or],
      localIsTag tb .null, [.i32 .or],
        when (give (seq [load 0, l.call .toBool, load 1, l.call .toBool, [.i32 .eq]])),
      bothNumeric, choose .i32 asFloats (const32 0)] }

def strictEq (l : Links) : Body :=
  let t := 2
  { locals := [.i32]
    code := seq [
      valueField 0 .tag, keep t, valueField 1 .tag, [.i32 .ne], when (give (const32 0)),
      localIsTag t .null, when (give (const32 1)),
      localIsTag t .bool, localIsTag t .int, [.i32 .or],
        when (give (valueField 0 .int ++ valueField 1 .int ++ [.i64Rel .eq])),
      localIsTag t .float,
        when (give (valueField 0 .float ++ valueField 1 .float ++ [.f64Rel .eq])),
      localIsTag t .string,
        when (give (valueField 0 .str ++ valueField 1 .str ++ l.call .bytesEq)),
      valueField 0 .ref, valueField 1 .ref, [.refEq]] }

/-- The float comparison of an order operator. -/
def orderInstr : OrderOp → F64Rel
  | .lt => .lt
  | .le => .le
  | .gt => .gt
  | .ge => .ge

def orderBody (l : Links) (op : OrderOp) : Body where
  code := seq [load 0, l.call .toFloat, load 1, l.call .toFloat, [.f64Rel (orderInstr op)]]

/-! ## Arithmetic -/

/-- Combines two values as integers if both are, else as floats. -/
def numericBody (l : Links) (int : I64Op) (float : F64Op) : Body :=
  let (x, y) := (2, 3)
  { locals := [valueRef, valueRef]
    code := seq [
      load 0, l.call .toNumber, store x,
      load 1, l.call .toNumber, store y,
      tagIs x .int, tagIs y .int, [.i32 .and],
        when (give (seq [valueField x .int, valueField y .int, [.i64 int], l.call .newInt])),
      load x, l.call .toFloat, load y, l.call .toFloat, [.f64 float], l.call .newFloat] }

/-- The quotient of two values as floats; a zero divisor stops the program. -/
def divBody (l : Links) : Body :=
  let y := 2
  { locals := [.f64]
    code := seq [
      load 1, l.call .toFloat, keep y, constF 0, [.f64Rel .eq], when [.unreachable],
      load 0, l.call .toFloat, load y, [.f64 .div], l.call .newFloat] }

/-- The remainder of two values as integers; a zero divisor stops the program. -/
def modBody (l : Links) : Body :=
  let y := 2
  { locals := [.i64]
    code := seq [
      load 1, l.call .toInt, keep y, [.i64Eqz], when [.unreachable],
      load 0, l.call .toInt, load y, [.i64 .remS], l.call .newInt] }

def arithBody (l : Links) : ArithOp → Body
  | .add => numericBody l .add .add
  | .sub => numericBody l .sub .sub
  | .mul => numericBody l .mul .mul
  | .div => divBody l
  | .mod => modBody l

def negate (l : Links) : Body :=
  let x := 1
  { locals := [valueRef]
    code := seq [
      load 0, l.call .toNumber, store x,
      tagIs x .float, when (give (valueField x .float ++ [.f64Neg] ++ l.call .newFloat)),
      const64 0, valueField x .int, [.i64 .sub], l.call .newInt] }

end HeapScript.Library
