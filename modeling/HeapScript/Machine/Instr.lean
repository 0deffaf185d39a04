import HeapScript.Machine.Type
import HeapScript.Number.FloatText

/-!
# Instructions

The instruction set of the machine: structured control flow, locals, integer and float
arithmetic, references, records and arrays. Immediates that index something are integers, since
nothing stops a module from naming an index that does not exist.
-/

namespace HeapScript.Machine

inductive I32Op where
  | eq | ne | ltS | gtS | leS | geS | ltU | geU
  | add | sub | mul | and | or | xor | shl | shrU | remU
  deriving DecidableEq, Repr

inductive I64Rel where
  | eq | ne | ltS | gtS | leS | geS
  deriving DecidableEq, Repr

inductive I64Op where
  | add | sub | mul | divS | remS | divU | remU | and | or | xor | shl | shrS | shrU
  deriving DecidableEq, Repr

inductive F64Rel where
  | eq | ne | lt | gt | le | ge
  deriving DecidableEq, Repr

inductive F64Op where
  | add | sub | mul | div
  deriving DecidableEq, Repr

inductive Instr where
  | unreachable
  | nop
  | block (result : ValType)
  | loop
  | branchIf (result : ValType)
  | otherwise
  | close
  | br (depth : Int)
  | brIf (depth : Int)
  | ret
  | call (func : Int)
  | drop
  | localGet (index : Int)
  | localSet (index : Int)
  | localTee (index : Int)
  | i32Const (value : Int)
  | i64Const (value : Int64)
  | f64Const (value : Float)
  | i32Eqz
  | i32 (op : I32Op)
  | i64Eqz
  | i64Rel (op : I64Rel)
  | i64 (op : I64Op)
  | f64Rel (op : F64Rel)
  | f64 (op : F64Op)
  | f64Neg
  | i32WrapI64
  | i64ExtendI32S
  | i64ExtendI32U
  | f64ConvertI64S
  | i64TruncSatF64S
  | refNull (heap : Int)
  | refIsNull
  | refEq
  | refTest (heap : Int)
  | refCast (heap : Int)
  | structNew (type : Int)
  | structGet (type field : Int)
  | structSet (type field : Int)
  | arrayNewDefault (type : Int)
  | arrayNewData (type segment : Int)
  | arrayGet (type : Int)
  | arrayGetU (type : Int)
  | arraySet (type : Int)
  | arrayLen
  | arrayCopy (target source : Int)
  | unknown (code : UInt16)
  deriving Inhabited

namespace I32Op

def name : I32Op → String
  | eq => "i32.eq"
  | ne => "i32.ne"
  | ltS => "i32.lt_s"
  | gtS => "i32.gt_s"
  | leS => "i32.le_s"
  | geS => "i32.ge_s"
  | ltU => "i32.lt_u"
  | geU => "i32.ge_u"
  | add => "i32.add"
  | sub => "i32.sub"
  | mul => "i32.mul"
  | and => "i32.and"
  | or => "i32.or"
  | xor => "i32.xor"
  | shl => "i32.shl"
  | shrU => "i32.shr_u"
  | remU => "i32.rem_u"

end I32Op

namespace I64Rel

def name : I64Rel → String
  | eq => "i64.eq"
  | ne => "i64.ne"
  | ltS => "i64.lt_s"
  | gtS => "i64.gt_s"
  | leS => "i64.le_s"
  | geS => "i64.ge_s"

end I64Rel

namespace I64Op

def name : I64Op → String
  | add => "i64.add"
  | sub => "i64.sub"
  | mul => "i64.mul"
  | divS => "i64.div_s"
  | remS => "i64.rem_s"
  | divU => "i64.div_u"
  | remU => "i64.rem_u"
  | and => "i64.and"
  | or => "i64.or"
  | xor => "i64.xor"
  | shl => "i64.shl"
  | shrS => "i64.shr_s"
  | shrU => "i64.shr_u"

end I64Op

namespace F64Rel

def name : F64Rel → String
  | eq => "f64.eq"
  | ne => "f64.ne"
  | lt => "f64.lt"
  | gt => "f64.gt"
  | le => "f64.le"
  | ge => "f64.ge"

end F64Rel

namespace F64Op

def name : F64Op → String
  | add => "f64.add"
  | sub => "f64.sub"
  | mul => "f64.mul"
  | div => "f64.div"

end F64Op

namespace Instr

/-- Every instruction without immediates, in the order of the opcodes. -/
def table : Array Instr :=
  #[.unreachable, .nop, .block .void, .loop, .branchIf .void, .otherwise, .close,
    .br 0, .brIf 0, .ret, .call 0, .drop,
    .localGet 0, .localSet 0, .localTee 0,
    .i32Const 0, .i64Const 0, .f64Const 0,
    .i32Eqz, .i32 .eq, .i32 .ne, .i32 .ltS, .i32 .gtS, .i32 .leS, .i32 .geS, .i32 .ltU, .i32 .geU,
    .i32 .add, .i32 .sub, .i32 .mul, .i32 .and, .i32 .or, .i32 .xor, .i32 .shl, .i32 .shrU,
    .i32 .remU,
    .i64Eqz, .i64Rel .eq, .i64Rel .ne, .i64Rel .ltS, .i64Rel .gtS, .i64Rel .leS, .i64Rel .geS,
    .i64 .add, .i64 .sub, .i64 .mul, .i64 .divS, .i64 .remS, .i64 .divU, .i64 .remU,
    .i64 .and, .i64 .or, .i64 .xor, .i64 .shl, .i64 .shrS, .i64 .shrU,
    .f64Rel .eq, .f64Rel .ne, .f64Rel .lt, .f64Rel .gt, .f64Rel .le, .f64Rel .ge,
    .f64 .add, .f64 .sub, .f64 .mul, .f64 .div, .f64Neg,
    .i32WrapI64, .i64ExtendI32S, .i64ExtendI32U, .f64ConvertI64S, .i64TruncSatF64S,
    .refNull 0, .refIsNull, .refEq, .refTest 0, .refCast 0,
    .structNew 0, .structGet 0 0, .structSet 0 0,
    .arrayNewDefault 0, .arrayNewData 0 0, .arrayGet 0, .arrayGetU 0, .arraySet 0, .arrayLen,
    .arrayCopy 0 0]

def ofCode (n : UInt16) : Instr := table[n.toNat]?.getD (.unknown n)

def name : Instr → String
  | unreachable => "unreachable"
  | nop => "nop"
  | block _ => "block"
  | loop => "loop"
  | branchIf _ => "if"
  | otherwise => "else"
  | close => "end"
  | br _ => "br"
  | brIf _ => "br_if"
  | ret => "return"
  | call _ => "call"
  | drop => "drop"
  | localGet _ => "local.get"
  | localSet _ => "local.set"
  | localTee _ => "local.tee"
  | i32Const _ => "i32.const"
  | i64Const _ => "i64.const"
  | f64Const _ => "f64.const"
  | i32Eqz => "i32.eqz"
  | i32 op => op.name
  | i64Eqz => "i64.eqz"
  | i64Rel op => op.name
  | i64 op => op.name
  | f64Rel op => op.name
  | f64 op => op.name
  | f64Neg => "f64.neg"
  | i32WrapI64 => "i32.wrap_i64"
  | i64ExtendI32S => "i64.extend_i32_s"
  | i64ExtendI32U => "i64.extend_i32_u"
  | f64ConvertI64S => "f64.convert_i64_s"
  | i64TruncSatF64S => "i64.trunc_sat_f64_s"
  | refNull _ => "ref.null"
  | refIsNull => "ref.is_null"
  | refEq => "ref.eq"
  | refTest _ => "ref.test"
  | refCast _ => "ref.cast"
  | structNew _ => "struct.new"
  | structGet .. => "struct.get"
  | structSet .. => "struct.set"
  | arrayNewDefault _ => "array.new_default"
  | arrayNewData .. => "array.new_data"
  | arrayGet _ => "array.get"
  | arrayGetU _ => "array.get_u"
  | arraySet _ => "array.set"
  | arrayLen => "array.len"
  | arrayCopy .. => "array.copy"
  | unknown code => "op(" ++ toString code.toNat ++ ")"

def resultText : ValType → String
  | .void => ""
  | t => " (result " ++ t.text ++ ")"

def immediates : Instr → String
  | br n | brIf n | call n | localGet n | localSet n | localTee n | i32Const n
  | refTest n | refCast n | structNew n | arrayNewDefault n | arrayGet n | arrayGetU n
  | arraySet n => " " ++ toString n
  | i64Const n => " " ++ toString n.toInt
  | f64Const x => " " ++ listingFloat x
  | structGet a b | structSet a b | arrayNewData a b | arrayCopy a b =>
    " " ++ toString a ++ " " ++ toString b
  | block t | branchIf t => resultText t
  | refNull heap => if heap = anyHeap then " any" else " " ++ toString heap
  | _ => ""

def text (i : Instr) : String := i.name ++ i.immediates

/-- Whether an instruction opens a construct that `close` ends. -/
def opens : Instr → Bool
  | block _ | loop | branchIf _ => true
  | _ => false

end Instr

end HeapScript.Machine
