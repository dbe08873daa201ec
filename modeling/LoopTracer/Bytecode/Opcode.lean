import LoopTracer.Text.Basic

/-! The instruction set of the stack machine.

An instruction is one opcode byte and up to two operand bytes, most significant first. What
the operand means depends on the opcode alone (`Opcode.operand`), and so does the length of
the instruction (`Opcode.size`). -/
namespace LoopTracer.Bytecode

/-- The operations, in the order of their bytes. -/
inductive Opcode where
  | const | null | true | false | pop | dup
  | load | store
  | add | sub | mul | div | mod | neg
  | bitAnd | bitOr | bitXor | bitNot | shl | shr
  | eq | ne | lt | le | gt | ge
  | not
  | jump | jumpIfFalse | jumpIfTrue | loop
  | builtin | call | ret
  | print | halt
deriving DecidableEq, Inhabited

/-- What follows an opcode byte. -/
inductive Operand where
  | none
  /-- Two bytes, an index of the constant pool. -/
  | const
  /-- Two bytes, a local variable. -/
  | slot
  /-- Two bytes, a signed distance from the next instruction. -/
  | jump
  /-- Two bytes, a distance back from the next instruction. -/
  | loop
  /-- One byte. -/
  | byte
deriving DecidableEq

namespace Operand

/-- The number of a kind of operand. -/
def toNat : Operand → Nat
  | none => 0
  | const => 1
  | slot => 2
  | jump => 3
  | loop => 4
  | byte => 5

end Operand

namespace Opcode

/-- All operations; the position is the byte. -/
def all : Array Opcode := #[
  .const, .null, .true, .false, .pop, .dup,
  .load, .store,
  .add, .sub, .mul, .div, .mod, .neg,
  .bitAnd, .bitOr, .bitXor, .bitNot, .shl, .shr,
  .eq, .ne, .lt, .le, .gt, .ge,
  .not,
  .jump, .jumpIfFalse, .jumpIfTrue, .loop,
  .builtin, .call, .ret,
  .print, .halt]

def ofByte? (b : UInt8) : Option Opcode := all[b.toNat]?

def toByte (op : Opcode) : UInt8 := op.ctorIdx.toUInt8

theorem ofByte?_toByte (op : Opcode) : ofByte? op.toByte = some op := by
  cases op <;> rfl

/-- The word that source text uses. -/
def mnemonic : Opcode → String
  | const => "const"
  | null => "null"
  | true => "true"
  | false => "false"
  | pop => "pop"
  | dup => "dup"
  | load => "load"
  | store => "store"
  | add => "add"
  | sub => "sub"
  | mul => "mul"
  | div => "div"
  | mod => "mod"
  | neg => "neg"
  | bitAnd => "band"
  | bitOr => "bor"
  | bitXor => "bxor"
  | bitNot => "bnot"
  | shl => "shl"
  | shr => "shr"
  | eq => "eq"
  | ne => "ne"
  | lt => "lt"
  | le => "le"
  | gt => "gt"
  | ge => "ge"
  | not => "not"
  | jump => "jump"
  | jumpIfFalse => "jumpf"
  | jumpIfTrue => "jumpt"
  | loop => "loop"
  | builtin => "builtin"
  | call => "call"
  | ret => "ret"
  | print => "print"
  | halt => "halt"

def ofMnemonic? (name : Text) : Option Opcode :=
  all.find? fun op => Text.ofString op.mnemonic == name

def operand : Opcode → Operand
  | const => .const
  | load | store => .slot
  | jump | jumpIfFalse | jumpIfTrue => .jump
  | loop => .loop
  | builtin | call => .byte
  | _ => .none

/-- The length of an instruction in bytes. -/
def size (op : Opcode) : Nat :=
  match op.operand with
  | .none => 1
  | .byte => 2
  | _ => 3

theorem size_pos (op : Opcode) : 0 < op.size := by
  unfold size
  split <;> omega

end Opcode

/-- The name of an opcode byte, known or not. -/
def byteName (b : UInt8) : Text :=
  match Opcode.ofByte? b with
  | some op => op.mnemonic
  | none => "UNKNOWN(" ++ .ofNat b.toNat ++ ")"

/-- The kind of operand after an opcode byte; an unknown byte has none. -/
def byteOperand (b : UInt8) : Operand :=
  (Opcode.ofByte? b).elim .none Opcode.operand

/-- The length of the instruction that starts with a byte. -/
def byteSize (b : UInt8) : Nat := (Opcode.ofByte? b).elim 1 Opcode.size

/-- The functions that a program calls by number. -/
inductive Builtin where
  | sqrt | floor | abs | fmod | len | number
deriving DecidableEq

namespace Builtin

def all : Array Builtin := #[.sqrt, .floor, .abs, .fmod, .len, .number]

def ofByte? (b : UInt8) : Option Builtin := all[b.toNat]?

def toByte (b : Builtin) : UInt8 := b.ctorIdx.toUInt8

def name : Builtin → String
  | sqrt => "sqrt"
  | floor => "floor"
  | abs => "abs"
  | fmod => "fmod"
  | len => "len"
  | number => "number"

def ofName? (t : Text) : Option Builtin := all.find? fun b => Text.ofString b.name == t

/-- How many values a builtin takes. -/
def arity : Builtin → Nat
  | fmod => 2
  | _ => 1

end Builtin

/-- The version of the instruction set and of the compiled form, major and minor. -/
def version : UInt8 × UInt8 := (1, 0)

end LoopTracer.Bytecode
