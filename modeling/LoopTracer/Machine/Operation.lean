import LoopTracer.Text.Basic

/-! What machine instructions compute: operations, conditions and the classes of call values.

Instruction words store these as numbers. A number past the last one of its kind is kept as
`other`, so that any word can be read and shown. -/
namespace LoopTracer.Machine

/-- The item of a numbered kind, where `all` lists the known ones in order. -/
def numbered {α : Type} (all : Array α) (other : UInt8 → α) (n : UInt8) : α :=
  all[n.toNat]?.getD (other n)

/-- The name of the item with a number, where `all` lists the items in order. -/
def nameOfNumber {α : Type} (all : Array α) (name : α → Text) (other : Text) (n : UInt8) : Text :=
  all[n.toNat]?.elim other name

/-- The text of a number that its kind does not know. -/
def unknown (kind : String) (n : UInt8) : Text := kind ++ "(" ++ .ofNat n.toNat ++ ")"

/-- Arithmetic operations. -/
inductive Op where
  /-- On integers of 64 bits. -/
  | add | sub | mul | and | or | xor
  /-- Shifts of 32 bits, sign-extended. -/
  | shl32 | sar32
  /-- On 32 bits, sign-extended, telling whether the result fits. -/
  | addOv | subOv | mulOv
  /-- On floats. -/
  | fadd | fsub | fmul | fdiv
  /-- Of one operand. -/
  | neg | not | negOv | fneg | i2f
  | other (n : UInt8)
deriving DecidableEq, Inhabited

namespace Op

def all : Array Op := #[.add, .sub, .mul, .and, .or, .xor, .shl32, .sar32, .addOv, .subOv, .mulOv,
  .fadd, .fsub, .fmul, .fdiv, .neg, .not, .negOv, .fneg, .i2f]

def ofByte (n : UInt8) : Op := numbered all .other n

def toByte : Op → UInt8
  | other n => n
  | op => op.ctorIdx.toUInt8

def name : Op → Text
  | add => "add"
  | sub => "sub"
  | mul => "mul"
  | and => "and"
  | or => "or"
  | xor => "xor"
  | shl32 => "shl32"
  | sar32 => "sar32"
  | addOv => "addov"
  | subOv => "subov"
  | mulOv => "mulov"
  | fadd => "fadd"
  | fsub => "fsub"
  | fmul => "fmul"
  | fdiv => "fdiv"
  | neg => "neg"
  | not => "not"
  | negOv => "negov"
  | fneg => "fneg"
  | i2f => "i2f"
  | other n => unknown "op" n

/-- Whether the operation tells if its result fits in 32 bits. -/
def setsOverflow : Op → Bool
  | addOv | subOv | mulOv | negOv => true
  | _ => false

/-- Whether the operands may change places. -/
def commutative : Op → Bool
  | add | mul | and | or | xor | addOv | mulOv | fadd | fmul => true
  | _ => false

end Op

/-- Conditions of comparisons. -/
inductive Cond where
  | eq | ne | lt | le | gt | ge
  | other (n : UInt8)
deriving DecidableEq, Inhabited

namespace Cond

def all : Array Cond := #[.eq, .ne, .lt, .le, .gt, .ge]

def ofByte (n : UInt8) : Cond := numbered all .other n

def toByte : Cond → UInt8
  | other n => n
  | c => c.ctorIdx.toUInt8

def name : Cond → Text
  | eq => "eq"
  | ne => "ne"
  | lt => "lt"
  | le => "le"
  | gt => "gt"
  | ge => "ge"
  | other n => unknown "cond" n

end Cond

/-- When a guard leaves the trace. -/
inductive GuardCond where
  /-- The register is zero. -/
  | zero
  | nonZero
  /-- The last operation that tells did not fit. -/
  | overflow
  | other (n : UInt8)
deriving DecidableEq, Inhabited

namespace GuardCond

def all : Array GuardCond := #[.zero, .nonZero, .overflow]

def ofByte (n : UInt8) : GuardCond := numbered all .other n

def toByte : GuardCond → UInt8
  | other n => n
  | c => c.ctorIdx.toUInt8

def name : GuardCond → Text
  | zero => "jz"
  | nonZero => "jnz"
  | overflow => "jo"
  | other n => unknown "guard" n

end GuardCond

/-- How a value is passed to or from a helper. -/
inductive SizeClass where
  /-- An integer of 32 bits, sign-extended. -/
  | int
  | ptr
  | float
  | other (n : UInt8)
deriving DecidableEq, Inhabited

namespace SizeClass

def all : Array SizeClass := #[.int, .ptr, .float]

def ofByte (n : UInt8) : SizeClass := numbered all .other n

def toByte : SizeClass → UInt8
  | other n => n
  | c => c.ctorIdx.toUInt8

def name : SizeClass → Text
  | int => "int"
  | ptr => "ptr"
  | float => "float"
  | other n => unknown "size" n

end SizeClass

/-- A place in the code region. -/
abbrev CodeAddr := UInt32

/-- A code address as listings show it. -/
def CodeAddr.render (a : CodeAddr) : Text := "0x" ++ Text.hex a.toNat 6

/-- What the encoding of a helper call needs to know. -/
structure CallSpec where
  /-- The helper's number. -/
  index : Int32
  address : UInt64
  args : List SizeClass
  ret : SizeClass
deriving Inhabited

end LoopTracer.Machine
