import LoopTracer.Trace.SlotMap
import LoopTracer.Trace.Type

/-! Primitives: what the interpreter tells the recorder.

While a trace is recorded, the interpreter reports every instruction it executes as one
primitive: which slots it read, which one it wrote, and what type the result had this time. -/
namespace LoopTracer.Trace

open Machine (numbered unknown)

/-- Operations on two values. -/
inductive BinOp where
  | add | sub | mul | div | mod
  | bitAnd | bitOr | bitXor | shl | shr
  | eq | ne | lt | le | gt | ge
  | other (n : UInt8)
deriving DecidableEq, Inhabited

namespace BinOp

def all : Array BinOp := #[.add, .sub, .mul, .div, .mod, .bitAnd, .bitOr, .bitXor, .shl, .shr,
  .eq, .ne, .lt, .le, .gt, .ge]

def ofByte (n : UInt8) : BinOp := numbered all .other n

def toByte : BinOp → UInt8
  | other n => n
  | op => op.ctorIdx.toUInt8

def name : BinOp → Text
  | add => "add"
  | sub => "sub"
  | mul => "mul"
  | div => "div"
  | mod => "mod"
  | bitAnd => "band"
  | bitOr => "bor"
  | bitXor => "bxor"
  | shl => "shl"
  | shr => "shr"
  | eq => "eq"
  | ne => "ne"
  | lt => "lt"
  | le => "le"
  | gt => "gt"
  | ge => "ge"
  | other n => unknown "binop" n

/-- Whether the operation compares: `eq` and everything numbered after it. -/
def isCompare (op : BinOp) : Bool := eq.toByte ≤ op.toByte

end BinOp

/-- Operations on one value. -/
inductive UnOp where
  | neg
  | bitNot
  | not
  | other (n : UInt8)
deriving DecidableEq, Inhabited

namespace UnOp

def all : Array UnOp := #[.neg, .bitNot, .not]

def ofByte (n : UInt8) : UnOp := numbered all .other n

def name : UnOp → Text
  | neg => "neg"
  | bitNot => "bnot"
  | not => "not"
  | other n => unknown "unop" n

end UnOp

/-- The kinds of primitives. -/
inductive PrimKind where
  | const
  | copy
  | binary
  | unary
  | branch
  | call
  | loopEdge
  | unrecordable
  | other (n : UInt8)
deriving DecidableEq, Inhabited

namespace PrimKind

def all : Array PrimKind :=
  #[.const, .copy, .binary, .unary, .branch, .call, .loopEdge, .unrecordable]

def ofByte (n : UInt8) : PrimKind := numbered all .other n

def name : PrimKind → Text
  | const => "const"
  | copy => "copy"
  | binary => "binary"
  | unary => "unary"
  | branch => "branch"
  | call => "call"
  | loopEdge => "loop-edge"
  | unrecordable => "unrecordable"
  | other n => unknown "prim" n

end PrimKind

/-- The slot that a primitive wrote and the type of what it wrote. -/
structure Written where
  slot : SlotAddr
  type : Ty
deriving Inhabited

/-- What was done. -/
inductive Action where
  | const (value : Immediate) (dest : Written)
  | copy (source : SlotAddr) (dest : Written)
  | binary (op : BinOp) (a b : SlotAddr) (dest : Written)
  | unary (op : UnOp) (a : SlotAddr) (dest : Written)
  /-- A conditional branch; `taken` tells whether the condition was true. -/
  | branch (condition : SlotAddr) (taken : Bool)
  | call (helper : UInt8) (args : List SlotAddr) (dest : Written)
  /-- The back edge of another loop. -/
  | loopEdge (target : Int)
  /-- Calls, returns, output and the like. -/
  | unrecordable
  /-- An action that names fewer slots than its kind reads. -/
  | incomplete (kind : PrimKind)
  | other (n : UInt8)
deriving Inhabited

/-- The action of a kind with two operations at hand that reads the given slots and writes
`dest`; what the kind has no use for is left aside. -/
def Action.reading (kind : PrimKind) (bin : BinOp) (un : UnOp) (slots : List SlotAddr)
    (dest : Written) : Action :=
  match kind, slots with
  | .copy, a :: _ => .copy a dest
  | .binary, a :: b :: _ => .binary bin a b dest
  | .unary, a :: _ => .unary un a dest
  | _, _ => .incomplete kind

def Action.kind : Action → PrimKind
  | const .. => .const
  | copy .. => .copy
  | binary .. => .binary
  | unary .. => .unary
  | branch .. => .branch
  | call .. => .call
  | loopEdge _ => .loopEdge
  | unrecordable => .unrecordable
  | incomplete kind => kind
  | other n => .other n

/-- One executed instruction as the recorder sees it. -/
structure Primitive where
  /-- The offset of the instruction. -/
  pc : Int
  /-- The depth of the operand stack before it. -/
  depth : Int
  action : Action
deriving Inhabited

end LoopTracer.Trace
