import LoopTracer.Trace.Helper
import LoopTracer.Trace.SideExit

/-! Instructions of a recorded trace.

A trace is a straight line of instructions, each naming the values it uses by the numbers of
the instructions that made them. Guards stand where the recorded path could be left. -/
namespace LoopTracer.Trace

open Machine (Op Cond numbered unknown)

inductive TraceOp where
  /-- The word of a slot when the trace is entered. -/
  | param
  | imm
  /-- On ints held in 64 bits. -/
  | add | sub | mul | and | or | xor | shl | sar
  /-- On ints, setting the overflow flag. -/
  | addOv | subOv | mulOv
  | fadd | fsub | fmul | fdiv
  | neg | not | negOv | fneg | i2f
  | eq | ne | lt | le | gt | ge
  | feq | fne | flt | fle | fgt | fge
  /-- Writes a slot. -/
  | store
  /-- Calls a helper. -/
  | call
  /-- Leaves the trace unless the condition holds. -/
  | exitUnless
  /-- Leaves the trace if the condition holds. -/
  | exitIf
  /-- Leaves the trace if the operation before did not fit. -/
  | exitOv
  /-- Goes back to the top of this trace. -/
  | loop
  /-- Goes to the top of the tree that this trace belongs to. -/
  | jumpTree
  | other (n : UInt8)
deriving DecidableEq, Inhabited

namespace TraceOp

def all : Array TraceOp := #[.param, .imm, .add, .sub, .mul, .and, .or, .xor, .shl, .sar, .addOv,
  .subOv, .mulOv, .fadd, .fsub, .fmul, .fdiv, .neg, .not, .negOv, .fneg, .i2f, .eq, .ne, .lt, .le,
  .gt, .ge, .feq, .fne, .flt, .fle, .fgt, .fge, .store, .call, .exitUnless, .exitIf, .exitOv, .loop,
  .jumpTree]

def ofByte (n : UInt8) : TraceOp := numbered all .other n

def toByte : TraceOp → UInt8
  | other n => n
  | op => op.ctorIdx.toUInt8

def name : TraceOp → Text
  | param => "param"
  | imm => "imm"
  | add => "add"
  | sub => "sub"
  | mul => "mul"
  | and => "and"
  | or => "or"
  | xor => "xor"
  | shl => "shl"
  | sar => "sar"
  | addOv => "addov"
  | subOv => "subov"
  | mulOv => "mulov"
  | fadd => "fadd"
  | fsub => "fsub"
  | fmul => "fmul"
  | fdiv => "fdiv"
  | neg => "neg"
  | not => "not"
  | negOv => "negov"
  | fneg => "fneg"
  | i2f => "i2f"
  | eq => "eq"
  | ne => "ne"
  | lt => "lt"
  | le => "le"
  | gt => "gt"
  | ge => "ge"
  | feq => "feq"
  | fne => "fne"
  | flt => "flt"
  | fle => "fle"
  | fgt => "fgt"
  | fge => "fge"
  | store => "store"
  | call => "call"
  | exitUnless => "xt"
  | exitIf => "xf"
  | exitOv => "xov"
  | loop => "loop"
  | jumpTree => "jtree"
  | other n => unknown "UNKNOWN" n

/-- The machine operation of an instruction with two operands. -/
def binary? : TraceOp → Option Op
  | add => some .add
  | sub => some .sub
  | mul => some .mul
  | and => some .and
  | or => some .or
  | xor => some .xor
  | shl => some .shl32
  | sar => some .sar32
  | addOv => some .addOv
  | subOv => some .subOv
  | mulOv => some .mulOv
  | fadd => some .fadd
  | fsub => some .fsub
  | fmul => some .fmul
  | fdiv => some .fdiv
  | _ => none

/-- The machine operation of an instruction with one operand. -/
def unary? : TraceOp → Option Op
  | neg => some .neg
  | not => some .not
  | negOv => some .negOv
  | fneg => some .fneg
  | i2f => some .i2f
  | _ => none

/-- The condition of a comparison, and whether it compares floats. -/
def compare? : TraceOp → Option (Cond × Bool)
  | eq => some (.eq, false)
  | ne => some (.ne, false)
  | lt => some (.lt, false)
  | le => some (.le, false)
  | gt => some (.gt, false)
  | ge => some (.ge, false)
  | feq => some (.eq, true)
  | fne => some (.ne, true)
  | flt => some (.lt, true)
  | fle => some (.le, true)
  | fgt => some (.gt, true)
  | fge => some (.ge, true)
  | _ => none

def setsOverflow : TraceOp → Bool
  | addOv | subOv | mulOv | negOv => true
  | _ => false

def isGuard : TraceOp → Bool
  | exitUnless | exitIf | exitOv => true
  | _ => false

/-- Whether the instruction ends a trace. -/
def isTerminal : TraceOp → Bool
  | loop | jumpTree => true
  | _ => false

/-- Whether the instruction makes a value. -/
def hasResult : TraceOp → Bool
  | store | exitUnless | exitIf | exitOv | loop | jumpTree => false
  | _ => true

/-- The machine operation of an instruction that computes. -/
def machineOp (op : TraceOp) : Except Fault Op :=
  match op.binary? <|> op.unary? with
  | some m => .ok m
  | none => .error (.noMachineOp op.name)

/-- The condition of an instruction that compares. -/
def condition (op : TraceOp) : Except Fault (Cond × Bool) :=
  match op.compare? with
  | some c => .ok c
  | none => .error (.notCompare op.name)

end TraceOp

/-- One instruction; the fields that its operation does not use stay as they are here. -/
structure Inst where
  op : TraceOp
  a : Ref := Ref.none
  b : Ref := Ref.none
  /-- The type of the result. -/
  type : Ty := .null
  /-- The slot of a `param` or `store`. -/
  slot : SlotAddr := ⟨0⟩
  /-- The value of an `imm`. -/
  imm : Immediate := ⟨.int, 0⟩
  /-- The helper of a `call`. -/
  helper : UInt8 := 0
  /-- The arguments of a `call`. -/
  args : List Ref := []
  /-- The exit of a guard. -/
  exit : Option SideExit := none
  /-- The bytecode offset it was recorded at. -/
  pc : Int := 0
deriving Inhabited

namespace Inst

/-- The values an instruction uses directly, in order. -/
def operands (i : Inst) : List Ref :=
  (if i.a == Ref.none then [] else [i.a]) ++ (if i.b == Ref.none then [] else [i.b]) ++ i.args

/-- The values that the exit of an instruction needs. -/
def snapshotRefs (i : Inst) : List Ref := (i.exit.elim [] (·.snapshot)).map (·.ref)

def value (r : Ref) : Text := "v" ++ .ofInt r

def renderExit (e : SideExit) : Text :=
  e.snapshot.foldl (fun acc s => acc ++ " " ++ s.addr.render ++ "=" ++ value s.ref)
    (" -> exit(" ++ e.kind.name ++ " pc=" ++ .ofInt e.pc) ++ ")"

/-- The operands of an instruction as text. -/
def renderOperands (i : Inst) : Text :=
  match i.op with
  | .param => " " ++ i.slot.render
  | .imm => " " ++ i.imm.render
  | .store => " " ++ i.slot.render ++ ", " ++ value i.a
  | .call => " " ++ Helper.nameOf i.helper ++ "(" ++ Text.join ", " (i.args.map value) ++ ")"
  | .exitUnless | .exitIf | .exitOv =>
    (if i.a == Ref.none then ∅ else " " ++ value i.a) ++ i.exit.elim ∅ renderExit
  | _ =>
    (if i.a == Ref.none then ∅ else " " ++ value i.a)
      ++ (if i.b == Ref.none then ∅ else ", " ++ value i.b)

def render (i : Inst) : Text :=
  i.op.name ++ i.renderOperands
    ++ (if i.op.hasResult then " : " ++ i.type.name else ∅)
    ++ (if 0 < i.pc then " ; bc@" ++ Text.ofInt i.pc else ∅)

end Inst

end LoopTracer.Trace
