import LoopTracer.Machine.Memory
import LoopTracer.Machine.Operation

/-! Registers, targets and instructions.

A register is a small number, and a negative one stands for none. A target says how a back end uses its
registers, and an instruction is what the assembler is asked for, before any encoding. -/
namespace LoopTracer.Machine

/-! ### Machine registers and sets of them

A register is a small number, and a negative one stands for none. A set is a mask of 32 bits;
registers past the last bit are never in it. -/

/-- A register number. -/
abbrev Reg := Int8

/-- No register. -/
def Reg.none : Reg := -1

/-- A register's number as a byte of code. -/
def Reg.byte (r : Reg) : UInt8 := r.toUInt8

/-- A set of registers. -/
structure RegSet where
  mask : UInt32
deriving DecidableEq, Inhabited

namespace RegSet

def empty : RegSet := ⟨0⟩

instance : EmptyCollection RegSet := ⟨empty⟩

/-- The mask of one register. -/
def bit (r : Reg) : UInt32 :=
  if r < 0 || 32 ≤ r then 0 else (1 : UInt32) <<< r.toInt.toNat.toUInt32

def contains (s : RegSet) (r : Reg) : Bool := s.mask &&& bit r != 0

def insert (s : RegSet) (r : Reg) : RegSet := ⟨s.mask ||| bit r⟩

def erase (s : RegSet) (r : Reg) : RegSet := ⟨s.mask &&& ~~~ (bit r)⟩

/-- The registers of a set in ascending order. -/
def toList (s : RegSet) : List Reg :=
  ((List.range 32).map fun i => Int8.ofNat i).filter s.contains

def size (s : RegSet) : Nat := s.toList.length

def isEmpty (s : RegSet) : Bool := s.mask == 0

/-- The least register of a set. -/
def first (s : RegSet) : Reg := s.toList.headD .none

def ofList (l : List Reg) : RegSet := l.foldl insert ∅

/-- The registers of both sets. -/
def inter (s t : RegSet) : RegSet := ⟨s.mask &&& t.mask⟩

/-- The registers of `s` that are not in `t`. -/
def diff (s t : RegSet) : RegSet := ⟨s.mask &&& ~~~ t.mask⟩

end RegSet

/-! ### Targets: how a back end uses its registers

A target says which registers values may live in, which of them a call destroys, where call
arguments and results go, and how spill slots are addressed. `limit` gives a target with fewer
registers; the argument registers always stay, since calls need them. -/

structure Target where
  name : String
  allocatable : RegSet
  /-- Registers whose contents a call destroys. -/
  callerSaved : RegSet
  argRegs : List Reg
  retReg : Reg
  /-- Used inside encodings, never allocated. -/
  scratch : Reg
  /-- Holds the guard number when a trace is left. -/
  exitReg : Reg
  /-- Points at the interpreter's slots. -/
  stateBase : Reg
  /-- Points at the activation record. -/
  frameBase : Reg
  /-- Where spill slot zero lies from `frameBase`. -/
  frameOffset : Int32
  slotStride : Int32
  /-- Whether an odd number of stack arguments is padded to an even one. -/
  stackAlign : Bool
  regNames : Array String
deriving Inhabited

namespace Target

/-- The displacement of a spill slot. -/
def spillDisp (t : Target) (slot : Int) : Int32 :=
  t.frameOffset + Int32.ofInt slot * t.slotStride

def regName (t : Target) (r : Reg) : Text :=
  if 0 ≤ r then t.regNames[r.toInt.toNat]?.getD "???" else "???"

/-- At most `n` registers besides the argument registers; a limit that is not positive or not
below the present number changes nothing. -/
def limit (t : Target) (n : Int) : Target :=
  if n ≤ 0 || (t.allocatable.size : Int) ≤ n then t
  else
    { t with allocatable := t.allocatable.toList.foldl (fun kept r =>
        if n ≤ kept.size && !t.argRegs.contains r then kept else kept.insert r) ∅ }

/-- Whether `limit` leaves the target as it is. -/
def limitIsVoid (t : Target) (n : Int) : Bool := n ≤ 0 || (t.allocatable.size : Int) ≤ n

end Target

namespace CallSpec

/-- The arguments that do not fit in registers. -/
def stackArgs (c : CallSpec) (t : Target) : Nat := c.args.length - t.argRegs.length

/-- The words pushed before a call, padding included. -/
def stackWords (c : CallSpec) (t : Target) : Nat :=
  let n := c.stackArgs t
  if t.stackAlign && n % 2 == 1 then n + 1 else n

end CallSpec

/-- The portable machine. -/
def virtualTarget : Target where
  name := "virtual"
  allocatable := .ofList [0, 1, 2, 3, 4, 5, 6, 7, 8, 9, 10, 11]
  callerSaved := .ofList [0, 1, 2, 3, 4, 5, 6, 7]
  argRegs := [0, 1, 2, 3]
  retReg := 0
  scratch := 12
  exitReg := 0
  stateBase := 13
  frameBase := 14
  frameOffset := 0
  slotStride := 8
  stackAlign := false
  regNames := #["r0", "r1", "r2", "r3", "r4", "r5", "r6", "r7",
    "r8", "r9", "r10", "r11", "rs", "st", "fp", "r15"]

/-- The registers that x86-64 code saves on entry, in push order. -/
def x64Saved : List Reg := [3, 12, 13, 14, 15]

def x64Target : Target where
  name := "x86-64"
  allocatable := .ofList [0, 1, 2, 3, 6, 7, 8, 9, 10, 12, 13, 14]
  callerSaved := .ofList [0, 1, 2, 6, 7, 8, 9, 10, 11]
  argRegs := [7, 6, 2, 1]
  retReg := 0
  scratch := 11
  exitReg := 0
  stateBase := 15
  frameBase := 5
  frameOffset := -48
  slotStride := -8
  stackAlign := true
  regNames := #["rax", "rcx", "rdx", "rbx", "rsp", "rbp", "rsi", "rdi",
    "r8", "r9", "r10", "r11", "r12", "r13", "r14", "r15"]

/-! ### Machine instructions as the assembler asks for them, before any encoding -/

inductive Instr where
  | mov (dst src : Reg)
  | movImm (dst : Reg) (v : UInt64)
  | load (dst base : Reg) (disp : Int32)
  | store (base : Reg) (disp : Int32) (src : Reg)
  | binary (op : Op) (dst a b : Reg)
  | unary (op : Op) (dst a : Reg)
  /-- Sets `dst` to one where the condition holds and to zero otherwise. -/
  | compare (cond : Cond) (float : Bool) (dst a b : Reg)
  /-- Branches to `target` where the condition holds. -/
  | guard (cond : GuardCond) (r : Reg) (target : CodeAddr)
  | jump (target : CodeAddr)
  /-- Pushes a call argument. -/
  | push (r : Reg)
  | call (spec : CallSpec)
  /-- Sets up an activation record with that many spill slots. -/
  | prologue (slots : Int)
  /-- Returns to the interpreter with the guard number. -/
  | bailout

/-- The distance of a branch as its operand field holds it: from the end of the branch. -/
def distance (target : CodeAddr) (branchEnd : Int) : Int32 :=
  Int32.ofInt ((target.toNat : Int) - branchEnd)

end LoopTracer.Machine
