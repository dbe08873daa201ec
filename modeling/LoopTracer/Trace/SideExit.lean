import LoopTracer.Machine.Target
import LoopTracer.Trace.SlotMap
import LoopTracer.Trace.Type

/-! Side exits: where and how a trace gives control back.

A guard that fails leaves the trace. Its exit says where the interpreter goes on and lists, slot
by slot, which value of the trace each live slot holds there: the snapshot. Compiling a guard
adds a location for every snapshot entry, the place from which the exit code writes the value
back. An `ExitRecord` keeps both together with the history of the exit. -/
namespace LoopTracer.Trace

open Machine (numbered unknown Reg)

/-- Why a guard fails. -/
inductive ExitKind where
  /-- Control leaves the recorded path. -/
  | branch
  /-- A result does not fit in 32 bits. -/
  | overflow
  /-- The divisor of a remainder is zero. -/
  | divZero
  | other (n : UInt8)
deriving DecidableEq, Inhabited

namespace ExitKind

def all : Array ExitKind := #[.branch, .overflow, .divZero]

def ofByte (n : UInt8) : ExitKind := numbered all .other n

def name : ExitKind → Text
  | branch => "branch"
  | overflow => "overflow"
  | divZero => "divzero"
  | other n => unknown "exit" n

end ExitKind

/-- The value of a live slot at a guard. -/
structure SnapshotEntry where
  addr : SlotAddr
  ref : Ref
  type : Ty
deriving DecidableEq, Inhabited

/-- What a guard leads to when it fails. -/
structure SideExit where
  /-- Where the interpreter goes on. -/
  pc : Int
  /-- The depth of the operand stack there. -/
  depth : Int
  kind : ExitKind
  snapshot : List SnapshotEntry
deriving DecidableEq, Inhabited

namespace SideExit

def types (e : SideExit) : TypeMap := e.snapshot.map (·.type)

def width (e : SideExit) : Nat := e.snapshot.length

end SideExit

/-- Where exit code finds a value. -/
inductive Place where
  | register (r : Reg)
  | stack (slot : Int)
  | immediate (i : Immediate)
  | other (n : UInt8)
deriving DecidableEq, Inhabited

namespace Place

/-- The names of the kinds of places by number. -/
def kindName : UInt8 → Text
  | 0 => "reg"
  | 1 => "stack"
  | 2 => "imm"
  | _ => "?"

def render : Place → Option Text
  | register r => some ("r" ++ .ofInt r.toInt)
  | stack slot => some ("ar" ++ .ofInt slot)
  | immediate i => some ("#" ++ i.render)
  | other _ => none

end Place

/-- The place of one slot's value. -/
structure SlotLocation where
  addr : SlotAddr
  type : Ty
  place : Place
deriving DecidableEq, Inhabited

/-- A list of locations that does not match its snapshot. -/
inductive LocationError where
  | repeated (addr : SlotAddr) (times : Nat) (pc : Int)
  | count (pc : Int) (locations slots : Nat)

def LocationError.message : LocationError → Text
  | repeated a n pc =>
    "jit: slot " ++ a.render ++ " appears " ++ .ofNat n ++ " times in exit at pc " ++ .ofInt pc
  | count pc m n =>
    "jit: exit at pc " ++ .ofInt pc ++ " has " ++ .ofNat m ++ " locations for " ++ .ofNat n ++ " slots"

/-- A side exit, the locations of its values and what has happened at it. -/
structure ExitRecord where
  exit : SideExit
  locations : List SlotLocation := []
  /-- How often it was taken. -/
  hits : Nat := 0
  /-- How often recording a trace from here failed. -/
  attempts : Nat := 0
  /-- No trace is recorded from here any more. -/
  blacklisted : Bool := false
deriving Inhabited

namespace ExitRecord

/-- Whether every snapshot slot has exactly one location. -/
def check (r : ExitRecord) : Except LocationError Unit := do
  for s in r.exit.snapshot do
    let n := r.locations.countP fun l => l.addr == s.addr
    if n ≠ 1 then throw (.repeated s.addr n r.exit.pc)
  if r.locations.length ≠ r.exit.snapshot.length then
    throw (.count r.exit.pc r.locations.length r.exit.snapshot.length)

def render (r : ExitRecord) : Text :=
  r.locations.foldl (fun acc l => match l.place.render with
      | some t => acc ++ " " ++ l.addr.render ++ ":" ++ t
      | none => acc)
    (r.exit.kind.name ++ "@" ++ .ofInt r.exit.pc ++ " depth=" ++ .ofInt r.exit.depth
      ++ " [" ++ r.exit.types.render ++ "]")

end ExitRecord

/-- Where a failing guard goes: back to the interpreter or into another fragment. -/
inductive ExitTarget where
  | bailout
  | fragment (id : UInt32)
deriving DecidableEq, Inhabited

def ExitTarget.render : ExitTarget → Text
  | bailout => "bailout"
  | fragment id => "fragment#" ++ .ofNat id.toNat

end LoopTracer.Trace
