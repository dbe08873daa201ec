import LoopTracer.Compile.Chain
import LoopTracer.Trace.Buffer

/-! Register allocation, from the end of a trace to its start.

Walking backwards, the first use met of a value is its last one: from there on up to its
definition the value is live and has a reservation. A reservation may have a register, a spill
slot, both or neither. When registers run out, the value that will be needed last is evicted:
code that restores it is written at the present place, and its definition will store it in its
spill slot. Constants are never stored; they are made anew. -/
namespace LoopTracer.Compile

open Machine Trace

/-- What is reserved for a live value. -/
structure Reservation where
  ref : Ref := Ref.none
  reg : Reg := Reg.none
  slot : Option Nat := none
  /-- The free entry after this one, if this one is free. -/
  next : Option Nat := none
deriving Inhabited

structure Registers where
  /-- The number of the present instruction. -/
  pos : Nat := 0
  /-- An entry for each reservation that there may be at a time. -/
  table : Array Reservation
  /-- The first free entry, from which the others are chained. -/
  free : Option Nat
  live : Nat := 0
  /-- The table entry of each live value. -/
  index : Array (Option Nat)
  /-- The value in each register. -/
  held : Array Ref := Array.replicate 32 Ref.none
  /-- The registers that may be handed out. -/
  avail : RegSet
  /-- Which spill slots are in use. -/
  slots : Array Bool := #[]
  /-- The most spill slots ever in use. -/
  high : Nat := 0
deriving Inhabited

/-- What stays the same while a trace is compiled. -/
structure Setting where
  backend : Backend
  target : Target
  buffer : Buffer
  /-- The instructions that use each value. -/
  uses : Array (Array Nat)
  maxSlots : Int

/-- The allocator and the code written so far. -/
structure Allocation where
  regs : Registers
  code : Code
deriving Inhabited

abbrev Allocating := EStateM CompileStop Allocation

namespace Registers

/-- A table of free entries, chained in ascending order. -/
def fresh (capacity : Nat) : Array Reservation :=
  ((List.range capacity).map fun i => { next := if i + 1 < capacity then some (i + 1) else none }).toArray

/-- Nothing reserved, with room for `capacity` reservations, for a trace of `values` values. -/
def create (capacity : Nat) (values : Nat) (avail : RegSet) : Registers where
  table := fresh capacity
  free := if 0 < capacity then some 0 else none
  index := Array.replicate values none
  avail := avail

/-- The bytes of a reservation. -/
def reservationSize : Nat := 24

/-- Whether a table for `capacity` reservations and a record of `slots` spill slots can be had. -/
def canHave (capacity slots : Int) : Bool :=
  0 < capacity && blockFits capacity reservationSize && blockFits slots 1

/-- The table entry of a value; a value outside the trace is a fault. -/
def entry (s : Registers) (ref : Ref) : Except Fault (Option Nat) :=
  if ref < 0 then .error .bounds
  else match s.index[ref.toNat]? with
    | some e => .ok e
    | none => .error .bounds

/-- The reservation at a place of the table. -/
def at? (s : Registers) (i : Nat) : Reservation := s.table[i]?.getD {}

/-- The register of a value. -/
def regOf (s : Registers) (ref : Ref) : Except Fault Reg := do
  return ((← s.entry ref).map fun i => (s.at? i).reg).getD Reg.none

def isLive (s : Registers) (ref : Ref) : Except Fault Bool := do return (← s.entry ref).isSome

/-- The value in a register. -/
def valueIn (s : Registers) (r : Reg) : Ref := s.held[r.toInt.toNat]?.getD Ref.none

/-- Takes the first free entry `i` of the table for a value that has none. -/
def add (s : Registers) (ref : Ref) (i : Nat) : Registers :=
  let free := (s.at? i).next
  { s with
    table := s.table.set! i { ref }
    free
    index := s.index.set! ref.toNat (some i)
    live := s.live + 1 }

/-- Puts the value of a reservation into a register that holds nothing. -/
def assign (s : Registers) (i : Nat) (r : Reg) : Registers :=
  let ref := (s.at? i).ref
  { s with
    table := s.table.modify i ({ · with reg := r })
    held := s.held.set! r.toInt.toNat ref
    avail := s.avail.erase r }

/-- Takes the value of a reservation out of its register. -/
def unassign (s : Registers) (i : Nat) : Registers :=
  let r := (s.at? i).reg
  { s with
    table := s.table.modify i ({ · with reg := Reg.none })
    held := s.held.set! r.toInt.toNat Ref.none
    avail := s.avail.insert r }

/-- Gives back everything that a live value has. -/
def drop (s : Registers) (ref : Ref) (i : Nat) : Registers :=
  let s := if (s.at? i).reg == Reg.none then s else s.unassign i
  let slots := match (s.at? i).slot with
    | some k => s.slots.set! k false
    | none => s.slots
  let free := s.free
  { s with
    slots
    table := s.table.modify i ({ · with next := free })
    free := some i
    index := s.index.set! ref.toNat none
    live := s.live - 1 }

/-- The first spill slot not in use, a new one if all are. -/
def freeSlot (s : Registers) : Nat := (s.slots.findIdx? fun used => !used).getD s.slots.size

/-- Gives a reservation a spill slot that is not in use. -/
def takeSlot (s : Registers) (i k : Nat) : Registers :=
  let slots := if k < s.slots.size then s.slots.set! k true else s.slots.push true
  let size := slots.size
  { s with
    slots
    table := s.table.modify i ({ · with slot := some k })
    high := max s.high size }

/-- Where a value is needed next before the present instruction: constants least of all. -/
def priority (s : Registers) (set : Setting) (ref : Ref) : Int :=
  match set.buffer.get? ref with
  | some { op := .imm, .. } => -2
  | _ =>
    match (set.uses[ref.toNat]?.getD #[]).foldl (fun last u => if u < s.pos then some u else last)
        none with
    | some u => u
    | none => -1

/-- The value to evict: the one needed farthest from here, in the lowest register. -/
def victim? (s : Registers) (set : Setting) (avoid : RegSet) : Option Ref :=
  let held := ((set.target.allocatable.diff avoid).toList.map s.valueIn).filter (· ≠ Ref.none)
  (held.foldl (fun best ref =>
    let p := s.priority set ref
    match best with
    | some (_, q) => if p < q then some (ref, p) else best
    | none => some (ref, p)) none).map (·.1)

end Registers

namespace Allocation

open Registers

def liftFault {α : Type} : Except Fault α → Allocating α
  | .ok a => pure a
  | .error f => throw (.fault f)

def failing {α : Type} (kind : CompileErrorKind) (detail : Text) : Allocating α :=
  throw (.error { kind, detail })

/-- Changes the allocator alone. -/
def update (f : Registers → Registers) : Allocating Unit := modify fun s =>
  let regs := s.regs
  { { s with regs := default } with regs := f regs }

/-- Works on the code alone. -/
def coding {α : Type} (x : Coding α) : Allocating α := fun s =>
  let code := s.code
  let s := { s with code := default }
  match x code with
  | .ok a code => .ok a { s with code }
  | .error e code => .error e { s with code }

def emit (set : Setting) (i : Instr) : Allocating Unit := coding (Code.emit set.backend .main i)

/-- The table entry of a value, which becomes live if it is not. -/
def reserve (ref : Ref) : Allocating Nat := do
  let s := (← get).regs
  match ← liftFault (s.entry ref) with
  | some i => return i
  | none => take
where
  take : Allocating Nat := fun s =>
    match s.regs.free with
    | none =>
      let detail : Text := .ofNat s.regs.live ++ " values live at v" ++ .ofInt ref
      .error (.error ⟨.tooManyLive, detail⟩) s
    | some i =>
      let regs := s.regs
      let s := { s with regs := default }
      .ok i { s with regs := regs.add ref i }

/-- Gives back what a value has, if it is live. -/
def release (ref : Ref) : Allocating Unit := do
  match ← liftFault ((← get).regs.entry ref) with
  | some i => update (·.drop ref i)
  | none => return

/-- Puts a reserved value into a register. -/
def assign (set : Setting) (i : Nat) (r : Reg) : Allocating Unit := do
  let other := (← get).regs.valueIn r
  if other ≠ Ref.none then throw (.fault (.registerHeld (set.target.regName r) other))
  update (·.assign i r)

/-- The spill slot of a reservation, which gets one if it has none. -/
def ensureSlot (set : Setting) (i : Nat) : Allocating Nat := do
  let s := (← get).regs
  match (s.at? i).slot with
  | some k => return k
  | none =>
    let k := s.freeSlot
    if k = s.slots.size && set.maxSlots ≤ s.slots.size then
      failing .frameOverflow ("more than " ++ .ofInt set.maxSlots ++ " spill slots")
    update (·.takeSlot i k)
    return k

/-- A spill slot for a value that needs no register. -/
def slotFor (set : Setting) (ref : Ref) : Allocating Nat := do
  ensureSlot set (← reserve ref)

/-- Takes a value out of its register; code written here restores it. -/
def evict (set : Setting) (ref : Ref) : Allocating Unit := do
  match ← liftFault ((← get).regs.entry ref) with
  | none => throw (.fault .bounds)
  | some i =>
    let r := ((← get).regs.at? i).reg
    match set.buffer.get? ref with
    | some { op := .imm, imm, .. } => emit set (.movImm r imm.bits)
    | _ =>
      let slot ← ensureSlot set i
      emit set (.load r set.target.frameBase (set.target.spillDisp slot))
    update (·.unassign i)

/-- A register outside `avoid` that holds nothing, after an eviction if need be. -/
def freeReg (set : Setting) (avoid : RegSet) : Allocating Reg := do
  let s := (← get).regs
  let free := (s.avail.inter set.target.allocatable).diff avoid
  if !free.isEmpty then return free.first
  match s.victim? set avoid with
  | none => failing .tooManyLive ("no register to evict at v" ++ .ofNat s.pos)
  | some ref =>
    let r ← liftFault (s.regOf ref)
    evict set ref
    return r

/-- Puts a value into some register outside `avoid`; it stays where it is if it has one. -/
def regFor (set : Setting) (ref : Ref) (avoid : RegSet) : Allocating Reg := do
  let i ← reserve ref
  let r := ((← get).regs.at? i).reg
  if r ≠ Reg.none then return r
  let r ← freeReg set avoid
  assign set i r
  return r

/-- Puts a value into the register `want`. -/
def specificRegFor (set : Setting) (ref : Ref) (want : Reg) : Allocating Unit := do
  let i ← reserve ref
  if ((← get).regs.at? i).reg == want then return
  let other := (← get).regs.valueIn want
  if other ≠ Ref.none then evict set other
  let r := ((← get).regs.at? i).reg
  if r ≠ Reg.none then
    -- the code after this place still finds it in the old register
    emit set (.mov r want)
    update (·.unassign i)
  assign set i want

/-- The register in which a value is to be made, with the code that stores it if it was
spilled. The value is no longer live before this place. -/
def resultReg (set : Setting) (ref : Ref) (avoid : RegSet) : Allocating Reg := do
  let i ← reserve ref
  let mut r := ((← get).regs.at? i).reg
  if r == Reg.none then
    r ← freeReg set avoid
    assign set i r
  if let some slot := ((← get).regs.at? i).slot then
    emit set (.store set.target.frameBase (set.target.spillDisp slot) r)
  release ref
  return r

/-- Evicts everything that a call would destroy. -/
def evictCallerSaved (set : Setting) : Allocating Unit :=
  (set.target.callerSaved.inter set.target.allocatable).toList.forM fun r => do
    let ref := (← get).regs.valueIn r
    if ref ≠ Ref.none then evict set ref

/-- At the start of a trace nothing is live. -/
def checkDone : Allocating Unit := do
  let s := (← get).regs
  if s.live ≠ 0 then
    if let some ref := s.index.findIdx? (·.isSome) then throw (.fault (.stillLive ref))

end Allocation

end LoopTracer.Compile
