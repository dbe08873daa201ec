import LoopTracer.Fault

/-! Slots of the interpreter, and the map from slots to the values of a trace.

A slot is a local variable or a place of the operand stack of the frame being recorded. Its
address is its byte offset, eight for each slot.

A `SlotMap` says which value of the trace every slot holds at present. Its cells stand in pages
of 64 slots. Pages are drawn from an arena and linked by their numbers there: one chain runs
through the pages in use, one through those that `clear` has given back, and a directory leads
from a page number to its place in the arena. -/
namespace LoopTracer.Trace

/-- A value of a trace: the number of the instruction that makes it. -/
abbrev Ref := Int

/-- No value. -/
def Ref.none : Ref := -1

/-- The byte offset of a slot. -/
structure SlotAddr where
  byte : Int32
deriving DecidableEq, Inhabited

namespace SlotAddr

def ofSlot (i : Int) : SlotAddr := ⟨.ofInt (8 * i)⟩

def slot (a : SlotAddr) : Int := a.byte.toInt.fdiv 8

def render (a : SlotAddr) : Text := "s" ++ .ofInt a.slot

/-- Whether the offset is that of a slot. -/
def valid (a : SlotAddr) : Bool := 0 ≤ a.byte.toInt && a.byte.toInt % 8 == 0

end SlotAddr

/-- The slots of one page. -/
def pageSlots : Nat := 64

/-- One page of the arena. -/
structure SlotPage where
  /-- Which slots it holds: those from `64 * number` on. -/
  number : Nat
  /-- The next page of its chain. -/
  next : Option Nat
  refs : Array Ref
deriving Inhabited

structure SlotMap where
  arena : Array SlotPage := #[]
  /-- Where the page of each number is, if it is in use. -/
  directory : Array (Option Nat) := #[]
  /-- The first page in use. -/
  head : Option Nat := none
  /-- The first page given back. -/
  free : Option Nat := none
  /-- How many pages are in use. -/
  pages : Nat := 0
deriving Inhabited

namespace SlotMap

/-- Where the page of a number is, if it is in use. -/
def page? (t : SlotMap) (number : Nat) : Option Nat := t.directory[number]?.join

/-- Takes a page for `number`: one given back if there is one, else a new one. -/
def addPage (t : SlotMap) (number : Nat) : SlotMap × Nat :=
  let directory := t.directory ++ Array.replicate (number + 1 - t.directory.size) none
  let fresh : SlotPage := { number, next := t.head, refs := Array.replicate pageSlots Ref.none }
  let place := t.free.getD t.arena.size
  let rest := t.free.bind fun h => t.arena[h]?.bind (·.next)
  let arena := if place < t.arena.size then t.arena.set! place fresh else t.arena.push fresh
  ({ arena, free := rest, head := some place, directory := directory.set! number (some place)
     pages := t.pages + 1 }, place)

/-- The value of a slot. -/
def find? (t : SlotMap) (a : SlotAddr) : Except Fault (Option Ref) :=
  if !a.valid then .error (.slotAddress a.byte.toInt)
  else
    let slot := a.slot.toNat
    let found := do
      let h ← t.page? (slot / pageSlots)
      let p ← t.arena[h]?
      let r ← p.refs[slot % pageSlots]?
      if r == Ref.none then none else some r
    .ok found

/-- The value of a slot that has one. -/
def get (t : SlotMap) (a : SlotAddr) : Except Fault Ref := do
  match ← t.find? a with
  | some r => .ok r
  | none => .error (.untracked a.render)

def contains (t : SlotMap) (a : SlotAddr) : Except Fault Bool := do
  return (← t.find? a).isSome

/-- Whether a slot may be given a value, or which rule that breaks. -/
def settable (a : SlotAddr) (r : Ref) : Option Fault :=
  if !a.valid then some (.slotAddress a.byte.toInt)
  else if r < 0 then some (.invalidRef a.render r)
  else none

/-- Gives a slot a value; the address and the value are in order. -/
def insert (t : SlotMap) (a : SlotAddr) (r : Ref) : SlotMap :=
  let slot := a.slot.toNat
  let (t, place) := match t.page? (slot / pageSlots) with
    | some h => (t, h)
    | none => t.addPage (slot / pageSlots)
  { t with arena := t.arena.modify place fun p =>
      { p with refs := p.refs.set! (slot % pageSlots) r } }

/-- Gives back the pages from `h` on, at most `n` of them. -/
def release (t : SlotMap) : (n : Nat) → (h : Option Nat) → SlotMap
  | 0, _ | _, none => t
  | n + 1, some h =>
    match t.arena[h]? with
    | none => t
    | some p => release { t with
        directory := t.directory.set! p.number none
        arena := t.arena.set! h { p with next := t.free }
        free := some h } n p.next

/-- Forgets every value. -/
def clear (t : SlotMap) : SlotMap :=
  { t.release t.pages t.head with head := none, pages := 0 }

end SlotMap

end LoopTracer.Trace
