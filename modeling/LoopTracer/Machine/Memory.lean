import Std.Data.TreeMap

/-! Code memory.

A memory has a size and starts out zeroed. It keeps only the blocks that were written, so a large
region of which little is used costs little. -/
namespace LoopTracer.Machine

structure Memory where
  size : Nat := 0
  /-- The blocks that were written, by their number. -/
  blocks : Std.TreeMap Nat ByteArray := {}
deriving Inhabited

namespace Memory

/-- The bytes of a block. -/
def blockSize : Nat := 64

/-- A block that was never written. -/
def blank : ByteArray := ⟨Array.replicate blockSize 0⟩

/-- The block that a place lies in. -/
def block (m : Memory) (place : Nat) : ByteArray := m.blocks.getD (place / blockSize) blank

/-- The byte at a place inside the memory. -/
def get? (m : Memory) (place : Nat) : Option UInt8 :=
  if place < m.size then (m.block place)[place % blockSize]? else none

/-- Overwrites the byte at a place, if it lies inside the memory. -/
def set (m : Memory) (place : Nat) (b : UInt8) : Memory :=
  if place < m.size then
    { m with blocks := m.blocks.insert (place / blockSize) ((m.block place).set! (place % blockSize) b) }
  else m

/-- Overwrites bytes from a place on. -/
def write (m : Memory) (place : Nat) : List UInt8 → Memory
  | [] => m
  | b :: rest => (m.set place b).write (place + 1) rest

/-- The bytes from a place up to another. -/
def extract (m : Memory) (place stop : Nat) : ByteArray :=
  ⟨(Array.range (min stop m.size - place)).map fun i => (m.get? (place + i)).getD 0⟩

/-- An array that holds the `count` bytes from a place on, and where in it they start. -/
def window (m : Memory) (place count : Nat) : ByteArray × Nat :=
  if place % blockSize + count ≤ blockSize && place + count ≤ m.size then
    (m.block place, place % blockSize)
  else (m.extract place (place + count), 0)

end Memory

/-! ### Numbers in bytes -/

/-- The lowest `count` bytes of a number, the least significant first. -/
def littleEndian : (count : Nat) → (n : Nat) → List UInt8
  | 0, _ => []
  | count + 1, n => n.toUInt8 :: littleEndian count (n / 256)

/-- The number in `count` bytes from a place on, the least significant first. -/
def readLittle (bytes : ByteArray) (place : Nat) : (count : Nat) → Nat
  | 0 => 0
  | count + 1 => (bytes[place]?.getD 0).toNat + 256 * readLittle bytes (place + 1) count

/-- The number in `count` bytes of code. -/
def Memory.readLittle (m : Memory) (place count : Nat) : Nat :=
  let (bytes, start) := m.window place count
  Machine.readLittle bytes start count

end LoopTracer.Machine
