import Mathlib.Algebra.Group.Int.Defs
import Mathlib.Algebra.GroupWithZero.Nat
import LoopTracer.Machine.X64

/-! The x86-64 processor.

The instructions that the encodings use, as the processor reads and executes them. `decode` goes by
the rules of the instruction format: an optional extension byte in front of the opcode, then the
byte that names the addressing mode and two operands, a second one where the base is not among the
first, a displacement that is sign-extended, and an immediate. `Insn.execute` says what an
instruction does to registers, flags and memory. What the processor leaves open, the flags after a
multiplication, is given by a parameter. -/
namespace LoopTracer.Machine.X64

/-- A general register by its hardware number. -/
abbrev Gpr := Fin 16

/-- The register as requests name it. -/
def Gpr.reg (r : Gpr) : Reg := Int8.ofNat r.val

/-! ### Instructions -/

/-- A place in memory: the sum of a base, a scaled index and a displacement. -/
structure Address where
  base : Option Gpr
  /-- The index register, and the power of two it is scaled by. -/
  index : Option (Gpr × Nat)
  disp : Int32

/-- An operand of 32 or 64 bits. -/
inductive Operand where
  | reg (r : Gpr)
  | mem (a : Address)

/-- An operand of one byte. -/
inductive ByteOperand where
  | low (r : Gpr)
  /-- The second byte of a register, which only code without an extension byte can name. -/
  | high (r : Gpr)
  | mem (a : Address)

inductive AluOp where
  | add | or | and | sub | xor | cmp

inductive ShiftOp where
  | left | arithmetic | logical

/-- An instruction; `wide` tells 64 bits from 32. -/
inductive Insn where
  | mov (wide : Bool) (dst src : Operand)
  | movImm (wide : Bool) (dst : Operand) (v : BitVec 64)
  | alu (op : AluOp) (wide : Bool) (dst src : Operand)
  | test (wide : Bool) (a b : Operand)
  | imul (wide : Bool) (dst : Gpr) (src : Operand)
  | neg (wide : Bool) (dst : Operand)
  | not (wide : Bool) (dst : Operand)
  | movsxd (dst : Gpr) (src : Operand)
  | movzx (wide : Bool) (dst : Gpr) (src : ByteOperand)
  | setcc (cc : Nat) (dst : ByteOperand)
  /-- A shift that leaves the flags alone. -/
  | shiftx (op : ShiftOp) (dst : Gpr) (src : Operand) (count : Gpr)

/-! ### Reading instructions -/

/-- The bits of an extension byte. -/
structure Rex where
  w : Bool
  r : Bool
  x : Bool
  b : Bool

/-- The extension byte, if the byte is one. -/
def Rex.ofByte? (b : UInt8) : Option Rex :=
  if b.toNat / 16 = 4 then
    some ⟨b.toNat.testBit 3, b.toNat.testBit 2, b.toNat.testBit 1, b.toNat.testBit 0⟩
  else none

/-- What code without an extension byte means. -/
def Rex.absent : Rex := ⟨false, false, false, false⟩

/-- The register with three bits of an instruction and an extension bit. -/
def gpr (extended : Bool) (n : Nat) : Gpr := Fin.ofNat 16 (n % 8 + if extended then 8 else 0)

/-- The scratch register by its hardware number. -/
def scratch : Gpr := 11

/-- A number of `count` bytes, the least significant first. -/
def number? : (count : Nat) → List UInt8 → Option (Nat × List UInt8)
  | 0, l => some (0, l)
  | _ + 1, [] => none
  | count + 1, b :: l => (number? count l).map fun (n, rest) => (b.toNat + 256 * n, rest)

/-- The displacement of an addressing mode. -/
def displacement? (mode : Nat) (l : List UInt8) : Option (Int32 × List UInt8) :=
  if mode = 0 then some (0, l)
  else if mode = 1 then
    match l with
    | [] => none
    | b :: rest => some (b.toInt8.toInt32, rest)
  else (number? 4 l).map fun (n, rest) => (n.toUInt32.toInt32, rest)

/-- The place in memory that a mode below three and three bits name. Places that are counted from the
instruction itself are left out. -/
def address? (x : Rex) (mode rm : Nat) (l : List UInt8) : Option (Address × List UInt8) :=
  if rm = 4 then
    match l with
    | [] => none
    | sib :: rest =>
      let scaled := gpr x.x (sib.toNat / 8)
      let index := if scaled = 4 then none else some (scaled, sib.toNat / 64)
      if mode = 0 ∧ sib.toNat % 8 = 5 then
        (displacement? 2 rest).map fun (disp, rest) => (⟨none, index, disp⟩, rest)
      else (displacement? mode rest).map fun (disp, rest) =>
        (⟨some (gpr x.b sib.toNat), index, disp⟩, rest)
  else if mode = 0 ∧ rm = 5 then none
  else (displacement? mode l).map fun (disp, rest) => (⟨some (gpr x.b rm), none, disp⟩, rest)

/-- The two operands of an instruction; the first one is a register or part of the opcode. -/
def operands? (x : Rex) : List UInt8 → Option (Gpr × Operand × List UInt8)
  | [] => none
  | b :: l =>
    let reg := gpr x.r (b.toNat / 8)
    if b.toNat / 64 = 3 then some (reg, .reg (gpr x.b b.toNat), l)
    else (address? x (b.toNat / 64) (b.toNat % 8) l).map fun (a, rest) => (reg, .mem a, rest)

/-- An operand of one byte: without an extension byte the numbers from four on name second bytes. -/
def byteOperand (x : Option Rex) : Operand → ByteOperand
  | .mem a => .mem a
  | .reg r => if x.isNone ∧ 4 ≤ r.val then .high (r - 4) else .low r

/-- The operation between two operands that an opcode stands for. -/
def binaryOpcode? (wide : Bool) (r : Gpr) (rm : Operand) : UInt8 → Option Insn
  | 0x01 => some (.alu .add wide rm (.reg r))
  | 0x09 => some (.alu .or wide rm (.reg r))
  | 0x21 => some (.alu .and wide rm (.reg r))
  | 0x29 => some (.alu .sub wide rm (.reg r))
  | 0x31 => some (.alu .xor wide rm (.reg r))
  | 0x39 => some (.alu .cmp wide rm (.reg r))
  | 0x63 => if wide then some (.movsxd r rm) else none
  | 0x85 => some (.test wide rm (.reg r))
  | 0x89 => some (.mov wide rm (.reg r))
  | 0x8B => some (.mov wide (.reg r) rm)
  | _ => none

/-- What comes after the opcode of an operation between two operands. -/
def binary? (x : Rex) (op : UInt8) (l : List UInt8) : Option (Insn × List UInt8) := do
  let (r, rm, rest) ← operands? x l
  return (← binaryOpcode? x.w r rm op, rest)

/-- What comes after the opcode `F7`. -/
def unary? (x : Rex) (l : List UInt8) : Option (Insn × List UInt8) := do
  let (ext, rm, rest) ← operands? { x with r := false } l
  match ext.val with
  | 2 => return (.not x.w rm, rest)
  | 3 => return (.neg x.w rm, rest)
  | _ => none

/-- What comes after the opcode `C7`: a number of 32 bits, sign-extended. -/
def store? (x : Rex) (l : List UInt8) : Option (Insn × List UInt8) := do
  let (ext, rm, rest) ← operands? { x with r := false } l
  let (n, rest) ← number? 4 rest
  if ext.val = 0 then return (.movImm x.w rm ((BitVec.ofNat 32 n).signExtend 64), rest) else none

/-- What comes after an opcode from `B8` to `BF`: a number as wide as the register. -/
def immediate? (x : Rex) (op : UInt8) (l : List UInt8) : Option (Insn × List UInt8) := do
  let (n, rest) ← number? (if x.w then 8 else 4) l
  return (.movImm x.w (.reg (gpr x.b op.toNat)) (BitVec.ofNat 64 n), rest)

/-- What comes after `0F`. -/
def second? (x : Option Rex) : List UInt8 → Option (Insn × List UInt8)
  | [] => none
  | op :: l => do
    let rex := x.getD .absent
    let (r, rm, rest) ← operands? rex l
    if op = 0xAF then return (.imul rex.w r rm, rest)
    else if op = 0xB6 then return (.movzx rex.w r (byteOperand x rm), rest)
    else if op.toNat / 16 = 9 then return (.setcc (op.toNat % 16) (byteOperand x rm), rest)
    else none

/-- What comes after `C4`: the three bytes of the long vector prefix hold extension bits, inverted, a
third operand, inverted, and what kind of instruction the opcode means. -/
def vector? : List UInt8 → Option (Insn × List UInt8)
  | b₁ :: b₂ :: op :: l => do
    let x : Rex :=
      ⟨b₂.toNat.testBit 7, !b₁.toNat.testBit 7, !b₁.toNat.testBit 6, !b₁.toNat.testBit 5⟩
    let count : Gpr := Fin.ofNat 16 (15 - b₂.toNat / 8 % 16)
    let (dst, src, rest) ← operands? x l
    if b₁.toNat % 32 = 2 ∧ op = 0xF7 ∧ x.w = false ∧ b₂.toNat.testBit 2 = false then
      match b₂.toNat % 4 with
      | 1 => return (.shiftx .left dst src count, rest)
      | 2 => return (.shiftx .arithmetic dst src count, rest)
      | 3 => return (.shiftx .logical dst src count, rest)
      | _ => none
    else none
  | _ => none

/-- What an opcode after the extension byte, if there is one, stands for. -/
def opcode? (x : Option Rex) (op : UInt8) (l : List UInt8) : Option (Insn × List UInt8) :=
  let rex := x.getD .absent
  if op = 0x0F then second? x l
  else if op = 0xF7 then unary? rex l
  else if op = 0xC7 then store? rex l
  else if op.toNat / 8 = 0xB8 / 8 then immediate? rex op l
  else binary? rex op l

/-- The instruction that code begins with, and the bytes behind it. -/
def decode : List UInt8 → Option (Insn × List UInt8)
  | [] => none
  | b :: l =>
    if b = 0xC4 then vector? l
    else match Rex.ofByte? b with
      | none => opcode? none b l
      | some x =>
        match l with
        | [] => none
        | op :: rest => opcode? (some x) op rest

/-- Bytes that are these instructions, one behind the other, and nothing else. -/
inductive Decodes : List UInt8 → List Insn → Prop where
  | nil : Decodes [] []
  | cons {bytes rest : List UInt8} {i : Insn} {is : List Insn}
      (first : decode bytes = some (i, rest))
      (others : Decodes rest is) : Decodes bytes (i :: is)

/-! ### Executing instructions -/

structure Flags where
  carry : Bool
  parity : Bool
  zero : Bool
  sign : Bool
  overflow : Bool

/-- The flags of a result, with what is known of its carry and overflow. -/
def Flags.ofResult {n : Nat} (v : BitVec n) (carry overflow : Bool) : Flags where
  carry := carry
  parity := ((List.range 8).countP v.getLsbD) % 2 = 0
  zero := v == 0
  sign := v.msb
  overflow := overflow

/-- Whether a condition holds, by its number; an odd one is the opposite of the one before. -/
def Flags.holds (f : Flags) (cc : Nat) : Bool :=
  (cc % 2 == 1) != match cc / 2 with
    | 0 => f.overflow
    | 1 => f.carry
    | 2 => f.zero
    | 3 => f.carry || f.zero
    | 4 => f.sign
    | 5 => f.parity
    | 6 => f.sign != f.overflow
    | _ => f.zero || f.sign != f.overflow

/-- The number of the condition that the processor tests after a comparison. -/
def conditionCode : Cond → Fin 16
  | .eq => 4
  | .ne => 5
  | .lt => 12
  | .le => 14
  | .gt => 15
  | .ge => 13
  | .other _ => 0

/-- The processor between two instructions. -/
structure Cpu where
  regs : Gpr → BitVec 64
  flags : Flags
  mem : BitVec 64 → UInt8

namespace Cpu

def set (c : Cpu) (r : Gpr) (v : BitVec 64) : Cpu :=
  { c with regs := fun s => if s = r then v else c.regs s }

/-- The bytes from a place on. -/
def bytes (c : Cpu) : (count : Nat) → (place : BitVec 64) → Nat
  | 0, _ => 0
  | count + 1, place => (c.mem place).toNat + 256 * c.bytes count (place + 1)

/-- The number of `n` bits at a place. -/
def fetch (c : Cpu) (n : Nat) (place : BitVec 64) : BitVec n :=
  BitVec.ofNat n (c.bytes (n / 8) place)

/-- Puts a number at a place. -/
def store {n : Nat} (c : Cpu) (place : BitVec 64) (v : BitVec n) : Cpu :=
  { c with mem := fun a => (littleEndian (n / 8) v.toNat)[(a - place).toNat]?.getD (c.mem a) }

/-- Where an address lies. -/
def place (c : Cpu) (a : Address) : BitVec 64 :=
  (a.base.elim 0 c.regs) + (a.index.elim 0 fun (r, scale) =>
    c.regs r <<< scale) + a.disp.toBitVec.signExtend 64

/-- The value of an operand, as wide as it is asked for. -/
def read (c : Cpu) (n : Nat) : Operand → BitVec n
  | .reg r => (c.regs r).setWidth n
  | .mem a => c.fetch n (c.place a)

/-- Writes an operand of 32 or 64 bits; the upper half of a register becomes zero. -/
def write {n : Nat} (c : Cpu) (v : BitVec n) : Operand → Cpu
  | .reg r => c.set r (v.setWidth 64)
  | .mem a => c.store (c.place a) v

def readByte (c : Cpu) : ByteOperand → BitVec 8
  | .low r => (c.regs r).setWidth 8
  | .high r => (c.regs r).extractLsb' 8 8
  | .mem a => c.fetch 8 (c.place a)

/-- Writes one byte and leaves the others of a register as they are. -/
def writeByte (c : Cpu) (v : BitVec 8) : ByteOperand → Cpu
  | .low r => c.set r ((c.regs r).extractLsb' 8 56 ++ v)
  | .high r => c.set r ((c.regs r).extractLsb' 16 48 ++ v ++ (c.regs r).setWidth 8)
  | .mem a => c.store (c.place a) v

end Cpu

/-- The bits of an operand. -/
def bits : (wide : Bool) → Nat
  | true => 64
  | false => 32

namespace AluOp

variable {n : Nat}

def compute (a b : BitVec n) : AluOp → BitVec n
  | add => a + b
  | or => a ||| b
  | and => a &&& b
  | sub | cmp => a - b
  | xor => a ^^^ b

def flags (a b : BitVec n) (op : AluOp) : Flags :=
  match op with
  | add => .ofResult (a + b) (BitVec.uaddOverflow a b) (BitVec.saddOverflow a b)
  | sub | cmp => .ofResult (a - b) (BitVec.usubOverflow a b) (BitVec.ssubOverflow a b)
  | _ => .ofResult (op.compute a b) false false

end AluOp

/-- What a shift makes of 32 bits; only five bits of the count matter. -/
def ShiftOp.compute (v count : BitVec 32) : ShiftOp → BitVec 32
  | left => v <<< (count.toNat % 32)
  | arithmetic => v.sshiftRight (count.toNat % 32)
  | logical => v >>> (count.toNat % 32)

/-- What an instruction does. `junk` gives the flags that the processor leaves open. -/
def Insn.execute (junk : Cpu → Flags) (c : Cpu) : Insn → Cpu
  | mov wide dst src => c.write (c.read (bits wide) src) dst
  | movImm wide dst v => c.write (v.setWidth (bits wide)) dst
  | alu op wide dst src =>
    let a := c.read (bits wide) dst
    let b := c.read (bits wide) src
    let c' := match op with
      | .cmp => c
      | op => c.write (op.compute a b) dst
    { c' with flags := op.flags a b }
  | test wide x y =>
    { c with flags := .ofResult (c.read (bits wide) x &&& c.read (bits wide) y) false false }
  | imul wide dst src =>
    let a := c.read (bits wide) (.reg dst)
    let b := c.read (bits wide) src
    let o := BitVec.smulOverflow a b
    { c.write (a * b) (.reg dst) with flags := { junk c with carry := o, overflow := o } }
  | neg wide dst =>
    let a := c.read (bits wide) dst
    { c.write (-a) dst with flags := .ofResult (-a) (a != 0) (BitVec.negOverflow a) }
  | not wide dst => c.write (~~~ c.read (bits wide) dst) dst
  | movsxd dst src => c.set dst ((c.read 32 src).signExtend 64)
  | movzx wide dst src => c.write ((c.readByte src).setWidth (bits wide)) (.reg dst)
  | setcc cc dst => c.writeByte (if c.flags.holds cc then 1 else 0) dst
  | shiftx op dst src count =>
    c.write (op.compute (c.read 32 src) (c.read 32 (.reg count))) (.reg dst)

/-- Executes instructions one after the other. -/
def run (junk : Cpu → Flags) (c : Cpu) (is : List Insn) : Cpu := is.foldl (Insn.execute junk) c

end LoopTracer.Machine.X64
