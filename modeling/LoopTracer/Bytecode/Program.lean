import LoopTracer.Bytecode.Opcode
import LoopTracer.Bytecode.Value

/-! Code, functions and programs.

A `Chunk` is the code of one function with its constants and the source line of every code
byte. Reading an operand outside the code has no answer, so those reads are partial; verified
code never meets that case. -/
namespace LoopTracer.Bytecode

structure Chunk where
  code : ByteArray := .empty
  constants : Array Value := #[]
  /-- The source line of every code byte. -/
  lines : Array Int := #[]
deriving Inhabited

namespace Chunk

def size (c : Chunk) : Nat := c.code.size

/-! ### Writing -/

def write (c : Chunk) (b : UInt8) (line : Int) : Chunk :=
  { c with code := c.code.push b, lines := c.lines.push line }

def writeOp (c : Chunk) (op : Opcode) (line : Int) : Chunk := c.write op.toByte line

/-- Two bytes, the most significant first. -/
def writeU16 (c : Chunk) (n : UInt16) (line : Int) : Chunk :=
  (c.write (n >>> 8).toUInt8 line).write n.toUInt8 line

/-- The place of a constant in the pool, an identical one being used again. Places are counted
in sixteen bits. -/
def addConstant (c : Chunk) (v : Value) : Chunk × UInt16 :=
  match c.constants.findIdx? (·.identical v) with
  | some i => (c, i.toUInt16)
  | none => ({ c with constants := c.constants.push v }, c.constants.size.toUInt16)

/-- Overwrites two bytes of code. -/
def putU16? (c : Chunk) (offset : Int) (n : UInt16) : Option Chunk :=
  if 0 ≤ offset && offset + 2 ≤ c.size then
    let i := offset.toNat
    some { c with code := (c.code.set! i (n >>> 8).toUInt8).set! (i + 1) n.toUInt8 }
  else none

/-! ### Reading -/

/-- The code byte at an offset. -/
def byte? (c : Chunk) (offset : Int) : Option UInt8 :=
  if 0 ≤ offset then c.code[offset.toNat]? else none

/-- Two code bytes as a number. -/
def u16? (c : Chunk) (offset : Int) : Option UInt16 := do
  let hi ← c.byte? offset
  let lo ← c.byte? (offset + 1)
  return (hi.toUInt16 <<< 8) ||| lo.toUInt16

/-- Two code bytes as a signed number. -/
def i16? (c : Chunk) (offset : Int) : Option Int := (c.u16? offset).map fun n => n.toInt16.toInt

/-- Where the jump or loop instruction at an offset leads; `-1` for any other instruction. -/
def target? (c : Chunk) (offset : Int) : Option Int := do
  let b ← c.byte? offset
  let next := offset + byteSize b
  match byteOperand b with
  | .jump => return next + (← c.i16? (offset + 1))
  | .loop => return next - (← c.u16? (offset + 1)).toNat
  | _ => return -1

/-- The source line of the byte at an offset, zero where there is none. -/
def line (c : Chunk) (offset : Int) : Int :=
  if 0 ≤ offset then c.lines[offset.toNat]?.getD 0 else 0

end Chunk

structure Function where
  /-- Names the function within its program. -/
  id : UInt32
  name : Text
  /-- The parameters are the first locals. -/
  arity : Int
  locals : Int
  /-- The greatest operand stack depth, as the depth analysis found it. -/
  maxStack : Int := 0
  chunk : Option Chunk
deriving Inhabited

namespace Function

/-- A function as messages name it: its name and its number of parameters. -/
def signature (f : Function) : Text := f.name ++ "/" ++ .ofInt f.arity

end Function

/-- Where a program starts. -/
inductive Entry where
  | absent
  /-- A function of the program by its place. -/
  | listed (index : Nat)
  /-- A function that is not one of the program's. -/
  | stray (f : Function)
deriving Inhabited

structure Program where
  functions : Array Function := #[]
  main : Entry := .absent
deriving Inhabited

namespace Program

/-- The place of the first function of a name. -/
def lookup? (p : Program) (name : Text) : Option Nat :=
  p.functions.findIdx? (·.name == name)

/-- The function that a program starts with. -/
def mainFunction? (p : Program) : Option Function :=
  match p.main with
  | .absent => none
  | .listed i => p.functions[i]?
  | .stray f => some f

/-- The value that refers to a function of the program, as unit `unit`. -/
def reference (p : Program) (unit index : Nat) : Value :=
  .func (p.functions[index]?.map fun f => ⟨unit, index, f.name⟩)

end Program

/-- The value as a constant of the program loaded as unit `unit`. -/
def Value.inUnit (unit : Nat) : Value → Value
  | .func (some f) => .func (some { f with unit })
  | v => v

/-- The program as loaded unit `unit`: its function constants refer to that unit. -/
def Program.asUnit (p : Program) (unit : Nat) : Program :=
  { p with functions := p.functions.map fun f =>
      { f with chunk := f.chunk.map fun c =>
          { c with constants := c.constants.map (Value.inUnit unit) } } }

end LoopTracer.Bytecode
