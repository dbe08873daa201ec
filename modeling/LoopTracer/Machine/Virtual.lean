import LoopTracer.Machine.Target
import LoopTracer.Fault

/-! The portable instruction words.

Every instruction is one word of sixteen bytes: an operation, three small operands, a signed
field of 32 bits and a field of 64 bits, the least significant byte first. The distance of a
branch counts from the end of its word. -/
namespace LoopTracer.Machine.Virtual

def wordSize : Nat := 16

/-- The most bytes one request of the assembler may take. -/
def maxLength : Nat := 10 * wordSize

inductive Opcode where
  | nop | mov | movImm | load | store | binary | unary | compare | guard | jump | push | call
  | prologue | bailout
  | other (n : UInt8)
deriving DecidableEq

namespace Opcode

def all : Array Opcode := #[.nop, .mov, .movImm, .load, .store, .binary, .unary, .compare, .guard,
  .jump, .push, .call, .prologue, .bailout]

def ofByte (n : UInt8) : Opcode := numbered all .other n

def toByte : Opcode → UInt8
  | other n => n
  | op => op.ctorIdx.toUInt8

def name : Opcode → Text
  | nop => "nop"
  | mov => "mov"
  | movImm => "movi"
  | load => "ld"
  | store => "st"
  | binary => "bin"
  | unary => "un"
  | compare => "cmp"
  | guard => "guard"
  | jump => "jmp"
  | push => "push"
  | call => "call"
  | prologue => "enter"
  | bailout => "bail"
  | other n => "op" ++ .ofNat n.toNat

end Opcode

/-- The fields of an instruction word. -/
structure Word where
  op : Opcode
  a : UInt8 := 0
  b : UInt8 := 0
  c : UInt8 := 0
  x : Int32 := 0
  y : UInt64 := 0

namespace Word

def bytes (w : Word) : List UInt8 :=
  [w.op.toByte, w.a, w.b, w.c] ++ littleEndian 4 w.x.toUInt32.toNat ++ littleEndian 8 w.y.toNat

/-- The word that starts at a place of the code. -/
def read (mem : Memory) (place : Nat) : Word :=
  let (bytes, start) := mem.window place wordSize
  { op := .ofByte (bytes[start]?.getD 0)
    a := bytes[start + 1]?.getD 0
    b := bytes[start + 2]?.getD 0
    c := bytes[start + 3]?.getD 0
    x := (readLittle bytes (start + 4) 4).toUInt32.toInt32
    y := (readLittle bytes (start + 8) 8).toUInt64 }

end Word

/-- The classes of a call's arguments, two bits for each, the first one lowest. -/
def classBits (args : List SizeClass) : UInt64 :=
  let step (acc : Nat) (c : SizeClass) (i : Nat) := acc ||| (c.toByte.toNat <<< (2 * i))
  (args.zipIdx.foldl (fun acc (c, i) => step acc c i) 0).toUInt64

/-- The word of an instruction whose last byte comes right before `pos`; moving a register to
itself takes none. -/
def word? (pos : CodeAddr) : Instr → Option Word
  | .mov dst src =>
    if dst == src then none else some { op := .mov, a := dst.byte, b := src.byte }
  | .movImm dst v => some { op := .movImm, a := dst.byte, y := v }
  | .load dst base disp => some { op := .load, a := dst.byte, b := base.byte, x := disp }
  | .store base disp src => some { op := .store, a := base.byte, b := src.byte, x := disp }
  | .binary op dst a b =>
    some { op := .binary, a := dst.byte, b := a.byte, c := b.byte, x := op.toByte.toUInt32.toInt32 }
  | .unary op dst a =>
    some { op := .unary, a := dst.byte, b := a.byte, x := op.toByte.toUInt32.toInt32 }
  | .compare cond float dst a b =>
    some { op := .compare, a := dst.byte, b := a.byte, c := b.byte
           x := cond.toByte.toUInt32.toInt32, y := if float then 1 else 0 }
  | .guard cond r target =>
    some { op := .guard, a := r.byte, b := cond.toByte, x := distance target (endOf pos) }
  | .jump target => some { op := .jump, x := distance target (endOf pos) }
  | .push r => some { op := .push, a := r.byte }
  | .call spec =>
    some { op := .call, a := spec.args.length.toUInt8, b := spec.ret.toByte
           c := (spec.stackArgs virtualTarget).toUInt8, x := spec.index, y := classBits spec.args }
  | .prologue slots => some { op := .prologue, x := Int32.ofInt slots }
  | .bailout => some { op := .bailout }
where
  /-- The end of a branch that ends right before `pos`. -/
  endOf (pos : CodeAddr) : Int := ((pos - 16).toNat : Int) + 16

/-- The bytes of an instruction that is written right before `pos`. -/
def encode (pos : CodeAddr) (i : Instr) : List UInt8 := (word? pos i).elim [] Word.bytes

/-- The operand field of a branch, if it lies inside the code. -/
def field? (mem : Memory) (site : CodeAddr) : Option Nat :=
  let lo := (site + 4).toNat
  let hi := (site + 8).toNat
  if lo ≤ hi && hi ≤ mem.size then some lo else none

/-- Makes the branch at `site` lead to `target`. -/
def patch (mem : Memory) (site target : CodeAddr) : Except Fault Memory :=
  match mem.get? site.toNat with
  | none => .error .bounds
  | some b =>
    let op := Opcode.ofByte b
    if op != .jump && op != .guard then .error (.notBranch site.render op.name)
    else match field? mem site with
      | none => .error .bounds
      | some lo =>
        let d := distance target ((site.toNat : Int) + wordSize)
        .ok (mem.write lo (littleEndian 4 d.toUInt32.toNat))

/-- Where a branch at `site` over a signed distance leads. -/
def destination (site : Nat) (x : Int32) : CodeAddr :=
  UInt32.ofInt ((site : Int) + wordSize + x.toInt)

/-- Where the branch at `site` leads. -/
def branchTarget (mem : Memory) (site : CodeAddr) : Except Fault CodeAddr :=
  match field? mem site with
  | none => .error .bounds
  | some lo => .ok (destination site.toNat (mem.readLittle lo 4).toUInt32.toInt32)

/-! ### Listing -/

/-- A number with its sign, plus included. -/
def signed (n : Int) : Text := if n < 0 then .ofInt n else "+" ++ .ofInt n

/-- The operands of a word as a listing shows them. -/
def operands (place : Nat) (w : Word) : Text :=
  let reg (b : UInt8) : Text := virtualTarget.regName b.toInt8
  let low : UInt8 := w.x.toUInt32.toUInt8
  match w.op with
  | .mov => reg w.a ++ ", " ++ reg w.b
  | .movImm => reg w.a ++ ", " ++ .ofInt w.y.toInt64.toInt
  | .load => reg w.a ++ ", [" ++ reg w.b ++ signed w.x.toInt ++ "]"
  | .store => "[" ++ reg w.a ++ signed w.x.toInt ++ "], " ++ reg w.b
  | .binary => (Op.ofByte low).name ++ " " ++ reg w.a ++ ", " ++ reg w.b ++ ", " ++ reg w.c
  | .unary => (Op.ofByte low).name ++ " " ++ reg w.a ++ ", " ++ reg w.b
  | .compare =>
    (if w.y != 0 then Text.ofString "f" else ∅) ++ (Cond.ofByte low).name ++ " " ++ reg w.a ++ ", "
      ++ reg w.b ++ ", " ++ reg w.c
  | .guard => (GuardCond.ofByte w.b).name ++ " " ++ reg w.a ++ ", " ++ (destination place w.x).render
  | .jump => (destination place w.x).render
  | .push => reg w.a
  | .call => "#" ++ .ofInt w.x.toInt ++ " args=" ++ .ofNat w.a.toNat ++ " stack=" ++ .ofNat w.c.toNat
  | .prologue => .ofInt w.x.toInt
  | _ => ∅

/-- The lines of the `n` words from `place` on. -/
def lines (mem : Memory) (place n : Nat) : Text :=
  (List.range n).foldl (fun acc i =>
    let at_ := place + i * wordSize
    let w := Word.read mem at_
    acc ++ CodeAddr.render at_.toUInt32 ++ "  " ++ w.op.name.padRight 6 ++ operands at_ w ++ "\n") ∅

/-- The words from `start` up to `stop`, one line each. The end of a word is an address, so it
wraps around; a word outside the memory is a fault. -/
def listing (mem : Memory) (start stop : CodeAddr) : Except Fault Text :=
  let next := start + 16
  if stop < next then .ok ∅
  else
    let n := (stop.toNat - start.toNat) / wordSize
    if next < start || mem.size < start.toNat + n * wordSize then .error .bounds
    else .ok (lines mem start.toNat n)

end LoopTracer.Machine.Virtual
