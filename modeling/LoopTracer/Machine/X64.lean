import LoopTracer.Machine.Target
import LoopTracer.Fault

/-! x86-64 encodings.

Registers have their hardware numbers. Code keeps the interpreter's slots in `r15` and spill
slots under `rbp`; `r11` and two vector registers are scratch. Each form below is the byte
sequence of one processor instruction, and `encode` joins the forms of one request. -/
namespace LoopTracer.Machine.X64

/-- The most bytes one request of the assembler may take. -/
def maxLength : Nat := 96

/-! ### Parts of an instruction -/

def rex (w r x b : Bool) : UInt8 :=
  0x40 ||| (if w then 8 else 0) ||| (if r then 4 else 0) ||| (if x then 2 else 0)
    ||| (if b then 1 else 0)

/-- The byte that names the addressing mode and two operands. -/
def modrm (mode reg rm : UInt8) : UInt8 := (mode <<< 6) ||| (reg <<< 3) ||| rm

/-- Whether a register needs an extension bit. -/
def high (r : Reg) : Bool := 8 ≤ r

/-- The three bits of a register that fit in the operand byte. -/
def low (r : Reg) : UInt8 := r.byte &&& 7

/-- The extension byte of a 32-bit form, where it needs one. -/
def optRex (r b : Reg) : List UInt8 :=
  if high r || high b then [rex false (high r) false (high b)] else []

def int32Bytes (n : Int32) : List UInt8 := littleEndian 4 n.toUInt32.toNat

/-- Whether a displacement fits in a byte. -/
def isShort (n : Int32) : Bool := -128 ≤ n && n ≤ 127

/-- The operand `[base + disp]` with the other operand `reg`. -/
def memory (reg : UInt8) (base : Reg) (disp : Int32) : List UInt8 :=
  let rm := low base
  let sib : List UInt8 := if rm == 4 then [0x24] else []
  if disp == 0 && rm != 5 then modrm 0 reg rm :: sib
  else if isShort disp then modrm 1 reg rm :: sib ++ [disp.toUInt32.toUInt8]
  else modrm 2 reg rm :: sib ++ int32Bytes disp

/-! ### Processor instructions -/

def movRR (dst src : Reg) : List UInt8 :=
  if dst == src then [] else [rex true (high src) false (high dst), 0x89, modrm 3 (low src) (low dst)]

/-- A 64-bit operation `dst := dst op src`. -/
def alu (opcode : UInt8) (dst src : Reg) : List UInt8 :=
  [rex true (high src) false (high dst), opcode, modrm 3 (low src) (low dst)]

/-- The 32-bit form of the same. -/
def alu32 (opcode : UInt8) (dst src : Reg) : List UInt8 :=
  optRex src dst ++ [opcode, modrm 3 (low src) (low dst)]

def imul (wide : Bool) (dst src : Reg) : List UInt8 :=
  (if wide then [rex true (high dst) false (high src)] else optRex dst src)
    ++ [0x0F, 0xAF, modrm 3 (low dst) (low src)]

/-- Sign-extends the lower half of a register. -/
def movsxd (r : Reg) : List UInt8 :=
  [rex true (high r) false (high r), 0x63, modrm 3 (low r) (low r)]

def movqToXmm (xmm : UInt8) (r : Reg) : List UInt8 :=
  [0x66, rex true (8 ≤ xmm) false (high r), 0x0F, 0x6E, modrm 3 (xmm &&& 7) (low r)]

def movqFromXmm (r : Reg) (xmm : UInt8) : List UInt8 :=
  [0x66, rex true (8 ≤ xmm) false (high r), 0x0F, 0x7E, modrm 3 (xmm &&& 7) (low r)]

/-- A scalar operation on two vector registers. -/
def sse (opcode dst src : UInt8) : List UInt8 :=
  [0xF2, rex false (8 ≤ dst) false (8 ≤ src), 0x0F, opcode, modrm 3 (dst &&& 7) (src &&& 7)]

def ucomisd (x y : UInt8) : List UInt8 :=
  [0x66, rex false (8 ≤ x) false (8 ≤ y), 0x0F, 0x2E, modrm 3 (x &&& 7) (y &&& 7)]

/-- Sets the lowest byte of a register from the flags. -/
def setcc (cc : UInt8) (r : Reg) : List UInt8 :=
  [rex false false false (high r), 0x0F, cc, modrm 3 0 (low r)]

/-- Zero-extends the lowest byte of a register. -/
def movzx8 (r : Reg) : List UInt8 :=
  [rex false (high r) false (high r), 0x0F, 0xB6, modrm 3 (low r) (low r)]

/-- The shifts that leave the flags and the count alone. -/
def shiftx (pp : UInt8) (dst src count : Reg) : List UInt8 :=
  let b1 : UInt8 := 0x02 ||| (if high dst then 0 else 0x80) ||| 0x40 ||| (if high src then 0 else 0x20)
  let b2 : UInt8 := ((~~~ count.byte &&& 0x0F) <<< 3) ||| pp
  [0xC4, b1, b2, 0xF7, modrm 3 (low dst) (low src)]

def pushReg (r : Reg) : List UInt8 :=
  (if high r then [rex false false false true] else []) ++ [0x50 + low r]

def popReg (r : Reg) : List UInt8 :=
  (if high r then [rex false false false true] else []) ++ [0x58 + low r]

/-- Adds to (`0`) or subtracts from (`5`) the stack pointer. -/
def adjustStack (ext : UInt8) (n : Int32) : List UInt8 :=
  if isShort n then [rex true false false false, 0x83, modrm 3 ext 4, n.toUInt32.toUInt8]
  else [rex true false false false, 0x81, modrm 3 ext 4] ++ int32Bytes n

/-- The shortest of three forms that loads a number. -/
def loadImm (dst : Reg) (v : UInt64) : List UInt8 :=
  if v ≤ 0xFFFFFFFF then optRex 0 dst ++ [0xB8 + low dst] ++ littleEndian 4 v.toNat
  else if 0xFFFFFFFF80000000 ≤ v then
    [rex true false false (high dst), 0xC7, modrm 3 0 (low dst)] ++ littleEndian 4 v.toNat
  else [rex true false false (high dst), 0xB8 + low dst] ++ littleEndian 8 v.toNat

/-! ### Requests -/

/-- The two vector registers that float operations use. -/
def xmmA : UInt8 := 15
def xmmB : UInt8 := 14

/-- The opcode of a two-operand integer operation. -/
def aluOpcode? : Op → Option UInt8
  | .add | .addOv => some 0x01
  | .sub | .subOv => some 0x29
  | .and => some 0x21
  | .or => some 0x09
  | .xor => some 0x31
  | _ => none

def sseOpcode? : Op → Option UInt8
  | .fadd => some 0x58
  | .fsub => some 0x5C
  | .fmul => some 0x59
  | .fdiv => some 0x5E
  | _ => none

/-- Brings the first operand into `dst`: the moves, and where the second operand is then. -/
def arrange (op : Op) (dst x y : Reg) : List UInt8 × Reg :=
  if dst == x then ([], y)
  else if dst == y then
    if op.commutative then ([], x)
    else (movRR x64Target.scratch y ++ movRR dst x, x64Target.scratch)
  else (movRR dst x, y)

def binary (op : Op) (dst x y : Reg) : Except Fault (List UInt8) :=
  match op with
  | .shl32 => .ok (shiftx 1 dst x y ++ movsxd dst)
  | .sar32 => .ok (shiftx 2 dst x y ++ movsxd dst)
  | _ =>
    match sseOpcode? op with
    | some opcode =>
      .ok (movqToXmm xmmA x ++ movqToXmm xmmB y ++ sse opcode xmmA xmmB ++ movqFromXmm dst xmmA)
    | none =>
      let (moves, src) := arrange op dst x y
      match op with
      | .mul => .ok (moves ++ imul true dst src)
      | .mulOv => .ok (moves ++ imul false dst src ++ movsxd dst)
      | _ =>
        match aluOpcode? op with
        | none => .error (.binaryForm op.name)
        | some opcode =>
          .ok (moves ++ if op.setsOverflow then alu32 opcode dst src ++ movsxd dst
            else alu opcode dst src)

def unary (op : Op) (dst x : Reg) : Except Fault (List UInt8) :=
  match op with
  | .neg => .ok (movRR dst x ++ [rex true false false (high dst), 0xF7, modrm 3 3 (low dst)])
  | .not => .ok (movRR dst x ++ [rex true false false (high dst), 0xF7, modrm 3 2 (low dst)])
  | .negOv => .ok (movRR dst x ++ optRex 0 dst ++ [0xF7, modrm 3 3 (low dst)] ++ movsxd dst)
  | .fneg =>
    .ok (movRR dst x ++ [rex true false false (high dst), 0x0F, 0xBA, modrm 3 7 (low dst), 63])
  | .i2f =>
    .ok ([0xF2, rex true true false (high x), 0x0F, 0x2A, modrm 3 (xmmA &&& 7) (low x)]
      ++ movqFromXmm dst xmmA)
  | _ => .error (.unaryForm op.name)

/-- The flag test of an integer comparison. -/
def intFlag : Cond → UInt8
  | .eq => 0x94
  | .ne => 0x95
  | .lt => 0x9C
  | .le => 0x9E
  | .gt => 0x9F
  | .ge => 0x9D
  | .other _ => 0

/-- Compares floats so that an unordered pair makes every condition but `ne` false. -/
def floatFlags (cond : Cond) (dst : Reg) : List UInt8 :=
  let s := x64Target.scratch
  let both (opcode : UInt8) : List UInt8 :=
    [rex false (high s) false (high dst), opcode, modrm 3 (low s) (low dst)]
  match cond with
  | .eq => ucomisd xmmA xmmB ++ setcc 0x94 dst ++ setcc 0x9B s ++ both 0x20
  | .ne => ucomisd xmmA xmmB ++ setcc 0x95 dst ++ setcc 0x9A s ++ both 0x08
  | .lt => ucomisd xmmB xmmA ++ setcc 0x97 dst
  | .le => ucomisd xmmB xmmA ++ setcc 0x93 dst
  | .gt => ucomisd xmmA xmmB ++ setcc 0x97 dst
  | .ge => ucomisd xmmA xmmB ++ setcc 0x93 dst
  | .other _ => []

def compare (cond : Cond) (float : Bool) (dst x y : Reg) : List UInt8 :=
  if float then movqToXmm xmmA x ++ movqToXmm xmmB y ++ floatFlags cond dst ++ movzx8 dst
  else alu 0x39 x y ++ setcc (intFlag cond) dst ++ movzx8 dst

/-- The distance field of a branch that ends where the code at `pos` begins; `size` is the
length of the branch. -/
def branchField (pos target : CodeAddr) (size : Nat) : List UInt8 :=
  int32Bytes (distance target (((pos - size.toUInt32).toNat : Int) + size))

def guard (pos : CodeAddr) (cond : GuardCond) (r : Reg) (target : CodeAddr) : List UInt8 :=
  let test : List UInt8 := [rex true (high r) false (high r), 0x85, modrm 3 (low r) (low r)]
  let branch (cc : UInt8) : List UInt8 := [0x0F, cc] ++ branchField pos target 6
  match cond with
  | .zero => test ++ branch 0x84
  | .nonZero => test ++ branch 0x85
  | .overflow => branch 0x80
  | .other _ => branch 0

/-- Narrows integer arguments, calls through the scratch register, drops stack arguments and
narrows an integer result. -/
def call (spec : CallSpec) : List UInt8 :=
  let t := x64Target
  let args := (spec.args.zip t.argRegs).flatMap fun (c, r) => if c == .int then movsxd r else []
  let words := spec.stackWords t
  args ++ loadImm t.scratch spec.address ++ [0x41, 0xFF, modrm 3 2 (low t.scratch)]
    ++ (if words == 0 then [] else adjustStack 0 (Int32.ofNat (8 * words)))
    ++ (if spec.ret == .int then movsxd t.retReg else [])

/-- Saves registers and makes room for the spill slots, keeping the stack aligned. -/
def prologue (slots : Int) : List UInt8 :=
  let n := Int32.ofInt slots * 8
  let n := if n % 16 == 0 then n + 8 else n
  pushReg 5 ++ movRR 5 4 ++ x64Saved.flatMap pushReg ++ adjustStack 5 n
    ++ movRR x64Target.stateBase 7

/-- Restores registers and returns. -/
def bailout : List UInt8 :=
  [rex true false false false, 0x8D] ++ memory 4 5 (-8 * Int32.ofNat x64Saved.length)
    ++ x64Saved.reverse.flatMap popReg ++ popReg 5 ++ [0xC3]

/-- The bytes of a request that is written right before `pos`. -/
def encode (pos : CodeAddr) : Instr → Except Fault (List UInt8)
  | .mov dst src => .ok (movRR dst src)
  | .movImm dst v => .ok (loadImm dst v)
  | .load dst base disp =>
    .ok ([rex true (high dst) false (high base), 0x8B] ++ memory (low dst) base disp)
  | .store base disp src =>
    .ok ([rex true (high src) false (high base), 0x89] ++ memory (low src) base disp)
  | .binary op dst a b => binary op dst a b
  | .unary op dst a => unary op dst a
  | .compare cond float dst a b => .ok (compare cond float dst a b)
  | .guard cond r target => .ok (guard pos cond r target)
  | .jump target => .ok (0xE9 :: branchField pos target 5)
  | .push r => .ok (pushReg r)
  | .call spec => .ok (call spec)
  | .prologue slots => .ok (prologue slots)
  | .bailout => .ok bailout

/-! ### Branches in place -/

/-- The distance field and the end of the branch at `site`. -/
def branchAt (mem : Memory) (site : CodeAddr) : Except Fault (CodeAddr × CodeAddr) :=
  match mem.get? site.toNat with
  | none => .error .bounds
  | some 0xE9 => .ok (site + 1, site + 5)
  | some 0x0F =>
    match mem.get? (site + 1).toNat with
    | none => .error .bounds
    | some b => if b &&& 0xF0 == 0x80 then .ok (site + 2, site + 6) else .error (.noBranch site.render)
  | some _ => .error (.noBranch site.render)

/-- Makes the branch at `site` lead to `target`. -/
def patch (mem : Memory) (site target : CodeAddr) : Except Fault Memory := do
  let (field, stop) ← branchAt mem site
  if mem.size < field.toNat + 4 then .error .bounds
  return mem.write field.toNat (int32Bytes (distance target stop.toNat))

/-- Where the branch at `site` leads. -/
def branchTarget (mem : Memory) (site : CodeAddr) : Except Fault CodeAddr := do
  let (field, stop) ← branchAt mem site
  if mem.size < field.toNat + 4 then .error .bounds
  let d := (mem.readLittle field.toNat 4).toUInt32.toInt32
  return UInt32.ofInt ((stop.toNat : Int) + d.toInt)

/-- The lines of the bytes from `place` up to `stop`, sixteen to a line. -/
def hexLines (mem : Memory) (place stop : Nat) : Text :=
  (List.range ((stop - place + 15) / 16)).foldl (fun acc i =>
    let from_ := place + 16 * i
    let row := (mem.extract from_ (min (from_ + 16) stop)).data.toList
    acc ++ CodeAddr.render from_.toUInt32 ++ " " ++ Text.concat (row.map fun b => " " ++ Text.hex b.toNat 2)
      ++ "\n") ∅

/-- The bytes from `start` up to `stop`, sixteen to a line; a byte outside the memory is a
fault. -/
def hexDump (mem : Memory) (start stop : CodeAddr) : Except Fault Text :=
  if start < stop && mem.size < stop.toNat then .error .bounds
  else .ok (hexLines mem start.toNat stop.toNat)

end LoopTracer.Machine.X64
