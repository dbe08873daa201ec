import LoopTracer.Machine.Virtual
import LoopTracer.Number.Binary64

/-! Running the portable instruction words.

The machine has sixteen registers, an overflow flag, the interpreter's slots, an activation
record and a stack of call arguments. Only slots and record can be addressed. A call destroys
the registers that the target calls caller-saved. What a helper does is the host's business:
`Host` says how a call by number acts on an environment `η`. -/
namespace LoopTracer.Machine

/-- Why a run stopped short of a bailout. -/
inductive RunError where
  | badPc (pc : Int)
  | badBase (register : Text)
  | badCell (register : Text) (disp : Int)
  | stepLimit (steps : Nat)
  | badOpcode (opcode : UInt8) (pc : Int)
  | badGuard (cond : UInt8) (pc : Int)
  | badBinary (op : Op)
  | badUnary (op : Op)
  | noHelpers (index : Int)
  | stackArgs (index : Int) (wanted have_ : Nat)

namespace RunError

/-- The general kind of an error. -/
inductive Kind where
  | badInstruction
  | stepLimit
  | badAddress

def Kind.message : Kind → Text
  | badInstruction => "machine: bad instruction"
  | stepLimit => "machine: step limit exceeded"
  | badAddress => "machine: address out of range"

def kind : RunError → Kind
  | badPc _ | badBase _ | badCell .. => .badAddress
  | stepLimit _ => .stepLimit
  | _ => .badInstruction

/-- A number in base sixteen after its sign and `0x`. -/
def hexInt (n : Int) : Text :=
  (if n < 0 then Text.ofString "-0x" else "0x") ++ Text.hex n.natAbs 1

def detail : RunError → Text
  | badPc pc => "pc " ++ hexInt pc
  | badBase r => "base register " ++ r
  | badCell r disp => "[" ++ r ++ Virtual.signed disp ++ "]"
  | stepLimit n => "after " ++ .ofNat n ++ " steps"
  | badOpcode op pc => "opcode " ++ .ofNat op.toNat ++ " at " ++ hexInt pc
  | badGuard c pc => "guard condition " ++ .ofNat c.toNat ++ " at " ++ hexInt pc
  | badBinary op => "binary op " ++ op.name
  | badUnary op => "unary op " ++ op.name
  | noHelpers i => "call #" ++ .ofInt i ++ " without helper table"
  | stackArgs i wanted have_ =>
    "call #" ++ .ofInt i ++ " expects " ++ .ofNat wanted ++ " stack args, have " ++ .ofNat have_

def message (e : RunError) : Text := e.detail ++ ": " ++ e.kind.message

end RunError

/-- How helpers act on an environment; `none` where there are no helpers. -/
abbrev Host (η : Type) := Option (Int32 → List UInt64 → η → Except Fault (UInt64 × η))

/-- An activation record: zeroed words, kept up to the last one that was written. -/
structure Frame where
  size : Nat := 0
  words : Array UInt64 := #[]
deriving Inhabited

namespace Frame

def get (f : Frame) (i : Nat) : UInt64 := f.words[i]?.getD 0

def set (f : Frame) (i : Nat) (v : UInt64) : Frame :=
  { f with words := ((f.words ++ Array.replicate (i + 1 - f.words.size) 0).set! i v) }

def toArray (f : Frame) : Array UInt64 := f.words ++ Array.replicate (f.size - f.words.size) 0

end Frame

/-- The machine between two instructions. -/
structure State where
  regs : Array UInt64 := Array.replicate 16 0
  overflow : Bool := false
  frame : Frame := {}
  args : Array UInt64 := #[]
  /-- The interpreter's slots. -/
  slots : Array UInt64 := #[]
  steps : Nat := 0
deriving Inhabited

/-! ### Values -/

/-- The lower 32 bits, sign-extended. -/
def narrow32 (v : UInt64) : UInt64 := v.toUInt32.toInt32.toInt64.toUInt64

/-- A value as its class passes it. -/
def narrow (c : SizeClass) (v : UInt64) : UInt64 := if c == .int then narrow32 v else v

/-- The lower 32 bits as a signed number. -/
def int32 (v : UInt64) : Int := v.toUInt32.toInt32.toInt

/-- A result of 32 bits, and whether it did not fit. -/
def checked (n : Int) : UInt64 × Bool :=
  ((Int32.ofInt n).toInt64.toUInt64, n < -2147483648 || 2147483647 < n)

/-- The number of places a 32-bit shift moves. -/
def shiftCount (v : UInt64) : UInt32 := v.toUInt32 &&& 31

def floatOp (f : Binary64 → Binary64 → Binary64) (a b : UInt64) : UInt64 := (f ⟨a⟩ ⟨b⟩).bits

/-- The result of an operation on two values, and the overflow flag where it is set. -/
def Op.binary? (op : Op) (a b : UInt64) : Option (UInt64 × Option Bool) :=
  let plain (v : UInt64) : Option (UInt64 × Option Bool) := some (v, none)
  let tested (n : Int) : Option (UInt64 × Option Bool) :=
    let (v, o) := checked n
    some (v, some o)
  match op with
  | .add => plain (a + b)
  | .sub => plain (a - b)
  | .mul => plain (a * b)
  | .and => plain (a &&& b)
  | .or => plain (a ||| b)
  | .xor => plain (a ^^^ b)
  | .shl32 => plain (narrow32 (a.toUInt32 <<< shiftCount b).toUInt64)
  | .sar32 => plain (a.toUInt32.toInt32 >>> (shiftCount b).toInt32).toInt64.toUInt64
  | .addOv => tested (int32 a + int32 b)
  | .subOv => tested (int32 a - int32 b)
  | .mulOv => tested (int32 a * int32 b)
  | .fadd => plain (floatOp .add a b)
  | .fsub => plain (floatOp .sub a b)
  | .fmul => plain (floatOp .mul a b)
  | .fdiv => plain (floatOp .div a b)
  | _ => none

/-- The result of an operation on one value. -/
def Op.unary? (op : Op) (a : UInt64) : Option (UInt64 × Option Bool) :=
  match op with
  | .neg => some (0 - a, none)
  | .not => some (~~~ a, none)
  | .negOv =>
    let (v, o) := checked (-(int32 a))
    some (v, some o)
  | .fneg => some ((Binary64.neg ⟨a⟩).bits, none)
  | .i2f => some ((Binary64.ofInt a.toInt64.toInt).bits, none)
  | _ => none

/-- Whether a condition holds between two values. -/
def Cond.holds (c : Cond) (float : Bool) (a b : UInt64) : Bool :=
  if float then
    let x : Binary64 := ⟨a⟩
    let y : Binary64 := ⟨b⟩
    match c with
    | .eq => x.eq y
    | .ne => !x.eq y
    | .lt => x.lt y
    | .le => x.le y
    | .gt => y.lt x
    | .ge => y.le x
    | .other _ => false
  else
    let m := a.toInt64
    let n := b.toInt64
    match c with
    | .eq => m == n
    | .ne => m != n
    | .lt => m < n
    | .le => m ≤ n
    | .gt => n < m
    | .ge => n ≤ m
    | .other _ => false

/-! ### Steps -/

/-- Where a step leads. -/
inductive Next where
  | at (pc : Int)
  /-- A bailout with the guard number. -/
  | done (id : UInt64)
  | error (e : RunError)
  | fault (f : Fault)

/-- The machine and its environment after a step, and where the step leads. -/
abbrev Step (η : Type) := State × η × Next

/-- Goes on with the contents of a register, if there is one of that number. -/
@[inline] def reading {η : Type} (m : State) (env : η) (r : UInt8) (k : UInt64 → Step η) : Step η :=
  match m.regs[r.toNat]? with
  | some v => k v
  | none => (m, env, .fault .bounds)

/-- Writes a register and goes on at `pc`. -/
@[inline] def writing {η : Type} (m : State) (env : η) (r : UInt8) (v : UInt64) (pc : Int) : Step η :=
  if r.toNat < m.regs.size then ({ m with regs := m.regs.set! r.toNat v }, env, .at pc)
  else (m, env, .fault .bounds)

/-- The blocks of cells that can be addressed. -/
inductive Block where
  | slots
  | frame

/-- The cell at `[base + disp]`. -/
def State.cell (m : State) (base : UInt8) (disp : Int32) : Except RunError (Block × Nat) :=
  let d := disp.toInt
  let name := virtualTarget.regName base.toInt8
  let within (block : Block) (size : Nat) : Except RunError (Block × Nat) :=
    if d < 0 || d % 8 != 0 || (size : Int) ≤ d / 8 then .error (.badCell name d)
    else .ok (block, (d / 8).toNat)
  if base == virtualTarget.stateBase.byte then within .slots m.slots.size
  else if base == virtualTarget.frameBase.byte then within .frame m.frame.size
  else .error (.badBase name)

/-- The argument of a call at a position: the first ones are in registers, and the last one
pushed is the first of the others. -/
def State.argument? (m : State) (regArgs : Int) (i : Nat) : Option UInt64 :=
  if i < regArgs then virtualTarget.argRegs[i]?.bind fun r => m.regs[r.byte.toNat]?
  else m.args[((m.args.size : Int) - 1 - (i - regArgs)).toNat]?

/-- What destroyed registers hold after a call. -/
def destroyed : UInt64 := 0xDEADBEEFDEADBEEF

/-- A helper call: `n` arguments, `onStack` of them on the stack, their classes in pairs of
bits of a signed number. -/
def callHelper {η : Type} (host : Host η) (m : State) (env : η) (n : Nat) (ret : SizeClass)
    (onStack : Nat) (index : Int32) (classes : UInt64) (next : Int) : Step η :=
  match host with
  | none => (m, env, .error (.noHelpers index.toInt))
  | some call =>
    if m.args.size < onStack then
      let wanted := RunError.stackArgs index.toInt onStack m.args.size
      (m, env, .error wanted)
    else
      let args := (List.range n).mapM fun (i : Nat) =>
        let c : SizeClass := .ofByte ((classes.toInt64.toInt >>> (2 * i)) % 4).toNat.toUInt8
        (m.argument? ((n : Int) - onStack) i).map (narrow c)
      match args with
      | none => (m, env, .fault .bounds)
      | some args =>
        let left := m.args.size - onStack
        let m := { m with args := m.args.extract 0 left }
        match call index args env with
        | .error f => (m, env, .fault f)
        | .ok (r, env) =>
          let destroy (regs : Array UInt64) : Array UInt64 :=
            virtualTarget.callerSaved.toList.foldl (fun regs r => regs.set! r.byte.toNat destroyed) regs
          let result := narrow ret r
          ({ m with regs := (destroy m.regs).set! virtualTarget.retReg.byte.toNat result }, env,
            .at next)

/-- Stores the result of an operation and the flag it sets. -/
@[inline] def result {η : Type} (m : State) (env : η) (r : UInt8) (v : UInt64) (flag : Option Bool)
    (pc : Int) : Step η :=
  match flag with
  | none => writing m env r v pc
  | some o => writing { m with overflow := o } env r v pc

/-- Executes the word `w` at `pc`. -/
def execute {η : Type} (host : Host η) (w : Virtual.Word) (pc : Int) (m : State) (env : η) :
    Step η :=
  let next : Int := pc + Virtual.wordSize
  let low : UInt8 := w.x.toUInt32.toUInt8
  match w.op with
  | .nop => (m, env, .at next)
  | .mov => reading m env w.b fun v => writing m env w.a v next
  | .movImm => writing m env w.a w.y next
  | .load =>
    match m.cell w.b w.x with
    | .error e => (m, env, .error e)
    | .ok (.slots, i) =>
      let v := m.slots[i]?.getD 0
      writing m env w.a v next
    | .ok (.frame, i) =>
      let v := m.frame.get i
      writing m env w.a v next
  | .store =>
    match m.cell w.a w.x with
    | .error e => (m, env, .error e)
    | .ok (block, i) => reading m env w.b fun v =>
      match block with
      | .slots => ({ m with slots := m.slots.set! i v }, env, .at next)
      | .frame => ({ m with frame := m.frame.set i v }, env, .at next)
  | .binary => reading m env w.b fun a => reading m env w.c fun b =>
    let op := Op.ofByte low
    match op.binary? a b with
    | none => (m, env, .error (.badBinary op))
    | some (v, flag) => result m env w.a v flag next
  | .unary => reading m env w.b fun a =>
    let op := Op.ofByte low
    match op.unary? a with
    | none => (m, env, .error (.badUnary op))
    | some (v, flag) => result m env w.a v flag next
  | .compare => reading m env w.b fun a => reading m env w.c fun b =>
    writing m env w.a (if (Cond.ofByte low).holds (w.y != 0) a b then 1 else 0) next
  | .guard =>
    let branch (taken : Bool) : Next := .at (if taken then next + w.x.toInt else next)
    match GuardCond.ofByte w.b with
    | .zero => reading m env w.a fun v => (m, env, branch (v == 0))
    | .nonZero => reading m env w.a fun v => (m, env, branch (v != 0))
    | .overflow =>
      let taken := m.overflow
      (m, env, branch taken)
    | .other c => (m, env, .error (.badGuard c pc))
  | .jump => (m, env, .at (next + w.x.toInt))
  | .push => reading m env w.a fun v => ({ m with args := m.args.push v }, env, .at next)
  | .call => callHelper host m env w.a.toNat (.ofByte w.b) w.c.toNat w.x w.y next
  | .prologue =>
    if w.x < 0 then (m, env, .fault .bounds)
    else ({ m with frame := { size := w.x.toInt.toNat } }, env, .at next)
  | .bailout => reading m env virtualTarget.exitReg.byte fun id => (m, env, .done id)
  | .other op => (m, env, .error (.badOpcode op pc))

/-- How a run ended. -/
inductive Outcome where
  | done (id : UInt64)
  | error (e : RunError)
  | fault (f : Fault)
  /-- The fuel of this computation was spent; no run of the machine itself ends so. -/
  | outOfFuel

/-- Runs from `pc` on; `maxSteps` zero sets no limit. -/
def runFrom {η : Type} (host : Host η) (mem : Memory) (maxSteps : Nat) :
    (fuel : Nat) → (pc : Int) → State → η → State × η × Outcome
  | 0, _, m, env => (m, env, .outOfFuel)
  | fuel + 1, pc, m, env =>
    if pc < 0 || (mem.size : Int) < pc + Virtual.wordSize then (m, env, .error (.badPc pc))
    else
      let steps := m.steps
      if maxSteps != 0 && maxSteps ≤ steps then (m, env, .error (.stepLimit steps))
      else
        match execute host (Virtual.Word.read mem pc.toNat) pc { m with steps := steps + 1 } env with
        | (m, env, .at pc) => runFrom host mem maxSteps fuel pc m env
        | (m, env, .done id) => (m, env, .done id)
        | (m, env, .error e) => (m, env, .error e)
        | (m, env, .fault f) => (m, env, .fault f)

/-- Starts a run at `entry` over the given slots. -/
def run {η : Type} (host : Host η) (mem : Memory) (maxSteps fuel : Nat) (m : State) (env : η)
    (entry : CodeAddr) (slots : Array UInt64) : State × η × Outcome :=
  runFrom host mem maxSteps fuel entry.toNat
    { m with slots, overflow := false, args := #[], steps := 0 } env

end LoopTracer.Machine
