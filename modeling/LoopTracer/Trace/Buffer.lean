import LoopTracer.Trace.Inst

/-! Trace buffers: instructions in the order they were recorded.

A buffer is only ever extended. `append` takes an instruction whose operands all stand before
it, and `seal` closes a buffer that ends in a terminal instruction. -/
namespace LoopTracer.Trace

structure Buffer where
  insts : Array Inst := #[]
  isSealed : Bool := false
deriving Inhabited

/-- What makes a sealed buffer unusable. -/
inductive BufferError where
  | notSealed
  | badOpcode (op : UInt8) (place : Nat)
  | terminal (op : TraceOp) (place : Nat)
  | reference (op : TraceOp) (place : Nat) (ref : Ref)
  | callArgs (place count : Nat)

def BufferError.message : BufferError → Text
  | notSealed => "jit: IR buffer not sealed"
  | badOpcode op n => "jit: bad opcode " ++ .ofNat op.toNat ++ " at " ++ .ofNat n
  | terminal op n => "jit: terminal " ++ op.name ++ " at " ++ .ofNat n ++ " is not last"
  | reference op n r => "jit: " ++ op.name ++ " at " ++ .ofNat n ++ " references " ++ .ofInt r
  | callArgs n count => "jit: call at " ++ .ofNat n ++ " has " ++ .ofNat count ++ " args"

/-- The most arguments a call may have. -/
def maxCallArgs : Nat := 6

namespace Buffer

def size (b : Buffer) : Nat := b.insts.size

/-- The instruction that makes a value. -/
def get? (b : Buffer) (r : Ref) : Option Inst := if r < 0 then none else b.insts[r.toNat]?

/-- The terminal instruction of a sealed buffer. -/
def last (b : Buffer) : Ref := if b.isSealed then b.size - 1 else Ref.none

/-- The first fault among the operands of an instruction about to be appended. -/
def operandFault? (b : Buffer) (i : Inst) : List Ref → Option Fault
  | [] => none
  | r :: rest =>
    match b.get? r with
    | none => some (.beforeDefinition i.op.name b.size r)
    | some source =>
      if source.op.hasResult then b.operandFault? i rest
      else some (.valueless i.op.name b.size source.op.name r)

/-- The rule that appending an instruction would break. -/
def appendFault? (b : Buffer) (i : Inst) : Option Fault :=
  if b.isSealed then some .appendToSealed
  else
    b.operandFault? i i.operands
    <|> ((i.snapshotRefs.find? fun r => (b.get? r).isNone).map fun r => .snapshotRef b.size r)
    <|> (if i.op == .exitOv && !follows b i then some (.strayOverflow b.size) else none)
    <|> (if i.op.isGuard && i.exit.isNone then some (.noSideExit b.size) else none)
where
  /-- Whether the instruction stands right after the overflow operation it tests. -/
  follows (b : Buffer) (i : Inst) : Bool :=
    i.a + 1 == b.size && (b.get? i.a).any fun s => s.op.setsOverflow

/-- Appends an instruction and gives the number of its value. -/
def append (b : Buffer) (i : Inst) : Except Fault (Buffer × Ref) :=
  match b.appendFault? i with
  | some f => .error f
  | none =>
    let n := b.size
    .ok ({ b with insts := b.insts.push i }, n)

/-- Closes a buffer. -/
def close (b : Buffer) : Except Fault Buffer :=
  if b.isSealed then .error .sealedTwice
  else if b.insts.back?.any fun i => i.op.isTerminal then .ok { b with isSealed := true }
  else .error .noTerminal

/-- The instructions that use each value, in ascending order and each once; a value in the
snapshot of a guard is used by the guard. -/
def uses (b : Buffer) : Array (Array Nat) :=
  b.insts.toList.zipIdx.foldl (fun all (i, n) =>
      (i.operands ++ i.snapshotRefs).foldl (fun all r => addUse all r n) all)
    (Array.replicate b.size #[])
where
  addUse (all : Array (Array Nat)) (r : Ref) (n : Nat) : Array (Array Nat) :=
    if r < 0 then all
    else all.modify r.toNat fun u => if u.back? == some n then u else u.push n

/-- The first thing wrong with one instruction of a buffer of `size` instructions. -/
def instError? (size : Nat) (i : Inst) (n : Nat) : Option BufferError :=
  (match i.op with
    | .other op => some (.badOpcode op n)
    | _ => none)
  <|> (if i.op.isTerminal && n + 1 ≠ size then some (.terminal i.op n) else none)
  <|> ((i.operands.find? fun r => r < 0 || (n : Int) ≤ r).map fun r => .reference i.op n r)
  <|> (if i.op == .call && maxCallArgs < i.args.length then some (.callArgs n i.args.length)
       else none)

/-- Whether a sealed buffer is well formed. -/
def validate (b : Buffer) : Except BufferError Unit :=
  if !b.isSealed then .error .notSealed
  else match b.insts.toList.zipIdx.findSome? fun (i, n) => instError? b.size i n with
    | some e => .error e
    | none => .ok ()

/-- The whole trace as text, a line for each instruction. -/
def render (b : Buffer) : Text :=
  b.insts.toList.zipIdx.foldl (fun acc (i, n) =>
    acc ++ (Text.ofNat n).padLeft 4 " " ++ ": "
      ++ (if i.op.hasResult then "v" ++ (Text.ofNat n).padRight 3 ++ " = " else "       ")
      ++ i.render ++ "\n") ∅

end Buffer

end LoopTracer.Trace
