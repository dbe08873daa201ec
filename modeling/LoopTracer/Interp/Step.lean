import LoopTracer.Bytecode.Program
import LoopTracer.Interp.State
import LoopTracer.Interp.Operation
import LoopTracer.Trace.Helper

/-! One instruction of the interpreter.

`fetch` reads the next instruction and moves past it; `execute` carries it out and tells what
was done, in terms a recorder can use. Running off the code or the stack is a fault; verified
programs never get there. -/
namespace LoopTracer.Interp

open Bytecode Trace

/-- Why the interpreter stops. -/
inductive Stop where
  | returned (v : Value)
  | error (e : RuntimeError)
  /-- The output does not take what is printed. -/
  | printFailed
  | fault (f : Fault)

abbrev Interpreting := EStateM Stop State

/-- An instruction about to be executed. -/
structure Fetched where
  frame : Frame
  chunk : Chunk
  /-- Its offset. -/
  pc : Int
  byte : UInt8
  /-- The depth of the operand stack before it. -/
  depth : Int

/-- What an instruction did. Slots are those of the running frame. -/
inductive Event where
  /-- Nothing that a trace has to know. -/
  | quiet
  | pushed (v : Value)
  | copied (source target : Int) (v : Value)
  | computed (op : BinOp) (v : Value)
  | converted (op : UnOp) (v : Value)
  /-- A conditional jump: whether the condition was true, and where it leads if that is known. -/
  | branched (taken : Bool) (target : Option Int)
  | looped (header : Int)
  | called (helper : Helper) (arity : Nat) (v : Value)

/-! ### The stack -/

def faulty {α : Type} : Interpreting α := throw (.fault .bounds)

/-- Ends with an error of the program at the present instruction. -/
def failing {α : Type} (detail : Text) : Interpreting α := fun s => .error (.error (s.errorHere detail)) s

@[inline] def ofOption {α : Type} : Option α → Interpreting α
  | some a => pure a
  | none => faulty

/-- The value at a place of the stack. -/
@[inline] def read (i : Int) : Interpreting Value := fun s =>
  if i < 0 then .error (.fault .bounds) s
  else match s.stack[i.toNat]? with
    | some v => .ok v s
    | none => .error (.fault .bounds) s

/-- Changes the value at a place of the stack. -/
@[inline] def write (i : Int) (v : Value) : Interpreting Unit := fun s =>
  if i < 0 || (s.stack.size : Int) ≤ i then .error (.fault .bounds) s
  else .ok () { s with stack := s.stack.set! i.toNat v }

@[inline] def setSp (sp : Int) : Interpreting Unit := fun s => .ok () { s with sp }

@[inline] def push (v : Value) : Interpreting Unit := fun s =>
  if s.sp < 0 || (s.stack.size : Int) ≤ s.sp then .error (.fault .bounds) s
  else .ok () { s with stack := s.stack.set! s.sp.toNat v, sp := s.sp + 1 }

@[inline] def pop : Interpreting Value := fun s =>
  let sp := s.sp - 1
  let s := { s with sp }
  if sp < 0 then .error (.fault .bounds) s
  else match s.stack[sp.toNat]? with
    | some v => .ok v s
    | none => .error (.fault .bounds) s

/-- The value `distance` places below the top. -/
@[inline] def peek (distance : Int) : Interpreting Value := fun s => read (s.sp - 1 - distance) s

/-- Goes on at an offset of the running frame. -/
@[inline] def jumpTo (ip : Int) : Interpreting Unit := fun s =>
  match s.frames with
  | f :: rest => .ok () { s with frames := { f with ip } :: rest }
  | [] => .error (.fault .bounds) s

/-! ### Frames -/

/-- Sets the places from `i` up to `stop` to null. -/
def clear (i : Int) : (n : Nat) → Interpreting Unit
  | 0 => return
  | n + 1 => do
    write i .null
    clear (i + 1) n

/-- Makes a frame for a call whose `argc` arguments are on top of the stack. -/
def pushFrame (fn : Function) (argc : Nat) : Interpreting Unit := do
  let s ← get
  if maxFrames ≤ s.frames.length then failing "call stack overflow"
  let bp := s.sp - argc
  if (s.stack.size : Int) < signed64 (bp + fn.locals + fn.maxStack) then failing "value stack overflow"
  clear (bp + argc) (fn.locals - argc).toNat
  modify fun s => { s with
    sp := bp + fn.locals
    frames := { fn, ip := 0, bp } :: s.frames
    counters := { s.counters with calls := s.counters.calls + 1 } }

/-! ### Instructions -/

/-- Reads the next instruction and moves past it. -/
def fetch : Interpreting Fetched := fun s =>
  match s.frames with
  | [] => .error (.fault .bounds) s
  | frame :: rest =>
    match frame.fn.chunk with
    | none => .error (.fault .bounds) s
    | some chunk =>
      let pc := frame.ip
      if (chunk.size : Int) ≤ pc then
        .error (.error (s.errorHere ("execution ran past the end of " ++ frame.fn.signature))) s
      else match chunk.byte? pc with
        | none => .error (.fault .bounds) s
        | some byte =>
          let depth := s.sp - frame.base
          .ok { frame, chunk, pc, byte, depth }
            { s with
              opStart := pc
              frames := { frame with ip := pc + byteSize byte } :: rest
              counters := { s.counters with instructions := s.counters.instructions + 1 } }

/-- The helper that a builtin calls. -/
def helperOf : Builtin → UInt8
  | .sqrt => HelperId.sqrt
  | .floor => HelperId.floor
  | .abs => HelperId.abs
  | .fmod => HelperId.floatRem
  | .len => HelperId.length
  | .number => HelperId.number

/-- The words of a builtin's arguments, the first one being number `i`. -/
def builtinArgs (d : Helper) (i : Nat) : List Value → Interpreting (List UInt64)
  | [] => return []
  | a :: rest => do
    let refuse (wanted : Text) : Interpreting Unit :=
      failing (d.name ++ ": argument " ++ .ofNat (i + 1) ++ " must be " ++ wanted ++ ", got "
        ++ a.typeName)
    let word ← match d.args[i]? with
      | none => faulty
      | some .float =>
        if !a.isNumber then refuse "a number"
        pure a.asFloat.bits
      | some .ptr =>
        if !a.isString then refuse "a string"
        modifyGet fun s =>
          let heap := s.heap
          let s := { s with heap := default }
          let (heap, handle) := heap.intern a.asString
          (handle.toUInt64, { s with heap })
      | some _ =>
        if !a.isInt then refuse "an int"
        pure (UInt64.ofInt a.asInt)
    return word :: (← builtinArgs d (i + 1) rest)

/-- Calls a helper on values; strings it makes are dropped from the heap once they are values. -/
def callBuiltin (d : Helper) (args : List Value) : Interpreting Value := do
  let mark := (← get).heap.size
  let words ← builtinArgs d 0 args
  match d.run (← get).heap words with
  | .error f => throw (.fault f)
  | .ok (w, heap) =>
    modify ({ · with heap })
    match rebox heap w d.resultType with
    | .error f => throw (.fault f)
    | .ok v =>
      modify fun s => { s with heap := s.heap.truncate mark }
      return v

/-- The values of the stack from `i` on, `n` of them. -/
def readMany (i : Int) : (n : Nat) → Interpreting (List Value)
  | 0 => return []
  | n + 1 => do
    let v ← read i
    return v :: (← readMany (i + 1) n)

/-- Leaves the running frame with a result. -/
def leave (frame : Frame) (result : Value) : Interpreting Event := do
  modify fun s => { s with sp := frame.bp - 1, frames := s.frames.tail }
  if (← get).frames.isEmpty then throw (.returned result)
  push result
  return .quiet

/-- Carries out a fetched instruction. -/
def executeOp (units : Units) (helpers : HelperTable) (i : Fetched) (op : Opcode) :
    Interpreting Event := do
  let locals := i.frame.fn.locals
  match op with
  | .const =>
    let n ← ofOption (i.chunk.u16? (i.pc + 1))
    let v ← ofOption i.chunk.constants[n.toNat]?
    push v
    return .pushed v
  | .null =>
    push .null
    return .pushed .null
  | .true =>
    push (.bool true)
    return .pushed (.bool true)
  | .false =>
    push (.bool false)
    return .pushed (.bool false)
  | .pop =>
    let _ ← pop
    return .quiet
  | .dup =>
    let v ← peek 0
    push v
    return .copied (locals + i.depth - 1) (locals + i.depth) v
  | .load =>
    let slot := (← ofOption (i.chunk.u16? (i.pc + 1))).toNat
    let v ← read (i.frame.bp + slot)
    push v
    return .copied slot (locals + i.depth) v
  | .store =>
    let slot := (← ofOption (i.chunk.u16? (i.pc + 1))).toNat
    let v ← pop
    write (i.frame.bp + slot) v
    return .copied (locals + i.depth - 1) slot v
  | .jump =>
    jumpTo (← ofOption (i.chunk.target? i.pc))
    return .quiet
  | .jumpIfFalse | .jumpIfTrue =>
    let taken := (← pop).truthy
    let target := i.chunk.target? i.pc
    if taken == (op == .jumpIfTrue) then jumpTo (← ofOption target)
    return .branched taken target
  | .loop =>
    let header ← ofOption (i.chunk.target? i.pc)
    jumpTo header
    modify fun s => { s with counters := { s.counters with loopEdges := s.counters.loopEdges + 1 } }
    return .looped header
  | .builtin =>
    let n ← ofOption (i.chunk.byte? (i.pc + 1))
    let b ← ofOption (Builtin.ofByte? n)
    let d ← match helpers.get (helperOf b) with
      | .ok d => pure d
      | .error f => throw (.fault f)
    let sp := (← get).sp
    let args ← readMany (sp - b.arity) b.arity
    let v ← callBuiltin d args
    setSp (sp - b.arity)
    push v
    return .called d b.arity v
  | .call =>
    let argc := (← ofOption (i.chunk.byte? (i.pc + 1))).toNat
    let callee ← peek argc
    let fn := match callee with
      | .func (some r) => units.function? r
      | _ => none
    match fn with
    | none => failing ("cannot call " ++ callee.typeName)
    | some fn =>
      if fn.arity ≠ argc then
        failing (fn.signature ++ " expects " ++ .ofInt fn.arity ++ " arguments, got " ++ .ofNat argc)
      pushFrame fn argc
      return .quiet
  | .ret => leave i.frame (← pop)
  | .print =>
    let v ← pop
    if (← get).sinkClosed then throw .printFailed
    modify fun s =>
      let out := s.out
      { { s with out := ∅ } with out := out ++ v.render ++ "\n" }
    return .quiet
  | .halt => throw (.returned .null)
  | op =>
    match arithOp? op, compareOp? op, unaryOp? op with
    | some b, _, _ =>
      let y ← peek 0
      let x ← peek 1
      match arith b x y with
      | none => failing ("cannot " ++ b.name ++ " " ++ x.typeName ++ " and " ++ y.typeName)
      | some v =>
        replace v 1
        return .computed b v
    | _, some b, _ =>
      let y ← peek 0
      let x ← peek 1
      match compare b x y with
      | none => failing ("cannot compare " ++ x.typeName ++ " and " ++ y.typeName)
      | some v =>
        replace v 1
        return .computed b v
    | _, _, some u =>
      let x ← peek 0
      match unary u x with
      | none => failing ("cannot " ++ u.name ++ " " ++ x.typeName)
      | some v =>
        replace v 0
        return .converted u v
    | _, _, _ => faulty
where
  /-- Drops `n` values and puts `v` in place of the one that is then on top. -/
  replace (v : Value) (n : Int) : Interpreting Unit := do
    let sp := (← get).sp - n
    setSp sp
    write (sp - 1) v

/-- Carries out a fetched instruction, if it is one. -/
def execute (units : Units) (helpers : HelperTable) (i : Fetched) : Interpreting Event :=
  match Opcode.ofByte? i.byte with
  | some op => executeOp units helpers i op
  | none => failing ("unknown opcode " ++ byteName i.byte)

/-- One instruction. -/
def step (units : Units) (helpers : HelperTable) : Interpreting Event := do
  execute units helpers (← fetch)

/-! ### Calls -/

/-- A state in which nothing runs; the used part of the stack is cleared. -/
def State.reset (s : State) : State :=
  let stack := s.stack
  let sp := s.sp
  let s := { s with stack := #[] }
  { s with
    stack := sp.toNat.fold (fun i _ stack => stack.set! i .null) stack
    sp := 0
    frames := []
    counters := {} }

/-- Puts a function and its arguments on the empty stack and makes its frame. -/
def prepare (fn : Function) (ref : FuncRef) (args : List Value) : Interpreting Unit := do
  modify State.reset
  push (.func (some ref))
  args.forM push
  pushFrame fn args.length

end LoopTracer.Interp
