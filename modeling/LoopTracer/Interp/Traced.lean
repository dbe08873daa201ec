import LoopTracer.Interp.Step
import LoopTracer.Monitor.Basic

/-! The interpreter together with the monitor.

While a trace is recorded, every instruction is reported to the monitor. At a loop edge the
recording may end, compiled code may be entered, or the loop is counted. Compiled code works on
words: the locals are handed over unboxed, and after an exit the snapshot's slots are boxed
again at the types of the exit. -/
namespace LoopTracer.Interp

open Bytecode Trace Machine

/-- The interpreter and its monitor. -/
structure Traced where
  state : State
  monitor : Monitor

/-- Why the interpreter with a monitor stops. -/
inductive TracedStop where
  | plain (s : Stop)
  /-- Compiled code of a function, of the loop at `pc`, went wrong. -/
  | trace (function : Text) (pc : Int) (e : MonitorError)

abbrev Tracing := EStateM TracedStop Traced

/-- Works on the interpreter alone. -/
@[inline] def interp {α : Type} (x : Interpreting α) : Tracing α := fun t =>
  match x t.state with
  | .ok a state => .ok a { t with state }
  | .error e state => .error (.plain e) { t with state }

/-- Works on the monitor alone. -/
def monitoring {α : Type} (x : Monitoring α) : Tracing α := fun t =>
  match x t.monitor with
  | .ok a monitor => .ok a { t with monitor }
  | .error f monitor => .error (.plain (.fault f)) { t with monitor }

def faultyTrace {α : Type} (f : Fault) : Tracing α := throw (.plain (.fault f))

/-! ### Reports -/

/-- Reports a primitive; whether the recording goes on is the monitor's business. -/
def report (i : Fetched) (action : Action) : Tracing Unit := do
  let _ ← monitoring (Monitor.record { pc := i.pc, depth := i.depth, action })

/-- The address of the `k`-th place of the operand stack. -/
def operandSlot (i : Fetched) (k : Int) : SlotAddr := .ofSlot (i.frame.fn.locals + k)

/-- The word of a value. -/
def unboxed (v : Value) : Tracing UInt64 := modifyGet fun t =>
  let heap := t.state.heap
  let state := { t.state with heap := default }
  let (heap, w) := unbox heap v
  (w, { t with state := { state with heap } })

/-- What the recorder is told of an instruction after it was executed. -/
def reportEvent (i : Fetched) : Event → Tracing Unit
  | .quiet | .looped _ => return
  | .pushed v =>
    match traceType? v with
    | none => report i .unrecordable
    | some t => do
      let w ← unboxed v
      report i (.const (.ofWord t w) ⟨operandSlot i i.depth, t⟩)
  | .copied source target v =>
    match traceType? v with
    | none => report i .unrecordable
    | some t => report i (.copy (.ofSlot source) ⟨.ofSlot target, t⟩)
  | .computed op v =>
    let a := operandSlot i (i.depth - 2)
    report i (.binary op a (operandSlot i (i.depth - 1)) ⟨a, (traceType? v).getD .null⟩)
  | .converted op v =>
    let a := operandSlot i (i.depth - 1)
    report i (.unary op a ⟨a, (traceType? v).getD .null⟩)
  | .branched taken target =>
    if target.isNone then faultyTrace .bounds
    else report i (.branch (operandSlot i (i.depth - 1)) taken)
  | .called d arity v =>
    let first := i.depth - arity
    let args := (List.range arity).map fun (k : Nat) => operandSlot i (first + k)
    report i (.call d.id.toUInt8 args ⟨operandSlot i first, (traceType? v).getD .null⟩)

/-- What the recorder is told of an instruction before it is executed: calls, returns, output
and unknown instructions end a recording. -/
def announce (i : Fetched) : Tracing Unit :=
  match Opcode.ofByte? i.byte with
  | some .call | some .ret | some .print | some .halt => report i .unrecordable
  | some _ => return
  | none => monitoring (Monitor.abortRecording ⟨.unrecordable, i.pc, byteName i.byte⟩)

/-! ### Loops -/

/-- The types of the locals from place `i` of the stack on, if they all have one. -/
def localTypes (i : Int) : (n : Nat) → Interpreting (Option TypeMap)
  | 0 => return some []
  | n + 1 => do
    match traceType? (← read i) with
    | none => return none
    | some t => return (← localTypes (i + 1) n).map (t :: ·)

/-- The types of the locals at a loop edge. There are none if an operand is on the stack or a
local holds a function. -/
def entryTypes (frame : Frame) : Interpreting (Option TypeMap) := do
  if (← get).sp ≠ frame.base then return none
  if frame.fn.locals < 0 then faulty
  localTypes frame.bp frame.fn.locals.toNat

/-- The locals as words, into the first `n` slots from slot `k` on. -/
def unboxLocals (bp : Int) (k : Nat) : (n : Nat) → Tracing Unit
  | 0 => return
  | n + 1 => do
    let v ← interp (read (bp + k))
    let w ← unboxed v
    if (← get).state.words.size ≤ k then faultyTrace .bounds
    modify fun t =>
      let words := t.state.words
      let state := { t.state with words := #[] }
      { t with state := { state with words := words.set! k w } }
    unboxLocals bp (k + 1) n

/-- Boxes the slots of an exit and puts them back on the stack. -/
def reboxSlots (bp : Int) (words : Array UInt64) (k : Nat) : TypeMap → Interpreting Unit
  | [] => return
  | t :: rest => do
    let w ← ofOption words[k]?
    match rebox (← get).heap w t with
    | .error f => throw (.fault f)
    | .ok v => write (bp + k) v
    reboxSlots bp words (k + 1) rest

/-- Runs a fragment on the slots; the heap is the interpreter's. -/
def runFragment (fuel : Nat) (id : FragmentId) : Tracing (Except MonitorError Guard) := fun t =>
  let words := t.state.words
  let monitor := { t.monitor with heap := t.state.heap }
  let state := { t.state with words := #[], heap := default }
  match Monitor.execute fuel id words monitor with
  | .ok (result, words) monitor =>
    let heap := monitor.heap
    .ok result { state := { state with words, heap }, monitor := { monitor with heap := default } }
  | .error f monitor =>
    let heap := monitor.heap
    .error (.plain (.fault f))
      { state := { state with heap }, monitor := { monitor with heap := default } }

/-- Enters compiled code and goes on where it was left. -/
def enter (fuel : Nat) (frame : Frame) (f : Fragment) : Tracing Unit := do
  let fn := frame.fn
  let mark := (← get).state.heap.size
  let n := signed64 (fn.locals + fn.maxStack)
  if ((← get).state.words.size : Int) < n then
    if !blockFits n 8 then faultyTrace .bounds
    modify fun t => { t with state := { t.state with words := Array.replicate n.toNat 0 } }
  unboxLocals frame.bp 0 fn.locals.toNat
  interp (modify fun s => { s with
    counters := { s.counters with fragmentRuns := s.counters.fragmentRuns + 1 } })
  match ← runFragment fuel f.id with
  | .error e => throw (.trace fn.signature f.key.pc e)
  | .ok g =>
    let exit := ((← get).monitor.cache.exitOf g).exit
    interp do
      reboxSlots frame.bp (← get).words 0 exit.types
      modify fun s => { s with heap := s.heap.truncate mark, sp := frame.base + exit.depth }
      jumpTo exit.pc
      modify fun s => { s with counters := { s.counters with sideExits := s.counters.sideExits + 1 } }
    let _ ← monitoring (Monitor.handleExit g.id)

/-- What happens at a loop edge: a recording of this loop ends and one of another is given up;
then compiled code is entered if there is any, and otherwise the loop is counted. -/
def loopEdge (fuel : Nat) (i : Fetched) (header : Int) : Tracing Unit := do
  let depth := (← get).state.frames.length
  let key : LoopKey := { code := i.frame.fn.id, pc := header, depth }
  let types ← interp (entryTypes i.frame)
  if (← get).monitor.recording then
    if (← get).monitor.recordingKey? = some key then
      match types with
      | none =>
        monitoring (Monitor.abortRecording
          ⟨.unrecordable, i.pc, "loop state holds a function value"⟩)
      | some types =>
        let _ ← monitoring (Monitor.endRecording types)
    else
      let operands := (← get).state.sp - i.frame.base
      report { i with depth := operands } (.loopEdge header)
  if let some types := types then
    match (← get).monitor.enter? key types with
    | some f => enter fuel i.frame f
    | none =>
      let _ ← monitoring (Monitor.loopEdge key types)

/-- One instruction of the interpreter with a monitor; `fuel` bounds runs of compiled code. -/
def tracedStep (units : Units) (helpers : HelperTable) (fuel : Nat) : Tracing Unit := do
  let i ← interp fetch
  let tracing := (← get).monitor.recording
  if tracing then announce i
  match ← interp (execute units helpers i) with
  | .looped header => loopEdge fuel i header
  | e => if tracing then reportEvent i e

end LoopTracer.Interp
