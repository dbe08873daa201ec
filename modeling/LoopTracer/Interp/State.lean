import LoopTracer.Bytecode.Program
import LoopTracer.Fault
import LoopTracer.Number.Signed
import LoopTracer.Trace.StringHeap

/-! The state of the interpreter.

All frames share one stack of values. A frame takes a piece of it: first its local variables,
then its operands; below the first local lies the function that was called. Slot `i` of a frame
is the `i`-th value of its piece. -/
namespace LoopTracer.Interp

open Bytecode Trace

/-- The size of the value stack. -/
def stackSize : Nat := 65536

/-- The most frames at one time. -/
def maxFrames : Nat := 256

structure Frame where
  fn : Function
  /-- The offset of the next instruction. -/
  ip : Int
  /-- Where the first local is on the stack. -/
  bp : Int
deriving Inhabited

/-- Where the operands of a frame start. -/
def Frame.base (f : Frame) : Int := f.bp + f.fn.locals

/-- What the interpreter counts. -/
structure Counters where
  instructions : Nat := 0
  calls : Nat := 0
  loopEdges : Nat := 0
  /-- How often compiled code was entered. -/
  fragmentRuns : Nat := 0
  /-- How often compiled code came back. -/
  sideExits : Nat := 0
deriving DecidableEq, Inhabited

structure State where
  stack : Array Value := Array.replicate stackSize .null
  /-- The first free place of the stack. -/
  sp : Int := 0
  /-- The frames, the running one first. -/
  frames : List Frame := []
  /-- The offset of the instruction being executed. -/
  opStart : Int := 0
  heap : StringHeap := {}
  /-- What was printed. -/
  out : Text := ∅
  /-- Whether printing fails. -/
  sinkClosed : Bool := false
  counters : Counters := {}
  /-- The slots handed to compiled code. -/
  words : Array UInt64 := #[]
deriving Inhabited

/-- An error of the running program. -/
structure RuntimeError where
  function : Text
  offset : Int
  line : Int
  detail : Text

def RuntimeError.message (e : RuntimeError) : Text :=
  "runtime error in " ++ e.function ++ " at " ++ Text.zeroPadded e.offset 4 ++ " (line "
    ++ .ofInt e.line ++ "): " ++ e.detail

/-- The error at the present instruction. -/
def State.errorHere (s : State) (detail : Text) : RuntimeError :=
  match s.frames with
  | [] => { function := ∅, offset := 0, line := 0, detail }
  | f :: _ =>
    { function := f.fn.signature
      offset := s.opStart
      line := (f.fn.chunk.getD {}).line s.opStart
      detail }

/-- Programs that are loaded together; function values name one by its place. -/
abbrev Units := Array Program

/-- The function that a value refers to. -/
def Units.function? (u : Units) (r : FuncRef) : Option Function := do
  let p ← u[r.unit]?
  if h : r.index < p.functions.size then p.functions[r.index]
  else match p.main with
    | .stray f => some f
    | _ => none

/-- The main function of a unit. -/
def Units.main? (u : Units) (unit : Nat) : Option FuncRef := do
  let p ← u[unit]?
  match p.main with
  | .absent => none
  | .listed i => p.functions[i]?.map fun f => ⟨unit, i, f.name⟩
  | .stray f => some ⟨unit, p.functions.size, f.name⟩

/-! ### Values as words and back

Compiled code and helpers know values only as words whose types are kept elsewhere. Functions
have no word. -/

/-- The type of a value in a trace. -/
def traceType? : Value → Option Ty
  | .null => some .null
  | .bool _ => some .bool
  | .int _ => some .int
  | .float _ => some .float
  | .str _ => some .str
  | _ => none

/-- The word of a value; a string is put into the heap. A value without a word gives zero. -/
def unbox (h : StringHeap) : Value → StringHeap × UInt64
  | .bool b => (h, if b then 1 else 0)
  | .int n => (h, n.toInt64.toUInt64)
  | .float x => (h, x.bits)
  | .str s =>
    let (h, handle) := h.intern s
    (h, handle.toUInt64)
  | _ => (h, 0)

/-- The value of a word of a type. -/
def rebox (h : StringHeap) (w : UInt64) : Ty → Except Fault Value
  | .bool => .ok (.bool (w != 0))
  | .int => .ok (.int w.toUInt32.toInt32)
  | .float => .ok (.float ⟨w⟩)
  | .str => (h.lookup w.toUInt32).map .str
  | _ => .ok .null

end LoopTracer.Interp
