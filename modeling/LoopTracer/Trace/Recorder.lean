import LoopTracer.Fragment.Basic
import LoopTracer.Trace.Abort
import LoopTracer.Trace.Primitive

/-! The recorder: from primitives to a trace.

A recording starts with one `param` for every live slot. After that each primitive becomes a
few instructions: a copy only changes which value a slot holds, a constant becomes a shared
`imm`, arithmetic on ints is followed by a guard against overflow, and a branch becomes a guard
that the condition goes the way it went. `finish` writes back the slots that changed and ends
the trace. A primitive that does not fit gives the recording up. -/
namespace LoopTracer.Trace

open Machine (SizeClass nameOfNumber)

inductive RecorderState where
  | idle
  | recording
  /-- The trace is finished and being compiled. -/
  | committing
  | aborting
deriving DecidableEq, Inhabited

namespace RecorderState

def all : Array RecorderState := #[.idle, .recording, .committing, .aborting]

def name : RecorderState → Text
  | idle => "idle"
  | recording => "recording"
  | committing => "committing"
  | aborting => "aborting"

def nameOf : UInt8 → Text := nameOfNumber all name "?"

end RecorderState

structure Recorder where
  state : RecorderState := .idle
  /-- The fragment being recorded. -/
  fragment : Option FragmentId := none
  /-- The guard that a branch is recorded for. -/
  anchor : Option GuardId := none
  buffer : Buffer := {}
  /-- Which value every slot holds. -/
  slots : SlotMap := {}
  /-- The types of the slots that were given one. -/
  types : Std.TreeMap Nat Ty := {}
  /-- How many slots have a type; those that were given none hold null. -/
  tracked : Nat := 0
  /-- How many values are `param`s: that of slot `i` is value `i`. -/
  params : Nat := 0
  /-- How many slots are local variables. -/
  locals : Nat := 0
  /-- The constants so far. -/
  immediates : Std.TreeMap (Immediate × Ty) Ref := {}
  pc : Int := 0
deriving Inhabited

/-- Why an operation of the recorder did not finish. -/
inductive RecordStop where
  | abort (a : Abort)
  | notRecording
  | fault (f : Fault)

/-- Operations of the recorder keep what they did up to the point where they stop. -/
abbrev Recording := EStateM RecordStop Recorder

/-- Why a recording does not start. -/
inductive StartError where
  | busy (state : RecorderState)
  | anchor (fragment anchor : Text)
  | fault (f : Fault)

def StartError.message : StartError → Text
  | busy s => "jit: recorder is " ++ s.name
  | anchor f a => "jit: " ++ f ++ " started with anchor " ++ a
  | fault f => f.message

namespace Recorder

def isRecording (r : Recorder) : Bool := r.state == .recording

/-- The type of what a slot holds, if it is tracked. -/
def type? (r : Recorder) (slot : Nat) : Option Ty :=
  if slot < r.tracked then some (r.types.getD slot .null) else none

/-! ### Values and slots -/

def liftFault {α : Type} : Except Fault α → Recording α
  | .ok a => pure a
  | .error f => throw (.fault f)

def giveUp {α : Type} (reason : AbortReason) (pc : Int) (detail : Text) : Recording α :=
  throw (.abort { reason, pc, detail })

/-- Appends an instruction at the present offset. -/
def append (i : Inst) : Recording Ref := fun r =>
  let buffer := r.buffer
  let r := { r with buffer := {} }
  match buffer.appendFault? { i with pc := r.pc } with
  | some f => .error (.fault f) { r with buffer }
  | none =>
    let n : Ref := buffer.size
    .ok n { r with buffer := { buffer with insts := buffer.insts.push { i with pc := r.pc } } }

/-- The instruction that makes a value. -/
def instOf (ref : Ref) : Recording Inst := do
  match (← get).buffer.get? ref with
  | some i => return i
  | none => throw (.fault .bounds)

/-- The value a slot holds. -/
def valueOf (a : SlotAddr) : Recording Ref := do liftFault ((← get).slots.get a)

/-- The type of what a slot holds. -/
def typeOf (a : SlotAddr) : Recording Ty := do
  let r ← get
  if a.slot < 0 then throw (.fault .bounds)
  match r.type? a.slot.toNat with
  | some t => return t
  | none => throw (.fault .bounds)

/-- Gives a slot a value of a type. -/
def setSlot (a : SlotAddr) (ref : Ref) (t : Ty) : Recording Unit := fun r =>
  match SlotMap.settable a ref with
  | some f => .error (.fault f) r
  | none =>
    let slots := r.slots
    let types := r.types
    let r := { r with slots := {}, types := {} }
    let n := a.slot.toNat
    let tracked := max r.tracked (n + 1)
    .ok () { r with slots := slots.insert a ref, types := types.insert n t, tracked }

/-- Stores the result of a primitive, if it has the type that was seen. -/
def result (p : Primitive) (dest : Written) (ref : Ref) (t : Ty) : Recording Unit := do
  if t ≠ dest.type then
    giveUp .typeMismatch p.pc
      (p.action.kind.name ++ " predicted " ++ t.name ++ ", observed " ++ dest.type.name)
  setSlot dest.slot ref t

def emit (op : TraceOp) (a b : Ref) (t : Ty) : Recording Ref := append { op, a, b, type := t }

/-- A constant; equal constants of one type are the same value. -/
def immediate (v : Immediate) (t : Ty) : Recording Ref := do
  match (← get).immediates[(v, t)]? with
  | some ref => return ref
  | none =>
    let ref ← append { op := .imm, type := t, imm := v }
    modify fun r =>
      let immediates := r.immediates
      { { r with immediates := {} } with immediates := immediates.insert (v, t) ref }
    return ref

/-- A value as a float. -/
def toFloat (ref : Ref) (t : Ty) : Recording Ref := do
  if t == .float then return ref
  let i ← instOf ref
  if i.op == .imm then immediate (.ofFloat (.ofInt i.imm.int.toInt)) .float
  else emit .i2f ref Ref.none .float

def callHelper (id : UInt8) (t : Ty) (args : List Ref) : Recording Ref :=
  append { op := .call, type := t, helper := id, args }

/-! ### Guards -/

/-- The values of the live slots from slot `i` on, `n` of them. -/
def snapshotFrom (i : Nat) : (n : Nat) → Recording (List SnapshotEntry)
  | 0 => return []
  | n + 1 => do
    let addr := SlotAddr.ofSlot i
    let ref ← valueOf addr
    match (← get).type? i with
    | none => throw (.fault .bounds)
    | some type => return { addr, ref, type } :: (← snapshotFrom (i + 1) n)

/-- The bytes of a snapshot's entry. -/
def snapshotEntrySize : Nat := 12

/-- The exit back to the state before a primitive. -/
def exitBefore (p : Primitive) (kind : ExitKind) : Recording SideExit := do
  let width : Int := (← get).locals + p.depth
  if !blockFits width snapshotEntrySize then throw (.fault .bounds)
  return { pc := p.pc, depth := p.depth, kind, snapshot := ← snapshotFrom 0 width.toNat }

def guard (op : TraceOp) (condition : Ref) (exit : SideExit) : Recording Unit := do
  let _ ← append { op, a := condition, exit := some exit }

/-! ### Primitives -/

/-- The operation on ints that tells whether the result fits. -/
def overflowOp : BinOp → TraceOp
  | .sub => .subOv
  | .mul => .mulOv
  | _ => .addOv

def floatOp : BinOp → TraceOp
  | .sub => .fsub
  | .mul => .fmul
  | .div => .fdiv
  | _ => .fadd

def bitOp : BinOp → TraceOp
  | .bitOr => .or
  | .bitXor => .xor
  | .shl => .shl
  | .shr => .sar
  | _ => .and

/-- An operation on the operands as floats. -/
def onFloats (p : Primitive) (dest : Written) (op : TraceOp) (type : Ty) (a : Ref × Ty)
    (b : Ref × Ty) : Recording Unit := do
  let x ← toFloat a.1 a.2
  let y ← toFloat b.1 b.2
  result p dest (← emit op x y type) type

/-- Comparisons. Values of different types are equal only if both are numbers. -/
def compare (p : Primitive) (op : BinOp) (dest : Written) (a b : Ref × Ty) : Recording Unit := do
  let (ra, ta) := a
  let (rb, tb) := b
  let number := op.toByte - BinOp.eq.toByte
  let onInts : TraceOp := .ofByte (TraceOp.eq.toByte + number)
  if ta == .int && tb == .int then result p dest (← emit onInts ra rb .bool) .bool
  else if ta.isNumber && tb.isNumber then
    onFloats p dest (.ofByte (TraceOp.feq.toByte + number)) .bool a b
  else if op ≠ .eq && op ≠ .ne then
    giveUp .unrecordable p.pc (op.name ++ " on " ++ ta.name ++ " and " ++ tb.name)
  else if ta ≠ tb then
    result p dest (← immediate (.ofInt (if op == .ne then 1 else 0)) .bool) .bool
  else if ta == .str then
    let eq ← callHelper HelperId.equal .bool [ra, rb]
    if op == .ne then
      let zero ← immediate (.ofInt 0) .int
      result p dest (← emit .eq eq zero .bool) .bool
    else result p dest eq .bool
  else result p dest (← emit onInts ra rb .bool) .bool

def binary (p : Primitive) (op : BinOp) (a b : SlotAddr) (dest : Written) : Recording Unit := do
  let ta ← typeOf a
  let tb ← typeOf b
  let ra ← valueOf a
  let rb ← valueOf b
  let numbers := ta.isNumber && tb.isNumber
  let ints := ta == .int && tb == .int
  let refuse : Recording Unit :=
    giveUp .unrecordable p.pc (op.name ++ " on " ++ ta.name ++ " and " ++ tb.name)
  match op with
  | .add | .sub | .mul =>
    if op == .add && ta == .str && tb == .str then
      result p dest (← callHelper HelperId.concat .str [ra, rb]) .str
    else if !numbers then refuse
    else if ints then
      if dest.type ≠ .int then
        giveUp .guardFailed p.pc (op.name ++ " overflowed while recording")
      let exit ← exitBefore p .overflow
      let v ← emit (overflowOp op) ra rb .int
      guard .exitOv v exit
      result p dest v .int
    else onFloats p dest (floatOp op) .float (ra, ta) (rb, tb)
  | .div => if !numbers then refuse else onFloats p dest .fdiv .float (ra, ta) (rb, tb)
  | .mod =>
    if !numbers then refuse
    else if ints then
      if dest.type ≠ .int then giveUp .guardFailed p.pc "zero divisor while recording"
      let exit ← exitBefore p .divZero
      let zero ← immediate (.ofInt 0) .int
      let nonZero ← emit .ne rb zero .bool
      guard .exitUnless nonZero exit
      result p dest (← callHelper HelperId.intRem .int [ra, rb]) .int
    else
      let x ← toFloat ra ta
      let y ← toFloat rb tb
      result p dest (← callHelper HelperId.floatRem .float [x, y]) .float
  | .bitAnd | .bitOr | .bitXor | .shl | .shr =>
    if !ints then refuse else result p dest (← emit (bitOp op) ra rb .int) .int
  | _ => compare p op dest (ra, ta) (rb, tb)

def unary (p : Primitive) (op : UnOp) (a : SlotAddr) (dest : Written) : Recording Unit := do
  let t ← typeOf a
  let ref ← valueOf a
  match op, t with
  | .neg, .int =>
    if dest.type ≠ .int then giveUp .guardFailed p.pc "neg overflowed while recording"
    let exit ← exitBefore p .overflow
    let v ← emit .negOv ref Ref.none .int
    guard .exitOv v exit
    result p dest v .int
  | .neg, .float => result p dest (← emit .fneg ref Ref.none .float) .float
  | .bitNot, .int => result p dest (← emit .not ref Ref.none .int) .int
  | .not, .float =>
    let zero ← immediate (.ofFloat .zero) .float
    result p dest (← emit .feq ref zero .bool) .bool
  | .not, _ =>
    let zero ← immediate (.ofInt 0) .int
    result p dest (← emit .eq ref zero .bool) .bool
  | _, _ => giveUp .unrecordable p.pc (op.name ++ " on " ++ t.name)

/-- Whether a constant counts as true. -/
def truth (i : Immediate) (t : Ty) : Bool :=
  if t == .float then !i.float.isZero else i.bits != 0

/-- A branch goes the way it went; on a constant there is nothing to guard. -/
def branch (p : Primitive) (condition : SlotAddr) (taken : Bool) : Recording Unit := do
  let t ← typeOf condition
  let ref ← valueOf condition
  let i ← instOf ref
  if i.op == .imm then
    let always := truth i.imm t
    if always ≠ taken then
      giveUp .guardFailed p.pc
        ("constant condition is " ++ (if always then Text.ofString "true" else "false"))
  else
    let exit ← exitBefore p .branch
    let condition ← if t == .float then do
        let zero ← immediate (.ofFloat .zero) .float
        emit .fne ref zero .bool
      else pure ref
    guard (if taken then .exitUnless else .exitIf) condition exit

/-- The arguments of a helper, each as its class wants it, the first being number `i`. -/
def callArgs (p : Primitive) (d : Helper) (i : Nat) :
    List SlotAddr → List SizeClass → Recording (List Ref)
  | a :: slots, c :: classes => do
    let t ← typeOf a
    let ref ← valueOf a
    let ref ← if c == .float then toFloat ref t else pure ref
    let fits := match c with
      | .float => t.isNumber
      | .ptr => t == .str
      | .int => t == .int || t == .bool
      | .other _ => false
    if !fits then
      giveUp .unrecordable p.pc (d.name ++ " argument " ++ .ofNat i ++ " is " ++ t.name)
    return ref :: (← callArgs p d (i + 1) slots classes)
  | _, _ => return []

def call (helpers : HelperTable) (p : Primitive) (id : UInt8) (args : List SlotAddr)
    (dest : Written) : Recording Unit := do
  let d ← liftFault (helpers.get id)
  if args.length ≠ d.args.length then
    giveUp .unrecordable p.pc (d.name ++ " takes " ++ .ofNat d.args.length ++ " args, got "
      ++ .ofNat args.length)
  let refs ← callArgs p d 0 args d.args
  let t := d.resultType
  result p dest (← callHelper d.id.toUInt8 t refs) t

/-- Turns a primitive into instructions. -/
def primitive (helpers : HelperTable) (p : Primitive) : Recording Unit := do
  match p.action with
  | .const v dest => result p dest (← immediate v dest.type) dest.type
  | .copy source dest =>
    let ref ← valueOf source
    result p dest ref (← typeOf source)
  | .binary op a b dest => binary p op a b dest
  | .unary op a dest => unary p op a dest
  | .branch condition taken => branch p condition taken
  | .call id args dest => call helpers p id args dest
  | .loopEdge target => giveUp .nestedLoop p.pc ("back edge to pc " ++ .ofInt target)
  | .incomplete _ => throw (.fault .bounds)
  | .unrecordable | .other _ => giveUp .unrecordable p.pc p.action.kind.name

/-! ### Sessions -/

/-- An idle recorder; the pages of the slot map are kept for the next recording. -/
def reset (r : Recorder) : Recorder := { slots := r.slots.clear, pc := r.pc, locals := r.locals }

/-- Appends a `param` for each of the types, the first for slot `i`. -/
def importSlots (i : Nat) : TypeMap → Recording Unit
  | [] => return
  | t :: rest => do
    let slot := SlotAddr.ofSlot i
    let ref ← append { op := .param, type := t, slot }
    match SlotMap.settable slot ref with
    | some f => throw (.fault f)
    | none => modify fun r =>
      let slots := r.slots
      { { r with slots := {} } with slots := slots.insert slot ref }
    importSlots (i + 1) rest

/-- Starts recording a fragment whose live slots have the types `entry`. The local variables of
a branch are those of its root. -/
def start (f : Fragment) (rootTypes entry : TypeMap) (anchor : Option (Guard × ExitRecord))
    (r : Recorder) : Except StartError Recorder :=
  if r.state ≠ .idle then .error (.busy r.state)
  else if (f.kind == .branch) ≠ anchor.isSome then
    .error (.anchor f.render (anchor.elim "<nil>" fun (g, e) => g.render e))
  else
    let r : Recorder :=
      { slots := r.slots.clear
        fragment := some f.id
        anchor := anchor.map fun (g, _) => g.id
        types := entry.zipIdx.foldl (fun types (t, i) => types.insert i t) {}
        tracked := entry.length
        params := entry.length
        locals := if f.kind == .branch then rootTypes.length else entry.length
        pc := f.key.pc }
    match importSlots 0 entry r with
    | .ok _ r => .ok { r with state := .recording }
    | .error (.fault e) _ => .error (.fault e)
    | .error _ _ => .error (.fault .bounds)

/-- Runs an operation of the recorder; giving the recording up makes it idle. -/
def orReset (x : Recording Unit) : Recording Unit := fun r =>
  match x r with
  | .error (.abort a) r => .error (.abort a) r.reset
  | other => other

/-- Records one primitive of a trace of at most `maxLength` instructions. -/
def record (helpers : HelperTable) (maxLength : Int) (p : Primitive) : Recording Unit := do
  if !(← get).isRecording then throw .notRecording
  modify ({ · with pc := p.pc })
  orReset do
    primitive helpers p
    let n := (← get).buffer.size
    if maxLength < n then giveUp .tooLong p.pc (.ofNat n ++ " instructions")

/-- The first slot whose type at the end is not the recorded one. -/
def mismatch? (r : Recorder) (stop : TypeMap) : Option (Nat × Ty × Ty) :=
  stop.zipIdx.findSome? fun (t, i) =>
    let recorded := (r.type? i).getD .null
    if recorded = t then none else some (i, recorded, t)

/-- Writes back the slots from `i` on that no longer hold their `param`. -/
def storeSlots (i : Nat) : TypeMap → Recording Unit
  | [] => return
  | t :: rest => do
    let slot := SlotAddr.ofSlot i
    let ref ← valueOf slot
    if !(i < (← get).params && ref == i) then
      let _ ← append { op := .store, a := ref, slot, type := t }
    storeSlots (i + 1) rest

/-- Ends the trace at the back edge, where the slots have the types `stop`. A root or peer
jumps to its own top, a branch to the fragment `target` of its tree. -/
def finish (f : Fragment) (stop : TypeMap) (target : Option Fragment) : Recording Buffer := do
  if !(← get).isRecording then throw .notRecording
  let pc := f.key.pc
  orReset do
    let r ← get
    if r.tracked < stop.length then
      giveUp .typeMismatch pc ("loop edge has " ++ .ofNat stop.length ++ " slots, trace tracks "
        ++ .ofNat r.tracked)
    if let some (i, recorded, t) := r.mismatch? stop then
      giveUp .typeMismatch pc ("slot " ++ .ofNat i ++ " predicted " ++ recorded.name
        ++ ", observed " ++ t.name)
    if f.kind == .branch then
      match target with
      | none =>
        giveUp .unstable pc ("no compiled fragment for exit types [" ++ stop.render ++ "]")
      | some g =>
        if g.types ≠ stop then
          giveUp .unstable pc ("target expects [" ++ g.types.render ++ "], trace ends with ["
            ++ stop.render ++ "]")
    else if stop ≠ f.types then
      giveUp .unstable pc ("entered with [" ++ f.types.render ++ "], loops with ["
        ++ stop.render ++ "]")
  modify ({ · with pc })
  storeSlots 0 stop
  let _ ← append { op := if f.kind == .branch then .jumpTree else .loop }
  let buffer ← liftFault (← get).buffer.close
  modify ({ · with buffer, state := .committing })
  return buffer

/-- Back to idle once the trace is compiled. -/
def commit (r : Recorder) : Except Fault Recorder :=
  if r.state = .committing then .ok r.reset else .error (.commitWhile r.state.name)

end Recorder

end LoopTracer.Trace
