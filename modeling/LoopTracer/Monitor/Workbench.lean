import LoopTracer.Monitor.Basic

/-! The recorder, the compiler, the cache and the machine worked by hand.

A workbench has the parts of a monitor without its policies: nothing is counted, and nothing is
recorded, compiled or dropped unless it is asked for. -/
namespace LoopTracer

open Machine Trace Compile

structure Workbench where
  monitor : Monitor
  /-- What was compiled for each fragment, the latest first. -/
  kept : List (FragmentId × Assembly) := []

/-- Operations of the workbench keep what they did up to a fault. -/
abbrev Bench := EStateM Fault Workbench

namespace Workbench

variable {α : Type}

/-! ### Parts -/

def monitoring (x : Monitoring α) : Bench α := fun w =>
  let m := w.monitor
  let w := { w with monitor := { m with cache := default, recorder := {} } }
  match x m with
  | .ok a monitor => .ok a { w with monitor }
  | .error f monitor => .error f { w with monitor }

def caching (x : Caching α) : Bench α := monitoring (Monitor.caching x)

def cache : Bench FragmentCache := return (← get).monitor.cache

def recorder : Bench Recorder := return (← get).monitor.recorder

def setRecorder (recorder : Recorder) : Bench Unit :=
  modify fun w => { w with monitor := { w.monitor with recorder } }

/-- Where the branch of a guard leads now. -/
def branch (g : Guard) : Bench CodeAddr := do
  let c ← cache
  match c.backend.branchTarget c.region.mem g.site with
  | .ok a => return a
  | .error f => throw f

/-! ### Recording -/

/-- The fragment of a loop, and whether it was made for this; the types replace its own. -/
def root (key : LoopKey) (types : Option TypeMap) : Bench (FragmentId × Bool) := do
  let (id, created) ← caching fun c =>
    let (c, r) := c.getOrCreate key
    .ok r c
  if types.isSome then monitoring (Monitor.updateFragment id ({ · with entryTypes := types }))
  return (id, created)

/-- Starts a recording for a fragment from slots of given types; `anchor` is the guard of a
branch. -/
def start (f : Fragment) (types : TypeMap) (anchor : GuardId) : Bench (Except StartError Unit) := do
  let c ← cache
  let root ← monitoring (Monitor.fragment f.root)
  let anchor := c.guards[anchor]?.map fun g => (g, c.exitOf g)
  match (← recorder).start f root.types types anchor with
  | .error (.fault e) => throw e
  | .error e => return .error e
  | .ok r =>
    setRecorder r
    return .ok ()

/-- Works on the recorder alone. -/
def recording (x : Recording α) : Bench (Except RecordStop α) := do
  match x (← recorder) with
  | .ok a r =>
    setRecorder r
    return .ok a
  | .error e r =>
    setRecorder r
    match e with
    | .fault f => throw f
    | e => return .error e

/-- Records primitives up to the first that is refused. -/
def record (l : List Primitive) : Bench (Except RecordStop Unit) := do
  let m := (← get).monitor
  recording (l.forM (Recorder.record m.helpers m.config.maxTraceLength))

/-- Ends the recording at slots of given types and gives its fragment the trace. A trace may end
in the tree `target`. -/
def finish (types : TypeMap) (target : FragmentId) : Bench (Except RecordStop Buffer) := do
  let c ← cache
  let id := (← recorder).fragment.getD 0
  let target := c.fragment? target
  let made ← recording (Recorder.finish ((c.fragment? id).getD default) types target)
  if let .ok b := made then
    monitoring (Monitor.updateCache (·.attachTrace id b (target.map (·.id))))
  return made

def commit : Bench Unit := do
  match (← recorder).commit with
  | .ok r => setRecorder r
  | .error f => throw f

/-! ### Compiling -/

/-- Gives a fragment a trace of these instructions and answers how many they are. -/
def attach (f : Fragment) (l : List Inst) (sealing : Bool) (target : Option FragmentId) :
    Bench Nat := do
  let made : Except Fault Buffer := do
    let b ← l.foldlM (fun b i => return (← Buffer.append b i).1) {}
    if sealing then b.close else return b
  match made with
  | .error e => throw e
  | .ok b =>
    monitoring (Monitor.updateCache (·.attachTrace f.id b target))
    return b.size

/-- Compiles the trace of a fragment and keeps the result for it. -/
def assemble (f : Fragment) : Bench (Except AssembleError Assembly) := do
  let made ← monitoring (Monitor.assembleFragment f)
  if let .ok a := made then modify fun w => { w with kept := (f.id, a) :: w.kept }
  return made

/-- The code of an assembly as text. -/
def listing (a : Assembly) : Bench Text := do
  let c ← cache
  match (a.mainCode ++ a.exitCode).mapM fun r => c.backend.dump c.region.mem r.start r.stop with
  | .ok l => return Text.concat l
  | .error f => throw f

/-! ### Running -/

/-- Runs the code of a fragment on slots and answers the number that it was left with. -/
def run (fuel : Nat) (f : Fragment) (slots : Array UInt64) : Bench (Except RunError UInt64) := do
  let m := (← get).monitor
  let (machine, heap, o) := Machine.run m.helpers.host m.cache.region.seen m.maxSteps fuel
    (m.machine.getD {}) m.heap f.entry slots
  modify fun w => { w with monitor := { w.monitor with machine := some machine, heap } }
  match o with
  | .fault f => throw f
  | .outOfFuel => throw .bounds
  | .error e => return .error e
  | .done n => return .ok n

end Workbench

end LoopTracer
