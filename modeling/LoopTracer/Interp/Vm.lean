import LoopTracer.Interp.Traced

/-! Running programs: one interpreter, with or without a monitor, for any number of calls. -/
namespace LoopTracer.Interp

open Bytecode Trace

structure Vm where
  state : State := {}
  monitor : Option Monitor := none

/-- Why a call has no result. -/
inductive Failure where
  | noMain
  | arity (function : Text) (wanted : Int) (got : Nat)
  | runtime (e : RuntimeError)
  | print
  | trace (function : Text) (pc : Int) (e : MonitorError)
  | fault (f : Fault)
  /-- The fuel of this computation was spent; no program ends so. -/
  | outOfFuel

namespace Failure

def message : Failure → Text
  | noMain => "program has no main function"
  | arity f wanted got => f ++ " expects " ++ .ofInt wanted ++ " arguments, got " ++ .ofNat got
  | runtime e => e.message
  | print => "print failed: sink closed"
  | trace f pc e => "running trace of " ++ f ++ " at " ++ Text.zeroPadded pc 4 ++ ": " ++ e.message
  | fault f => f.message
  | outOfFuel => "out of fuel"

end Failure

/-- How a stopped interpreter answers. -/
def Stop.answer : Stop → Except Failure Value
  | returned v => .ok v
  | error e => .error (.runtime e)
  | printFailed => .error .print
  | fault f => .error (.fault f)

def TracedStop.answer : TracedStop → Except Failure Value
  | plain s => s.answer
  | trace f pc e => .error (.trace f pc e)

/-- Interprets until the outermost call returns. -/
def run (units : Units) (helpers : HelperTable) : (fuel : Nat) → State → State × Except Failure Value
  | 0, s => (s, .error .outOfFuel)
  | fuel + 1, s =>
    match step units helpers s with
    | .ok _ s => run units helpers fuel s
    | .error stop s => (s, stop.answer)

/-- Interprets with a monitor until the outermost call returns. -/
def runTraced (units : Units) (helpers : HelperTable) (fragmentFuel : Nat) :
    (fuel : Nat) → Traced → Traced × Except Failure Value
  | 0, t => (t, .error .outOfFuel)
  | fuel + 1, t =>
    match tracedStep units helpers fragmentFuel t with
    | .ok _ t => runTraced units helpers fragmentFuel fuel t
    | .error stop t => (t, stop.answer)

namespace Vm

/-- Fuel for more steps than there is time for. -/
def plenty : Nat := Nat.pow 2 60

/-- A machine with a monitor, whose heap it takes over. -/
def withMonitor (m : Monitor) : Vm :=
  { state := { heap := m.heap }, monitor := some { m with heap := default } }

/-- Ends a recording that is under way when a call fails. -/
def abandon (m : Monitor) (e : Failure) : Monitor × Option Fault :=
  match Monitor.abortRecording ⟨.unrecordable, 0, e.message⟩ m with
  | .ok _ m => (m, none)
  | .error f m => (m, some f)

/-- Calls a function and runs until it returns. -/
def invoke (units : Units) (fuel : Nat) (ref : FuncRef) (args : List Value) (vm : Vm) :
    Vm × Except Failure Value :=
  match units.function? ref with
  | none => (vm, .error (.fault .bounds))
  | some fn =>
    if (args.length : Int) ≠ fn.arity then
      (vm, .error (.arity fn.signature fn.arity args.length))
    else
      let monitor := vm.monitor
      match prepare fn ref args vm.state with
      | .error stop state => ({ state, monitor }, stop.answer)
      | .ok _ state =>
        match monitor with
        | none =>
          let (state, result) := run units .standard fuel state
          ({ state, monitor := none }, result)
        | some monitor =>
          let helpers := monitor.helpers
          let (t, result) := runTraced units helpers fuel fuel { state, monitor }
          match result with
          | .ok v => ({ state := t.state, monitor := some t.monitor }, .ok v)
          | .error (.fault f) => ({ state := t.state, monitor := some t.monitor }, .error (.fault f))
          | .error e =>
            let (monitor, fault) := abandon t.monitor e
            ({ state := t.state, monitor := some monitor }, .error (fault.elim e .fault))

/-- Runs the main function of a unit. -/
def runMain (units : Units) (fuel : Nat) (unit : Nat) (vm : Vm) : Vm × Except Failure Value :=
  match units.main? unit with
  | none => (vm, .error .noMain)
  | some ref => vm.invoke units fuel ref []

end Vm

end LoopTracer.Interp
