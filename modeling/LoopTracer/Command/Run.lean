import LoopTracer.Bytecode.Listing
import LoopTracer.Bytecode.Load
import LoopTracer.Command.Options
import LoopTracer.Interp.Vm
import LoopTracer.Monitor.Report
import LoopTracer.Monitor.Settings
import LoopTracer.Text.Basic

/-! The command: load a program, then list it, write it compiled or run it.

The command is a function of its arguments and the files it can see; what it prints and the file
it writes are its outcome. -/
namespace LoopTracer.Command

open Bytecode Interp

structure Outcome where
  exit : Nat := 0
  out : Text := ∅
  err : Text := ∅
  /-- The file that is written. -/
  wrote : Option (Text × ByteArray) := none

namespace Outcome

/-- The outcome of an error after `out` was printed. -/
def failed (message : Text) (out : Text := ∅) : Outcome :=
  { exit := 1, out, err := "Error: " ++ message ++ "\n" }

/-- A fault stops the command at once. -/
def crashed (f : Fault) (out : Text := ∅) : Outcome :=
  { exit := 2, out, err := "panic: " ++ f.message ++ "\n" }

end Outcome

/-- What is printed when no program is named. -/
def banner : Text :=
  "tracejit - bytecode interpreter with a trace-compiling JIT\n\n"
    ++ "Usage: tracejit [options] <program.tja|program.tjc>\n\nOptions:\n"

/-! ### Summary -/

/-- Counts by name, a line for each in the order of the names. -/
def countLines (l : List (Text × Nat)) : Text :=
  Text.concat ((l.mergeSort fun a b => a.1.le b.1).map fun (name, n) =>
    "  " ++ name.padRight 28 ++ " " ++ .ofNat n ++ "\n")

/-- What the interpreter did. -/
def interpreted (c : Counters) : Text :=
  "interpreted:   " ++ .grouped c.instructions ++ " instructions\n"
    ++ "loop edges:    " ++ .grouped c.loopEdges ++ "\n"

/-- What was recorded and compiled. -/
def compiled (c : Counters) (m : Monitor) : Text :=
  let s := m.stats
  let pages := m.cache.region.counts
  "backend:       " ++ m.config.backend ++ "\n"
    ++ "fragments:     " ++ .ofNat m.cache.size ++ " (" ++ .ofNat s.rootsCompiled ++ " root, "
    ++ .ofNat s.peersCompiled ++ " peer, " ++ .ofNat s.branchesCompiled ++ " branch)\n"
    ++ "recordings:    " ++ .ofNat s.recordingsStarted ++ " started, "
    ++ .ofNat s.recordingsCommitted ++ " committed, " ++ .ofNat s.recordingsAborted ++ " aborted\n"
    ++ countLines s.abortCounts
    ++ "trace runs:    " ++ .grouped c.fragmentRuns ++ ", side exits " ++ .grouped s.sideExits ++ "\n"
    ++ countLines s.exitCounts
    ++ "code:          " ++ .decimalSize s.codeBytes ++ " in " ++ .ofNat (pages.pages - pages.free)
    ++ "/" ++ .ofNat pages.pages ++ " pages of " ++ .binarySize pages.pageSize.toNat ++ "\n"

/-- All that is asked for about a run. -/
def about (o : Options) (vm : Vm) : Except Fault Text := do
  let c := vm.state.counters
  let shown (b : Bool) (t : Text) : Text := if b then t else ∅
  match vm.monitor with
  | none => return shown o.stats (interpreted c)
  | some m =>
    let dumped ← if o.dump then m.cache.toList.mapM fun f => return (← m.dump f) ++ "\n" else pure []
    return shown o.stats (interpreted c ++ compiled c m)
      ++ shown o.json (m.report.render 0 ++ "\n") ++ Text.concat dumped

/-! ### Running -/

/-- The configuration that the options ask for. -/
def configOf (files : Files) (o : Options) : Except SettingsError Config := do
  let c ← if o.config.isEmpty then pure {} else Config.load files.read o.config
  let c := if o.backend.isEmpty then c else { c with backend := o.backend }
  return if o.log.isEmpty then c else { c with logLevel := o.log }

/-- The interpreter that the options ask for. -/
def prepare (files : Files) (o : Options) : Except Outcome Vm := do
  if !o.jit then return {}
  match configOf files o with
  | .error (.fault f) => throw (.crashed f)
  | .error e => throw (.failed e.message)
  | .ok c =>
    match Monitor.create c with
    | .error (.config e) => throw (.failed e.message)
    | .error (.region e) => throw (.failed e.message)
    | .error (.fault f) => throw (.crashed f)
    | .ok m => return .withMonitor m

/-- Closes the monitor of a run; an error of that counts if there is no earlier one. -/
def finish (vm : Vm) (done : Outcome) : Outcome :=
  match vm.monitor with
  | none => done
  | some m =>
    match Monitor.close m with
    | .error f _ => .crashed f done.out
    | .ok (.error e) _ =>
      if done.exit = 0 then
        { done with exit := 1, err := done.err ++ "Error: " ++ e.message ++ "\n" }
      else done
    | .ok (.ok _) _ => done

/-- Runs a program. -/
def execute (files : Files) (o : Options) (p : Program) : Outcome :=
  match prepare files o with
  | .error e => e
  | .ok vm =>
    let (vm, result) := vm.runMain #[p] Vm.plenty 0
    let out := vm.state.out
    match result with
    | .error (.fault f) => .crashed f out
    | .error e => finish vm (.failed e.message out)
    | .ok v =>
      let shown : Text := if v.isNull then ∅ else v.repr ++ "\n"
      match about o vm with
      | .error f => .crashed f (out ++ shown)
      | .ok err => finish vm { out := out ++ shown, err }

/-- Writes a program as a compiled file. -/
def writeTo (files : Files) (path : Text) (p : Program) : Outcome :=
  match Image.write p with
  | .error (.format e) => .failed e.message
  | .error (.fault f) => .crashed f
  | .ok data =>
    match files.refusal? path with
    | none => { wrote := some (path, data) }
    | some e => .failed (cannotWrite path e)

/-- The whole command. -/
def run (files : Files) (args : List Text) : Outcome :=
  match ({} : Options).parse args with
  | .error .help => { err := usage }
  | .error e => { exit := 2, err := e.message ++ usage }
  | .ok (_, []) => { out := banner, err := defaults }
  | .ok (o, path :: _) =>
    match loadFile files.read path with
    | .error e => .failed e.message
    | .ok p =>
      if o.disasm then { out := p.listing }
      else if !o.output.isEmpty then writeTo files o.output p
      else execute files o p

end LoopTracer.Command
