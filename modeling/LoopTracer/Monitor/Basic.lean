import LoopTracer.Fragment.Cache
import LoopTracer.Machine.Execution
import LoopTracer.Monitor.Config
import LoopTracer.Trace.Abort
import LoopTracer.Trace.Recorder
import LoopTracer.Trace.SideExit

/-! The monitor: what the interpreter talks to.

The interpreter reports every loop edge. A loop that runs often enough is recorded, compiled
and from then on entered instead of interpreted. Exits that are taken often get a trace of
their own, fragments that are left too often are dropped, and what cannot be recorded or
compiled after a few attempts is left alone. At most one recording is under way at a time. -/
namespace LoopTracer

open Machine Trace Compile

/-! ### Counters of what the compiler did -/

structure Stats where
  loopEdges : Nat := 0
  recordingsStarted : Nat := 0
  recordingsCommitted : Nat := 0
  recordingsAborted : Nat := 0
  assemblyFailures : Nat := 0
  rootsCompiled : Nat := 0
  peersCompiled : Nat := 0
  branchesCompiled : Nat := 0
  executions : Nat := 0
  sideExits : Nat := 0
  promotions : Nat := 0
  invalidations : Nat := 0
  flushes : Nat := 0
  blacklisted : Nat := 0
  codeBytes : Nat := 0
  /-- Exits taken by kind, in the order of `ExitKind.all`. -/
  exitsByKind : Array Nat := Array.replicate 3 0
  /-- Recordings given up by reason, in the order of `AbortReason.all`. -/
  abortsByReason : Array Nat := Array.replicate 8 0
deriving Inhabited

namespace Stats

/-- Counts an exit. -/
def exit (s : Stats) (k : ExitKind) : Stats :=
  { s with
    sideExits := s.sideExits + 1
    exitsByKind := match ExitKind.all.finIdxOf? k with
      | some i => s.exitsByKind.modify i (· + 1)
      | none => s.exitsByKind }

/-- Counts a recording given up. -/
def abort (s : Stats) (r : AbortReason) : Stats :=
  { s with
    recordingsAborted := s.recordingsAborted + 1
    abortsByReason := match AbortReason.all.finIdxOf? r with
      | some i => s.abortsByReason.modify i (· + 1)
      | none => s.abortsByReason }

/-- The kinds of exits that were taken, with their counts. -/
def exitCounts (s : Stats) : List (Text × Nat) :=
  ((ExitKind.all.toList.map (·.name)).zip s.exitsByKind.toList).filter fun (_, n) => 0 < n

/-- The reasons for which recordings were given up, with their counts. -/
def abortCounts (s : Stats) : List (Text × Nat) :=
  ((AbortReason.all.toList.map (·.name)).zip s.abortsByReason.toList).filter fun (_, n) => 0 < n

end Stats

/-! ### Monitors -/

structure Monitor where
  config : Config
  limits : Limits
  cache : FragmentCache
  recorder : Recorder := {}
  helpers : HelperTable := .standard
  heap : StringHeap := {}
  /-- The machine that runs compiled code; native code cannot be run. -/
  machine : Option Machine.State
  /-- The most steps of one run; zero sets no limit. -/
  maxSteps : Nat := 0
  stats : Stats := {}
  closed : Bool := false
  /-- How often each loop did not fit into the code region. -/
  spaceFailures : Std.TreeMap LoopKey Nat := {}

/-- Operations of the monitor keep what they did up to a fault. -/
abbrev Monitoring := EStateM Fault Monitor

/-- Why there is no monitor. -/
inductive CreateError where
  | config (e : ConfigError)
  | region (e : RegionError)
  | fault (f : Fault)

/-- What an operation of the monitor refuses. -/
inductive MonitorError where
  | notRecording
  | abort (a : Abort)
  | assembling (id : FragmentId) (e : AssembleError)
  | notExecutable
  | notCompiled (fragment : Text)
  | executing (id : FragmentId) (e : RunError)
  | unknownGuard (id : UInt64)
  /-- The fuel of this computation was spent. -/
  | outOfFuel

/-- What is wrong when a monitor is closed. -/
inductive CloseError where
  | closed
  | stillOwned (pages : Int)

def CloseError.message : CloseError → Text
  | closed => "jit: monitor closed"
  | stillOwned n => CodePages.stillOwned n

namespace MonitorError

def message : MonitorError → Text
  | notRecording => "jit: not recording"
  | abort a => a.message
  | assembling id e => "assembling fragment " ++ .ofNat id.toNat ++ ": " ++ e.message
  | notExecutable => "jit: fragment not executable on this backend"
  | notCompiled f => "jit: " ++ f ++ " is not executable"
  | executing id e => "executing fragment " ++ .ofNat id.toNat ++ ": " ++ e.message
  | unknownGuard id => "guard id " ++ .ofNat id.toNat ++ ": jit: unknown guard id"
  | outOfFuel => "out of fuel"

end MonitorError

namespace Monitor

/-- A monitor with nothing recorded, whose settings are not tested. In `native` memory code for
the processor can be placed, and then no machine runs it. -/
def build (config : Config) (native : Bool) : Except CreateError Monitor := do
  let region ← (CodePages.create config.maxCodePages config.pageSize native).mapError .region
  match CodePages.installBailout config.machine region with
  | .error f _ => throw (.fault f)
  | .ok _ region => return {
      config
      limits := config.limits
      cache := { backend := config.machine, region }
      machine := if native then none else some {} }

/-- A monitor with nothing recorded. -/
def create (config : Config) : Except CreateError Monitor := do
  (config.validate).mapError .config
  build config config.native

/-! ### Parts -/

/-- Works on the cache alone. -/
def caching {α : Type} (x : Caching α) : Monitoring α := fun m =>
  let cache := m.cache
  let m := { m with cache := default }
  match x cache with
  | .ok a cache => .ok a { m with cache }
  | .error f cache => .error f { m with cache }

def updateCache (f : FragmentCache → FragmentCache) : Monitoring Unit :=
  caching (modify f)

def updateFragment (id : FragmentId) (f : Fragment → Fragment) : Monitoring Unit :=
  updateCache (·.update id f)

def count (f : Stats → Stats) : Monitoring Unit := modify fun m => { m with stats := f m.stats }

/-- The fragment with a number. -/
def fragment (id : FragmentId) : Monitoring Fragment := do
  match (← get).cache.fragment? id with
  | some f => return f
  | none => throw .bounds

/-- The guard with a number, registered or not. -/
def guard (id : GuardId) : Monitoring Guard := do
  match (← get).cache.guards[id]? with
  | some g => return g
  | none => throw .bounds

def recording (m : Monitor) : Bool := m.recorder.isRecording

/-- The loop being recorded. -/
def recordingKey? (m : Monitor) : Option LoopKey :=
  if m.recording then (m.recorder.fragment.bind m.cache.fragment?).map (·.key) else none

/-- The guard for which a branch is being recorded. -/
def recordingAnchor? (m : Monitor) : Option GuardId := m.recorder.anchor

def resetRecorder : Monitoring Unit := modify fun m => { m with recorder := m.recorder.reset }

/-! ### Dropping fragments -/

/-- Whether a fragment or one it grew from is, or has as its root, the fragment `on`. -/
def dependsOn (c : FragmentCache) (on : FragmentId) : (n : Nat) → FragmentId → Bool
  | 0, _ => false
  | n + 1, id =>
    match c.fragment? id with
    | none => false
    | some f => f.id = on || f.root = on || f.parent.any (dependsOn c on n)

/-- Drops a fragment and all that depends on it, a recording included. -/
def invalidate (id : FragmentId) : Monitoring (List FragmentId) := do
  let m ← get
  if let some rf := (if m.recording then m.recorder.fragment else none) then
    if dependsOn m.cache id (m.cache.fragments.size + 1) rf then
      resetRecorder
      count (·.abort .flushed)
      let f ← fragment rf
      if f.kind = .branch then caching (FragmentCache.discard f)
      else updateFragment rf ({ · with state := .failed })
  let gone ← caching (FragmentCache.invalidate id)
  count fun s => { s with invalidations := s.invalidations + gone.length }
  return gone

/-- Drops everything. -/
def flush : Monitoring Unit := do
  if (← get).recording then
    resetRecorder
    count (·.abort .flushed)
  let gone ← caching FragmentCache.flush
  count fun s => { s with flushes := s.flushes + 1, invalidations := s.invalidations + gone.length }

/-- Gives up the code region and tells how many pages still had an owner. -/
def close : Monitoring (Except CloseError Unit) := do
  if (← get).closed then return .error .closed
  modify ({ · with closed := true })
  flush
  let owned ← caching fun c =>
    let (region, owned) := c.region.close
    .ok owned { c with region }
  return owned.elim (.ok ()) fun n => .error (.stillOwned n)

/-! ### Loops -/

/-- The fragment to enter at a loop whose slots have given types. -/
def enter? (m : Monitor) (key : LoopKey) (types : TypeMap) : Option Fragment :=
  if m.closed || !m.config.enabled || m.machine.isNone then none
  else do
    let id ← m.cache.lookup? key
    let root ← m.cache.fragment? id
    let f ← m.cache.findPeer? root types
    if f.executable then some f else none

/-- The fragment that counts the runs of a loop with given types. -/
def candidate (key : LoopKey) (types : TypeMap) : Monitoring FragmentId := do
  let id ← caching fun c =>
    let (c, id, _) := c.getOrCreate key
    .ok id c
  let root ← fragment id
  match (← get).cache.findPeer? root types with
  | some f => return f.id
  | none =>
    if root.entryTypes.isNone then
      updateFragment id ({ · with entryTypes := knownTypes types })
      return id
    else caching (FragmentCache.addPeer root types)

/-- Starts a recording, unless the recorder refuses. -/
def startRecording (id : FragmentId) (types : TypeMap) (anchor : Option GuardId) :
    Monitoring Bool := do
  let f ← fragment id
  let root ← fragment f.root
  let m ← get
  let anchor := (anchor.bind fun g => m.cache.guards[g]?).map fun g => (g, m.cache.exitOf g)
  match m.recorder.start f root.types types anchor with
  | .error (.fault e) => throw e
  | .error _ => return false
  | .ok recorder =>
    modify ({ · with recorder })
    updateFragment id ({ · with state := .recording })
    count fun s => { s with recordingsStarted := s.recordingsStarted + 1 }
    return true

/-- Counts a run of a loop and starts recording when it is hot. -/
def loopEdge (key : LoopKey) (types : TypeMap) : Monitoring Bool := do
  count fun s => { s with loopEdges := s.loopEdges + 1 }
  let m ← get
  if m.closed || !m.config.enabled || m.recorder.state ≠ .idle then return false
  if m.config.maxRecordAttempts ≤ (m.spaceFailures[key]?.getD 0 : Nat) then return false
  let id ← candidate key types
  let f ← fragment id
  if f.state ≠ .counting && f.state ≠ .failed then return false
  updateFragment id fun f => { f with hits := f.hits + 1 }
  if (f.hits + 1 : Int) < (← get).config.hotLoopThreshold then return false
  startRecording id types none

/-! ### Recordings -/

/-- What follows when a recording is given up: counters, and no more attempts after too many. -/
def recordingFailed (id : FragmentId) (anchor : Option GuardId) (a : Abort) : Monitoring Unit := do
  count (·.abort a.reason)
  if !a.reason.known then throw .bounds
  let config := (← get).config
  let f ← fragment id
  if f.kind = .branch then
    match anchor with
    | none => throw .bounds
    | some g =>
      let g ← guard g
      updateCache (·.updateExit g.exit fun e => { e with attempts := e.attempts + 1, hits := 0 })
      let attempts := ((← get).cache.exitOf g).attempts
      if config.maxBranchAttempts ≤ attempts then
        updateCache (·.updateExit g.exit ({ · with blacklisted := true }))
        count fun s => { s with blacklisted := s.blacklisted + 1 }
      if f.state ≠ .invalidated then caching (FragmentCache.discard f)
  else if f.state ≠ .invalidated then
    let attempts := f.attempts + 1
    let last : Bool := config.maxRecordAttempts ≤ attempts
    updateFragment id ({ · with
      attempts
      hits := 0
      state := if last then .blacklisted else .failed })
    if last then count fun s => { s with blacklisted := s.blacklisted + 1 }

/-- Works on the recorder alone; a recording given up is dealt with. -/
def onRecorder {α : Type} (x : Recording α) : Monitoring (Except MonitorError α) := do
  let id := (← get).recorder.fragment
  let anchor := (← get).recorder.anchor
  let step : Monitoring (Except RecordStop α) := fun m =>
    let recorder := m.recorder
    let m := { m with recorder := {} }
    match x recorder with
    | .ok a recorder => .ok (.ok a) { m with recorder }
    | .error e recorder => .ok (.error e) { m with recorder }
  match ← step with
  | .ok a => return .ok a
  | .error .notRecording => return .error .notRecording
  | .error (.fault f) => throw f
  | .error (.abort a) =>
    if let some id := id then recordingFailed id anchor a
    return .error (.abort a)

/-- Records what the interpreter just did. -/
def record (p : Primitive) : Monitoring (Except MonitorError Unit) := do
  let m ← get
  let helpers := m.helpers
  let maxLength := m.config.maxTraceLength
  onRecorder (Recorder.record helpers maxLength p)

/-- Gives the recording up on behalf of the interpreter. -/
def abortRecording (a : Abort) : Monitoring Unit := do
  let m ← get
  if m.recording then
    let anchor := m.recorder.anchor
    if let some id := m.recorder.fragment then
      resetRecorder
      recordingFailed id anchor a

/-- A trace did not fit into the code region: everything is dropped to make room. A loop that
does not fit too often is not recorded again. -/
def outOfSpace (key : LoopKey) : Monitoring Unit := do
  modify fun m => { m with spaceFailures := m.spaceFailures.alter key fun n => some (n.getD 0 + 1) }
  let m ← get
  if (m.spaceFailures[key]?.getD 0 : Nat) = m.config.maxRecordAttempts then
    count fun s => { s with blacklisted := s.blacklisted + 1 }
  flush

/-- Puts compiled code into use. -/
def installAssembly (f : Fragment) (anchor : Option GuardId) (a : Assembly) : Monitoring Unit := do
  caching (FragmentCache.install f.id a)
  match (← get).recorder.commit with
  | .error e => throw e
  | .ok recorder => modify ({ · with recorder })
  count fun s => { s with
    recordingsCommitted := s.recordingsCommitted + 1
    codeBytes := s.codeBytes + CodeRange.total a.mainCode + CodeRange.total a.exitCode }
  match f.kind with
  | .root => count fun s => { s with rootsCompiled := s.rootsCompiled + 1 }
  | .peer => count fun s => { s with peersCompiled := s.peersCompiled + 1 }
  | .branch =>
    count fun s => { s with branchesCompiled := s.branchesCompiled + 1 }
    match anchor with
    | none => throw .bounds
    | some g =>
      let g ← guard g
      caching (FragmentCache.promote g (← fragment f.id))
      count fun s => { s with promotions := s.promotions + 1 }

/-- Compiles the trace of a fragment. -/
def assembleFragment (f : Fragment) : Monitoring (Except AssembleError Assembly) := fun m =>
  let cache := m.cache
  let m := { m with cache := default }
  match cache.assemble m.limits m.helpers f with
  | .ok a cache => .ok (.ok a) { m with cache }
  | .error (.fault e) cache => .error e { m with cache }
  | .error e cache => .ok (.error e) { m with cache }

/-- Ends the recording at the back edge of its loop, compiles the trace and puts it into use. -/
def endRecording (stop : TypeMap) : Monitoring (Except MonitorError Unit) := do
  let m ← get
  if !m.recording then return .error .notRecording
  let some id := m.recorder.fragment | throw .bounds
  let anchor := m.recorder.anchor
  let f ← fragment id
  let target ← if f.kind = .branch then do
      let root ← fragment f.root
      pure (((← get).cache.findPeer? root stop).filter (·.executable))
    else pure none
  match ← onRecorder (Recorder.finish f stop target) with
  | .error e => return .error e
  | .ok buffer =>
    updateCache (·.attachTrace id buffer (target.map (·.id)))
    match ← assembleFragment (← fragment id) with
    | .ok a =>
      installAssembly f anchor a
      return .ok ()
    | .error e =>
      count fun s => { s with assemblyFailures := s.assemblyFailures + 1 }
      updateFragment id ({ · with trace := none, treeTarget := none })
      resetRecorder
      recordingFailed id anchor { reason := .assembly, pc := f.key.pc, detail := e.message }
      if let .compile { kind := .outOfSpace, .. } := e then
        outOfSpace (← fragment f.root).key
      return .error (.assembling id e)

/-! ### Execution -/

/-- Runs a fragment on the interpreter's slots until a guard fails. -/
def execute (fuel : Nat) (id : FragmentId) (slots : Array UInt64) :
    Monitoring (Except MonitorError Guard × Array UInt64) := do
  let m ← get
  if m.machine.isNone then return (.error .notExecutable, slots)
  let f ← fragment id
  if !f.executable then return (.error (.notCompiled f.render), slots)
  count fun s => { s with executions := s.executions + 1 }
  let run : Monitoring (Array UInt64 × Outcome) := fun m =>
    match m.machine with
    | none => .error .bounds m
    | some machine =>
      let heap := m.heap
      let m := { m with machine := none, heap := default }
      let (machine, heap, outcome) :=
        Machine.run m.helpers.host m.cache.region.seen m.maxSteps fuel machine heap f.entry slots
      let slots := machine.slots
      let m := { m with machine := some { machine with slots := #[] }, heap }
      match outcome with
      | .fault e => .error e m
      | outcome => .ok (slots, outcome) m
  match ← run with
  | (slots, .error e) => return (.error (.executing id e), slots)
  | (slots, .done n) =>
    match (← get).cache.guard? n.toUInt32 with
    | some g => return (.ok g, slots)
    | none => return (.error (.unknownGuard n), slots)
  | (slots, _) => return (.error .outOfFuel, slots)

/-- Deals with an exit that was taken, and tells whether a branch is being recorded now. -/
def handleExit (id : GuardId) : Monitoring Bool := do
  let g ← guard id
  count (·.exit ((← get).cache.exitOf g).exit.kind)
  updateCache (·.updateExit g.exit fun e => { e with hits := e.hits + 1 })
  let some source := (← get).cache.cached? g.source | return false
  updateFragment source.id fun f => { f with exits := f.exits + 1 }
  let m ← get
  if m.config.invalidateThreshold ≤ (source.exits + 1 : Nat) then
    let _ ← invalidate source.id
    return false
  if m.closed || !m.config.enabled || m.recorder.state ≠ .idle then return false
  let exit := m.cache.exitOf g
  if exit.blacklisted || g.target ≠ .bailout || (exit.hits : Int) < m.config.hotExitThreshold then
    return false
  let child ← caching (FragmentCache.attachChild source g)
  let types := (← fragment child).types
  if ← startRecording child types (some id) then return true
  caching (FragmentCache.discard (← fragment child))
  return false

/-! ### Listings -/

/-- A fragment with its trace, guards and code as text. -/
def dump (m : Monitor) (f : Fragment) : Except Fault Text := do
  let guards := f.guards.foldl (fun acc id => match m.cache.guards[id]? with
    | some g => acc ++ "  " ++ g.render (m.cache.exitOf g) ++ "\n"
    | none => acc) ∅
  let code (title : Text) (l : List CodeRange) : Except Fault Text := l.foldlM (fun acc r =>
    return acc ++ title ++ " [" ++ r.start.render ++ ", " ++ r.stop.render ++ ")\n"
      ++ (← m.cache.backend.dump m.cache.region.mem r.start r.stop)) ∅
  return f.render ++ " entry=" ++ f.entry.render ++ " loop=" ++ f.loopTop.render ++ " hits="
    ++ .ofNat f.hits ++ " exits=" ++ .ofNat f.exits ++ "\n" ++ f.trace.elim ∅ Buffer.render
    ++ guards ++ (← code "main" f.mainCode) ++ (← code "exits" f.exitCode)

end Monitor

end LoopTracer
