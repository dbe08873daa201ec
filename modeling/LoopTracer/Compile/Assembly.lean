import LoopTracer.Compile.Registers

/-! Assembling a trace.

The trace is walked once from its end to its start; register allocation and the choice of
instructions happen together. Main code and exits lie in different pages. A guard is a
conditional branch into its exit code, which writes the snapshot back to the slots, puts the
guard's number into a register and jumps to the shared end of all exits. That last jump is the
place to redirect once the exit has a trace of its own. -/
namespace LoopTracer.Compile

open Machine Trace

/-- The limits and the back end that compiling obeys. -/
structure Limits where
  backend : Backend
  target : Target
  maxGuards : Int
  maxExitJumps : Int
  maxSpillSlots : Int
  maxReservations : Int

/-- A compiled trace. -/
structure Assembly where
  entry : CodeAddr
  loopTop : CodeAddr
  mainPages : List Nat
  exitPages : List Nat
  mainCode : List CodeRange
  exitCode : List CodeRange
  /-- The guards in the order of the trace. -/
  guards : List Guard
  spillSlots : Nat
deriving Inhabited

/-- What compiling one fragment reads. -/
structure Job where
  limits : Limits
  helpers : HelperTable
  fragment : Fragment
  /-- The top of the fragment that a branch ends in. -/
  targetTop : CodeAddr
  set : Setting
  /-- The place of each instruction's exit in the table of exits. -/
  exitIndex : Array Nat

structure Assembler where
  alloc : Allocation
  /-- The guards so far, the last one of the trace first. -/
  guards : Array Guard := #[]
  exitJumps : Nat := 0
  /-- The jump back to the top, to be redirected there at the end. -/
  loopSite : Option CodeAddr := none
  /-- The overflow flag is needed by the guard just met. -/
  needFlag : Bool := false
  /-- The number of guards ever made. -/
  guardCount : Nat
  /-- The table of exits. -/
  exits : Array ExitRecord
deriving Inhabited

abbrev Assembling := EStateM CompileStop Assembler

namespace Assembler

def allocating {α : Type} (x : Allocating α) : Assembling α := fun s =>
  let alloc := s.alloc
  let s := { s with alloc := default }
  match x alloc with
  | .ok a alloc => .ok a { s with alloc }
  | .error e alloc => .error e { s with alloc }

def coding {α : Type} (x : Coding α) : Assembling α := allocating (Allocation.coding x)

def emit (job : Job) (side : Side) (i : Instr) : Assembling Unit :=
  coding (Code.emit job.limits.backend side i)

def liftFault {α : Type} : Except Fault α → Assembling α
  | .ok a => pure a
  | .error f => throw (.fault f)

def failing {α : Type} (kind : CompileErrorKind) (detail : Text) : Assembling α :=
  throw (.error { kind, detail })

def regOf (ref : Ref) : Assembling Reg := do liftFault ((← get).alloc.regs.regOf ref)

/-- Counts a jump that leaves the trace. -/
def countExitJump (job : Job) : Assembling Unit := do
  modify fun s => { s with exitJumps := s.exitJumps + 1 }
  if job.limits.maxExitJumps < (← get).exitJumps then
    failing .tooManyExits ("more than " ++ .ofInt job.limits.maxExitJumps
      ++ " off-trace jumps in " ++ job.fragment.render)

/-- The registers that the operands of an instruction are in. -/
def operandRegs (i : Inst) : Assembling RegSet :=
  [i.a, i.b].foldlM (fun set r => do
    if r = Ref.none then return set
    return set.insert (← regOf r)) ∅

/-- Registers for two operands. -/
def operands (job : Job) (a b : Ref) : Assembling (Reg × Reg) := do
  if a = b then
    let r ← allocating (Allocation.regFor job.set a ∅)
    return (r, r)
  let avoid := RegSet.empty.insert (← regOf b)
  let ra ← allocating (Allocation.regFor job.set a avoid)
  let rb ← allocating (Allocation.regFor job.set b (RegSet.ofList [ra]))
  return (ra, rb)

/-! ### Guards -/

/-- Where the exit code finds each value of a snapshot. -/
def locate (job : Job) : List SnapshotEntry → Assembling (List SlotLocation)
  | [] => return []
  | e :: rest => do
    let place : Place ← match job.set.buffer.get? e.ref with
      | none => throw (.fault .bounds)
      | some { op := .imm, imm, .. } => pure (Place.immediate imm)
      | some _ => do
        let r ← regOf e.ref
        if r ≠ Reg.none then pure (Place.register r)
        else pure (Place.stack (← allocating (Allocation.slotFor job.set e.ref)))
    return { addr := e.addr, type := e.type, place } :: (← locate job rest)

/-- The code that writes one value back to its slot, in the order of writing. -/
def writeBack (t : Target) (l : SlotLocation) : List Instr :=
  let disp := l.addr.byte
  match l.place with
  | .register r => [.store t.stateBase disp r]
  | .stack slot =>
    [.store t.stateBase disp t.scratch, .load t.scratch t.frameBase (t.spillDisp slot)]
  | .immediate i => [.store t.stateBase disp t.scratch, .movImm t.scratch i.bits]
  | .other _ => []

/-- Writes the exit code of a guard and gives its start and the place to redirect. -/
def exitCode (job : Job) (id : GuardId) (locations : List SlotLocation) :
    Assembling (CodeAddr × CodeAddr) := do
  countExitJump job
  let t := job.set.target
  let bailout := (← get).alloc.code.region.bailout
  let site ← coding (Code.emitBranch job.limits.backend .exits (.jump bailout))
  emit job .exits (.movImm t.exitReg id.toUInt64)
  (locations.reverse.flatMap (writeBack t)).forM (emit job .exits)
  return (← coding (Code.pos job.limits.backend .exits), site)

def guardCond : TraceOp → GuardCond
  | .exitIf => .nonZero
  | .exitOv => .overflow
  | _ => .zero

def guard (job : Job) (n : Nat) (i : Inst) : Assembling Unit := do
  if job.limits.maxGuards ≤ (← get).guards.size then
    failing .tooManyGuards ("more than " ++ .ofInt job.limits.maxGuards ++ " guards in "
      ++ job.fragment.render)
  let r ← if i.op == .exitOv then do
      modify ({ · with needFlag := true })
      pure Reg.none
    else allocating (Allocation.regFor job.set i.a ∅)
  let locations ← locate job (i.exit.elim [] (·.snapshot))
  let exit := job.exitIndex[n]?.getD 0
  modify fun s =>
    let exits := s.exits
    { { s with exits := #[] } with
      exits := exits.modify exit ({ · with locations })
      guardCount := s.guardCount + 1 }
  let id : GuardId := (← get).guardCount.toUInt32
  let (start, site) ← exitCode job id locations
  emit job .main (.guard (guardCond i.op) r start)
  modify fun s => { s with
    guards := s.guards.push { id, source := job.fragment.id, target := .bailout, site, exit } }

/-! ### Calls -/

/-- Puts arguments into their registers. -/
def passInRegs (job : Job) : List (Ref × Reg) → Assembling Unit
  | [] => return
  | (ref, r) :: rest => do
    allocating (Allocation.specificRegFor job.set ref r)
    passInRegs job rest

def call (job : Job) (ref : Ref) (i : Inst) : Assembling Unit := do
  let d ← liftFault (job.helpers.get i.helper)
  let entry ← liftFault ((← get).alloc.regs.entry ref)
  if entry.isNone && d.pure then return
  let spec ← liftFault (job.helpers.spec i.helper)
  let t := job.set.target
  -- the result leaves its register first, so that it is not evicted with the others
  let held := entry.map (← get).alloc.regs.at?
  if let (some e, some h) := (entry, held) then
    if h.reg ≠ Reg.none then allocating (Allocation.update (·.unassign e))
  allocating (Allocation.evictCallerSaved job.set)
  if let some h := held then
    if let some slot := h.slot then
      emit job .main (.store t.frameBase (t.spillDisp slot) t.retReg)
    if h.reg ≠ Reg.none && h.reg ≠ t.retReg then emit job .main (.mov h.reg t.retReg)
    allocating (Allocation.release ref)
  emit job .main (.call spec)
  let inRegs := i.args.zip t.argRegs
  passInRegs job inRegs
  let avoid := RegSet.ofList (inRegs.map (·.2))
  (i.args.drop t.argRegs.length).forM fun a => do
    let r ← allocating (Allocation.regFor job.set a avoid)
    emit job .main (.push r)
  if spec.stackArgs t < spec.stackWords t then emit job .main (.push t.scratch)

/-! ### Instructions -/

/-- Writes the code of instruction `n`. -/
def generate (job : Job) (n : Nat) (i : Inst) : Assembling Unit := do
  let ref : Ref := n
  let t := job.set.target
  let needed ← liftFault ((← get).alloc.regs.isLive ref)
  let dead := i.op.hasResult && i.op ≠ .call && !needed
  if dead && !(i.op.setsOverflow && (← get).needFlag) then return
  if dead then
    let _ ← allocating (Allocation.reserve ref)
  if i.op.setsOverflow then modify ({ · with needFlag := false })
  match i.op with
  | .loop =>
    let bailout := (← get).alloc.code.region.bailout
    let site ← coding (Code.emitBranch job.limits.backend .main (.jump bailout))
    modify ({ · with loopSite := some site })
  | .jumpTree =>
    countExitJump job
    emit job .main (.jump job.targetTop)
  | .store =>
    let r ← allocating (Allocation.regFor job.set i.a ∅)
    emit job .main (.store t.stateBase i.slot.byte r)
  | .exitUnless | .exitIf | .exitOv => guard job n i
  | .call => call job ref i
  | .param =>
    let r ← allocating (Allocation.resultReg job.set ref ∅)
    emit job .main (.load r t.stateBase i.slot.byte)
  | .imm =>
    if (← regOf ref) = Reg.none then
      -- every use has made it anew
      allocating (Allocation.release ref)
    else
      let r ← allocating (Allocation.resultReg job.set ref ∅)
      emit job .main (.movImm r i.imm.bits)
  | op =>
    match op.binary?, op.unary?, op.compare? with
    | some m, _, _ =>
      let rd ← allocating (Allocation.resultReg job.set ref (← operandRegs i))
      let (ra, rb) ← operands job i.a i.b
      emit job .main (.binary m rd ra rb)
    | _, some m, _ =>
      let rd ← allocating (Allocation.resultReg job.set ref (← operandRegs i))
      let ra ← allocating (Allocation.regFor job.set i.a ∅)
      emit job .main (.unary m rd ra)
    | _, _, some (c, float) =>
      let rd ← allocating (Allocation.resultReg job.set ref (← operandRegs i))
      let (ra, rb) ← operands job i.a i.b
      emit job .main (.compare c float rd ra rb)
    | _, _, _ => throw (.fault (.cannotAssemble op.name))

/-- Writes the code of the first `n` instructions, the last of them first. -/
def generateFrom (job : Job) : (n : Nat) → Assembling Unit
  | 0 => return
  | n + 1 => do
    allocating (Allocation.update ({ · with pos := n }))
    match job.set.buffer.insts[n]? with
    | some i => generate job n i
    | none => throw (.fault .bounds)
    generateFrom job n

/-- Redirects a branch. -/
def patch (job : Job) (site target : CodeAddr) : Assembling Unit := coding fun c =>
  let region := c.region
  let c := { c with region := {} }
  match job.limits.backend.patch region.mem site target with
  | .ok mem => .ok () { c with region := { region with mem } }
  | .error f => .error (.fault f) { c with region }

/-- Writes the code of a whole trace, from its last instruction to its entry. -/
def wholeTrace (job : Job) : Assembling Assembly := do
  let b := job.limits.backend
  generateFrom job job.set.buffer.size
  allocating Allocation.checkDone
  let loopTop ← coding (Code.pos b .main)
  if let some site := (← get).loopSite then patch job site loopTop
  let entry ← if job.fragment.kind == .branch then pure loopTop else do
    emit job .main (.prologue job.limits.maxSpillSlots)
    coding (Code.pos b .main)
  let s ← get
  return {
    entry
    loopTop
    mainPages := s.alloc.code.main.pages.toList
    exitPages := s.alloc.code.exits.pages.toList
    mainCode := s.alloc.code.main.finish
    exitCode := s.alloc.code.exits.finish
    guards := s.guards.toList.reverse
    spillSlots := s.alloc.regs.high }

end Assembler

/-- Why a fragment could not be compiled. -/
inductive AssembleError where
  | noTrace (fragment : Text)
  | invalid (e : BufferError)
  | notCompiled (fragment : Text)
  | compile (e : CompileError)
  | fault (f : Fault)

def AssembleError.message : AssembleError → Text
  | noTrace f => "jit: " ++ f ++ " has no sealed IR"
  | invalid e => e.message
  | notCompiled f => "jit: " ++ f ++ " jumps to a fragment that is not compiled"
  | compile e => e.message
  | fault f => f.message

/-- What compiling reads and changes outside the code it writes. -/
structure Workshop where
  region : CodePages := {}
  guardCount : Nat := 0
  exits : Array ExitRecord := #[]
deriving Inhabited

/-- The places of the instructions' exits in the table of exits, where the first one is at
`base` and every instruction with an exit has one. -/
def exitPlaces (buffer : Buffer) (base : Nat) : Array Nat :=
  (buffer.insts.foldl (fun (places, n) i => (places.push n, if i.exit.isSome then n + 1 else n))
    (#[], base)).1

/-- Compiles the trace of a fragment; `target` is the fragment that a branch ends in. On an
error the pages taken are given back. -/
def assemble (limits : Limits) (helpers : HelperTable) (f : Fragment) (target : Option Fragment) :
    EStateM AssembleError Workshop Assembly := do
  let some buffer := f.trace | throw (.noTrace f.render)
  if !buffer.isSealed then throw (.noTrace f.render)
  if let .error e := buffer.validate then throw (.invalid e)
  if (buffer.insts.back?.any (·.op == .jumpTree)) && !target.any (·.executable) then
    throw (.notCompiled f.render)
  if !Registers.canHave limits.maxReservations limits.maxSpillSlots then throw (.fault .bounds)
  let set : Setting :=
    { backend := limits.backend
      target := limits.target
      buffer
      uses := buffer.uses
      maxSlots := limits.maxSpillSlots }
  let targetTop := target.elim 0 (·.loopTop)
  let exitIndex := exitPlaces buffer f.exitBase
  let job : Job := { limits, helpers, fragment := f, targetTop, set, exitIndex }
  fun shop =>
    let regs := Registers.create limits.maxReservations.toNat buffer.size limits.target.allocatable
    let start : Assembler :=
      { alloc := { regs, code := { region := shop.region } }
        guardCount := shop.guardCount
        exits := shop.exits }
    let shop : Workshop := {}
    match Assembler.wholeTrace job start with
    | .ok a s =>
      .ok a { shop with region := s.alloc.code.region, guardCount := s.guardCount, exits := s.exits }
    | .error (.fault e) s => .error (.fault e)
        { shop with region := s.alloc.code.region, guardCount := s.guardCount, exits := s.exits }
    | .error (.error e) s =>
      let (region, fault) := s.alloc.code.abandon
      .error (fault.elim (.compile e) .fault)
        { shop with region, guardCount := s.guardCount, exits := s.exits }

end LoopTracer.Compile
