import LoopTracer.Compile.Assembly
import LoopTracer.Proofs.Compile.Allocating
import LoopTracer.Proofs.Trace.Recorders

/-! What assembling does to the code.

Assembling writes requests, allocates registers and, for each guard, adds a guard to a list. What
writing keeps is kept by all of it (`Steady`); guards and the jump that closes a loop are the only
things that it leaves behind, and a relation that allows for them is kept by a whole trace
(`generateFrom_keeps`). -/
namespace LoopTracer.Compile

open Machine Trace

/-- The code has moved on, and nothing was left behind. -/
structure Steady (R : Code → Code → Prop) (s s' : Assembler) : Prop where
  code : R s.alloc.code s'.alloc.code
  guards : s'.guards = s.guards
  count : s'.guardCount = s.guardCount
  loopSite : s'.loopSite = s.loopSite
  exits : s'.exits = s.exits

variable {R : Code → Code → Prop} [IsPreorder Code R]

instance : IsPreorder Assembler (Steady R) where
  refl _ := ⟨refl_of R _, rfl, rfl, rfl, rfl⟩
  trans _ _ _ h h' := ⟨trans_of R h.code h'.code, h'.guards.trans h.guards, h'.count.trans h.count,
    h'.loopSite.trans h.loopSite, h'.exits.trans h.exits⟩

/-- A constant is one of a trace. -/
def Mentioned (b : Buffer) (v : Immediate) : Prop := ∃ i ∈ b.insts, i.imm = v

/-- Every value of a snapshot has a place, one after the other. -/
def Located (snapshot : List SnapshotEntry) (locations : List SlotLocation) : Prop :=
  locations.map (fun l => (l.addr, l.type)) = snapshot.map fun e => (e.addr, e.type)

namespace Assembler

variable {α : Type} {job : Job}

omit [IsPreorder Code R] in
theorem allocating_keeps {x : Allocating α} (hx : Keeps (OnCode R) Calm x) :
    Keeps (Steady R) Calm (allocating x) := by
  intro s
  cases h : x s.alloc with
  | ok a alloc =>
    have heq : allocating x s = .ok a { s with alloc } := by simp only [allocating, h]
    exact (keepsAt_ok heq).mpr ⟨hx.ok h, rfl, rfl, rfl, rfl⟩
  | error e alloc =>
    have heq : allocating x s = .error e { s with alloc } := by simp only [allocating, h]
    exact (keepsAt_error heq).mpr ⟨⟨(hx.error h).1, rfl, rfl, rfl, rfl⟩, (hx.error h).2⟩

omit [IsPreorder Code R] in
theorem coding_keeps {x : Coding α} (hx : Keeps R Calm x) : Keeps (Steady R) Calm (coding x) :=
  allocating_keeps (Allocation.coding_keeps hx)

theorem liftFault_keeps {x : Except Fault α} (hx : ∀ f, x = .error f → Tame f) :
    Keeps (Steady R) Calm (liftFault x) := by
  cases x with
  | ok a => exact .pure a
  | error f => exact .throw (show Calm (.fault f) from hx f rfl)

theorem failing_keeps (kind : CompileErrorKind) (detail : Text) :
    Keeps (Steady R) Calm (failing kind detail : Assembling α) := .throw trivial

theorem regOf_keeps (ref : Ref) : Keeps (Steady R) Calm (regOf ref) :=
  .bind .get fun _ => liftFault_keeps fun _ => tame_regOf

theorem countExitJump_keeps (job : Job) : Keeps (Steady R) Calm (countExitJump job) := by
  refine .bind (.modify fun s => ⟨refl_of R _, rfl, rfl, rfl, rfl⟩) fun _ => .bind .get fun s => ?_
  split
  · exact failing_keeps _ _
  · exact .pure _

theorem operandRegs_keeps (i : Inst) : Keeps (Steady R) Calm (operandRegs i) := by
  have hstep : ∀ (set : RegSet) (r : Ref), Keeps (Steady R) Calm (do
      if r = Ref.none then return set
      return set.insert (← regOf r) : Assembling RegSet) := by
    intro set r
    split
    · exact .pure _
    · exact .bind (regOf_keeps r) fun _ => .pure _
  exact .bind (hstep _ _) fun _ => .bind (hstep _ _) fun _ => .pure _

section

variable (hb : job.set.backend = job.limits.backend) (hm : Code.Moves R job.limits.backend)
include hb hm

theorem regFor_keeps (ref : Ref) (avoid : RegSet) :
    Keeps (Steady R) Calm (allocating (Allocation.regFor job.set ref avoid)) :=
  allocating_keeps (Allocation.regFor_keeps (hb.symm ▸ hm) ref avoid)

theorem resultReg_keeps (ref : Ref) (avoid : RegSet) :
    Keeps (Steady R) Calm (allocating (Allocation.resultReg job.set ref avoid)) :=
  allocating_keeps (Allocation.resultReg_keeps (hb.symm ▸ hm) ref avoid)

omit hb in
theorem emit_keeps (side : Side) (i : Instr) : Keeps (Steady R) Calm (emit job side i) :=
  coding_keeps (hm.emit side i)

theorem operands_keeps (a b : Ref) : Keeps (Steady R) Calm (operands job a b) := by
  unfold operands
  repeat' with_reducible first
    | exact .pure _ | exact regFor_keeps hb hm _ _ | exact regOf_keeps _
    | refine .bind ?_ fun _ => ?_
    | dsimp only | split

omit hb hm in
theorem locate_keeps (l : List SnapshotEntry) : Keeps (Steady R) Calm (locate job l) := by
  have hbounds : Calm (.fault .bounds) := fun _ _ h => by cases h
  induction l with
  | nil => exact .pure _
  | cons e l ih =>
    unfold locate
    repeat' with_reducible first
      | exact .pure _ | exact .throw hbounds | exact regOf_keeps _ | exact ih
      | exact allocating_keeps (Allocation.slotFor_keeps _ _) | refine .bind ?_ fun _ => ?_
      | dsimp only | split

omit [IsPreorder Code R] hb hm in
/-- Every value is located, and the places of values that are constants name constants of the
trace. -/
theorem locate_ok {l : List SnapshotEntry} {s s' : Assembler} {out : List SlotLocation}
    (h : locate job l s = .ok out s') :
    Located l out ∧ ∀ x ∈ out, ∀ v, x.place = .immediate v → Mentioned job.set.buffer v := by
  induction l generalizing s s' out with
  | nil =>
    cases h
    exact ⟨rfl, nofun⟩
  | cons e l ih =>
    unfold locate at h
    extract_lets rest at h
    have hrest : ∀ place s₁, (∀ v, place = .immediate v → Mentioned job.set.buffer v) →
      rest place s₁ = .ok out s' →
        Located (e :: l) out ∧ ∀ x ∈ out, ∀ v, x.place = .immediate v →
            Mentioned job.set.buffer v := by
      intro place s₁ hplace h
      obtain ⟨tail, s₂, htail, h⟩ := bind_eq_ok h
      cases h
      obtain ⟨hlocated, hmentioned⟩ := ih htail
      refine ⟨congrArg (_ :: ·) hlocated, fun x hx v hv => ?_⟩
      rcases List.mem_cons.mp hx with rfl | hx
      · exact hplace v hv
      · exact hmentioned x hx v hv
    cases hget : job.set.buffer.get? e.ref with
    | none =>
      rw [hget] at h
      obtain ⟨_, _, hthrow, -⟩ := bind_eq_ok h
      cases hthrow
    | some i =>
      rw [hget] at h
      obtain ⟨op, a, b, type, slot, imm, helper, args, exit, pc⟩ := i
      cases op
      case imm =>
        refine hrest _ s (fun v hv => ?_) h
        cases hv
        unfold Buffer.get? at hget
        split at hget
        · cases hget
        · exact ⟨_, Array.mem_of_getElem? hget, rfl⟩
      -- any other value is in a register or on the stack
      all_goals
        obtain ⟨r, s₁, -, h⟩ := bind_eq_ok h
        split at h
        · exact hrest (.register r) s₁ (fun _ hv => by cases hv) h
        · obtain ⟨slot, s₂, -, h⟩ := bind_eq_ok h
          exact hrest (.stack slot) s₂ (fun _ hv => by cases hv) h

omit hb in
theorem exitCode_keeps (id : GuardId) (locations : List SlotLocation) :
    Keeps (Steady R) Calm (exitCode job id locations) :=
  .bind (countExitJump_keeps job) fun _ => .bind .get fun _ =>
    .bind (coding_keeps (hm.emitBranch .exits _)) fun _ => .bind (emit_keeps hm _ _) fun _ =>
      .bind (.forM (fun i => emit_keeps hm .exits i) _) fun _ =>
        .bind (coding_keeps (hm.pos .exits)) fun _ => .pure _

theorem passInRegs_keeps (l : List (Ref × Reg)) : Keeps (Steady R) Calm (passInRegs job l) := by
  induction l with
  | nil => exact .pure _
  | cons x l ih =>
    exact .bind (allocating_keeps (Allocation.specificRegFor_keeps (hb.symm ▸ hm) x.1 x.2)) fun _ =>
      ih

theorem call_keeps (ref : Ref) (i : Inst) : Keeps (Steady R) Calm (call job ref i) := by
  have hargs : ∀ avoid (l : List Ref), Keeps (Steady R) Calm (l.forM fun a => do
      let r ← allocating (Allocation.regFor job.set a avoid)
      emit job .main (.push r)) := fun avoid l =>
    .forM (fun a => .bind (regFor_keeps hb hm a avoid) fun r => emit_keeps hm _ _) l
  unfold call
  repeat' with_reducible first
    | exact .pure _ | exact .get | exact liftFault_keeps fun _ => HelperTable.tame_get
    | exact liftFault_keeps fun _ => HelperTable.tame_spec
    | exact liftFault_keeps fun _ => tame_entry
    | exact allocating_keeps (Allocation.update_keeps _)
    | exact allocating_keeps (Allocation.release_keeps _)
    | exact allocating_keeps (Allocation.evictCallerSaved_keeps (hb.symm ▸ hm))
    | exact emit_keeps hm _ _ | exact passInRegs_keeps hb hm _ | exact hargs _ _
    | refine .bind ?_ fun _ => ?_ | dsimp only | split

/-- What a guard does once its values are located. -/
def leave (job : Job) (exit : Nat) (cond : GuardCond) (r : Reg) (locations : List SlotLocation) :
    Assembling Unit := do
  modify fun s =>
    let exits := s.exits
    { { s with exits := #[] } with
      exits := exits.modify exit ({ · with locations })
      guardCount := s.guardCount + 1 }
  let id : GuardId := (← get).guardCount.toUInt32
  let (start, site) ← exitCode job id locations
  emit job .main (.guard cond r start)
  modify fun s => { s with
    guards := s.guards.push { id, source := job.fragment.id, target := .bailout, site, exit } }

/-- The jump that closes a loop. -/
def closing (job : Job) : Assembling Unit := do
  let bailout := (← get).alloc.code.region.bailout
  let site ← coding (Code.emitBranch job.limits.backend .main (.jump bailout))
  modify ({ · with loopSite := some site })

section

variable {Q : Assembler → Assembler → Prop} [IsPreorder Assembler Q]
  (hsteady : ∀ s s', Steady R s s' → Q s s')
include hsteady

/-- A guard keeps what leaving does with the places that it has found. -/
theorem guard_keeps (k : Nat) (i : Inst)
    (hleave : ∀ reg locations, Located (i.exit.elim [] (·.snapshot)) locations →
      (∀ x ∈ locations, ∀ v, x.place = .immediate v → Mentioned job.set.buffer v) →
      Keeps Q Calm (leave job (job.exitIndex[k]?.getD 0) (guardCond i.op) reg locations)) :
    Keeps Q Calm (guard job k i) := by
  have lift : ∀ {α : Type} {x : Assembling α}, Keeps (Steady R) Calm x → Keeps Q Calm x :=
    fun h => h.mono hsteady fun _ he => he
  have hrest : ∀ reg, Keeps Q Calm (do
      let locations ← locate job (i.exit.elim [] (·.snapshot))
      leave job (job.exitIndex[k]?.getD 0) (guardCond i.op) reg locations) := fun reg s =>
    .bind (lift (locate_keeps _) s) fun locations s' hlocate =>
      hleave reg locations (locate_ok hlocate).1 (locate_ok hlocate).2 s'
  unfold guard
  refine .bind .get fun s => ?_
  extract_lets exit tail whole
  have hwhole : ∀ u, Keeps Q Calm (whole u) := by
    intro u
    unfold whole
    split
    · exact .bind (lift (.modify fun s => ⟨refl_of R s.alloc.code, rfl, rfl, rfl, rfl⟩)) fun _ =>
        .bind (.pure _) hrest
    · exact .bind (lift (regFor_keeps hb hm _ _)) hrest
  split
  · exact .bind (lift (failing_keeps _ _)) hwhole
  · exact hwhole ()

/-- An instruction keeps what its guard or its closing jump keeps. -/
theorem generate_keeps (n : Nat) (i : Inst)
    (hguard : i.op.isGuard = true → Keeps Q Calm (guard job n i))
    (hloop : i.op = .loop → Keeps Q Calm (closing job)) : Keeps Q Calm (generate job n i) := by
  have lift : ∀ {α : Type} {x : Assembling α}, Keeps (Steady R) Calm x → Keeps Q Calm x :=
    fun h => h.mono hsteady fun _ he => he
  have hmodify : ∀ {f : Bool},
      Keeps Q Calm (modify fun s => { s with needFlag := f } : Assembling Unit) :=
    lift (.modify fun s => ⟨refl_of R _, rfl, rfl, rfl, rfl⟩)
  have hemit := fun side i => lift (emit_keeps hm side i)
  have hregFor := fun ref avoid => lift (regFor_keeps hb hm ref avoid)
  have hresult := fun ref avoid => lift (resultReg_keeps hb hm ref avoid)
  have hoperands := fun a b => lift (operands_keeps hb hm a b)
  have hregs := fun i => lift (operandRegs_keeps i)
  have hregOf := fun ref => lift (regOf_keeps ref)
  have hop : ∀ op : TraceOp, Calm (.fault (.cannotAssemble op.name)) := fun _ => nofun
  have hguarded : ∀ op : TraceOp, op.isGuard = true → i.op = op → Keeps Q Calm (guard job n i) :=
    fun op hop heq => hguard (heq ▸ hop)
  unfold closing at hloop
  unfold generate
  refine .bind .get fun s => .bind (lift (liftFault_keeps fun _ => tame_isLive)) fun needed => ?_
  -- the code of the instruction itself comes after two steps that may be left out
  extract_lets dead code rest
  have hcode : ∀ u, Keeps Q Calm (code u) := by
    intro u
    unfold code
    repeat' with_reducible first
      | exact hloop ‹_› | refine .bind ?_ fun _ => ?_ | split
      | exact hemit _ _ | exact hresult _ _ | exact hoperands _ _ | exact hregs _
      | exact hregFor _ _ | exact hregOf _
      | exact hguarded .exitUnless rfl ‹_› | exact hguarded .exitIf rfl ‹_›
      | exact hguarded .exitOv rfl ‹_›
      | exact lift (countExitJump_keeps _) | exact lift (call_keeps hb hm _ _)
      | exact lift (allocating_keeps (Allocation.release_keeps _)) | exact .throw (hop _)
  have hrest : ∀ u, Keeps Q Calm (rest u) := by
    intro u
    unfold rest
    split
    · exact .bind hmodify hcode
    · exact hcode ()
  refine .bind .get fun s => ?_
  split
  · exact .pure _
  · split
    · exact .bind (lift (allocating_keeps (Allocation.reserve_keeps _))) fun _ => hrest ()
    · exact hrest ()

/-- A whole trace keeps what each of its instructions keeps. -/
theorem generateFrom_keeps (n : Nat)
    (hguard : ∀ k i, job.set.buffer.insts[k]? = some i → i.op.isGuard = true →
      Keeps Q Calm (guard job k i))
    (hloop : ∀ i ∈ job.set.buffer.insts, i.op = .loop → Keeps Q Calm (closing job)) :
    Keeps Q Calm (generateFrom job n) := by
  induction n with
  | zero => exact .pure _
  | succ n ih =>
    refine .bind ((allocating_keeps (Allocation.update_keeps _)).mono hsteady fun _ he => he)
      fun _ => ?_
    split
    · next i hi =>
      have hmem := Array.mem_of_getElem? hi
      exact .bind (generate_keeps hb hm hsteady n i (hguard n i hi) (hloop i hmem)) fun _ => ih
    · exact .bind (.throw (show Calm (.fault .bounds) from fun _ _ h => by cases h)) fun _ => ih

omit hb in
/-- Compiling keeps what the instructions keep, and redirecting the jump that closes a loop. -/
theorem wholeTrace_keeps (hgenerate : Keeps Q Calm (generateFrom job job.set.buffer.size))
    (hpatch : ∀ s site target, s.loopSite = some site → KeepsAt Q Calm (patch job site target) s) :
    Keeps Q Calm (wholeTrace job) := by
  have lift : ∀ {α : Type} {x : Assembling α}, Keeps (Steady R) Calm x → Keeps Q Calm x :=
    fun h => h.mono hsteady fun _ he => he
  unfold wholeTrace
  extract_lets b
  refine .bind hgenerate fun _ =>
      .bind (lift (allocating_keeps Allocation.checkDone_keeps)) fun _ =>
    .bind (lift (coding_keeps (hm.pos .main))) fun loopTop => ?_
  intro s
  refine .bind (Keeps.get s) fun s₁ s₂ hget => ?_
  cases hget
  extract_lets rest entered
  have hrest : ∀ u, Keeps Q Calm (rest u) := fun u => .bind .get fun _ => .pure _
  have hentered : ∀ u, Keeps Q Calm (entered u) := by
    intro u
    unfold entered
    split
    · exact .bind (.pure _) hrest
    · exact .bind (lift (emit_keeps hm _ _)) fun _ =>
        .bind (lift (coding_keeps (hm.pos .main))) hrest
  split
  · next site hsite => exact .bind (hpatch s site _ hsite) fun u s' _ => hentered u s'
  · exact hentered () s

end

end

end Assembler

end LoopTracer.Compile
