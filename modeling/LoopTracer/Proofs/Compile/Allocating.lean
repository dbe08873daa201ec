import LoopTracer.Compile.Registers
import LoopTracer.Proofs.Compile.Chains

/-! What register allocation does to the code.

All that the allocator does to the code is writing requests. So it keeps whatever writing keeps. -/
namespace LoopTracer.Compile

open Machine Trace

/-- A relation between the code before and after. -/
def OnCode (R : Code → Code → Prop) (s s' : Allocation) : Prop := R s.code s'.code

variable {R : Code → Code → Prop} [IsPreorder Code R]

instance : IsPreorder Allocation (OnCode R) where
  refl s := refl_of R s.code
  trans _ _ _ h h' := trans_of R h h'

/-! ### Faults -/

theorem tame_entry {s : Registers} {ref : Ref} {f : Fault}
    (h : s.entry ref = .error f) : Tame f := by
  unfold Registers.entry at h
  repeat' split at h
  all_goals cases h
  all_goals rintro _ _ ⟨⟩

theorem tame_regOf {s : Registers} {ref : Ref} {f : Fault}
    (h : s.regOf ref = .error f) : Tame f := by
  unfold Registers.regOf at h
  cases he : s.entry ref with
  | ok e =>
    rw [he] at h
    cases h
  | error e =>
    rw [he] at h
    cases h
    exact tame_entry he

theorem tame_isLive {s : Registers} {ref : Ref} {f : Fault}
    (h : s.isLive ref = .error f) : Tame f := by
  unfold Registers.isLive at h
  cases he : s.entry ref with
  | ok e =>
    rw [he] at h
    cases h
  | error e =>
    rw [he] at h
    cases h
    exact tame_entry he

namespace Allocation

variable {α : Type} {set : Setting}

omit [IsPreorder Code R] in
theorem coding_keeps {x : Coding α} (hx : Keeps R Calm x) : Keeps (OnCode R) Calm (coding x) := by
  intro s
  cases h : x s.code with
  | ok a c =>
    have : coding x s = .ok a { s with code := c } := by simp only [coding, h]
    exact (keepsAt_ok this).mpr (hx.ok h)
  | error e c =>
    have : coding x s = .error e { s with code := c } := by simp only [coding, h]
    exact (keepsAt_error this).mpr (hx.error h)

theorem update_keeps (f : Registers → Registers) : Keeps (OnCode R) Calm (update f) :=
  .modify fun s => refl_of R s.code

theorem liftFault_keeps {x : Except Fault α} (hx : ∀ f, x = .error f → Tame f) :
    Keeps (OnCode R) Calm (liftFault x) := by
  cases x with
  | ok a => exact .pure a
  | error f => exact .throw (show Calm (.fault f) from hx f rfl)

theorem failing_keeps (kind : CompileErrorKind) (detail : Text) :
    Keeps (OnCode R) Calm (failing kind detail : Allocating α) := .throw trivial

theorem bounds_keeps : Keeps (OnCode R) Calm (throw (.fault .bounds) : Allocating α) :=
  .throw (show Calm (.fault .bounds) from fun _ _ h => by cases h)

/-- There is no entry for a value once the table is full. -/
theorem take_full {ref : Ref} {s : Allocation} (h : s.regs.free = none) : reserve.take ref s =
    .error (.error ⟨.tooManyLive, .ofNat s.regs.live ++ " values live at v" ++ .ofInt ref⟩) s := by
  unfold reserve.take
  rw [h]

theorem take_free {ref : Ref} {i : Nat} {s : Allocation} (h : s.regs.free = some i) :
    reserve.take ref s = .ok i { s with regs := s.regs.add ref i } := by
  unfold reserve.take
  rw [h]

theorem reserve_keeps (ref : Ref) : Keeps (OnCode R) Calm (reserve ref) := by
  refine .bind .get fun s => .bind (liftFault_keeps fun _ => tame_entry) fun e => ?_
  cases e with
  | some i => exact .pure _
  | none =>
    intro s
    cases hfree : s.regs.free with
    | none => exact (keepsAt_error (take_full hfree)).mpr ⟨refl_of R _, trivial⟩
    | some i => exact (keepsAt_ok (take_free hfree)).mpr (refl_of R s.code)

theorem release_keeps (ref : Ref) : Keeps (OnCode R) Calm (release ref) := by
  refine .bind .get fun s => .bind (liftFault_keeps fun _ => tame_entry) fun e => ?_
  cases e with
  | some i => exact update_keeps _
  | none => exact .pure _

theorem assign_keeps (set : Setting) (i : Nat) (r : Reg) :
    Keeps (OnCode R) Calm (assign set i r) := by
  refine .bind .get fun s => ?_
  dsimp only
  split
  · exact .bind (.throw (show Calm (.fault _) from nofun)) fun _ => update_keeps _
  · exact update_keeps _

theorem ensureSlot_keeps (set : Setting) (i : Nat) : Keeps (OnCode R) Calm (ensureSlot set i) := by
  refine .bind .get fun s => ?_
  dsimp only
  repeat' with_reducible first
    | exact .pure _ | exact failing_keeps _ _ | exact update_keeps _
    | refine .bind ?_ fun _ => ?_ | split

theorem slotFor_keeps (set : Setting) (ref : Ref) : Keeps (OnCode R) Calm (slotFor set ref) :=
  .bind (reserve_keeps ref) fun i => ensureSlot_keeps set i

theorem checkDone_keeps : Keeps (OnCode R) Calm checkDone := by
  refine .bind .get fun s => ?_
  have hlive : ∀ ref, Calm (.fault (.stillLive ref)) := fun _ => nofun
  dsimp only
  repeat' with_reducible first | exact .pure _ | exact .throw (hlive _) | split

/-! ### Functions that write code -/

variable (hm : Code.Moves R set.backend)
include hm

theorem emit_keeps (i : Instr) : Keeps (OnCode R) Calm (emit set i) :=
  coding_keeps (hm.emit .main i)

theorem evict_keeps (ref : Ref) : Keeps (OnCode R) Calm (evict set ref) := by
  refine .bind .get fun s => .bind (liftFault_keeps fun _ => tame_entry) fun e => ?_
  cases e with
  | none => exact bounds_keeps
  | some i =>
    refine .bind .get fun s => ?_
    dsimp only
    repeat' with_reducible first
      | exact emit_keeps hm _ | exact ensureSlot_keeps _ _ | exact update_keeps _
      | refine .bind ?_ fun _ => ?_ | split

theorem freeReg_keeps (avoid : RegSet) : Keeps (OnCode R) Calm (freeReg set avoid) := by
  refine .bind .get fun s => ?_
  dsimp only
  repeat' with_reducible first
    | exact .pure _ | exact failing_keeps _ _ | exact liftFault_keeps fun _ => tame_regOf
    | exact evict_keeps hm _ | refine .bind ?_ fun _ => ?_ | split

theorem regFor_keeps (ref : Ref) (avoid : RegSet) :
    Keeps (OnCode R) Calm (regFor set ref avoid) := by
  refine .bind (reserve_keeps ref) fun i => .bind .get fun s => ?_
  dsimp only
  split
  · exact .pure _
  · exact .bind (freeReg_keeps hm avoid) fun r => .bind (assign_keeps set i r) fun _ => .pure _

theorem specificRegFor_keeps (ref : Ref) (want : Reg) :
    Keeps (OnCode R) Calm (specificRegFor set ref want) := by
  refine .bind (reserve_keeps ref) fun i => .bind .get fun s => ?_
  repeat' with_reducible first
    | exact .pure _ | exact .get | exact evict_keeps hm _ | exact emit_keeps hm _
    | exact update_keeps _
    | exact assign_keeps _ _ _ | refine .bind ?_ fun _ => ?_ | dsimp only | split

theorem resultReg_keeps (ref : Ref) (avoid : RegSet) :
    Keeps (OnCode R) Calm (resultReg set ref avoid) := by
  refine .bind (reserve_keeps ref) fun i => .bind .get fun s => ?_
  repeat' with_reducible first
    | exact .pure _ | exact .get | exact freeReg_keeps hm _ | exact emit_keeps hm _
    | exact release_keeps _
    | exact assign_keeps _ _ _ | refine .bind ?_ fun _ => ?_ | dsimp only | split

theorem evictCallerSaved_keeps : Keeps (OnCode R) Calm (evictCallerSaved set) := by
  refine .forM (fun r => ?_) _
  repeat' with_reducible first
    | exact .pure _ | exact .get | exact evict_keeps hm _ | refine .bind ?_ fun _ => ?_
    | dsimp only | split

end Allocation

end LoopTracer.Compile
