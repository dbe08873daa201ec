import LoopTracer.Compile.Assembly
import LoopTracer.Proofs.Compile.Upkeep

/-! Allocating registers never goes wrong.

From reservations in order every operation of the allocator leads to reservations in order, and no
more than a limit stops it (`Job.Allots`). A register is had whenever a register of the arguments is
not to be avoided: if none is free, then each of those that may be handed out holds a value that can
be evicted. -/
namespace LoopTracer.Compile

open Machine Trace

/-- What compiling a fragment relies on: room on every page, and registers for the arguments
of a call. -/
structure Job.Fit (job : Job) (r : CodePages) : Prop where
  laid : r.Laid
  page : 1024 ≤ r.pageSize
  backend : job.set.backend = job.limits.backend
  slots : job.set.maxSlots = job.limits.maxSpillSlots
  target : job.set.target.Callable

/-- Allocating ends as `Q` says unless a limit stops it. -/
abbrev Job.Allots (job : Job) (r : CodePages) {α : Type} (x : Allocating α) (s : Allocation)
    (Q : α → Allocation → Prop) : Prop :=
  Ensures (fun e s => ∃ x, e = .error x ∧ s.Exceeded job.limits r.pages.size x) x s Q

/-- A part of compiling ends as `Q` says unless a limit stops it. -/
abbrev Job.Ends (job : Job) (r : CodePages) {α : Type} (x : Assembling α) (s : Assembler)
    (Q : α → Assembler → Prop) : Prop :=
  Ensures (fun e s => ∃ x, e = .error x ∧
    Exceeded job.limits r.pages.size job.fragment.render s x) x s Q

/-- Reservations for values made before instruction `n` are in order, and so are the pages. -/
structure Orderly (job : Job) (r : CodePages) (l : List Nat) (n : Nat) (s : Allocation) : Prop where
  regs : s.regs.Sound job.set.target job.set.buffer n
  tidy : Code.Tidy r l s.code
  table : job.limits.maxReservations ≤ s.regs.table.size

section Orderly

variable {job : Job} {r : CodePages} {l : List Nat} {n : Nat} {s : Allocation}
  (h : Orderly job r l n s)
include h

theorem Orderly.changed {regs : Registers} (hregs : regs.Sound job.set.target job.set.buffer n)
    (htable : regs.table.size = s.regs.table.size) : Orderly job r l n { s with regs } :=
  ⟨hregs, h.tidy, htable ▸ h.table⟩

theorem Orderly.coded {s' : Allocation} (hregs : s'.regs = s.regs)
    (htidy : Code.Tidy r l s'.code) : Orderly job r l n s' :=
  ⟨hregs ▸ h.regs, htidy, hregs ▸ h.table⟩

omit h in
theorem Orderly.narrow {s : Allocation} (h : Orderly job r l (n + 1) s)
    (hn : ∀ i, ¬ s.regs.Has n i) :
    Orderly job r l n s := ⟨h.regs.narrow hn, h.tidy, h.table⟩

end Orderly

/-- The order of reservations is kept: a full table has as many live values as there may be, since
with no entry free every entry is in use. -/
def Job.Fit.upkeep {job : Job} {r : CodePages} (hjob : job.Fit r) (l : List Nat)
    (n : Nat) : Upkeep job.set where
  stops e s := ∃ x, e = .error x ∧ s.Exceeded job.limits r.pages.size x
  wanted k := k < n ∧ Makes job.set.buffer k
  spilled _ := True
  regs s := s.Sound job.set.target job.set.buffer n ∧ job.limits.maxReservations ≤ s.table.size
  code := Code.Tidy r l
  inside hk := Int.ofNat_lt.mp hk.2.bounds.2
  stored _ := trivial
  agrees h := h.1.toAgrees
  add {s k i} h hk hnew hfree := by
    have hsize := Int.ofNat_lt.mp hk.2.bounds.2
    refine ⟨h.1.after (h.1.add hsize hnew hfree) fun k' j hj => ?_, s.add_table k i ▸ h.2⟩
    rcases (Registers.add_has (h.1.size ▸ hsize)).mp hj with ⟨rfl, -⟩ | ⟨-, hj⟩
    · exact .inr hk
    · exact .inl hj
  assign h hi hnone hr hfree :=
    ⟨h.1.after (h.1.assign hi hnone hr hfree) fun _ _ => .inl, Array.size_modify.symm ▸ h.2⟩
  unassign h hi hreg := by
    obtain ⟨hagrees, hevicted⟩ := h.1.unassign hi hreg
    exact ⟨h.1.after hagrees fun _ _ => .inl, hevicted.table ▸ h.2⟩
  takeSlot {s _ _} h hi _ _ _ := by
    obtain ⟨hagrees, hevicted, -⟩ := h.1.takeSlot hi s.freeSlot
    exact ⟨h.1.after hagrees fun _ _ => .inl, hevicted.table ▸ h.2⟩
  drop h hi := ⟨h.1.after (h.1.drop hi) fun _ _ hj => .inl ((h.1.drop_has hi).mp hj).2,
    h.1.drop_table hi ▸ h.2⟩
  full {s} k h hfree := by
    obtain ⟨l, hl⟩ := h.1.frees
    exact ⟨_, rfl, .live _ (hl.full hfree ▸ h.2) hfree⟩
  slots {s} hnew hroom :=
    ⟨_, rfl, hjob.slots ▸ .slots (hjob.slots ▸ hroom) (s.regs.freeSlot_full hnew)⟩
  emit hc hi := (Code.emit_room hjob.laid hjob.page hc hi).stops fun _ _ hx =>
    let ⟨x, heq, hexceeded⟩ := hx
    ⟨x, heq, .code hexceeded⟩

namespace Allocation

variable {α : Type} {job : Job} {r : CodePages} {l : List Nat} {n k i : Nat} {s : Allocation}
  {avoid : RegSet} {want : Reg}

/-- The allocator sees of writing that the reservations stay. -/
theorem coding_ends {x : Coding α} {Q : α → Code → Prop}
    (hx : Ensures (Code.Stops r.pages.size) x s.code Q) :
    job.Allots r (coding x) s fun a s' => s'.regs = s.regs ∧ Q a s'.code :=
  coding_ensures (hx.stops fun _ _ ⟨x, heq, hexceeded⟩ => ⟨x, heq, .code hexceeded⟩)

section

variable (hjob : job.Fit r)
include hjob

theorem holds_iff : (hjob.upkeep l n).Holds s ↔ Orderly job r l n s :=
  ⟨fun h => ⟨h.regs.1, h.code, h.regs.2⟩, fun h => ⟨⟨h.regs, h.table⟩, h.tidy⟩⟩

/-- A value that may be needed here gets a reservation. -/
theorem reserve_orderly (h : Orderly job r l n s) (hk : k < n) (hmakes : Makes job.set.buffer k) :
    job.Allots r (reserve k) s fun _ s' => Orderly job r l n s' :=
  (reserve_ends ((holds_iff hjob).mpr h) ⟨hk, hmakes⟩).mono fun _ _ h' => (holds_iff hjob).mp h'.1

/-- What a value has is given back. -/
theorem release_orderly (h : Orderly job r l n s) (hk : k < job.set.buffer.size) :
    job.Allots r (release k) s fun _ s' => Orderly job r l n s' ∧ ∀ i, ¬ s'.regs.Has k i :=
  (release_ends ((holds_iff hjob).mpr h) hk).mono fun _ _ h' => ⟨(holds_iff hjob).mp h'.1, h'.2⟩

theorem slotFor_orderly (h : Orderly job r l n s) (hk : k < n) (hmakes : Makes job.set.buffer k) :
    job.Allots r (slotFor job.set k) s fun _ s' => Orderly job r l n s' :=
  (slotFor_ends ((holds_iff hjob).mpr h) ⟨hk, hmakes⟩ trivial).mono fun _ _ h' =>
    (holds_iff hjob).mp h'

/-- A register that is not to be avoided may be handed out. -/
theorem spare_offered (havoid : job.set.target.Spared avoid) :
    ∃ x, job.set.target.allocatable.contains x = true ∧ avoid.contains x = false := by
  obtain ⟨x, hx, hspared⟩ := havoid
  exact ⟨x, hjob.target.argument x hx, hspared⟩

/-- A value is put into some register. -/
theorem regFor_orderly (h : Orderly job r l n s) (hk : k < n) (hmakes : Makes job.set.buffer k)
    (havoid : job.set.target.Spared avoid) :
    job.Allots r (regFor job.set k avoid) s fun _ s' => Orderly job r l n s' :=
  (regFor_ends ((holds_iff hjob).mpr h) ⟨hk, hmakes⟩ (.inl (spare_offered hjob havoid))).mono
      fun _ _ h' =>
    (holds_iff hjob).mp h'.1

/-- A value is put into the register of an argument. -/
theorem specificRegFor_orderly (h : Orderly job r l n s) (hk : k < n)
    (hmakes : Makes job.set.buffer k)
    (hwant : job.set.target.allocatable.contains want = true) :
    job.Allots r (specificRegFor job.set k want) s fun _ s' => Orderly job r l n s' :=
  (specificRegFor_ends ((holds_iff hjob).mpr h) ⟨hk, hmakes⟩ hwant).mono fun _ _ h' =>
    (holds_iff hjob).mp h'.1

/-- The register in which a value is made; the value is not needed before. -/
theorem resultReg_orderly (h : Orderly job r l (n + 1) s) (hmakes : Makes job.set.buffer n)
    (havoid : job.set.target.Spared avoid) :
    job.Allots r (resultReg job.set n avoid) s fun _ s' => Orderly job r l n s' :=
  (resultReg_ends ((holds_iff hjob).mpr h) ⟨Nat.lt_succ_self n, hmakes⟩
    (.inl (spare_offered hjob havoid))).mono
    fun _ _ h' => ((holds_iff hjob).mp h'.1).narrow h'.2.1

/-- What a call would destroy is evicted, and values keep their reservations. -/
theorem evictCallerSaved_orderly (h : Orderly job r l n s) :
    job.Allots r (evictCallerSaved job.set) s fun _ s' =>
    Orderly job r l n s' ∧ Registers.Evicted s.regs s'.regs :=
  (evictCallerSaved_ends ((holds_iff hjob).mpr h)).mono fun _ _ h' =>
    ⟨(holds_iff hjob).mp h'.1, h'.2⟩

end

/-- At the start of a trace no value is needed. -/
theorem checkDone_orderly (h : Orderly job r l 0 s) :
    job.Allots r checkDone s fun _ s' => s' = s := by
  refine .get ?_
  dsimp only
  split
  · have hnone : s.regs.index.findIdx? (·.isSome) = none := by
      rw [Array.findIdx?_eq_none_iff]
      intro e he
      obtain ⟨k, hk⟩ := Array.mem_iff_getElem?.mp he
      cases e with
      | none => rfl
      | some i => exact absurd (h.regs.needed (show s.regs.Has k i from hk)).1 (Nat.not_lt_zero k)
    rw [hnone]
    exact .pure rfl
  · exact .pure rfl

end Allocation

end LoopTracer.Compile
