import LoopTracer.Proofs.Compile.Representation

/-! Requests to the allocator.

While a trace is compiled the allocator is asked for registers and spill slots in any order
(`Allocation.Reached`). What its tables say stays consistent through all of that
(`Registers.Consistent`), and a request is answered as it should be: with a register outside the set
that is to be avoided, unless the value was in it before, and never by putting a value into a
register that holds another one (`Request.Served`). -/
namespace LoopTracer.Compile

open Machine Trace

/-! ### What stops the allocator -/

/-- What stops something is not that a register holds a value already. -/
def Unheld (e : CompileStop) : Prop := ∀ name ref, e ≠ .fault (.registerHeld name ref)

theorem unheld_writer {b : Backend} {w w' : Writer} {mem mem' : Memory} {i : Instr}
    {f : Fault} (hi : i.Known)
    (h : w.emit b mem i = (w', mem', some f)) : Unheld (.fault f) := by
  obtain ⟨bytes, hbytes, -⟩ := known_writable b hi w.pos
  unfold Writer.emit at h
  rw [hbytes] at h
  cases bytes with
  | nil => cases h
  | cons byte bytes =>
    unfold Writer.prepend at h
    dsimp only at h
    repeat' split at h
    all_goals
      cases h
      try
        intro name ref heq
        cases heq

theorem unheld_write {b : Backend} {side : Side} {w : Writer} {i : Instr}
    {c : Code} (hi : i.Known) :
    Ensures (fun e _ => Unheld e) (Code.write b side w i) c fun _ _ => True := by
  unfold Ensures
  rw [Code.write_eq]
  generalize hemit : w.emit b c.region.mem i = out
  obtain ⟨w', mem, fault⟩ := out
  cases fault with
  | none => trivial
  | some f => exact unheld_writer hi hemit

/-- Writing code is not about what registers hold. -/
theorem unheld_emit {b : Backend} {side : Side} {i : Instr} {c : Code} (hi : i.Known) :
    Ensures (fun e _ => Unheld e) (Code.emit b side i) c fun _ _ => True := by
  refine .bind (Q := fun _ _ => True) ?_ fun w c' _ => unheld_write hi
  rcases Code.ensure_eq b side c
    with ⟨w, -, -, heq⟩ | ⟨-, heq⟩ | ⟨region, h, -, ⟨-, heq⟩ | ⟨old, -, -, heq⟩⟩
  all_goals unfold Ensures; rw [heq]
  · trivial
  · intro name ref h
    cases h
  · trivial
  · exact (unheld_write (i := .jump old.pos) trivial).bind fun _ _ _ => .get (.pure trivial)

/-- An error of the compiler, or what stops the writing of code. -/
def Halts (set : Setting) (e : CompileStop) : Prop :=
  (∃ x, e = .error x) ∨ ∃ (i : Instr) (c c' : Code), i.Known ∧
    Code.emit set.backend .main i c = .error e c'

theorem Halts.unheld {set : Setting} {e : CompileStop} (h : Halts set e) : Unheld e := by
  rcases h with ⟨x, rfl⟩ | ⟨i, c, c', hi, hemit⟩
  · intro name ref heq
    cases heq
  · exact (ensures_error hemit).mp (unheld_emit hi)

/-! ### Requests -/

/-- What the allocator is asked for. -/
inductive Request where
  /-- To go on at an instruction. -/
  | moveTo (pos : Nat)
  | reserve (value : Nat)
  | regFor (value : Nat) (avoid : RegSet)
  | specificRegFor (value : Nat) (want : Reg)
  | resultReg (value : Nat) (avoid : RegSet)
  | evictCallerSaved
  /-- To take a value out of its register, if it is in one. -/
  | unassign (value : Nat)
  | slotFor (value : Nat)
  | release (value : Nat)

namespace Request

/-- Does what was asked for and gives the register, if one was asked for. -/
def perform (set : Setting) : Request → Allocating (Option Reg)
  | moveTo pos => do
    Allocation.update ({ · with pos })
    return none
  | reserve k => do
    let _ ← Allocation.reserve k
    return none
  | regFor k avoid => do return some (← Allocation.regFor set k avoid)
  | specificRegFor k want => do
    Allocation.specificRegFor set k want
    return some want
  | resultReg k avoid => do return some (← Allocation.resultReg set k avoid)
  | evictCallerSaved => do
    Allocation.evictCallerSaved set
    return none
  | unassign k => do
    let s := (← get).regs
    if let some i ← Allocation.liftFault (s.entry k) then
      if (s.at? i).reg ≠ Reg.none then Allocation.update (·.unassign i)
    return none
  | slotFor k => do
    let _ ← Allocation.slotFor set k
    return none
  | release k => do
    Allocation.release k
    return none

/-- The requests that are issued while a trace is compiled: they are about its values, and a value
is wanted in a particular register only as the argument of a call. -/
def Issued (set : Setting) : Request → Prop
  | moveTo _ | evictCallerSaved => True
  | reserve k | regFor k _ | resultReg k _ | unassign k | release k => k < set.buffer.size
  | specificRegFor k want => k < set.buffer.size ∧ want ∈ set.target.argRegs
  | slotFor k => k < set.buffer.size ∧ ¬ Immediate set.buffer k

/-- What the registers that are asked for are like: they may be handed out, the value is there, or
was there when it is made there, and what is to be avoided is not touched unless the value was
there before. -/
def Answered (set : Setting) (s s' : Registers) : Request → Option Reg → Prop
  | regFor k avoid, some r =>
    set.target.allocatable.contains r = true ∧ s'.In k r ∧ (avoid.contains r = true → s.In k r)
  | specificRegFor k want, some r => r = want ∧ s'.In k want
  | resultReg k avoid, some r => set.target.allocatable.contains r = true ∧ (∀ i, ¬ s'.Has k i) ∧
    (avoid.contains r = true → s.In k r)
  | regFor .., none | specificRegFor .., none | resultReg .., none => False
  | _, out => out = none

end Request

/-- The states of the allocator, with the most spill slots that there have been. -/
inductive Allocation.Reached (set : Setting) (capacity : Int) : Nat → Allocation → Prop
  /-- The allocator is created if its tables can be had. -/
  | start (code : Code) (h : Registers.canHave capacity set.maxSlots = true) :
    Reached set capacity 0 { regs := .create capacity.toNat set.buffer.size set.target.allocatable,
                             code }
  /-- Code is written besides. -/
  | wrote {peak : Nat} {s : Allocation} (code : Code) (h : Reached set capacity peak s) :
    Reached set capacity peak { s with code }
  | step {peak : Nat} {s s' : Allocation} {q : Request} {out : Option Reg}
      (h : Reached set capacity peak s)
    (hq : q.Issued set) (hrun : q.perform set s = .ok out s') :
    Reached set capacity (max peak s'.regs.slots.size) s'

/-! ### What requests keep -/

/-- The tables of the allocator stay in step, and spill slots are not given up. -/
def Setting.consistency (set : Setting) (capacity least : Nat) : Upkeep set where
  stops e _ := Halts set e
  wanted k := k < set.buffer.size
  spilled k := ¬ Immediate set.buffer k
  regs s := s.Represents set ∧ s.table.size = capacity ∧ least ≤ s.slots.size
  code _ := True
  inside hk := hk
  stored hk := hk
  agrees h := h.1.toAgrees
  add {s k i} h hk hnew hfree := ⟨h.1.add hk hnew hfree, (s.add_table k i).trans h.2.1, h.2.2⟩
  assign h hi hnone hr hfree := ⟨h.1.assign hi hnone hr hfree, Array.size_modify.trans h.2.1, h.2.2⟩
  unassign h hi hreg := ⟨h.1.unassign hi hreg, Array.size_modify.trans h.2.1, h.2.2⟩
  takeSlot {s k i} h hi hk hnone hroom := by
    refine ⟨h.1.takeSlot hi hk hnone hroom, Array.size_modify.trans h.2.1, ?_⟩
    have hleast := h.2.2
    rw [s.takeSlot_size i (h.1.freeSlot_fresh (k := k)).2]
    split <;> omega
  drop h hi := ⟨h.1.drop hi, (h.1.drop_table hi).trans h.2.1, (h.1.drop_size hi).symm ▸ h.2.2⟩
  full _ _ _ := .inl ⟨_, rfl⟩
  slots _ _ := .inl ⟨_, rfl⟩
  emit {s i} _ hi := by
    cases h : Code.emit set.backend .main i s.code with
    | ok _ c' => exact (ensures_ok h).mpr trivial
    | error e c' => exact (ensures_error h).mpr (.inr ⟨i, s.code, c', hi, h⟩)

section

variable {set : Setting} {capacity least : Nat} {s : Allocation}

/-- A request keeps the tables in step and is answered, or something stops it. -/
theorem Request.perform_ends (htarget : set.target.Callable)
    (h : (set.consistency capacity least).Holds s) (q : Request)
    (hq : q.Issued set) : (set.consistency capacity least).Ends (q.perform set) s fun out s' =>
      (set.consistency capacity least).Holds s' ∧ q.Answered set s.regs s'.regs out := by
  have hspare : ∀ avoid : RegSet,
    (∃ x, set.target.allocatable.contains x = true ∧ avoid.contains x = false) ∨
      ∀ pos s, (set.consistency capacity least).stops (.error (noRegister pos)) s :=
        fun _ => .inr fun _ _ => .inl ⟨_, rfl⟩
  cases q with
  | moveTo pos => exact .modify_bind (.pure ⟨⟨⟨h.regs.1.repos pos, h.regs.2⟩, trivial⟩, rfl⟩)
  | reserve k => exact (Allocation.reserve_ends h hq).bind fun _ _ h' => .pure ⟨h'.1, rfl⟩
  | regFor k avoid => exact (Allocation.regFor_ends h hq (hspare avoid)).bind fun _ _ h' => .pure h'
  | specificRegFor k want =>
    exact (Allocation.specificRegFor_ends h hq.1 (htarget.argument want hq.2)).bind fun _ _ h' =>
      .pure ⟨h'.1, rfl, h'.2⟩
  | resultReg k avoid =>
    exact (Allocation.resultReg_ends h hq (hspare avoid)).bind fun _ _ h' =>
      .pure ⟨h'.1, h'.2.2.1, h'.2.1, h'.2.2.2⟩
  | evictCallerSaved =>
    exact (Allocation.evictCallerSaved_ends h).bind fun _ _ h' => .pure ⟨h'.1, rfl⟩
  | unassign k =>
    obtain ⟨e, hentry, hindex⟩ := h.agrees.entry_eq hq
    refine .get (Allocation.liftFault_bind hentry ?_)
    cases e with
    | none => exact .pure ⟨h, rfl⟩
    | some i =>
      dsimp only
      split
      · next hreg =>
          exact .modify_bind
            (.pure ⟨⟨(set.consistency capacity least).unassign h.regs hindex hreg, trivial⟩, rfl⟩)
      · exact .pure ⟨h, rfl⟩
  | slotFor k => exact (Allocation.slotFor_ends h hq.1 hq.2).bind fun _ _ h' => .pure ⟨h', rfl⟩
  | release k => exact (Allocation.release_ends h hq).bind fun _ _ h' => .pure ⟨h'.1, rfl⟩

/-- What holds of the tables in every state that is reached. -/
theorem Allocation.Reached.represents {capacity : Int} {peak : Nat} (htarget : set.target.Callable)
    (h : Reached set capacity peak s) :
    s.regs.Represents set ∧ (s.regs.table.size : Int) = capacity ∧ s.regs.slots.size = peak := by
  induction h with
  | start code h =>
    unfold Registers.canHave blockFits at h
    simp only [Bool.and_eq_true, decide_eq_true_eq] at h
    refine ⟨Registers.represents_create capacity.toNat (by omega), ?_, rfl⟩
    show ((Registers.create _ _ _).table.size : Int) = capacity
    rw [Registers.create_table, Int.toNat_of_nonneg (by omega)]
  | wrote code _ ih => exact ih
  | @step peak s s' q out _ hq hrun ih =>
    obtain ⟨hrep, hcapacity, hpeak⟩ := ih
    have hholds : (set.consistency s.regs.table.size s.regs.slots.size).Holds s :=
      ⟨⟨hrep, rfl, Nat.le_refl _⟩, trivial⟩
    obtain ⟨⟨⟨hrep', hcapacity', hleast⟩, -⟩, -⟩ :=
      (ensures_ok hrun).mp (q.perform_ends htarget hholds hq)
    exact ⟨hrep', by rw [hcapacity', hcapacity], by omega⟩

end

/-! ### The tables -/

/-- What the tables of the allocator tell. -/
structure Registers.Consistent (set : Setting) (s : Registers) : Prop where
  /-- A value is in a register exactly if its reservation names the register. -/
  filled : ∀ {r : Reg} {k : Nat}, r.Valid → (s.valueIn r = k ↔ s.In k r)
  empty : ∀ {r : Reg}, r.Valid → (s.valueIn r = Ref.none ↔ ∀ k, ¬ s.In k r)
  /-- Only registers that may be handed out are named. -/
  offered : ∀ {r : Reg} {k : Nat}, s.In k r → r = Reg.none ∨
    set.target.allocatable.contains r = true
  avail : ∀ {r : Reg}, s.avail.contains r = true ↔
    set.target.allocatable.contains r = true ∧ s.valueIn r = Ref.none
  /-- Every live value has an entry of the table, and an entry is that of one value. -/
  entry : ∀ {k i : Nat}, s.Has k i → k < set.buffer.size ∧ i < s.table.size ∧ (s.at? i).ref = k
  alone : ∀ {k k' i : Nat}, s.Has k i → s.Has k' i → k = k'
  /-- The chain of free entries goes through each of the others once, and ends. -/
  chain : ∃ l : List Nat, s.Linked s.free l ∧ l.Nodup ∧ ∀ i, i ∈ l ↔
    i < s.table.size ∧ ∀ k, ¬ s.Has k i
  lives : s.live = s.index.countP Option.isSome
  /-- A spill slot in use is that of one value. -/
  used : ∀ {j : Nat}, s.slots[j]? = some true → ∃! k, s.Owns k j
  unused : ∀ {k j : Nat}, s.slots[j]? ≠ some true → ¬ s.Owns k j
  remade : ∀ {k j : Nat}, Immediate set.buffer k → ¬ s.Owns k j
  few : (s.slots.size : Int) ≤ set.maxSlots
  high : s.high = s.slots.size

theorem Registers.Represents.consistent {set : Setting} {s : Registers}
    (h : s.Represents set) : s.Consistent set where
  filled {r k} hr := by
    constructor
    · intro hvalue
      obtain ⟨k', i, hi, hvalue', hreg⟩ := h.held hr (hvalue ▸ natCast_ne_none k)
      obtain rfl := Int.ofNat.inj (hvalue.symm.trans hvalue')
      exact ⟨i, hi, hreg⟩
    · rintro ⟨i, hi, rfl⟩
      exact (h.placed hi hr.ne_none).2
  empty {r} hr := by
    constructor
    · rintro hvalue k ⟨i, hi, rfl⟩
      exact natCast_ne_none k ((h.placed hi hr.ne_none).2.symm.trans hvalue)
    · intro hnone
      refine Classical.byContradiction fun hvalue => ?_
      obtain ⟨k, i, hi, -, hreg⟩ := h.held hr hvalue
      exact hnone k ⟨i, hi, hreg⟩
  offered {r k} := by
    rintro ⟨i, hi, rfl⟩
    exact or_iff_not_imp_left.mpr fun hreg => (h.placed hi hreg).1
  avail {r} :=
    ⟨fun hr => ⟨h.offered hr, (h.avail (h.offered hr)).mp hr⟩, fun hr => (h.avail hr.1).mpr hr.2⟩
  entry hi := ⟨h.lt_size hi, h.value hi⟩
  alone := h.inj
  chain :=
    let ⟨l, hl⟩ := h.frees
    ⟨l, hl.linked, hl.nodup, fun _ => hl.all⟩
  lives := h.lives
  used hj := by
    obtain ⟨k, hk⟩ := h.used.mp hj
    exact ⟨k, hk, fun k' hk' => h.apart hk' hk⟩
  unused hj hk := hj (h.used.mpr ⟨_, hk⟩)
  remade hk howns := h.remade howns hk
  few := h.few
  high := h.high

/-- A request is answered as it should be, or a limit or the writing of code stops it, and never
that a register holds a value already. -/
structure Request.Served (set : Setting) (q : Request) (s : Allocation) : Prop where
  answered : ∀ {out s'}, q.perform set s = .ok out s' → q.Answered set s.regs s'.regs out
  halts : ∀ {e s'}, q.perform set s = .error e s' → Halts set e
  unheld : ∀ {e s'}, q.perform set s = .error e s' → Unheld e

/-- The tables of the allocator are consistent after any requests, for as many entries and spill
slots as there may be; the number of spill slots told in the end is the most that there have been.
So every request is served. -/
theorem Allocation.reached_consistent {set : Setting} {capacity n : Int}
    {peak : Nat} {s : Allocation}
    (htarget : set.target = set.backend.target.limit n) (h : Reached set capacity peak s) :
    s.regs.Consistent set ∧ (s.regs.table.size : Int) = capacity ∧ s.regs.high = peak ∧
      ∀ q : Request, q.Issued set → q.Served set s := by
  have hcallable : set.target.Callable := htarget ▸ (Target.callable_target set.backend).limit n
  obtain ⟨hrep, hcapacity, hpeak⟩ := h.represents hcallable
  refine ⟨hrep.consistent, hcapacity, hrep.high.trans hpeak, fun q hq => ?_⟩
  have hholds : (set.consistency s.regs.table.size 0).Holds s :=
    ⟨⟨hrep, rfl, Nat.zero_le _⟩, trivial⟩
  have hends := q.perform_ends hcallable hholds hq
  have hhalts : ∀ {e s'}, q.perform set s = .error e s' → Halts set e :=
    fun hrun => (ensures_error hrun).mp hends
  exact ⟨fun hrun => ((ensures_ok hrun).mp hends).2, hhalts, fun hrun => (hhalts hrun).unheld⟩

/-- A trace of two values that goes round. -/
def Setting.round : Setting where
  backend := .virtual
  target := virtualTarget
  buffer := {
    insts := #[{ op := .param, type := .int },
        { op := .param, type := .int, slot := ⟨1⟩ }, { op := .loop }]
    isSealed := true }
  uses := #[#[], #[], #[]]
  maxSlots := 2

/-- Its values are in the first two registers. -/
theorem Allocation.reached_consistent_round : ∃ s : Allocation, Reached .round 4 0 s ∧
    s.regs.valueIn 0 = 0 ∧ s.regs.valueIn 1 = 1 ∧ s.regs.Consistent .round ∧ s.regs.high = 0 ∧
    ∀ q : Request, q.Issued .round → q.Served .round s := by
  have hfirst : Request.perform .round (.regFor 0 ∅) ⟨.create 4 3 virtualTarget.allocatable,
    { region := {} }⟩ =
      .ok (some 0) ⟨((Registers.create 4 3 virtualTarget.allocatable).add 0 0).assign 0 0,
        { region := {} }⟩ := rfl
  have hsecond : Request.perform .round (.regFor 1 (RegSet.ofList [0]))
        ⟨((Registers.create 4 3 virtualTarget.allocatable).add 0 0).assign 0 0, { region := {} }⟩ =
      .ok (some 1)
        ⟨((((Registers.create 4 3 virtualTarget.allocatable).add 0 0).assign 0 0).add 1 1).assign 1
          1,
        { region := {} }⟩ := rfl
  have hstart : Reached .round 4 0 ⟨.create 4 3 virtualTarget.allocatable, { region := {} }⟩ :=
    .start _ rfl
  have hreached : Reached .round 4 0 _ :=
    (hstart.step (q := .regFor 0 ∅) (by decide : 0 < 3) hfirst).step
      (q := .regFor 1 (RegSet.ofList [0]))
      (by decide : 1 < 3) hsecond
  have h := reached_consistent (n := 0) rfl hreached
  exact ⟨_, hreached, rfl, rfl, h.1, h.2.2.1, h.2.2.2⟩

end LoopTracer.Compile
