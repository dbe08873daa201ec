import LoopTracer.Proofs.Compile.Translating

/-! Guards and their code.

A guard that fails goes to exit code of its own: every value of its snapshot is fetched from where
the tables say that it is and written to its slot, then the number of the guard is put into its
register. A guard that holds goes on (`guard_departs`). -/
namespace LoopTracer.Trace

/-- The slots after an exit was taken: every value of its snapshot is in its slot. -/
def Env.leave (e : Env) (x : SideExit) : Array UInt64 :=
  x.snapshot.foldl (fun slots y => slots.set! y.addr.slot.toNat (e.word y.ref)) e.slots

end LoopTracer.Trace

namespace LoopTracer.Compile

open Machine Trace

/-! ### Places -/

/-- Where the tables say that the value of a snapshot's entry is. -/
def Found (set : Setting) (s : Registers) (y : SnapshotEntry) (x : SlotLocation) : Prop :=
  x.addr = y.addr ∧
    match x.place with
    | .register r => set.target.allocatable.contains r = true ∧ s.valueIn r = y.ref
    | .stack j => ∃ k slot : Nat, y.ref = k ∧ j = slot ∧ s.Owns k slot
    | .immediate v => ∃ i, set.buffer.get? y.ref = some i ∧ i.op = .imm ∧ i.imm = v
    | .other _ => False

theorem Found.mono {set : Setting} {s s' : Registers} {y : SnapshotEntry} {x : SlotLocation}
    (h : Found set s y x)
    (hvalue : ∀ r, s'.valueIn r = s.valueIn r)
    (howns : ∀ {k j}, s.Owns k j → s'.Owns k j) : Found set s' y x := by
  obtain ⟨haddr, hplace⟩ := h
  refine ⟨haddr, ?_⟩
  cases hx : x.place with
  | register r =>
    rw [hx] at hplace
    exact ⟨hplace.1, (hvalue r).trans hplace.2⟩
  | stack j =>
    rw [hx] at hplace
    obtain ⟨k, slot, hk, hj, hslot⟩ := hplace
    exact ⟨k, slot, hk, hj, howns hslot⟩
  | immediate v =>
    rw [hx] at hplace
    exact hplace
  | other n =>
    rw [hx] at hplace
    exact hplace.elim

/-- The code that writes one value back, in the order in which it is carried out. -/
def backCode (t : Target) (x : SlotLocation) : List Instr := (Assembler.writeBack t x).reverse

theorem backCode_straight (t : Target) (x : SlotLocation) (a : CodeAddr) :
    Instr.jump a ∉ backCode t x := by
  unfold backCode Assembler.writeBack
  cases x.place <;> simp

section

variable {set : Setting} {s : Registers} {width : Nat} {w : Nat → UInt64} {m : State}
  {env : StringHeap}

/-- A value is written to its slot, and only the scratch register is spoilt. -/
theorem Found.performs (hp : set.Portable) (hs : s.Represents set) {y : SnapshotEntry}
    {x : SlotLocation}
    (h : Found set s y x) (hw : Recalls set.buffer w)
    (hm : Filled set (· = virtualTarget.scratch) s w m)
    (hy : InSlots width y.addr) (hroom : width ≤ m.slots.size) {k : Nat} (hk : y.ref = k)
    (env : StringHeap) :
    ∃ m', performAll HelperTable.standard.host (backCode set.target x) m env = .on m' env ∧
      Filled set (· = virtualTarget.scratch) s w m' ∧
      m'.slots = m.slots.set! y.addr.slot.toNat (w k) ∧
      m'.overflow = m.overflow ∧ m'.args = m.args := by
  obtain ⟨haddr, hplace⟩ := h
  obtain ⟨a, ha, hbyte, hslot⟩ := hy.slot
  have hscratch : virtualTarget.scratch.Real := by decide
  have hbase := hp.stateBase
  -- what goes to the slot from a register
  have hstore : ∀ {r : Reg} {m : State}, r.Real → width ≤ m.slots.size →
    Filled set (· = virtualTarget.scratch) s w m →
      m.reg r = w k → Instr.perform HelperTable.standard.host
        (.store set.target.stateBase x.addr.byte r) m env = .on (m.write a (w k) .slots) env ∧
        Filled set (· = virtualTarget.scratch) s w (m.write a (w k) .slots) := by
    intro r m hr hroom hm hword
    refine ⟨?_, ⟨by simp [hm.size], hm.frame,
      fun hx hk hout => (State.write_reg ..).trans (hm.reg hx hk hout), hm.slot⟩⟩
    rw [hbase, ← hword, haddr]
    exact Instr.perform_store hm.size hr (State.cell_slots hbyte (Nat.lt_of_lt_of_le ha hroom))
  -- what is fetched into the scratch register first
  have hfetch : ∀ {i : Instr}, i.perform HelperTable.standard.host m env =
    .on (m.setReg virtualTarget.scratch (w k)) env →
      ∃ m', performAll HelperTable.standard.host [i,
        .store set.target.stateBase x.addr.byte virtualTarget.scratch] m env = .on m' env ∧
        Filled set (· = virtualTarget.scratch) s w m' ∧
          m'.slots = m.slots.set! y.addr.slot.toNat (w k) ∧
        m'.overflow = m.overflow ∧ m'.args = m.args := by
    intro i hi
    have hm₁ : Filled set (· = virtualTarget.scratch) s w
        (m.setReg virtualTarget.scratch (w k)) := by
      refine ⟨by simp [hm.size], hm.frame, fun {k' r} hr hk' hout => ?_, hm.slot⟩
      rw [State.setReg_reg hm.size hscratch, if_neg hout]
      exact hm.reg hr hk' hout
    obtain ⟨hperform, hm₂⟩ := hstore (m := m.setReg virtualTarget.scratch (w k)) hscratch hroom hm₁
      (by rw [State.setReg_reg hm.size hscratch, if_pos rfl])
    refine ⟨_, ?_, hm₂, ?_, rfl, rfl⟩
    · rw [performAll_cons hi, performAll_single, hperform]
    · rw [hslot]
      rfl
  unfold backCode Assembler.writeBack
  dsimp only
  cases hx : x.place with
  | register r =>
    rw [hx] at hplace
    obtain ⟨halloc, hvalue⟩ := hplace
    obtain ⟨hreal, hout⟩ := hp.real halloc
    obtain ⟨hperform, hm₁⟩ :=
      hstore hreal hroom hm (hm.reg (RegSet.contains_valid halloc) (hvalue.trans hk) hout)
    refine ⟨_, ?_, hm₁, ?_, rfl, rfl⟩
    · rw [List.reverse_singleton, performAll_single, hperform]
    · rw [hslot]
      rfl
  | stack j =>
    rw [hx] at hplace
    obtain ⟨k', slot, hk', rfl, howns⟩ := hplace
    obtain rfl := Int.ofNat.inj (hk.symm.trans hk')
    rw [hp.scratch]
    refine hfetch ?_
    rw [← show m.read .frame slot = w k from hm.slot howns]
    exact Instr.perform_load hm.size hscratch (hp.cell (hs.slot_lt howns) hm.frame)
  | immediate v =>
    rw [hx] at hplace
    obtain ⟨i, hget, hop, rfl⟩ := hplace
    rw [hp.scratch]
    refine hfetch ?_
    rw [← hw (hk ▸ hget) hop]
    exact Instr.perform_movImm hm.size hscratch _
  | other n =>
    rw [hx] at hplace
    exact hplace.elim

/-- Every value of a snapshot is written to its slot. -/
theorem founds_perform (hp : set.Portable) (hs : s.Represents set) (hw : Recalls set.buffer w)
    {ys : List SnapshotEntry}
    {xs : List SlotLocation} (h : List.Forall₂ (Found set s) ys xs)
    (hys : ∀ y ∈ ys, InSlots width y.addr ∧ 0 ≤ y.ref)
    (hm : Filled set (· = virtualTarget.scratch) s w m) (hroom : width ≤ m.slots.size)
    (env : StringHeap) :
    ∃ m', performAll HelperTable.standard.host (xs.flatMap (backCode set.target)) m env =
      .on m' env ∧
      Filled set (· = virtualTarget.scratch) s w m' ∧
      m'.slots = ys.foldl (fun slots y => slots.set! y.addr.slot.toNat (w y.ref.toNat)) m.slots ∧
      m'.overflow = m.overflow ∧ m'.args = m.args := by
  induction h generalizing m with
  | nil => exact ⟨m, rfl, hm, rfl, rfl, rfl⟩
  | @cons y x ys xs hfound _ ih =>
    obtain ⟨hy, hnonneg⟩ := hys y List.mem_cons_self
    obtain ⟨m₁, hperform₁, hm₁, hslots₁, hoverflow₁, hargs₁⟩ := hfound.performs hp hs hw hm hy hroom
      (Int.toNat_of_nonneg hnonneg).symm env
    have hroom₁ : width ≤ m₁.slots.size := by
      rw [hslots₁, Array.set!_eq_setIfInBounds, Array.size_setIfInBounds]
      exact hroom
    obtain ⟨m₂, hperform₂, hm₂, hslots₂, hoverflow₂, hargs₂⟩ :=
      ih (fun y hy => hys y (List.mem_cons_of_mem _ hy)) hm₁ hroom₁
    refine ⟨m₂, ?_, hm₂, ?_, hoverflow₂.trans hoverflow₁, hargs₂.trans hargs₁⟩
    · rw [List.flatMap_cons, performAll_on hperform₁, hperform₂]
    · rw [hslots₂, hslots₁]
      rfl

end

/-! ### Compiling a guard -/

/-- What exit code leaves behind: the slots are written, and the number of the guard is in its
register. -/
structure Departed (maxSlots : Int) (id : GuardId) (slots : Array UInt64) (m : State) : Prop where
  size : m.regs.size = 16
  frame : m.frame.size = maxSlots.toNat
  slots : m.slots = slots
  args : m.args = #[]
  number : m.reg virtualTarget.exitReg = id.toUInt64

/-- The exit code of a guard starts at `start`; the jump behind it can be redirected. -/
structure Exit (g : Guard) (start : CodeAddr) (stub : List Piece) (p : Piece) : Prop where
  start : start.toNat = p.startOf stub
  site : g.site.toNat = p.place
  jump : ∃ t, p.request = some (.jump t)
  straight : ∀ t, Instr.jump t ∉ requests stub

/-- A guard was compiled: its code goes on if the guard holds, and goes to the exit code if it
fails. -/
def Departs (job : Job) (r : CodePages) (l : List Nat) (n : Nat) (i : Inst) (P : Side → List Piece)
    (s s' : Assembler) : Prop :=
  s'.loopSite = s.loopSite ∧ (s'.needFlag = true → s.needFlag = true ∨ i.op = .exitOv) ∧
    ∃ (g : Guard) (start : CodeAddr) (q stub join : List Piece) (p : Piece),
    Stage job.set r l (Code.fronted (Code.fronted P .exits (stub ++ p :: join)) .main q) s'.alloc ∧
    s'.guards = s.guards.push g ∧ g.exit = job.exitIndex[n]?.getD 0 ∧ Exit g start stub p ∧
      ∀ e m, Mirrors job n s' e m →
      (∀ e₁, Env.exec .standard i e = .on e₁ →
        ∃ m₁, performAll HelperTable.standard.host (requests q) m e.heap = .on m₁ e₁.heap ∧
          Mirrors job (n + 1) s e₁ m₁) ∧
      ∀ x e₁, Env.exec .standard i e = .left x e₁ → e₁ = e ∧
        performAll HelperTable.standard.host (requests q) m e.heap = .away start m e.heap ∧
        ∃ m₁, performAll HelperTable.standard.host (requests stub) m e.heap = .on m₁ e.heap ∧
          Departed job.set.maxSlots g.id (e.leave x) m₁

/-- A register that is looked up holds the value. -/
theorem Registers.Represents.regOf_ok {set : Setting} {s : Registers} (hs : s.Represents set)
    {ref : Ref} {x : Reg}
    (h : s.regOf ref = .ok x) (hx : x ≠ Reg.none) :
    set.target.allocatable.contains x = true ∧ s.valueIn x = ref := by
  unfold Registers.regOf at h
  cases hentry : s.entry ref with
  | error e =>
    rw [hentry] at h
    cases h
  | ok e =>
    rw [hentry] at h
    obtain rfl : (e.map fun i => (s.at? i).reg).getD Reg.none = x := Except.ok.inj h
    cases e with
    | none => exact absurd rfl hx
    | some i =>
      unfold Registers.entry at hentry
      split at hentry
      · cases hentry
      · next hnonneg =>
        obtain ⟨k, rfl⟩ := Int.eq_ofNat_of_zero_le (Int.not_lt.mp hnonneg)
        split at hentry
        · next e he =>
          cases hentry
          exact ⟨(hs.placed he hx).1, (hs.valueIn_eq he hx).2⟩
        · cases hentry

namespace Assembler

variable {job : Job} {r : CodePages} {l : List Nat} {n : Nat} {i : Inst}
  {P : Side → List Piece} {s : Assembler}
  {K O : Reg → Prop}

/-- The values of a snapshot are found; those without a register get a spill slot. -/
theorem locate_ensures (hs : Stage job.set r l P s.alloc) (ys : List SnapshotEntry) :
    Ensures Anyhow (locate job ys) s fun xs s' => s' = { s with alloc := s'.alloc } ∧
      ∃ q, Stage job.set r l (Code.fronted P .main q) s'.alloc ∧
        Restores job.set K O s.alloc.regs s'.alloc.regs (requests q) ∧
        List.Forall₂ (Found job.set s'.alloc.regs) ys xs ∧
        (∀ x, s'.alloc.regs.valueIn x = s.alloc.regs.valueIn x) ∧
        ∀ {k j}, s.alloc.regs.Owns k j → s'.alloc.regs.Owns k j := by
  induction ys generalizing s P with
  | nil =>
    exact .pure ⟨rfl, [], (Code.fronted_nil P .main).symm ▸ hs, .refl _ _ _ _,
      .nil, fun _ => rfl, id⟩
  | cons y ys ih =>
    -- the place of the first value stays where it is
    have hrest : ∀ (place : Place) (s₁ : Assembler) (q₁ : List Piece), s₁ =
      { s with alloc := s₁.alloc } →
        Stage job.set r l (Code.fronted P .main q₁) s₁.alloc →
        Restores job.set K O s.alloc.regs s₁.alloc.regs (requests q₁) →
        Found job.set s₁.alloc.regs y { addr := y.addr, type := y.type, place } →
        (∀ x, s₁.alloc.regs.valueIn x = s.alloc.regs.valueIn x) →
        (∀ {k j}, s.alloc.regs.Owns k j → s₁.alloc.regs.Owns k j) →
        Ensures Anyhow (do return { addr := y.addr, type := y.type, place } :: (← locate job ys) :
          Assembling (List SlotLocation)) s₁ fun xs s' => s' = { s with alloc := s'.alloc } ∧
            ∃ q, Stage job.set r l (Code.fronted P .main q) s'.alloc ∧
              Restores job.set K O s.alloc.regs s'.alloc.regs (requests q) ∧
              List.Forall₂ (Found job.set s'.alloc.regs) (y :: ys) xs ∧
              (∀ x, s'.alloc.regs.valueIn x = s.alloc.regs.valueIn x) ∧
              ∀ {k j}, s.alloc.regs.Owns k j → s'.alloc.regs.Owns k j := by
      intro place s₁ q₁ hsame₁ hs₁ hrestores₁ hfound hvalue₁ howns₁
      refine (ih hs₁).bind fun xs s₂ ⟨hsame₂, q₂, hs₂, hrestores₂, hfounds, hvalue₂, howns₂⟩ =>
        .pure ?_
      rw [Code.fronted_fronted] at hs₂
      refine ⟨by rw [hsame₂, hsame₁], q₂ ++ q₁, hs₂, ?_, .cons (hfound.mono hvalue₂ howns₂) hfounds,
        fun x => (hvalue₂ x).trans (hvalue₁ x), fun h => howns₂ (howns₁ h)⟩
      rw [requests_append]
      exact hrestores₁.trans hrestores₂
    have hhere : ∀ place, Found job.set s.alloc.regs y { addr := y.addr, type := y.type, place } →
        Ensures Anyhow (do return { addr := y.addr, type := y.type, place } :: (← locate job ys) :
          Assembling (List SlotLocation)) s _ := fun place hfound =>
      hrest place s [] rfl ((Code.fronted_nil P .main).symm ▸ hs)
        (.refl _ _ _ _) hfound (fun _ => rfl) id
    unfold locate
    cases hget : job.set.buffer.get? y.ref with
    | none => exact stopped
    | some i =>
      obtain ⟨k, hk⟩ : ∃ k : Nat, y.ref = k := by
        unfold Buffer.get? at hget
        split at hget
        · cases hget
        · next hnonneg => exact Int.eq_ofNat_of_zero_le (Int.not_lt.mp hnonneg)
      dsimp only
      split
      · next heq => cases heq
      · next heq =>
        cases heq
        exact .pure_bind (hhere _ ⟨rfl, _, hget, rfl, rfl⟩)
      · next hnot heq =>
        cases heq
        refine (regOf_ensures y.ref).bind fun x s₀ ⟨h₀, hregOf⟩ => ?_
        subst h₀
        split
        · next hx => exact .pure_bind (hhere _ ⟨rfl, hs.regs.regOf_ok hregOf hx⟩)
        · have hstored : ¬ Immediate job.set.buffer k := by
            rintro ⟨x, hx, hop⟩
            rw [← hk, hget] at hx
            cases hx
            obtain ⟨op, _⟩ := i
            obtain rfl : op = .imm := hop
            exact hnot _ _ _ _ _ _ _ _ _ rfl
          rw [hk]
          refine (allocating_ensures (Allocation.slotFor_works (K := K) (O := O) hs hstored)).bind
            fun j s₁ ⟨hsame₁, q₁, hs₁, hrestores₁, howns, hvalue₁, howns₁⟩ => .pure_bind ?_
          exact hrest _ s₁ q₁ hsame₁ hs₁ hrestores₁ ⟨rfl, k, j, hk, rfl, howns⟩ hvalue₁ howns₁

section

variable (hj : job.Ready r)
include hj

/-- A request comes in front of the exit code. -/
theorem emit_exit (hs : Stage job.set r l P s.alloc) (x : Instr) :
    Ensures Anyhow (emit job .exits x) s fun _ s' =>
    s' = { s with alloc := s'.alloc } ∧ s'.alloc.regs = s.alloc.regs ∧
      ∃ q, requests q = [x] ∧ Stage job.set r l (Code.fronted P .exits q) s'.alloc := by
  have hemit := (hs.code.emit hj.laid hj.page .exits x).anyhow
  rw [hj.same] at hemit
  refine (allocating_ensures (Allocation.coding_ensures (E := Anyhow) hemit)).mono
    fun _ s₁ ⟨hsame, hregs, p, join, hrequest, hjoin, hcode⟩ =>
      ⟨hsame, hregs, p :: join, ?_, hregs ▸ hs.regs, hj.same ▸ hcode⟩
  rw [requests_cons, hrequest, hjoin]
  rfl

/-- So do requests one after the other. -/
theorem emit_exits (hs : Stage job.set r l P s.alloc) (is : List Instr) :
    Ensures Anyhow (is.forM (emit job .exits)) s fun _ s' => s' = { s with alloc := s'.alloc } ∧
      s'.alloc.regs = s.alloc.regs ∧
      ∃ q, requests q = is.reverse ∧ Stage job.set r l (Code.fronted P .exits q) s'.alloc := by
  induction is generalizing s P with
  | nil => exact .pure ⟨rfl, rfl, [], rfl, (Code.fronted_nil P .exits).symm ▸ hs⟩
  | cons x is ih =>
    refine (emit_exit hj hs x).bind fun _ s₁ ⟨hsame₁, hregs₁, q₁, hrequests₁, hs₁⟩ => ?_
    refine (ih hs₁).mono fun _ s₂ ⟨hsame₂, hregs₂, q, hrequests, hs₂⟩ =>
      ⟨by rw [hsame₂, hsame₁], hregs₂.trans hregs₁, q ++ q₁, ?_, ?_⟩
    · rw [requests_append, hrequests₁, hrequests, List.reverse_cons]
    · rwa [Code.fronted_fronted] at hs₂

omit hj in
theorem countExitJump_ensures (job : Job) (s : Assembler) :
    Ensures Anyhow (countExitJump job) s fun _ s' =>
    s' = { s with alloc := s'.alloc, exitJumps := s'.exitJumps } ∧ s'.alloc = s.alloc := by
  refine .modify_bind (.get ?_)
  dsimp only
  split
  · exact .throw trivial
  · exact .pure ⟨rfl, rfl⟩

/-- The exit code of a guard: it writes the values back and puts the number of the guard into
its register. -/
theorem exitCode_ensures (hs : Stage job.set r l P s.alloc) (id : GuardId)
    (xs : List SlotLocation) :
    Ensures Anyhow (exitCode job id xs) s fun x s' =>
      s' = { s with alloc := s'.alloc, exitJumps := s'.exitJumps } ∧ s'.alloc.regs = s.alloc.regs ∧
      ∃ (stub join : List Piece) (p : Piece),
        Stage job.set r l (Code.fronted P .exits (stub ++ p :: join)) s'.alloc ∧
        requests stub = xs.flatMap (backCode job.set.target) ++
          [.movImm virtualTarget.exitReg id.toUInt64] ∧
        x.1.toNat = p.startOf stub ∧ x.2.toNat = p.place ∧ ∃ t, p.request = some (.jump t) := by
  refine (countExitJump_ensures job s).bind fun _ s₁ ⟨hsame₁, halloc₁⟩ => .get ?_
  rw [← halloc₁] at hs
  dsimp only
  have hbranch := fun target => (hs.code.emitBranch hj.laid hj.page .exits target).anyhow
  rw [hj.same] at hbranch
  refine (allocating_ensures (Allocation.coding_ensures (E := Anyhow) (hbranch _))).bind
    fun site s₂ ⟨hsame₂, hregs₂, p, join, hjump, _, hplace, hcode₂⟩ => ?_
  have hs₂ : Stage job.set r l (Code.fronted P .exits (p :: join)) s₂.alloc :=
    ⟨hregs₂ ▸ hs.regs, hj.same ▸ hcode₂⟩
  refine (emit_exit hj hs₂ (.movImm job.set.target.exitReg id.toUInt64)).bind fun _ s₃ ⟨hsame₃,
    hregs₃, q₃, hrequests₃, hs₃⟩ => ?_
  refine (emit_exits hj hs₃ _).bind fun _ s₄ ⟨hsame₄, hregs₄, q₄, hrequests₄, hs₄⟩ => ?_
  have hpos := (hs₄.code.pos hj.laid hj.page .exits).anyhow
  rw [hj.same] at hpos
  refine (allocating_ensures (Allocation.coding_ensures (E := Anyhow) hpos)).bind
    fun start s' ⟨hsame', hregs', w, hcode', hw, hstart⟩ => .pure ?_
  rw [Code.fronted_fronted, Code.fronted_fronted, ← hj.same] at hcode'
  refine ⟨by rw [hsame', hsame₄, hsame₃, hsame₂, hsame₁], ?_, q₄ ++ q₃, join, p, ⟨?_, hcode'⟩, ?_,
    ?_, hplace.symm, _, hjump⟩
  · rw [hregs', hregs₄, hregs₃, hregs₂, halloc₁]
  · rw [hregs', hregs₄, hregs₃, hregs₂]
    exact hs.regs
  · rw [requests_append, hrequests₄, hrequests₃, List.reverse_flatMap, List.reverse_reverse,
      hj.portable.exitReg]
    rfl
  · obtain ⟨_, -, hfollows⟩ := hcode'.followed hj.laid hw
    rw [Code.fronted_self, List.append_assoc] at hfollows
    rw [hstart]
    exact hfollows.upTo.2.1

/-- The values of a snapshot are written to their slots, and the number of the guard is told. -/
theorem exit_departs {e : Env} {m : State} (hm : Mirrors job n s e m)
    (hs : Stage job.set r l P s.alloc)
    (hi : job.Reads n i) {x : SideExit} (hx : i.exit = some x) {xs : List SlotLocation}
    (hfounds : List.Forall₂ (Found job.set s.alloc.regs) x.snapshot xs) (id : GuardId) :
    ∃ m₁, performAll HelperTable.standard.host (xs.flatMap (backCode job.set.target) ++
        [.movImm virtualTarget.exitReg id.toUInt64]) m e.heap = .on m₁ e.heap ∧
        Departed job.set.maxSlots id (e.leave x) m₁ := by
  have hrefs : ∀ y ∈ x.snapshot, 0 ≤ y.ref ∧ y.ref < n := by
    intro y hy
    refine hi.uses y.ref (List.mem_append_right _ ?_)
    unfold Inst.snapshotRefs
    rw [hx]
    exact List.mem_map_of_mem hy
  have hfilled : Filled job.set (· = virtualTarget.scratch) s.alloc.regs
      (meaning job.set.buffer e) m :=
    ⟨hm.filled.size, hm.filled.frame, fun hr hk _ => hm.filled.reg hr hk not_false, hm.filled.slot⟩
  obtain ⟨m₁, hperform, hm₁, hslots, -, hargs⟩ :=
    founds_perform hj.portable hs.regs (recalls_meaning job.set.buffer e)
    hfounds (fun y hy => ⟨(hm.room hi.get).exit x hx y hy, (hrefs y hy).1⟩) hfilled
      (Nat.le_of_eq (by rw [hm.slots])) e.heap
  have hexit : virtualTarget.exitReg.Real := by decide
  refine ⟨m₁.setReg virtualTarget.exitReg id.toUInt64, ?_, by simp [hm₁.size], hm₁.frame, ?_,
    hargs.trans hm.args, ?_⟩
  · rw [performAll_on hperform, performAll_single, Instr.perform_movImm hm₁.size hexit]
  · rw [State.setReg_slots, hslots, hm.slots]
    unfold Env.leave
    -- the words that are written are those of the pass
    have hwords : ∀ (ys : List SnapshotEntry) (slots : Array UInt64),
      (∀ y ∈ ys, 0 ≤ y.ref ∧ y.ref < n) →
        ys.foldl (fun slots y => slots.set! y.addr.slot.toNat
          (meaning job.set.buffer e y.ref.toNat)) slots =
          ys.foldl (fun slots y => slots.set! y.addr.slot.toNat (e.word y.ref)) slots := by
      intro ys
      induction ys with
      | nil => exact fun _ _ => rfl
      | cons y ys ih =>
        intro slots hys
        obtain ⟨hnonneg, hlt⟩ := hys y List.mem_cons_self
        rw [List.foldl_cons, List.foldl_cons, ih _ fun y hy => hys y (List.mem_cons_of_mem _ hy),
          hm.knows.meaning_eq (hm.count.symm ▸ (Int.toNat_lt hnonneg).mpr hlt),
          Int.toNat_of_nonneg hnonneg]
    exact hwords x.snapshot e.slots hrefs
  · rw [State.setReg_reg hm₁.size hexit, if_pos rfl]

omit hj in
/-- Whether a guard fails, the machine can tell from its register or its flag. -/
theorem guard_leaves {e : Env} {m : State} (hi : job.Reads n i) (hop : i.op.isGuard = true)
    (hm : Mirrors job n s e m)
    (hflag : i.op = .exitOv → s.needFlag = true) (reg : Reg)
    (hreg : i.op ≠ .exitOv → job.set.target.allocatable.contains reg = true ∧
      s.alloc.regs.valueIn reg = i.a)
    (hp : job.set.Portable) : ∃ fails, Env.exec .standard i e = e.guard i fails ∧
      m.leaves? reg (guardCond i.op) = some fails := by
  have hword : i.op ≠ .exitOv → i.op.readsFirst = true → reg.Real ∧ m.reg reg = e.word i.a := by
    intro hne hreads
    obtain ⟨halloc, hvalue⟩ := hreg hne
    obtain ⟨hnonneg, hlt⟩ := hi.first hreads
    exact ⟨(hp.real halloc).1, hm.reg (RegSet.contains_valid halloc) hnonneg hlt hvalue⟩
  unfold Env.exec
  cases hcase : i.op with
  | exitUnless =>
    obtain ⟨hreal, hword⟩ := hword (by rw [hcase]; nofun) (by rw [hcase]; rfl)
    exact ⟨_, rfl, by rw [← hword]; exact Instr.leaves?_zero hm.filled.size hreal⟩
  | exitIf =>
    obtain ⟨hreal, hword⟩ := hword (by rw [hcase]; nofun) (by rw [hcase]; rfl)
    exact ⟨_, rfl, by rw [← hword]; exact Instr.leaves?_nonZero hm.filled.size hreal⟩
  | exitOv => exact ⟨_, rfl, congrArg some (hm.flag (hflag hcase))⟩
  | _ =>
    rw [hcase] at hop
    cases hop

/-- Code that leaves the trace, once the condition is in its register or in the flag. -/
theorem leave_departs {s₁ : Assembler} {q₁ : List Piece} (hi : job.Reads n i)
    (hop : i.op.isGuard = true) (reg : Reg)
    (hsame₁ : s₁ = { s with alloc := s₁.alloc, needFlag := s₁.needFlag })
    (hkeeps : s.needFlag = true → s₁.needFlag = true)
    (honly : s₁.needFlag = true → s.needFlag = true ∨ i.op = .exitOv)
    (hflag : i.op = .exitOv → s₁.needFlag = true)
    (hs₁ : Stage job.set r l (Code.fronted P .main q₁) s₁.alloc)
    (hrestores₁ : Restores job.set (fun _ => False) (fun _ => False) s.alloc.regs s₁.alloc.regs
      (requests q₁))
    (hreg : i.op ≠ .exitOv → job.set.target.allocatable.contains reg = true ∧
      s₁.alloc.regs.valueIn reg = i.a) :
    Ensures Anyhow (do
      let locations ← locate job (i.exit.elim [] (·.snapshot))
      leave job (job.exitIndex[n]?.getD 0) (guardCond i.op) reg locations) s₁
        fun _ s' => Departs job r l n i P s s' := by
  refine (locate_ensures (K := fun _ => False) (O := fun _ => False) hs₁ _).bind
    fun xs s₂ ⟨hsame₂, q₂, hs₂, hrestores₂, hfounds, hvalue, _⟩ => ?_
  unfold leave
  refine .modify_bind (.get ?_)
  let s₂' : Assembler := { s₂ with
    exits := s₂.exits.modify (job.exitIndex[n]?.getD 0) fun e : ExitRecord =>
        { e with locations := xs }
    guardCount := s₂.guardCount + 1 }
  refine (exitCode_ensures (s := s₂') hj hs₂ (s₂.guardCount + 1).toUInt32 xs).bind
    fun (start, site) s₃ ⟨hsame₃, hregs₃, stub, join, p, hs₃, hstub, hstart, hsite, hjump⟩ => ?_
  refine (emit_main hj hs₃ (.guard (guardCond i.op) reg start)).bind
    fun _ s₄ ⟨hsame₄, hregs₄, q₄, hrequests₄, hs₄⟩ => .modify ?_
  have hregs : s₄.alloc.regs = s₂.alloc.regs := hregs₄.trans hregs₃
  have hneed : s₄.needFlag = s₁.needFlag :=
    (by rw [hsame₄, hsame₃] : s₄.needFlag = s₂.needFlag).trans (by rw [hsame₂])
  have hsite₄ : s₄.loopSite = s.loopSite :=
    (by rw [hsame₄, hsame₃] : s₄.loopSite = s₂.loopSite).trans (by rw [hsame₂, hsame₁])
  have hguards : s₄.guards = s.guards :=
    (by rw [hsame₄, hsame₃] : s₄.guards = s₂.guards).trans (by rw [hsame₂, hsame₁])
  refine ⟨hsite₄, fun h => honly (hneed.symm.trans h), _, start, q₄ ++ (q₂ ++ q₁), stub, join, p,
    ?_, by rw [hguards], rfl,
    ⟨hstart, hsite, hjump, fun t ht => ?_⟩, ?_⟩
  · rw [Code.fronted_fronted, Code.fronted_comm, Code.fronted_fronted] at hs₄
    exact hs₄
  · rw [hstub, List.mem_append, List.mem_singleton, List.mem_flatMap] at ht
    rcases ht with ⟨x, -, ht⟩ | ht
    · exact backCode_straight _ x t ht
    · cases ht
  intro e m hm
  have hrequests : requests (q₄ ++ (q₂ ++ q₁)) =
      .guard (guardCond i.op) reg start :: requests (q₂ ++ q₁) := by
    rw [requests_append, hrequests₄]
    rfl
  obtain ⟨fails, hexec, hleaves⟩ := guard_leaves hi hop hm (fun h => hneed.trans (hflag h)) reg
    (fun hne => ⟨(hreg hne).1, by rw [hregs, hvalue]; exact (hreg hne).2⟩) hj.portable
  have hperform : Instr.perform HelperTable.standard.host
    (.guard (guardCond i.op) reg start) m e.heap =
      if fails then .away start m e.heap else .on m e.heap := Instr.perform_guard hleaves
  rw [hexec]
  unfold Env.guard
  cases hx : i.exit with
  | none => exact ⟨nofun, nofun⟩
  | some x =>
    rw [hx] at hfounds
    dsimp only [Option.elim]
    cases fails with
    | false =>
      refine ⟨fun e₁ he => ?_, nofun⟩
      cases he
      obtain ⟨m₁, hperform₁, hm₁, halike, -⟩ :=
        hrestores₁.trans hrestores₂ _ m e.heap (recalls_meaning job.set.buffer e)
        (hregs ▸ hm.filled)
      refine ⟨m₁, ?_, hm.passed hi.get (fun himm => ?_) rfl hm₁ (fun hneeds => ?_)
        (halike.slots.trans hm.slots) rfl halike.args⟩
      · rw [hrequests, performAll_cons (hperform.trans (if_neg Bool.false_ne_true)),
          requests_append, hperform₁]
        rfl
      · rw [himm] at hop
        cases hop
      · exact halike.overflow.trans (hm.flag (hneed.trans (hkeeps hneeds)))
    | true =>
      refine ⟨nofun, fun y e₁ he => ?_⟩
      cases he
      obtain ⟨m₁, hstub', hdeparted⟩ := exit_departs hj hm hs₄ hi hx (hregs ▸ hfounds) _
      refine ⟨rfl, ?_, m₁, by rw [hstub]; exact hstub', hdeparted⟩
      rw [hrequests, performAll_head, hperform, if_pos rfl]

/-- Code for a guard. -/
theorem guard_departs (hs : Stage job.set r l P s.alloc) (hi : job.Reads n i)
    (hop : i.op.isGuard = true) : Ensures Anyhow (guard job n i) s fun _ s' =>
    Departs job r l n i P s s' := by
  unfold guard
  refine .get ?_
  extract_lets exit tail whole
  have hwhole : ∀ u, Ensures Anyhow (whole u) s fun _ s' => Departs job r l n i P s s' := by
    intro u
    unfold whole
    split
    · next hexit =>
      refine .modify_bind (.pure_bind ?_)
      have hs' : Stage job.set r l (Code.fronted P .main []) s.alloc := by
        rw [Code.fronted_nil]
        exact hs
      exact leave_departs hj hi hop _ rfl (fun _ => rfl) (fun _ => .inr (beq_iff_eq.mp hexit))
        (fun _ => rfl) hs' (.refl _ _ _ _) fun hne => absurd (beq_iff_eq.mp hexit) hne
    · next hexit =>
      refine (regFor_ensures hj hs i.a ∅ (K := fun _ => False) (O := fun _ => False) nofun).bind
        fun x s₁ ⟨hsame₁, q₁, hs₁, hrestores₁, hx, _, _, hvalue⟩ => ?_
      refine leave_departs hj hi hop x (by rw [hsame₁]) (fun h => by rw [hsame₁]; exact h)
        (fun h => .inl (by rwa [hsame₁] at h)) (fun heq => absurd (beq_iff_eq.mpr heq) hexit)
        hs₁ hrestores₁ fun _ => ⟨hx, ?_⟩
      rw [hvalue x (RegSet.contains_valid hx), if_pos rfl]
  split
  · exact stopped
  · exact hwhole ()

end

end Assembler

end LoopTracer.Compile
