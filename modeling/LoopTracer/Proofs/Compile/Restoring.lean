import LoopTracer.Proofs.Compile.Representation
import LoopTracer.Proofs.Machine.Effects

/-! What the code of the allocator makes up for.

Code is written from its end to its start, so what the tables say at a place is what the code behind
it relies on: that the word of every live value is in its register and in its spill slot (`Filled`).
The allocator changes the tables and writes code that makes up for it: from a machine that is filled
as the new tables say, the code leads to one that is filled as the old ones say (`Restores`). -/
namespace LoopTracer.Compile

open Machine Trace

/-! ### The portable machine -/

/-- A setting for the portable machine, with so few spill slots that all can be addressed. -/
structure Setting.Portable (set : Setting) : Prop where
  backend : set.backend = .virtual
  target : ∃ n, set.target = virtualTarget.limit n
  slots : set.maxSlots < 2 ^ 28

/-- A limit takes registers away, and changes nothing else of the machine. -/
theorem limit_alike (t : Target) (n : Int) :
    t.limit n = { t with allocatable := (t.limit n).allocatable } ∧
      ∀ r, (t.limit n).allocatable.contains r = true → t.allocatable.contains r = true := by
  have hfold : ∀ (l : List Reg) (K : RegSet), (∀ x ∈ l, t.allocatable.contains x = true) →
      (∀ r, K.contains r = true → t.allocatable.contains r = true) →
      ∀ r, (l.foldl (fun K r => if n ≤ K.size && !t.argRegs.contains r then K else K.insert r)
        K).contains r = true → t.allocatable.contains r = true := by
    intro l
    induction l with
    | nil => exact fun K _ hkept => hkept
    | cons x l ih =>
      intro K hl hkept
      refine ih _ (fun y hy => hl y (List.mem_cons_of_mem x hy)) fun r => ?_
      dsimp only
      split
      · exact hkept r
      · intro hin
        rcases RegSet.contains_insert.mp hin with ⟨rfl, -⟩ | hin
        · exact hl _ List.mem_cons_self
        · exact hkept r hin
  unfold Target.limit
  split
  · exact ⟨rfl, fun _ h => h⟩
  · exact ⟨rfl, hfold _ ∅ (fun x hx => RegSet.mem_toList.mp hx) fun r hin => by
      rw [RegSet.contains_empty] at hin; cases hin⟩

namespace Setting.Portable

variable {set : Setting} (hp : set.Portable)
include hp

theorem target_eq : set.target = { virtualTarget with allocatable := set.target.allocatable } := by
  obtain ⟨n, hn⟩ := hp.target
  rw [hn]
  exact (limit_alike virtualTarget n).1

/-- A register that is handed out is one of the machine, and none that has a use of its own. -/
theorem real {r : Reg} (h : set.target.allocatable.contains r = true) :
    r.Real ∧ r ≠ virtualTarget.scratch := by
  obtain ⟨n, hn⟩ := hp.target
  have hall : ∀ r ∈ virtualTarget.allocatable.toList, r.Real ∧
    r ≠ virtualTarget.scratch := by decide +kernel
  rw [hn] at h
  exact hall r (RegSet.mem_toList.mpr ((limit_alike virtualTarget n).2 r h))

theorem frameBase : set.target.frameBase = virtualTarget.frameBase := by rw [hp.target_eq]

theorem stateBase : set.target.stateBase = virtualTarget.stateBase := by rw [hp.target_eq]

theorem scratch : set.target.scratch = virtualTarget.scratch := by rw [hp.target_eq]

theorem exitReg : set.target.exitReg = virtualTarget.exitReg := by rw [hp.target_eq]

theorem retReg : set.target.retReg = virtualTarget.retReg := by rw [hp.target_eq]

theorem argRegs : set.target.argRegs = virtualTarget.argRegs := by rw [hp.target_eq]

theorem callerSaved : set.target.callerSaved = virtualTarget.callerSaved := by rw [hp.target_eq]

/-- A spill slot is where its displacement leads. -/
theorem cell {m : State} {j : Nat} (hj : (j : Int) < set.maxSlots)
    (hm : m.frame.size = set.maxSlots.toNat) :
    m.cell set.target.frameBase.byte (set.target.spillDisp j) = .ok (.frame, j) := by
  obtain ⟨n, hn⟩ := hp.target
  have hsmall := hp.slots
  rw [hp.frameBase, hn]
  exact State.cell_frame (toInt_spillDisp (by omega)) (by omega)

end Setting.Portable

/-! ### What the tables say of the machine -/

/-- Constants have their words. -/
def Recalls (b : Buffer) (w : Nat → UInt64) : Prop :=
  ∀ {k : Nat} {i : Inst}, b.get? k = some i → i.op = .imm → w k = i.imm.bits

/-- The machine holds the words of the live values where the tables say, but in registers that
are left out. -/
structure Filled (set : Setting) (O : Reg → Prop) (s : Registers) (w : Nat → UInt64)
    (m : State) : Prop where
  size : m.regs.size = 16
  frame : m.frame.size = set.maxSlots.toNat
  reg : ∀ {k : Nat} {r}, r.Valid → s.valueIn r = (k : Int) → ¬ O r → m.reg r = w k
  slot : ∀ {k j}, s.Owns k j → m.frame.get j = w k

/-- What the allocator's code leaves as it is. -/
structure Alike (m m' : State) : Prop where
  slots : m'.slots = m.slots
  overflow : m'.overflow = m.overflow
  args : m'.args = m.args

theorem Alike.refl (m : State) : Alike m m := ⟨rfl, rfl, rfl⟩

theorem Alike.trans {m m' m'' : State} (h : Alike m m') (h' : Alike m' m'') : Alike m m'' :=
  ⟨h'.slots.trans h.slots, h'.overflow.trans h.overflow, h'.args.trans h.args⟩

/-- From a machine that is filled as later tables say, requests lead to one that is filled as the
tables said before, and registers that are to be kept stay as they are. -/
def Restores (set : Setting) (K O : Reg → Prop) (s s' : Registers) (is : List Instr) :
    Prop :=
  ∀ (w : Nat → UInt64) (m : State) (env : StringHeap), Recalls set.buffer w → Filled set O s' w m →
    ∃ m', performAll HelperTable.standard.host is m env = .on m' env ∧ Filled set O s w m' ∧
      Alike m m' ∧ ∀ x, K x → m'.reg x = m.reg x

variable {set : Setting} {K O : Reg → Prop} {s s₁ s' : Registers} {is is' : List Instr}
  {k i j : Nat} {r r' : Reg}

theorem Restores.refl (set : Setting) (K O : Reg → Prop) (s : Registers) :
    Restores set K O s s [] := fun _ m _ _ h => ⟨m, rfl, h, .refl m, fun _ _ => rfl⟩

theorem Restores.trans (h : Restores set K O s s₁ is) (h' : Restores set K O s₁ s' is') :
    Restores set K O s s' (is' ++ is) := by
  intro w m env hw hm
  obtain ⟨m₁, hperform₁, hm₁, halike₁, hkept₁⟩ := h' w m env hw hm
  obtain ⟨m₂, hperform₂, hm₂, halike₂, hkept₂⟩ := h w m₁ env hw hm₁
  refine ⟨m₂, ?_, hm₂, halike₁.trans halike₂, fun x hx => (hkept₂ x hx).trans (hkept₁ x hx)⟩
  rw [performAll_on hperform₁, hperform₂]

/-- No code is needed if the later tables say no less. -/
theorem Restores.still
    (hreg : ∀ {k : Nat} {r}, r.Valid → s.valueIn r = (k : Int) → s'.valueIn r = (k : Int))
    (hslot : ∀ {k j}, s.Owns k j → s'.Owns k j) : Restores set K O s s' [] :=
  fun _ m _ _ hm => ⟨m, rfl, ⟨hm.size, hm.frame, fun hr hk hout => hm.reg hr (hreg hr hk) hout,
    fun howns => hm.slot (hslot howns)⟩, .refl m, fun _ _ => rfl⟩

/-- One request that puts a word into a register makes up for what the tables say there. -/
theorem Restores.single {x : Instr} (hreal : r.Real) (hkept : ¬ K r)
    (hslot : ∀ {k j}, s.Owns k j → s'.Owns k j)
    (hother : ∀ {k : Nat} {r'}, r'.Valid → r' ≠ r → s.valueIn r' = (k : Int) →
      s'.valueIn r' = (k : Int))
    (hx : ∀ (w : Nat → UInt64) (m : State) (env : StringHeap), Recalls set.buffer w →
      Filled set O s' w m →
      ∃ v, x.perform HelperTable.standard.host m env = .on (m.setReg r v) env ∧
        ∀ k : Nat, s.valueIn r = (k : Int) → v = w k) :
    Restores set K O s s' [x] := by
  intro w m env hw hm
  obtain ⟨v, hperform, hv⟩ := hx w m env hw hm
  refine ⟨m.setReg r v, by rw [performAll_single, hperform],
    ⟨by simp [hm.size], hm.frame, fun {k r'} hr' hk hout' => ?_,
    fun howns => hm.slot (hslot howns)⟩, ⟨rfl, rfl, rfl⟩, fun y hy => ?_⟩
  · rw [State.setReg_reg hm.size hreal]
    split
    · next heq => exact hv k (heq ▸ hk)
    · next hne => exact hm.reg hr' (hother hr' hne hk) hout'
  · rw [State.setReg_reg hm.size hreal, if_neg fun heq : y = r => hkept (heq ▸ hy)]

/-! ### Changes of the tables -/

namespace Registers.Represents

section

variable (h : s.Represents set)
include h

/-- The spill slots in use are few. -/
theorem slot_lt (howns : s.Owns k j) : (j : Int) < set.maxSlots := by
  have hsize := (Array.getElem?_eq_some_iff.mp (h.used.mpr ⟨k, howns⟩)).1
  have hfew := h.few
  omega

theorem assign_owns (hi : s.Has k i) : (s.assign i r).Owns k' j ↔ s.Owns k' j := by
  refine exists_congr fun x => and_congr_right fun _ => ?_
  rw [h.assign_at? hi]
  split
  · next heq => rw [heq]
  · rfl

theorem unassign_owns (hi : s.Has k i) : (s.unassign i).Owns k' j ↔ s.Owns k' j := by
  refine exists_congr fun x => and_congr_right fun _ => ?_
  rw [h.unassign_at? hi]
  split
  · next heq => rw [heq]
  · rfl

/-- A new reservation says nothing of the machine. -/
theorem restores_add (hk : k < set.buffer.size) (hnew : ∀ i, ¬ s.Has k i)
    (hfree : s.free = some i) : Restores set K O s (s.add k i) [] :=
  .still (fun _ hvalue => hvalue) fun howns => (h.add_owns hk hnew hfree).mpr howns

/-- A spill slot that is taken says more. -/
theorem restores_takeSlot (hi : s.Has k i) (hnone : (s.at? i).slot = none) (slot : Nat) :
    Restores set K O s (s.takeSlot i slot) [] :=
  .still (fun _ hvalue => hvalue) fun howns => (h.takeSlot_owns hi hnone slot).mpr (.inl howns)

/-- So does a register. -/
theorem restores_assign (hi : s.Has k i) (hr : r.Valid) (hfree : s.valueIn r = Ref.none) :
    Restores set K O s (s.assign i r) [] := by
  refine .still (fun {k' r'} hr' hvalue => ?_) fun howns => (h.assign_owns hi).mpr howns
  rw [h.assign_valueIn hi hr hr', if_neg, hvalue]
  rintro rfl
  rw [hfree] at hvalue
  exact natCast_ne_none _ hvalue.symm

end

section

variable (h : s.Represents set) (hp : set.Portable) (hi : s.Has k i)
  (hreg : (s.at? i).reg ≠ Reg.none)
  (hkept : ¬ K (s.at? i).reg)
include h hp hi hreg hkept

/-- A value that is taken out of its register is loaded again from its spill slot. -/
theorem restores_load (hslot : (s.at? i).slot = some j) : Restores set K O s (s.unassign i)
    [.load (s.at? i).reg set.target.frameBase (set.target.spillDisp j)] := by
  obtain ⟨hvalid, hvalue⟩ := h.valueIn_eq hi hreg
  have hreal := (hp.real (h.placed hi hreg).1).1
  refine .single hreal hkept (fun howns => (h.unassign_owns hi).mpr howns)
    (fun hr' hne hvalue' => ?_)
    fun w m env _ hm => ⟨m.frame.get j, ?_, fun k' hk' => ?_⟩
  · rw [h.unassign_valueIn hvalid hr', if_neg hne, hvalue']
  · exact Instr.perform_load hm.size hreal (hp.cell (h.slot_lt ⟨i, hi, hslot⟩) hm.frame)
  · obtain rfl := Int.ofNat.inj (hvalue.symm.trans hk')
    exact hm.slot ((h.unassign_owns hi).mpr ⟨i, hi, hslot⟩)

/-- A constant is made anew. -/
theorem restores_movImm {x : Inst} (hx : set.buffer.get? k = some x) (himm : x.op = .imm) :
    Restores set K O s (s.unassign i) [.movImm (s.at? i).reg x.imm.bits] := by
  obtain ⟨hvalid, hvalue⟩ := h.valueIn_eq hi hreg
  have hreal := (hp.real (h.placed hi hreg).1).1
  refine .single hreal hkept (fun howns => (h.unassign_owns hi).mpr howns)
    (fun hr' hne hvalue' => ?_)
    fun w m env hw hm => ⟨x.imm.bits, ?_, fun k' hk' => ?_⟩
  · rw [h.unassign_valueIn hvalid hr', if_neg hne, hvalue']
  · exact Instr.perform_movImm hm.size hreal x.imm.bits
  · obtain rfl := Int.ofNat.inj (hvalue.symm.trans hk')
    exact (hw hx himm).symm

/-- A value that changes its register is moved back. -/
theorem restores_mov (hr : set.target.allocatable.contains r = true)
    (hfree : s.valueIn r = Ref.none)
    (hout : ¬ O r) : Restores set K O s ((s.unassign i).assign i r) [.mov (s.at? i).reg r] := by
  obtain ⟨hvalid, hvalue⟩ := h.valueIn_eq hi hreg
  have hreal := (hp.real (h.placed hi hreg).1).1
  have hr' := RegSet.contains_valid hr
  have hmoved := h.unassign hi hreg
  have hi' : (s.unassign i).Has k i := hi
  have hvalues : ∀ {r'}, r'.Valid → ((s.unassign i).assign i r).valueIn r' =
      if r' = r then (k : Int) else if r' = (s.at? i).reg then Ref.none else s.valueIn r' := by
    intro r' hvalid'
    rw [hmoved.assign_valueIn hi' hr' hvalid', h.unassign_valueIn hvalid hvalid']
  refine .single hreal hkept
    (fun howns => (hmoved.assign_owns hi').mpr ((h.unassign_owns hi).mpr howns))
    (fun {k' r'} hvalid' hne hvalue' => ?_) fun w m env _ hm => ⟨m.reg r, ?_, fun k' hk' => ?_⟩
  · rw [hvalues hvalid', if_neg, if_neg hne, hvalue']
    rintro rfl
    rw [hfree] at hvalue'
    exact natCast_ne_none _ hvalue'.symm
  · exact Instr.perform_mov hm.size hreal (hp.real hr).1
  · obtain rfl := Int.ofNat.inj (hvalue.symm.trans hk')
    refine hm.reg hr' ?_ hout
    rw [hvalues hr', if_pos rfl]

end

end Registers.Represents

/-! ### Results -/

/-- From a machine that is filled as later tables say, and with the word of value `k` in a register,
requests lead to one that is filled as the tables said before, where the value has this word. -/
def Delivers (set : Setting) (s s' : Registers) (k : Nat) (r : Reg) (is : List Instr) : Prop :=
  ∀ (w : Nat → UInt64) (m : State) (env : StringHeap), Recalls set.buffer w →
    Recalls set.buffer (Function.update w k (m.reg r)) → Filled set (· = r) s' w m →
      ∃ m', performAll HelperTable.standard.host is m env = .on m' env ∧
      Filled set (fun _ => False) s (Function.update w k (m.reg r)) m' ∧ Alike m m'

/-- What makes up for later changes is done after the value is there. -/
theorem Delivers.after (h : Delivers set s₁ s' k r is')
    (hrestores : Restores set (fun _ => False) (fun _ => False) s s₁ is) :
    Delivers set s s' k r (is' ++ is) := by
  intro w m env hw hw' hm
  obtain ⟨m₁, hperform₁, hm₁, halike₁⟩ := h w m env hw hw' hm
  obtain ⟨m₂, hperform₂, hm₂, halike₂, -⟩ := hrestores _ m₁ env hw' hm₁
  refine ⟨m₂, ?_, hm₂, halike₁.trans halike₂⟩
  rw [performAll_on hperform₁, hperform₂]

/-- The code that stores a value in its spill slot. -/
def keepCode (set : Setting) (r : Reg) : Option Nat → List Instr
  | some j => [.store set.target.frameBase (set.target.spillDisp j) r]
  | none => []

section

variable (h : s.Represents set) (hi : s.Has k i)
include h hi

/-- Other values stay where they are when one is given up. -/
theorem Registers.Represents.drop_valueIn (hr : r.Valid) (hne : r ≠ (s.at? i).reg) :
    (s.drop k i).valueIn r = s.valueIn r := by
  show (s.vacate i).valueIn r = _
  unfold Registers.vacate
  split
  · rfl
  · next hreg =>
    rw [h.unassign_valueIn (h.valueIn_eq hi fun heq => hreg (beq_iff_eq.mpr heq)).1 hr, if_neg hne]

/-- A value whose word is in a register is stored if it was spilled; before, it is not live. All is
as the tables say then but for its register. -/
theorem Registers.Represents.keeps (hp : set.Portable) (hr : r.Real) {w : Nat → UInt64} {m : State}
    (env : StringHeap)
    (hm : Filled set O (s.drop k i) w m) :
    ∃ m', performAll HelperTable.standard.host (keepCode set r (s.at? i).slot) m env = .on m' env ∧
      Filled set (fun y => O y ∨ y = (s.at? i).reg) s (Function.update w k (m.reg r)) m' ∧
      Alike m m' ∧
      ∀ y, m'.reg y = m.reg y := by
  have hregs : ∀ {k' : Nat} {y}, y.Valid → s.valueIn y = (k' : Int) → ¬ (O y ∨ y = (s.at? i).reg) →
      m.reg y = Function.update w k (m.reg r) k' := by
    intro k' y hy hk' hout
    rw [not_or] at hout
    rw [Function.update_of_ne, hm.reg hy ((h.drop_valueIn hi hy hout.2).trans hk') hout.1]
    rintro rfl
    obtain ⟨k₁, i₁, hi₁, hvalue₁, hreg₁⟩ := h.held hy (hk' ▸ natCast_ne_none k')
    obtain rfl := Int.ofNat.inj (hvalue₁.symm.trans hk')
    obtain rfl := hi₁.unique hi
    exact hout.2 hreg₁.symm
  have hslots : ∀ {k' j}, s.Owns k' j → k' ≠ k →
      m.frame.get j = Function.update w k (m.reg r) k' := by
    intro k' j howns hne
    rw [Function.update_of_ne hne]
    exact hm.slot ((h.drop_owns hi).mpr ⟨hne, howns⟩)
  cases hslot : (s.at? i).slot with
  | none =>
    refine ⟨m, rfl, ⟨hm.size, hm.frame, hregs, fun {k' j} howns => hslots howns ?_⟩,
      .refl m, fun _ => rfl⟩
    rintro rfl
    obtain ⟨i₁, hi₁, hj⟩ := howns
    rw [hi₁.unique hi, hslot] at hj
    cases hj
  | some j =>
    have howns : s.Owns k j := ⟨i, hi, hslot⟩
    refine ⟨m.write j (m.reg r) .frame, ?_,
      ⟨by simp [hm.size], hm.frame, fun {k' y} hy hk' hout => ?_,
      fun {k' j'} howns' => ?_⟩, ⟨rfl, rfl, rfl⟩, fun y => State.write_reg m j _ .frame y⟩
    · rw [keepCode, performAll_single]
      exact Instr.perform_store hm.size hr (hp.cell (h.slot_lt howns) hm.frame)
    · rw [State.write_reg]
      exact hregs hy hk' hout
    · show (m.frame.set j (m.reg r)).get j' = _
      rw [Frame.get_set]
      split
      · next heq =>
        rw [h.apart howns' (heq ▸ howns), Function.update_self]
      · next hne =>
        refine hslots howns' ?_
        rintro rfl
        obtain ⟨i₁, hi₁, hj⟩ := howns'
        rw [hi₁.unique hi, hslot] at hj
        exact hne (Option.some.inj hj).symm

/-- A value is made in its register and stored if it was spilled. -/
theorem Registers.Represents.delivers (hp : set.Portable) (hreg : (s.at? i).reg = r)
    (hr : set.target.allocatable.contains r = true) :
    Delivers set s (s.drop k i) k r (keepCode set r (s.at? i).slot) := by
  have hvalue := (h.valueIn_eq hi (hreg ▸ (RegSet.contains_valid hr).ne_none)).2
  rw [hreg] at hvalue
  intro w m env _ _ hm
  obtain ⟨m', hperform, hm', halike, hsame⟩ := h.keeps hi hp (hp.real hr).1 env hm
  refine ⟨m', hperform, ⟨hm'.size, hm'.frame, fun {k' y} hy hk' _ => ?_, hm'.slot⟩, halike⟩
  by_cases heq : y = r
  · subst heq
    obtain rfl := Int.ofNat.inj (hvalue.symm.trans hk')
    rw [Function.update_self, hsame]
  · exact hm'.reg hy hk' fun hout => heq (hout.elim id fun hy => hy.trans hreg)

end

end LoopTracer.Compile
