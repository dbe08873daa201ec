import LoopTracer.Proofs.Compile.Placing
import LoopTracer.Proofs.Compile.Walking
import LoopTracer.Proofs.Trace.Semantics
import LoopTracer.Proofs.Trace.Shape

/-! What the code of an instruction does.

Before an instruction the machine holds the words of the values that are live there, and is
otherwise as a pass over the trace is (`Mirrors`). The code of an instruction takes it to where it
is so before the next one (`Mimics`). -/
namespace LoopTracer.Compile

open Machine Trace

/-! ### Words of values -/

/-- The word of a value; that of a constant is known before the constant is made. -/
def meaning (b : Buffer) (e : Env) (k : Nat) : UInt64 :=
  (b.get? k).elim (e.word k) fun i => if i.op = .imm then i.imm.bits else e.word k

/-- Constants that were made have their words. -/
def Knows (b : Buffer) (e : Env) : Prop :=
  ∀ (k : Nat) (i : Inst), b.insts[k]? = some i → i.op = .imm → k < e.values.size →
    e.word k = i.imm.bits

section Meaning

variable {b : Buffer} {e e' : Env} {k : Nat} {i : Inst} {v : UInt64}

theorem recalls_meaning (b : Buffer) (e : Env) : Recalls b (meaning b e) := by
  intro k i hget hop
  rw [meaning, hget]
  exact if_pos hop

theorem Knows.meaning_eq (h : Knows b e) (hk : k < e.values.size) : meaning b e k = e.word k := by
  unfold meaning
  cases hget : b.get? k with
  | none => rfl
  | some i =>
    rw [b.get?_eq] at hget
    dsimp only [Option.elim]
    split
    · next hop => exact (h k i hget hop hk).symm
    · rfl

theorem word_of_le (h : e.values.size ≤ k) : e.word k = 0 := by
  rw [Env.word, if_neg (by omega), Int.toNat_natCast, Array.getElem?_eq_none h]
  rfl

/-- Each word stays when one is added. -/
theorem word_push_lt (hvalues : e'.values = e.values) (hk : k < e.values.size) :
    (e'.push v).word k = e.word k := by
  rw [Env.word, Env.word, Env.push, hvalues, Int.toNat_natCast, Array.getElem?_push,
    if_neg (Nat.ne_of_lt hk)]

theorem Knows.push (h : Knows b e) (hvalues : e'.values = e.values)
    (hv : ∀ i, b.insts[e.values.size]? = some i →
      i.op = .imm → v = i.imm.bits) : Knows b (e'.push v) := by
  intro k i hget hop hk
  rw [Env.push_size, hvalues] at hk
  by_cases heq : k = e.values.size
  · subst heq
    rw [← hv i hget hop, ← hvalues]
    exact Env.word_push e' v
  · rw [word_push_lt hvalues (by omega)]
    exact h k i hget hop (by omega)

/-- The next value gets its word. -/
theorem meaning_push (hvalues : e'.values = e.values)
    (hv : ∀ i, b.insts[e.values.size]? = some i → i.op = .imm → v = i.imm.bits) :
    meaning b (e'.push v) = Function.update (meaning b e) e.values.size v := by
  funext k
  by_cases heq : k = e.values.size
  · subst heq
    rw [Function.update_self]
    have hword : (e'.push v).word e.values.size = v := hvalues ▸ Env.word_push e' v
    unfold meaning
    cases hget : b.get? e.values.size with
    | none => exact hword
    | some i =>
      rw [b.get?_eq] at hget
      dsimp only [Option.elim]
      split
      · next hop => exact (hv i hget hop).symm
      · exact hword
  · rw [Function.update_of_ne heq]
    unfold meaning
    have hword : (e'.push v).word k = e.word k := by
      rcases Nat.lt_or_gt_of_ne heq with hlt | hgt
      · exact word_push_lt hvalues hlt
      · rw [word_of_le (e := e) (Nat.le_of_lt hgt), word_of_le]
        rw [Env.push_size, hvalues]
        exact hgt
    rw [hword]

/-- An instruction that makes no value changes none. -/
theorem meaning_skip (hvalues : e'.values = e.values) (hi : b.insts[e.values.size]? = some i)
    (hop : i.op ≠ .imm) :
    meaning b (e'.push 0) = meaning b e := by
  have hpush := meaning_push (b := b) (v := 0) hvalues fun j hj himm => by
    rw [hi] at hj
    cases hj
    exact absurd himm hop
  rw [hpush]
  refine Function.update_eq_self_iff.mpr ?_
  unfold meaning
  rw [b.get?_eq, hi]
  dsimp only [Option.elim]
  rw [if_neg hop, word_of_le (Nat.le_refl _)]

end Meaning

/-! ### The machine beside a pass -/

/-- A slot is one of the first `width`. -/
def InSlots (width : Nat) (a : SlotAddr) : Prop := ∃ k : Nat, k < width ∧ a.byte.toInt = 8 * k

theorem InSlots.slot {width : Nat} {a : SlotAddr} (h : InSlots width a) :
    ∃ k : Nat, k < width ∧ a.byte.toInt = 8 * k ∧ a.slot.toNat = k := by
  obtain ⟨k, hk, hbyte⟩ := h
  refine ⟨k, hk, hbyte, ?_⟩
  rw [SlotAddr.slot, hbyte, Int.mul_fdiv_cancel_left _ (by decide), Int.toNat_natCast]

/-- All slots that an instruction reads or writes are among the first `width`. -/
structure Addresses (width : Nat) (i : Inst) : Prop where
  slot : i.op = .param ∨ i.op = .store → InSlots width i.slot
  exit : ∀ x, i.exit = some x → ∀ y ∈ x.snapshot, InSlots width y.addr

instance (width : Nat) (a : SlotAddr) : Decidable (InSlots width a) :=
  inferInstanceAs (Decidable (∃ k : Nat, k < width ∧ a.byte.toInt = 8 * k))

instance (width : Nat) (i : Inst) : Decidable (Addresses width i) :=
  decidable_of_iff ((i.op = .param ∨ i.op = .store → InSlots width i.slot) ∧
      ∀ x ∈ i.exit, ∀ y ∈ x.snapshot, InSlots width y.addr)
    ⟨fun ⟨hslot, hexit⟩ => ⟨hslot, hexit⟩, fun ⟨hslot, hexit⟩ => ⟨hslot, hexit⟩⟩

/-- Before instruction `n` the machine is as the tables and a pass over the trace say. -/
structure Mirrors (job : Job) (n : Nat) (s : Assembler) (e : Env) (m : State) : Prop where
  count : e.values.size = n
  knows : Knows job.set.buffer e
  filled : Filled job.set (fun _ => False) s.alloc.regs (meaning job.set.buffer e) m
  flag : s.needFlag = true → m.overflow = e.overflow
  slots : m.slots = e.slots
  room : ∀ {k : Nat} {i}, job.set.buffer.insts[k]? = some i → Addresses e.slots.size i
  args : m.args = #[]

/-- What compiling does not touch between guards and jumps. -/
structure Quiet (s s' : Assembler) : Prop where
  guards : s'.guards = s.guards
  loopSite : s'.loopSite = s.loopSite
  flag : s'.needFlag = true → s.needFlag = true

theorem Quiet.refl (s : Assembler) : Quiet s s := ⟨rfl, rfl, id⟩

theorem Quiet.trans {s s' s'' : Assembler} (h : Quiet s s') (h' : Quiet s' s'') : Quiet s s'' :=
  ⟨h'.guards.trans h.guards, h'.loopSite.trans h.loopSite, h.flag ∘ h'.flag⟩

theorem Quiet.allocating {s s' : Assembler} (h : s' = { s with alloc := s'.alloc }) : Quiet s s' :=
  ⟨by rw [h], by rw [h], fun hflag => by rwa [h] at hflag⟩

/-- The code that was put in front of the main code does what instruction `n` does if that is
not stopped. -/
def Mimics (job : Job) (r : CodePages) (l : List Nat) (n : Nat) (i : Inst) (P : Side → List Piece)
    (s s' : Assembler) : Prop :=
  Quiet s s' ∧ ∃ q, Stage job.set r l (Code.fronted P .main q) s'.alloc ∧
    ∀ e e₁ m, Env.exec .standard i e = .on e₁ → Mirrors job n s' e m →
      ∃ m₁, performAll HelperTable.standard.host (requests q) m e.heap = .on m₁ e₁.heap ∧
        Mirrors job (n + 1) s e₁ m₁

section

variable {set : Setting} {s s₁ s' : Registers} {is is' : List Instr} {k : Nat} {rd : Reg}
  {w : Nat → UInt64} {m : State} {env : StringHeap} {v : UInt64} {flag : Option Bool}

/-- Setting a register spoils what the tables say of this register only. -/
theorem Filled.told (hm : Filled set (fun _ => False) s w m) (hreal : rd.Real) (v : UInt64)
    (flag : Option Bool) :
    Filled set (· = rd) s w ((m.told flag).setReg rd v) := by
  refine ⟨by simp [hm.size], hm.frame, fun {k r} hr hk hout => ?_, hm.slot⟩
  rw [State.setReg_reg (by simp [hm.size]) hreal, if_neg hout, State.told_reg]
  exact hm.reg hr hk id

/-- What makes up for earlier changes is done before, as long as it leaves the register of the
value alone. -/
theorem Delivers.before (h : Delivers set s s₁ k rd is)
    (hrestores : Restores set (· = rd) (· = rd) s₁ s' is') :
    Delivers set s s' k rd (is' ++ is) := by
  intro w m env hw hw' hm
  obtain ⟨m₁, hperform₁, hm₁, halike₁, hkept⟩ := hrestores w m env hw hm
  rw [← hkept rd rfl] at hw' ⊢
  obtain ⟨m₂, hperform₂, hm₂, halike₂⟩ := h w m₁ env hw hw' hm₁
  refine ⟨m₂, ?_, hm₂, halike₁.trans halike₂⟩
  rw [performAll_on hperform₁, hperform₂]

/-- A request makes the word of a value; the value is then stored, and earlier changes are
made up for. -/
theorem Delivers.made {x : Instr} (h : Delivers set s s' k rd is) (hreal : rd.Real)
    (hw : Recalls set.buffer w)
    (hw' : Recalls set.buffer (Function.update w k v)) (hm : Filled set (fun _ => False) s' w m)
    (hx : x.perform HelperTable.standard.host m env = .on ((m.told flag).setReg rd v) env) :
    ∃ m', performAll HelperTable.standard.host (x :: is) m env = .on m' env ∧
    Filled set (fun _ => False) s (Function.update w k v) m' ∧
      m'.slots = m.slots ∧ m'.overflow = flag.getD m.overflow ∧ m'.args = m.args := by
  have hreg : ((m.told flag).setReg rd v).reg rd = v := by
    rw [State.setReg_reg (by simp [hm.size]) hreal, if_pos rfl]
  obtain ⟨m', hperform, hm', halike⟩ := h w _ env hw (hreg.symm ▸ hw') (hm.told hreal v flag)
  rw [hreg] at hm'
  exact ⟨m', by rw [performAll_cons hx, hperform], hm', halike.slots, halike.overflow, halike.args⟩

end

section

variable {job : Job} {r : CodePages} {l : List Nat} {n : Nat} {i : Inst} {P : Side → List Piece}
  {s s' : Assembler} {q : List Piece} {e : Env} {m : State}

/-- The word of a value that was made before is where the tables say. -/
theorem Mirrors.reg (h : Mirrors job n s e m) {x : Reg} {ref : Ref} (hx : x.Valid)
    (hnonneg : 0 ≤ ref) (hlt : ref < n)
    (hvalue : s.alloc.regs.valueIn x = ref) : m.reg x = e.word ref := by
  obtain ⟨k, rfl⟩ := Int.eq_ofNat_of_zero_le hnonneg
  rw [h.filled.reg hx hvalue id, h.knows.meaning_eq (h.count ▸ Int.ofNat_lt.mp hlt)]

/-- The word that instruction `n` makes is added to those of the constants. -/
theorem Mirrors.recalls (h : Mirrors job n s' e m)
    (hget : job.set.buffer.insts[n]? = some i) {v : UInt64}
    (himm : i.op = .imm → v = i.imm.bits) :
    (∀ j, job.set.buffer.insts[e.values.size]? = some j → j.op = .imm → v = j.imm.bits) ∧
      Recalls job.set.buffer (Function.update (meaning job.set.buffer e) n v) := by
  have hv : ∀ j, job.set.buffer.insts[e.values.size]? = some j → j.op = .imm → v = j.imm.bits := by
    intro j hj hop
    rw [h.count, hget] at hj
    cases hj
    exact himm hop
  refine ⟨hv, ?_⟩
  rw [← h.count, ← meaning_push rfl hv]
  exact recalls_meaning _ _

/-- The machine is beside the pass again after an instruction that makes a value. -/
theorem Mirrors.made (h : Mirrors job n s' e m)
    (hget : job.set.buffer.insts[n]? = some i) {v : UInt64}
    (himm : i.op = .imm → v = i.imm.bits) {e' : Env} {m' : State} (hvalues : e'.values = e.values)
    (hfilled : Filled job.set (fun _ => False) s.alloc.regs
      (Function.update (meaning job.set.buffer e) n v) m')
    (hflag : s.needFlag = true → m'.overflow = e'.overflow) (hslots : m'.slots = e'.slots)
    (hroom : e'.slots.size = e.slots.size) (hargs : m'.args = m.args) :
    Mirrors job (n + 1) s (e'.push v) m' := by
  have hv := (h.recalls hget himm).1
  refine ⟨?_, h.knows.push hvalues hv, ?_, hflag, hslots, hroom.symm ▸ h.room, hargs.trans h.args⟩
  · rw [Env.push_size, hvalues]
    exact congrArg (· + 1) h.count
  · rw [meaning_push hvalues hv, h.count]
    exact hfilled

/-- So is it after one that makes none. -/
theorem Mirrors.passed (h : Mirrors job n s' e m) (hget : job.set.buffer.insts[n]? = some i)
    (hop : i.op ≠ .imm)
    {e' : Env} {m' : State} (hvalues : e'.values = e.values)
    (hfilled : Filled job.set (fun _ => False) s.alloc.regs (meaning job.set.buffer e) m')
    (hflag : s.needFlag = true → m'.overflow = e'.overflow) (hslots : m'.slots = e'.slots)
    (hroom : e'.slots.size = e.slots.size) (hargs : m'.args = m.args) :
    Mirrors job (n + 1) s (e'.push 0) m' := by
  have hget' : job.set.buffer.insts[e.values.size]? = some i := h.count.symm ▸ hget
  refine h.made hget (fun himm => absurd himm hop) hvalues ?_ hflag hslots hroom hargs
  rw [← h.count, ← meaning_push hvalues fun j hj himm => ?_, meaning_skip hvalues hget' hop]
  · exact hfilled
  · rw [hget'] at hj
    cases hj
    exact absurd himm hop

/-- The word of a value without a reservation is nowhere. -/
theorem Filled.unneeded {set : Setting} {O : Reg → Prop} {s : Registers} {w : Nat → UInt64}
    (h : Filled set O s w m)
    (hs : s.Represents set) (hn : ∀ j, ¬ s.Has n j) (v : UInt64) :
    Filled set O s (Function.update w n v) m := by
  refine ⟨h.size, h.frame, fun {k x} hx hvalue hout => ?_, fun {k j} howns => ?_⟩
  · rw [Function.update_of_ne, h.reg hx hvalue hout]
    rintro rfl
    obtain ⟨k', j, hj, hk', -⟩ := hs.held hx (hvalue ▸ Registers.natCast_ne_none k)
    obtain rfl := Int.ofNat.inj (hvalue.symm.trans hk')
    exact hn j hj
  · rw [Function.update_of_ne, h.slot howns]
    rintro rfl
    obtain ⟨j, hj, -⟩ := howns
    exact hn j hj

/-- The code of an instruction that makes a value by one request. -/
theorem mimics_made {x : Instr} {is : List Instr} {rd : Reg} (hquiet : Quiet s s')
    (hs' : Stage job.set r l (Code.fronted P .main q) s'.alloc)
    (hrequests : requests q = x :: is) (hreal : rd.Real)
    (hdelivers : Delivers job.set s.alloc.regs s'.alloc.regs n rd is)
    (hget : job.set.buffer.insts[n]? = some i)
    (hx : ∀ e e₁ m, Env.exec .standard i e = .on e₁ → Mirrors job n s' e m → ∃ v flag,
      e₁ = Env.push { e with overflow := Option.getD flag e.overflow } v ∧
      (i.op = .imm → v = i.imm.bits) ∧
      (flag = none → s.needFlag = true → s'.needFlag = true) ∧
      x.perform HelperTable.standard.host m e.heap = .on ((m.told flag).setReg rd v) e.heap) :
    Mimics job r l n i P s s' := by
  refine ⟨hquiet, q, hs', fun e e₁ m hexec hm => ?_⟩
  obtain ⟨v, flag, rfl, himm, hflag, hperform⟩ := hx e e₁ m hexec hm
  obtain ⟨m', hperform', hfilled, hslots, hoverflow, hargs⟩ :=
    hdelivers.made hreal (recalls_meaning _ e)
    (hm.recalls hget himm).2 hm.filled hperform
  refine ⟨m', by rw [hrequests]; exact hperform',
    hm.made hget himm rfl hfilled (fun hneed => ?_) (hslots.trans hm.slots) rfl hargs⟩
  rw [hoverflow]
  cases flag with
  | none => exact hm.flag (hflag rfl hneed)
  | some o => rfl

/-- No code is needed for a value that nothing needs. -/
theorem mimics_dead (hs : Stage job.set r l P s.alloc) (hn : ∀ j, ¬ s.alloc.regs.Has n j)
    (hget : job.set.buffer.insts[n]? = some i)
    (hexec : ∀ e e₁, Env.exec .standard i e = .on e₁ → ∃ v flag,
      e₁ = Env.push { e with overflow := Option.getD flag e.overflow } v ∧
      (i.op = .imm → v = i.imm.bits) ∧
      (s.needFlag = true → flag = none)) : Mimics job r l n i P s s := by
  refine ⟨.refl s, [], (Code.fronted_nil P .main).symm ▸ hs, fun e e₁ m he hm => ?_⟩
  obtain ⟨v, flag, rfl, himm, hflag⟩ := hexec e e₁ he
  refine ⟨m, rfl, hm.made hget himm rfl (hm.filled.unneeded hs.regs hn v)
    (fun hneed => ?_) hm.slots rfl rfl⟩
  obtain rfl := hflag hneed
  exact hm.flag hneed

end

end LoopTracer.Compile
