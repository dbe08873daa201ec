import LoopTracer.Proofs.Compile.Completion
import LoopTracer.Proofs.Compile.Mirroring

/-! Instructions and their code.

Every instruction but guards and jumps is translated into code that does the same
(`generate_mimics`): its operands are put into registers, its result is made in one and stored if
the value was spilled. -/
namespace LoopTracer.Compile

open Machine Trace

/-- An operation gives the flag exactly if it is one that sets it. -/
theorem compute?_flag {op : TraceOp} {a b v : UInt64} {flag : Option Bool}
    (h : op.compute? a b = some (v, flag)) :
    flag.isSome = op.setsOverflow := by
  cases op <;> cases h <;> rfl

/-- Instruction `n` of a trace that is compiled refers to what stands before it and has its
operands. What it refers to may be without a value: then the word is zero. -/
structure Job.Reads (job : Job) (n : Nat) (i : Inst) : Prop where
  get : job.set.buffer.insts[n]? = some i
  known : ∀ m, i.op ≠ .other m
  uses : ∀ ref ∈ i.operands ++ i.snapshotRefs, 0 ≤ ref ∧ ref < n
  supplied : i.Supplied

namespace Job.Reads

variable {job : Job} {n : Nat} {i : Inst} (h : job.Reads n i)
include h

theorem size : n < job.set.buffer.size := (Array.getElem?_eq_some_iff.mp h.get).1

theorem first (hop : i.op.readsFirst = true) : 0 ≤ i.a ∧ i.a < n := by
  have hne : i.a ≠ Ref.none := fun heq => absurd (heq ▸ h.supplied.first hop) (by decide)
  exact h.uses _ (by simp [Inst.operands, hne])

theorem second (hop : i.op.readsSecond = true) : 0 ≤ i.b ∧ i.b < n := by
  have hne : i.b ≠ Ref.none := fun heq => absurd (heq ▸ h.supplied.second hop) (by decide)
  exact h.uses _ (by simp [Inst.operands, hne])

end Job.Reads

/-- A job that can be done for the portable machine. -/
structure Job.Ready (job : Job) (r : CodePages) : Prop where
  laid : r.Laid
  page : 1024 ≤ r.pageSize
  same : job.set.backend = job.limits.backend
  portable : job.set.Portable
  helpers : job.helpers = .standard

/-- One request makes the word of instruction `n`, and the rest of its code keeps the word and makes
up for changes. -/
def Computes (job : Job) (r : CodePages) (l : List Nat) (n : Nat) (i : Inst) (P : Side → List Piece)
    (s s' : Assembler) : Prop :=
  ∃ (q : List Piece) (x : Instr) (is : List Instr) (rd : Reg),
    Stage job.set r l (Code.fronted P .main q) s'.alloc ∧
    requests q = x :: is ∧ rd.Real ∧
    Delivers job.set s.alloc.regs s'.alloc.regs n rd is ∧
    ∀ e e₁ m, Env.exec .standard i e = .on e₁ → Mirrors job n s' e m → ∃ v flag,
      e₁ = Env.push { e with overflow := Option.getD flag e.overflow } v ∧
        (i.op = .imm → v = i.imm.bits) ∧
      (flag = none → i.op.setsOverflow = false) ∧
      x.perform HelperTable.standard.host m e.heap = .on ((m.told flag).setReg rd v) e.heap

theorem Computes.mimics {job : Job} {r : CodePages} {l : List Nat} {n : Nat} {i : Inst}
    {P : Side → List Piece}
    {s s₁ s' : Assembler} {q₁ : List Piece}
    (h : Computes job r l n i (Code.fronted P .main q₁) s₁ s')
    (hrestores : Restores job.set (fun _ => False)
      (fun _ => False) s.alloc.regs s₁.alloc.regs (requests q₁))
    (hget : job.set.buffer.insts[n]? = some i) (hquiet : Quiet s s')
    (hflag : i.op.setsOverflow = false → s.needFlag = true → s'.needFlag = true) :
    Mimics job r l n i P s s' := by
  obtain ⟨q, x, is, rd, hs', hrequests, hreal, hdelivers, hperform⟩ := h
  rw [Code.fronted_fronted] at hs'
  refine mimics_made (x := x) hquiet hs' ?_ hreal (hdelivers.after hrestores) hget
    fun e e₁ m hexec hm => ?_
  · rw [requests_append, hrequests]
    rfl
  · obtain ⟨v, flag, he, himm, hnone, hx⟩ := hperform e e₁ m hexec hm
    exact ⟨v, flag, he, himm, fun hflag' => hflag (hnone hflag'), hx⟩

namespace Assembler

variable {α : Type} {job : Job} {r : CodePages} {l : List Nat} {n : Nat} {i : Inst}
  {P : Side → List Piece}
  {s : Assembler} {K O : Reg → Prop}

theorem allocating_ensures {x : Allocating α} {Q : α → Allocation → Prop}
    (hx : Ensures Anyhow x s.alloc Q) :
    Ensures Anyhow (allocating x) s fun a s' =>
    s' = { s with alloc := s'.alloc } ∧ Q a s'.alloc := by
  cases h : x s.alloc with
  | ok a alloc =>
    have heq : allocating x s = .ok a { s with alloc } := by simp only [allocating, h]
    exact (ensures_ok heq).mpr ⟨rfl, (ensures_ok h).mp hx⟩
  | error e alloc =>
    have heq : allocating x s = .error e { s with alloc } := by simp only [allocating, h]
    exact (ensures_error heq).mpr trivial

/-- Nothing is said of a computation that is stopped. -/
theorem stopped {β : Type} {e : CompileStop} {f : α → Assembling β} {Q : β → Assembler → Prop} :
    Ensures Anyhow ((throw e : Assembling α) >>= f) s Q :=
  .bind (Q := fun _ _ => False) (.throw trivial) fun _ _ => False.elim

/-- A computation that begins with an answer, if there is one. -/
theorem answer_bind {β γ : Type} {y : Except Fault γ} {f : γ → Assembling β}
    {Q : β → Assembler → Prop}
    (hf : ∀ a, y = .ok a → Ensures Anyhow (f a) s Q) : Ensures Anyhow (liftFault y >>= f) s Q := by
  cases y with
  | ok a => exact .pure_bind (hf a rfl)
  | error e => exact stopped

/-- The register of a value is looked up. -/
theorem regOf_ensures (ref : Ref) :
    Ensures Anyhow (regOf ref) s fun x s' => s' = s ∧ s.alloc.regs.regOf ref = .ok x := by
  unfold regOf
  refine .get ?_
  cases h : s.alloc.regs.regOf ref with
  | ok x => exact .pure ⟨rfl, rfl⟩
  | error e => exact .throw trivial

theorem operandRegs_ensures (i : Inst) : Ensures Anyhow (operandRegs i) s fun _ s' => s' = s := by
  have hstep : ∀ (set : RegSet) (ref : Ref), Ensures Anyhow (do
      if ref = Ref.none then return set
      return set.insert (← regOf ref) : Assembling RegSet) s fun _ s' => s' = s := by
    intro set ref
    split
    · exact .pure rfl
    · exact (regOf_ensures ref).bind fun _ _ h => .pure h.1
  unfold operandRegs
  simp only [List.foldlM_cons, List.foldlM_nil]
  refine (hstep ∅ i.a).bind fun set s₁ h₁ => ?_
  subst h₁
  exact (hstep set i.b).bind fun _ _ h₂ => .pure h₂

section

variable (hj : job.Ready r)
include hj

/-- A request comes in front of the main code. -/
theorem emit_main (hs : Stage job.set r l P s.alloc) (x : Instr) :
    Ensures Anyhow (emit job .main x) s fun _ s' =>
    s' = { s with alloc := s'.alloc } ∧ s'.alloc.regs = s.alloc.regs ∧
      ∃ q, requests q = [x] ∧ Stage job.set r l (Code.fronted P .main q) s'.alloc := by
  have hemit := Allocation.emit_stage hj.laid hj.page hs x
  rw [Allocation.emit, hj.same] at hemit
  exact allocating_ensures hemit

theorem regFor_ensures (hs : Stage job.set r l P s.alloc) (ref : Ref) (avoid : RegSet)
    (hkept : ∀ x, K x → avoid.contains x = true ∨ s.alloc.regs.valueIn x = Ref.none) :
    Ensures Anyhow (allocating (Allocation.regFor job.set ref avoid)) s fun x s' =>
    s' = { s with alloc := s'.alloc } ∧
      ∃ q, Stage job.set r l (Code.fronted P .main q) s'.alloc ∧
        Restores job.set K O s.alloc.regs s'.alloc.regs (requests q) ∧
        job.set.target.allocatable.contains x = true ∧ 0 ≤ ref ∧
        (avoid.contains x = true → s.alloc.regs.valueIn x = ref) ∧
        ∀ y, y.Valid → s'.alloc.regs.valueIn y = if y = x then ref else s.alloc.regs.valueIn y :=
  allocating_ensures (Allocation.regFor_works hj.laid hj.page hj.portable hs ref hkept)

/-- Two operands are in registers; no register that held nothing is written. -/
theorem operands_ensures (hs : Stage job.set r l P s.alloc) (a b : Ref)
    (hkept : ∀ x, K x → x.Valid ∧ s.alloc.regs.valueIn x = Ref.none) :
    Ensures Anyhow (operands job a b) s fun x s' => s' = { s with alloc := s'.alloc } ∧
      ∃ q, Stage job.set r l (Code.fronted P .main q) s'.alloc ∧
        Restores job.set K O s.alloc.regs s'.alloc.regs (requests q) ∧
        job.set.target.allocatable.contains x.1 = true ∧
        job.set.target.allocatable.contains x.2 = true ∧
        0 ≤ a ∧ 0 ≤ b ∧ s'.alloc.regs.valueIn x.1 = a ∧ s'.alloc.regs.valueIn x.2 = b := by
  unfold operands
  split
  · next heq =>
    subst heq
    refine (regFor_ensures hj hs a ∅ (O := O) (fun x hx => .inr (hkept x hx).2)).bind
      fun x s₁ ⟨hsame, q, hs₁, hrestores, halloc, ha, _, hvalue⟩ =>
        .pure ⟨hsame, q, hs₁, hrestores, halloc, halloc, ha, ha, ?_⟩
    have hin := hvalue x (RegSet.contains_valid halloc)
    rw [if_pos rfl] at hin
    exact ⟨hin, hin⟩
  · next hne =>
    refine (regOf_ensures b).bind fun y s₀ ⟨h₀, _⟩ => ?_
    subst h₀
    refine (regFor_ensures hj hs a _ (O := O) (fun x hx => .inr (hkept x hx).2)).bind
      fun x s₁ ⟨hsame₁, q₁, hs₁, hrestores₁, hx, ha, _, hvalue₁⟩ => ?_
    have hvalid := RegSet.contains_valid hx
    refine (regFor_ensures hj hs₁ b (RegSet.ofList [x]) (K := K) (O := O) fun z hz => ?_).bind
      fun y s₂ ⟨hsame₂, q₂, hs₂, hrestores₂, hy, hb, hout, hvalue₂⟩ => .pure ?_
    · obtain ⟨hz, hnone⟩ := hkept z hz
      rw [hvalue₁ z hz]
      split
      · next heq => exact .inl (RegSet.contains_ofList.mpr ⟨List.mem_singleton.mpr heq, hz⟩)
      · exact .inr hnone
    · have hvalid' := RegSet.contains_valid hy
      -- the first operand stays where it is
      have hother : x ≠ y := by
        rintro rfl
        have hin := hout (RegSet.contains_ofList.mpr ⟨List.mem_singleton_self x, hvalid⟩)
        rw [hvalue₁ x hvalid, if_pos rfl] at hin
        exact hne hin
      refine ⟨by rw [hsame₂, hsame₁], q₂ ++ q₁, ?_, ?_, hx, hy, ha, hb, ?_, ?_⟩
      · rwa [Code.fronted_fronted] at hs₂
      · rw [requests_append]
        exact hrestores₁.trans hrestores₂
      · rw [hvalue₂ x hvalid, if_neg hother, hvalue₁ x hvalid, if_pos rfl]
      · rw [hvalue₂ y hvalid', if_pos rfl]

/-- The register for the result of an instruction. -/
theorem result_ensures (hs : Stage job.set r l P s.alloc) (n : Nat) (avoid : RegSet) :
    Ensures Anyhow (allocating (Allocation.resultReg job.set n avoid)) s fun x s' =>
    s' = { s with alloc := s'.alloc } ∧
      ∃ q, Stage job.set r l (Code.fronted P .main q) s'.alloc ∧
        Delivers job.set s.alloc.regs s'.alloc.regs n x (requests q) ∧
        job.set.target.allocatable.contains x = true ∧ s'.alloc.regs.valueIn x = Ref.none := by
  have hresult := Allocation.resultReg_delivers hj.laid hj.page hj.portable hs n avoid
  exact (allocating_ensures hresult).mono fun x s' ⟨hsame, q, hs', hdelivers, hx, hfree, _⟩ =>
    ⟨hsame, q, hs', hdelivers, hx, hfree⟩

/-! ### Results -/

omit hj in
/-- What an operation computes from its operands in registers, its result is made of. -/
theorem compute_exec (hop : i.op.computes = true) {e e₁ : Env}
    (hexec : Env.exec .standard i e = .on e₁) :
    ∃ v flag, i.op.compute? (e.word i.a) (e.word i.b) = some (v, flag) ∧
      e₁ = Env.push { e with overflow := Option.getD flag e.overflow } v ∧ i.op ≠ .imm ∧
      (flag = none → i.op.setsOverflow = false) := by
  rw [Env.exec_compute hop] at hexec
  cases hcompute : i.op.compute? (e.word i.a) (e.word i.b) with
  | none =>
    rw [hcompute] at hexec
    cases hexec
  | some x =>
    rw [hcompute] at hexec
    cases hexec
    refine ⟨x.1, x.2, rfl, rfl, ?_, fun hnone => ?_⟩
    · intro himm
      rw [himm] at hop
      cases hop
    · rw [← compute?_flag hcompute, hnone]
      rfl

/-- Code for an operation on two operands. -/
theorem pair_computes (hs : Stage job.set r l P s.alloc) (hi : job.Reads n i)
    (hop : i.op.computes = true)
    (hsecond : i.op.readsSecond = true) {f : Reg → Reg → Reg → Instr}
    (hf : ∀ {x y z : Reg} {m : State} {v : UInt64} {flag : Option Bool} (heap : StringHeap),
      x.Real → y.Real → z.Real →
      m.regs.size = 16 → i.op.compute? (m.reg y) (m.reg z) = some (v, flag) →
      (f x y z).perform HelperTable.standard.host m heap = .on ((m.told flag).setReg x v) heap) :
    Ensures Anyhow (do
      let rd ← allocating (Allocation.resultReg job.set n (← operandRegs i))
      let (ra, rb) ← operands job i.a i.b
      emit job .main (f rd ra rb)) s fun _ s' => s' = { s with alloc := s'.alloc } ∧
          Computes job r l n i P s s' := by
  have hfirst : i.op.readsFirst = true := by
    unfold TraceOp.readsFirst
    rw [hop]
    rfl
  refine (operandRegs_ensures i).bind fun avoid s₀ h₀ => ?_
  subst h₀
  refine (result_ensures hj hs n avoid).bind fun rd s₁ ⟨hsame₁, q₁, hs₁, hdelivers, hrd, hfree⟩ =>
    ?_
  have hvalid := RegSet.contains_valid hrd
  refine (operands_ensures hj hs₁ i.a i.b (K := (· = rd)) (O := (· = rd)) fun x hx =>
    hx ▸ ⟨hvalid, hfree⟩).bind
    fun (ra, rb) s₂ ⟨hsame₂, q₂, hs₂, hrestores, hra, hrb, _, _, ha, hb⟩ => ?_
  refine (emit_main hj hs₂ (f rd ra rb)).mono fun _ s' ⟨hsame', hregs, q, hrequests, hs'⟩ => ?_
  have hreal := fun {x} hx => (hj.portable.real (r := x) hx).1
  refine ⟨by rw [hsame', hsame₂, hsame₁], q ++ (q₂ ++ q₁), f rd ra rb, requests q₂ ++ requests q₁,
    rd, ?_, ?_, hreal hrd, ?_,
    fun e e₁ m hexec hm => ?_⟩
  · simpa only [Code.fronted_fronted, List.append_assoc] using hs'
  · rw [requests_append, requests_append, hrequests]
    rfl
  · rw [hregs]
    exact hdelivers.before hrestores
  · obtain ⟨v, flag, hcompute, rfl, himm, hflag⟩ := compute_exec hop hexec
    rw [← hregs] at ha hb
    have hwa := hm.reg (RegSet.contains_valid hra) (hi.first hfirst).1 (hi.first hfirst).2 ha
    have hwb := hm.reg (RegSet.contains_valid hrb) (hi.second hsecond).1 (hi.second hsecond).2 hb
    refine ⟨v, flag, rfl, fun h => absurd h himm, hflag,
      hf e.heap (hreal hrd) (hreal hra) (hreal hrb) hm.filled.size ?_⟩
    rw [hwa, hwb, hcompute]

/-- Code for whatever computes a value. -/
theorem compute_computes (hs : Stage job.set r l P s.alloc) (hi : job.Reads n i)
    (hop : i.op.computes = true) :
    Ensures Anyhow (match i.op.binary?, i.op.unary?, i.op.compare? with
      | some m, _, _ => do
        let rd ← allocating (Allocation.resultReg job.set n (← operandRegs i))
        let (ra, rb) ← operands job i.a i.b
        emit job .main (.binary m rd ra rb)
      | _, some m, _ => do
        let rd ← allocating (Allocation.resultReg job.set n (← operandRegs i))
        let ra ← allocating (Allocation.regFor job.set i.a ∅)
        emit job .main (.unary m rd ra)
      | _, _, some (c, float) => do
        let rd ← allocating (Allocation.resultReg job.set n (← operandRegs i))
        let (ra, rb) ← operands job i.a i.b
        emit job .main (.compare c float rd ra rb)
      | _, _, _ => throw (.fault (.cannotAssemble i.op.name)) : Assembling Unit) s
      fun _ s' => s' = { s with alloc := s'.alloc } ∧ Computes job r l n i P s s' := by
  have hfirst : i.op.readsFirst = true := by
    unfold TraceOp.readsFirst
    rw [hop]
    rfl
  split
  · next o ho =>
    have hsecond : i.op.readsSecond = true := by
      unfold TraceOp.readsSecond
      rw [ho]
      rfl
    have hknown : Op.ofByte o.toByte = o ∧ ∀ a b, i.op.compute? a b = o.binary? a b := by
      cases hop' : i.op <;> rw [hop'] at ho <;> cases ho <;> exact ⟨rfl, fun _ _ => rfl⟩
    refine pair_computes hj hs hi hop hsecond fun heap hx hy hz hm hcompute => ?_
    rw [hknown.2] at hcompute
    exact Instr.perform_binary hm hknown.1 hx hy hz hcompute
  · next o ho _ =>
    have hknown : Op.ofByte o.toByte = o ∧ ∀ a b, i.op.compute? a b = o.unary? a := by
      cases hop' : i.op <;> rw [hop'] at ho <;> cases ho <;> exact ⟨rfl, fun _ _ => rfl⟩
    refine (operandRegs_ensures i).bind fun avoid s₀ h₀ => ?_
    subst h₀
    refine (result_ensures hj hs n avoid).bind fun rd s₁ ⟨hsame₁, q₁, hs₁, hdelivers, hrd, hfree⟩ =>
      ?_
    refine (regFor_ensures hj hs₁ i.a ∅ (K := (· = rd)) (O := (· = rd)) fun x hx =>
      .inr (hx ▸ hfree)).bind
      fun ra s₂ ⟨hsame₂, q₂, hs₂, hrestores, hra, _, _, hvalue⟩ => ?_
    refine (emit_main hj hs₂ (.unary o rd ra)).mono fun _ s' ⟨hsame', hregs, q, hrequests, hs'⟩ =>
      ?_
    have hreal := fun {x} hx => (hj.portable.real (r := x) hx).1
    refine ⟨by rw [hsame', hsame₂, hsame₁], q ++ (q₂ ++ q₁), .unary o rd ra,
      requests q₂ ++ requests q₁, rd, ?_, ?_,
      hreal hrd, ?_, fun e e₁ m hexec hm => ?_⟩
    · simpa only [Code.fronted_fronted, List.append_assoc] using hs'
    · rw [requests_append, requests_append, hrequests]
      rfl
    · rw [hregs]
      exact hdelivers.before hrestores
    · obtain ⟨v, flag, hcompute, rfl, himm, hflag⟩ := compute_exec hop hexec
      have ha := hvalue ra (RegSet.contains_valid hra)
      rw [if_pos rfl, ← hregs] at ha
      have hwa := hm.reg (RegSet.contains_valid hra) (hi.first hfirst).1 (hi.first hfirst).2 ha
      refine ⟨v, flag, rfl, fun h => absurd h himm, hflag,
        Instr.perform_unary hm.filled.size hknown.1 (hreal hrd) (hreal hra) ?_⟩
      rw [hwa, ← hknown.2 _ (e.word i.b), hcompute]
  · next c float ho _ _ =>
    have hsecond : i.op.readsSecond = true := by
      unfold TraceOp.readsSecond
      rw [ho, Bool.or_eq_true]
      exact .inr rfl
    have hknown : Cond.ofByte c.toByte = c ∧
        ∀ a b, i.op.compute? a b = some (if c.holds float a b then 1 else 0, none) := by
      cases hop' : i.op <;> rw [hop'] at ho <;> cases ho <;> exact ⟨rfl, fun _ _ => rfl⟩
    refine pair_computes hj hs hi hop hsecond fun heap hx hy hz hm hcompute => ?_
    rw [hknown.2] at hcompute
    cases hcompute
    exact Instr.perform_compare hm hknown.1 hx hy hz
  · exact .throw trivial

/-- Code that reads a slot. -/
theorem param_computes (hs : Stage job.set r l P s.alloc) (hi : job.Reads n i)
    (hop : i.op = .param) :
    Ensures Anyhow (do
      let rd ← allocating (Allocation.resultReg job.set n ∅)
      emit job .main (.load rd job.set.target.stateBase i.slot.byte)) s
      fun _ s' => s' = { s with alloc := s'.alloc } ∧ Computes job r l n i P s s' := by
  refine (result_ensures hj hs n ∅).bind fun rd s₁ ⟨hsame₁, q₁, hs₁, hdelivers, hrd, _⟩ => ?_
  refine (emit_main hj hs₁ (.load rd job.set.target.stateBase i.slot.byte)).mono fun _ s' ⟨hsame',
    hregs, q, hrequests, hs'⟩ => ?_
  have hreal := (hj.portable.real hrd).1
  refine ⟨by rw [hsame', hsame₁], q ++ q₁, .load rd job.set.target.stateBase i.slot.byte,
    requests q₁, rd, ?_, ?_, hreal,
    by rw [hregs]; exact hdelivers, fun e e₁ m hexec hm => ?_⟩
  · rwa [Code.fronted_fronted] at hs'
  · rw [requests_append, hrequests]
    rfl
  · obtain ⟨k, hk, hbyte, hslot⟩ := ((hm.room hi.get).slot (.inl hop)).slot
    unfold Env.exec at hexec
    rw [hop] at hexec
    cases hexec
    refine ⟨_, none, rfl, fun h => (by rw [hop] at h; cases h), fun _ => by rw [hop]; rfl, ?_⟩
    rw [hslot, ← hm.slots, hj.portable.stateBase]
    exact Instr.perform_load hm.filled.size hreal
      (State.cell_slots hbyte (by rw [hm.slots]; exact hk))

/-- Code that makes a constant. -/
theorem imm_computes (hs : Stage job.set r l P s.alloc) (hop : i.op = .imm) :
    Ensures Anyhow (do
      let rd ← allocating (Allocation.resultReg job.set n ∅)
      emit job .main (.movImm rd i.imm.bits)) s
      fun _ s' => s' = { s with alloc := s'.alloc } ∧ Computes job r l n i P s s' := by
  refine (result_ensures hj hs n ∅).bind fun rd s₁ ⟨hsame₁, q₁, hs₁, hdelivers, hrd, _⟩ => ?_
  refine (emit_main hj hs₁ (.movImm rd i.imm.bits)).mono fun _ s' ⟨hsame', hregs,
    q, hrequests, hs'⟩ => ?_
  have hreal := (hj.portable.real hrd).1
  refine ⟨by rw [hsame', hsame₁], q ++ q₁, .movImm rd i.imm.bits, requests q₁, rd, ?_, ?_, hreal,
    by rw [hregs]; exact hdelivers, fun e e₁ m hexec hm => ?_⟩
  · rwa [Code.fronted_fronted] at hs'
  · rw [requests_append, hrequests]
    rfl
  · unfold Env.exec at hexec
    rw [hop] at hexec
    cases hexec
    exact ⟨_, none, rfl, fun _ => rfl, fun _ => by rw [hop]; rfl,
      Instr.perform_movImm hm.filled.size hreal _⟩

/-! ### Stores -/

/-- Code that writes a slot. -/
theorem store_mimics (hs : Stage job.set r l P s.alloc) (hi : job.Reads n i) (hop : i.op = .store) :
    Ensures Anyhow (do
      let x ← allocating (Allocation.regFor job.set i.a ∅)
      emit job .main (.store job.set.target.stateBase i.slot.byte x)) s fun _ s' =>
        Mimics job r l n i P s s' := by
  refine (regFor_ensures hj hs i.a ∅ (K := fun _ => False) (O := fun _ => False) nofun).bind
    fun x s₁ ⟨hsame₁, q₁, hs₁, hrestores, hx, _, _, hvalue⟩ => ?_
  refine (emit_main hj hs₁ _).mono fun _ s' ⟨hsame', hregs, q, hrequests, hs'⟩ => ?_
  have hsame : s' = { s with alloc := s'.alloc } := by rw [hsame', hsame₁]
  have hreal := (hj.portable.real hx).1
  refine ⟨.allocating hsame, q ++ q₁, by rwa [Code.fronted_fronted] at hs',
    fun e e₁ m hexec hm => ?_⟩
  obtain ⟨k, hk, hbyte, hslot⟩ := ((hm.room hi.get).slot (.inr hop)).slot
  unfold Env.exec at hexec
  rw [hop] at hexec
  cases hexec
  have hread := hi.first (by rw [hop]; rfl)
  have hin := hvalue x (RegSet.contains_valid hx)
  rw [if_pos rfl, ← hregs] at hin
  have hword := hm.reg (RegSet.contains_valid hx) hread.1 hread.2 hin
  have hroom : k < m.slots.size := by
    rw [hm.slots]
    exact hk
  have hperform : Instr.perform HelperTable.standard.host
    (.store job.set.target.stateBase i.slot.byte x) m e.heap =
      .on (m.write k (e.word i.a) .slots) e.heap := by
    rw [hj.portable.stateBase, ← hword]
    exact Instr.perform_store hm.filled.size hreal (State.cell_slots hbyte hroom)
  have hwritten : Filled job.set (fun _ => False) s₁.alloc.regs (meaning job.set.buffer e)
      (m.write k (e.word i.a) .slots) := by
    rw [← hregs]
    exact ⟨by simp [hm.filled.size], hm.filled.frame,
      fun hy hk hout => (State.write_reg ..).trans (hm.filled.reg hy hk hout),
      hm.filled.slot⟩
  obtain ⟨m', hperform', hm', halike, -⟩ := hrestores _ _ e.heap (recalls_meaning _ e) hwritten
  refine ⟨m', ?_, hm.passed hi.get (by rw [hop]; nofun) rfl hm' (fun hneed => ?_) ?_ ?_ halike.args⟩
  · rw [requests_append, hrequests, List.singleton_append, performAll_cons hperform, hperform']
    rfl
  · refine halike.overflow.trans (hm.flag ?_)
    rw [hsame]
    exact hneed
  · rw [halike.slots, hslot]
    show m.slots.set! k _ = e.slots.set! k _
    rw [hm.slots]
  · show (e.slots.set! _ _).size = _
    rw [Array.set!_eq_setIfInBounds, Array.size_setIfInBounds]

end

end Assembler

end LoopTracer.Compile
