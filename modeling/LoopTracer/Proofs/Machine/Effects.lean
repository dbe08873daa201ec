import LoopTracer.Proofs.Computation
import LoopTracer.Proofs.Machine.Performing
import LoopTracer.Proofs.Machine.RegisterSets

/-! What requests do to the machine.

A request reads and writes registers by name, and a cell of the slots or of the activation record by
its number. A call of a standard helper does what the helper does: that arguments and results of 32
bits are sign-extended on the way changes none of them. -/
namespace LoopTracer.Machine

/-- A register that the machine has. -/
def Reg.Real (r : Reg) : Prop := r.byte.toNat < 16

instance (r : Reg) : Decidable r.Real := inferInstanceAs (Decidable (_ < _))

theorem Reg.byte_inj {r r' : Reg} (h : r.byte.toNat = r'.byte.toNat) : r = r' :=
  congrArg Int8.ofUInt8 (UInt8.toNat.inj h)

namespace State

variable {m : State} {r r' : Reg} {v : UInt64}

/-- The contents of a register. -/
def reg (m : State) (r : Reg) : UInt64 := m.regs[r.byte.toNat]?.getD 0

def setReg (m : State) (r : Reg) (v : UInt64) : State :=
  { m with regs := m.regs.set! r.byte.toNat v }

/-- The overflow flag, where an operation sets it. -/
def told (m : State) (flag : Option Bool) : State := { m with overflow := flag.getD m.overflow }

def read (m : State) : Block → Nat → UInt64
  | .slots, i => m.slots[i]?.getD 0
  | .frame, i => m.frame.get i

def write (m : State) (i : Nat) (v : UInt64) : Block → State
  | .slots => { m with slots := m.slots.set! i v }
  | .frame => { m with frame := m.frame.set i v }

/-- The registers that a call destroys. -/
def destroy (m : State) : State :=
  { m with regs := virtualTarget.callerSaved.toList.foldl (fun regs r =>
    regs.set! r.byte.toNat destroyed) m.regs }

/-! ### Registers -/

@[simp] theorem setReg_overflow (m : State) (r : Reg) (v : UInt64) :
    (m.setReg r v).overflow = m.overflow := rfl

@[simp] theorem setReg_frame (m : State) (r : Reg) (v : UInt64) :
    (m.setReg r v).frame = m.frame := rfl

@[simp] theorem setReg_slots (m : State) (r : Reg) (v : UInt64) :
    (m.setReg r v).slots = m.slots := rfl

@[simp] theorem setReg_args (m : State) (r : Reg) (v : UInt64) : (m.setReg r v).args = m.args := rfl

@[simp] theorem size_setReg (m : State) (r : Reg) (v : UInt64) :
    (m.setReg r v).regs.size = m.regs.size := by
  rw [setReg, Array.set!_eq_setIfInBounds, Array.size_setIfInBounds]

@[simp] theorem told_reg (m : State) (flag : Option Bool) (r : Reg) :
    (m.told flag).reg r = m.reg r := rfl

@[simp] theorem told_regs (m : State) (flag : Option Bool) : (m.told flag).regs = m.regs := rfl

@[simp] theorem told_frame (m : State) (flag : Option Bool) : (m.told flag).frame = m.frame := rfl

@[simp] theorem told_slots (m : State) (flag : Option Bool) : (m.told flag).slots = m.slots := rfl

@[simp] theorem told_args (m : State) (flag : Option Bool) : (m.told flag).args = m.args := rfl

@[simp] theorem told_overflow (m : State) (flag : Option Bool) :
    (m.told flag).overflow = flag.getD m.overflow := rfl

@[simp] theorem write_regs (m : State) (i : Nat) (v : UInt64) (block : Block) :
    (m.write i v block).regs = m.regs := by
  cases block <;> rfl

@[simp] theorem write_overflow (m : State) (i : Nat) (v : UInt64) (block : Block) :
    (m.write i v block).overflow = m.overflow := by
  cases block <;> rfl

@[simp] theorem write_args (m : State) (i : Nat) (v : UInt64) (block : Block) :
    (m.write i v block).args = m.args := by
  cases block <;> rfl

@[simp] theorem write_reg (m : State) (i : Nat) (v : UInt64) (block : Block) (r : Reg) :
    (m.write i v block).reg r = m.reg r := by
  rw [reg, write_regs]
  rfl

theorem setReg_reg (hm : m.regs.size = 16) (hr : r.Real) (v : UInt64) (r' : Reg) :
    (m.setReg r v).reg r' = if r' = r then v else m.reg r' := by
  unfold setReg reg
  dsimp only
  rw [Array.set!_eq_setIfInBounds]
  split
  · next heq =>
    rw [heq, Array.getElem?_setIfInBounds_self_of_lt (hm ▸ hr)]
    rfl
  · next hne => rw [Array.getElem?_setIfInBounds_ne fun heq => hne (Reg.byte_inj heq.symm)]

theorem getElem?_regs (hm : m.regs.size = 16) (hr : r.Real) :
    m.regs[r.byte.toNat]? = some (m.reg r) := by
  unfold reg
  rw [Array.getElem?_eq_getElem (hm ▸ hr)]
  rfl

/-- A call leaves the other registers alone. -/
theorem destroy_reg (m : State) (hr : virtualTarget.callerSaved.contains r = false) :
    m.destroy.reg r = m.reg r := by
  have hfold : ∀ (l : List Reg) (regs : Array UInt64), r ∉ l →
      (l.foldl (fun regs r => regs.set! r.byte.toNat destroyed) regs)[r.byte.toNat]? =
          regs[r.byte.toNat]? := by
    intro l
    induction l with
    | nil => exact fun _ _ => rfl
    | cons x l ih =>
      intro regs hnot
      have hne : x.byte.toNat ≠ r.byte.toNat :=
        fun heq => hnot (by rw [Reg.byte_inj heq]; exact List.mem_cons_self)
      rw [List.foldl_cons, ih _ fun hin => hnot (List.mem_cons_of_mem x hin),
        Array.set!_eq_setIfInBounds,
        Array.getElem?_setIfInBounds_ne hne]
  unfold reg destroy
  rw [hfold _ _ fun hin => ?_]
  rw [RegSet.mem_toList.mp hin] at hr
  cases hr

@[simp] theorem size_destroy (m : State) : m.destroy.regs.size = m.regs.size := by
  have hfold : ∀ (l : List Reg) (regs : Array UInt64),
      (l.foldl (fun regs r => regs.set! r.byte.toNat destroyed) regs).size = regs.size := by
    intro l
    induction l with
    | nil => exact fun _ => rfl
    | cons x l ih =>
      intro regs
      rw [List.foldl_cons, ih, Array.set!_eq_setIfInBounds, Array.size_setIfInBounds]
  unfold destroy
  generalize virtualTarget.callerSaved.toList = l
  exact hfold l m.regs

@[simp] theorem destroy_frame (m : State) : m.destroy.frame = m.frame := by simp only [destroy]

@[simp] theorem destroy_slots (m : State) : m.destroy.slots = m.slots := by simp only [destroy]

@[simp] theorem destroy_overflow (m : State) :
    m.destroy.overflow = m.overflow := by simp only [destroy]

@[simp] theorem destroy_args (m : State) : m.destroy.args = m.args := by simp only [destroy]

/-! ### Cells -/

theorem cell_slots {disp : Int32} {i : Nat} (hdisp : disp.toInt = 8 * i) (hi : i < m.slots.size) :
    m.cell virtualTarget.stateBase.byte disp = .ok (.slots, i) := by
  unfold cell
  dsimp only
  rw [if_pos (by decide), if_neg, hdisp]
  · congr 2
    omega
  · simp only [Bool.or_eq_true, decide_eq_true_eq, bne_iff_ne]
    omega

theorem cell_frame {disp : Int32} {i : Nat} (hdisp : disp.toInt = 8 * i) (hi : i < m.frame.size) :
    m.cell virtualTarget.frameBase.byte disp = .ok (.frame, i) := by
  unfold cell
  dsimp only
  rw [if_neg (by decide), if_pos (by decide), if_neg, hdisp]
  · congr 2
    omega
  · simp only [Bool.or_eq_true, decide_eq_true_eq, bne_iff_ne]
    omega

end State

/-- The displacement of a spill slot on the portable machine. -/
theorem toInt_spillDisp {n : Int} {i : Nat} (hi : i < 2 ^ 28) :
    ((virtualTarget.limit n).spillDisp i).toInt = 8 * i := by
  have hsame : (virtualTarget.limit n).spillDisp i = 0 + Int32.ofInt i * 8 := by
    unfold Target.limit
    split <;> rfl
  rw [hsame, Int32.zero_add, Int32.toInt_mul, Int32.toInt_ofInt]
  have h8 : (8 : Int32).toInt = 8 := rfl
  have hsize : Int32.size = 2 ^ 32 := rfl
  have hsmall : (i : Int).bmod (2 ^ 32) = i := Int.bmod_eq_of_le (by omega) (by omega)
  rw [h8, hsize, hsmall, Int.bmod_eq_of_le (by omega) (by omega)]
  omega

theorem Frame.get_set (f : Frame) (i j : Nat) (v : UInt64) :
    (f.set i v).get j = if j = i then v else f.get j := by
  unfold Frame.set Frame.get
  dsimp only
  have hsize : i < (f.words ++ Array.replicate (i + 1 - f.words.size) 0).size := by simp; omega
  rw [Array.set!_eq_setIfInBounds]
  split
  · next heq =>
    rw [heq, Array.getElem?_setIfInBounds_self_of_lt hsize]
    rfl
  · next hne =>
    rw [Array.getElem?_setIfInBounds_ne (Ne.symm hne), Array.getElem?_append]
    split
    · rfl
    · next hout =>
      rw [Array.getElem?_replicate, Array.getElem?_eq_none (by omega)]
      split <;> rfl

@[simp] theorem Frame.set_size (f : Frame) (i : Nat) (v : UInt64) : (f.set i v).size = f.size := rfl

/-! ### Requests -/

namespace Instr

variable {η : Type} {host : Host η} {m : State} {env : η} {dst src x y base : Reg} {v : UInt64}
  {flag : Option Bool}

section

variable (hm : m.regs.size = 16)
include hm

theorem writing_eq (hdst : dst.Real) (v : UInt64) (pc : Int) :
    writing m env dst.byte v pc = (m.setReg dst v, env, .at pc) := if_pos (hm ▸ hdst)

theorem reading_eq (hsrc : src.Real) (k : UInt64 → Step η) :
    reading m env src.byte k = k (m.reg src) := by
  unfold reading
  rw [State.getElem?_regs hm hsrc]

theorem result_eq (hdst : dst.Real) (v : UInt64) (flag : Option Bool) (pc : Int) :
    result m env dst.byte v flag pc = ((m.told flag).setReg dst v, env, .at pc) := by
  cases flag with
  | none => exact writing_eq hm hdst v pc
  | some o => exact writing_eq (m := m.told (some o)) hm hdst v pc

/-- Moving a register to itself, which takes no code, changes nothing. -/
theorem perform_mov (hdst : dst.Real) (hsrc : src.Real) :
    perform host (.mov dst src) m env = .on (m.setReg dst (m.reg src)) env := by
  by_cases hsame : dst = src
  · subst hsame
    have hword : Virtual.word? 0 (.mov dst dst) = none := if_pos (beq_self_eq_true dst)
    have hself : m.regs.set! dst.byte.toNat (m.reg dst) = m.regs := by
      refine Array.ext (by rw [Array.set!_eq_setIfInBounds, Array.size_setIfInBounds]) fun i _ hi =>
        ?_
      rw [← Option.some_inj, ← Array.getElem?_eq_getElem, ← Array.getElem?_eq_getElem,
        Array.set!_eq_setIfInBounds]
      by_cases h : dst.byte.toNat = i
      · subst h
        rw [Array.getElem?_setIfInBounds_self_of_lt hi, State.getElem?_regs hm hdst]
      · rw [Array.getElem?_setIfInBounds_ne h]
    rw [perform_straight (i := .mov dst dst) trivial, hword, State.setReg, hself]
  · have hword : Virtual.word? 0 (.mov dst src) =
        some { op := .mov, a := dst.byte, b := src.byte } :=
      if_neg fun heq => hsame (beq_iff_eq.mp heq)
    have hstep : execute host { op := .mov, a := dst.byte, b := src.byte } 0 m env =
        (m.setReg dst (m.reg src), env, .at (0 + Virtual.wordSize)) :=
      (reading_eq hm hsrc _).trans (writing_eq hm hdst _ _)
    exact perform_word trivial hword hstep

theorem perform_movImm (hdst : dst.Real) (v : UInt64) :
    perform host (.movImm dst v) m env = .on (m.setReg dst v) env := by
  have hstep : execute host { op := .movImm, a := dst.byte, y := v } 0 m env =
      (m.setReg dst v, env, .at (0 + Virtual.wordSize)) := writing_eq hm hdst _ _
  exact perform_word trivial rfl hstep

theorem perform_load {disp : Int32} {block : Block} {i : Nat} (hdst : dst.Real)
    (hcell : m.cell base.byte disp = .ok (block, i)) :
    perform host (.load dst base disp) m env = .on (m.setReg dst (m.read block i)) env := by
  have hstep : execute host { op := .load, a := dst.byte, b := base.byte, x := disp } 0 m env =
      (m.setReg dst (m.read block i), env, .at (0 + Virtual.wordSize)) := by
    unfold execute
    dsimp only
    rw [hcell]
    cases block with
    | slots => exact writing_eq hm hdst _ _
    | frame => exact writing_eq hm hdst _ _
  exact perform_word trivial rfl hstep

theorem perform_store {disp : Int32} {block : Block} {i : Nat} (hsrc : src.Real)
    (hcell : m.cell base.byte disp = .ok (block, i)) :
    perform host (.store base disp src) m env = .on (m.write i (m.reg src) block) env := by
  have hstep : execute host { op := .store, a := base.byte, b := src.byte, x := disp } 0 m env =
      (m.write i (m.reg src) block, env, .at (0 + Virtual.wordSize)) := by
    unfold execute
    dsimp only
    rw [hcell]
    cases block with
    | slots => exact reading_eq hm hsrc _
    | frame => exact reading_eq hm hsrc _
  exact perform_word trivial rfl hstep

theorem perform_binary {op : Op} (hop : Op.ofByte op.toByte = op) (hdst : dst.Real)
    (hx : x.Real) (hy : y.Real)
    (h : op.binary? (m.reg x) (m.reg y) = some (v, flag)) :
    perform host (.binary op dst x y) m env = .on ((m.told flag).setReg dst v) env := by
  have hstep : execute host { op := .binary, a := dst.byte, b := x.byte, c := y.byte,
                              x := op.toByte.toUInt32.toInt32 } 0
      m env = ((m.told flag).setReg dst v, env, .at (0 + Virtual.wordSize)) := by
    refine (reading_eq hm hx _).trans ((reading_eq hm hy _).trans ?_)
    rw [UInt32.toUInt32_toInt32, UInt8.toUInt8_toUInt32, hop]
    dsimp only
    rw [h]
    exact result_eq hm hdst v flag _
  exact perform_word trivial rfl hstep

theorem perform_unary {op : Op} (hop : Op.ofByte op.toByte = op) (hdst : dst.Real) (hx : x.Real)
    (h : op.unary? (m.reg x) = some (v, flag)) :
    perform host (.unary op dst x) m env = .on ((m.told flag).setReg dst v) env := by
  have hstep : execute host { op := .unary, a := dst.byte, b := x.byte,
                              x := op.toByte.toUInt32.toInt32 } 0
      m env = ((m.told flag).setReg dst v, env, .at (0 + Virtual.wordSize)) := by
    refine (reading_eq hm hx _).trans ?_
    rw [UInt32.toUInt32_toInt32, UInt8.toUInt8_toUInt32, hop]
    dsimp only
    rw [h]
    exact result_eq hm hdst v flag _
  exact perform_word trivial rfl hstep

theorem perform_compare {cond : Cond} {float : Bool}
    (hcond : Cond.ofByte cond.toByte = cond) (hdst : dst.Real)
    (hx : x.Real) (hy : y.Real) :
    perform host (.compare cond float dst x y) m env =
      .on (m.setReg dst (if cond.holds float (m.reg x) (m.reg y) then 1 else 0)) env := by
  have hstep : execute host ⟨.compare, dst.byte, x.byte, y.byte, cond.toByte.toUInt32.toInt32,
    if float then 1 else 0⟩ 0
      m env = (m.setReg dst (if cond.holds float (m.reg x) (m.reg y) then 1 else 0), env,
          .at (0 + Virtual.wordSize)) := by
    refine (reading_eq hm hx _).trans ((reading_eq hm hy _).trans ?_)
    have hfloat : ((if float then 1 else 0 : UInt64) != 0) = float := by cases float <;> rfl
    rw [UInt32.toUInt32_toInt32, UInt8.toUInt8_toUInt32, hcond, hfloat]
    exact writing_eq hm hdst _ _
  exact perform_word trivial rfl hstep

theorem leaves?_zero (hx : x.Real) : m.leaves? x .zero = some (m.reg x == 0) := by
  rw [State.leaves?, State.getElem?_regs hm hx]
  rfl

theorem leaves?_nonZero (hx : x.Real) : m.leaves? x .nonZero = some (m.reg x != 0) := by
  rw [State.leaves?, State.getElem?_regs hm hx]
  rfl

end

end Instr

/-! ### Calls -/

theorem setWidth_signExtend (v : BitVec 32) : (v.signExtend 64).setWidth 32 = v := by
  ext i hi
  simp [BitVec.getElem_setWidth, BitVec.getLsbD_signExtend, hi]
  omega

theorem toUInt32_narrow32 (v : UInt64) : (narrow32 v).toUInt32 = v.toUInt32 := by
  unfold narrow32
  apply UInt32.toBitVec_inj.mp
  simpa using setWidth_signExtend _

theorem narrow32_toInt64 (n : Int32) : narrow32 n.toInt64.toUInt64 = n.toInt64.toUInt64 := by
  have h : n.toInt64.toUInt64.toUInt32.toInt32 = n := by
    apply Int32.toBitVec_inj.mp
    simpa using setWidth_signExtend _
  rw [narrow32, h]

/-- The class of an argument is read back from those of all; a call has few of them. -/
theorem class_classBits {cs : List SizeClass} (hfew : cs.length ≤ 2)
    (hknown : ∀ c ∈ cs, ∀ n, c ≠ .other n) {i : Nat}
    {c : SizeClass} (hi : cs[i]? = some c) :
    SizeClass.ofByte (((Virtual.classBits cs).toInt64.toInt >>> (2 * i)) % 4).toNat.toUInt8 =
      c := by
  match cs, hfew with
  | [], _ => cases hi
  | [a], _ =>
    have ha := hknown a (by simp)
    match i with
    | 0 =>
      cases hi
      cases c <;> first | rfl | exact absurd rfl (ha _)
    | i + 1 => cases hi
  | [a, b], _ =>
    have ha := hknown a (by simp)
    have hb := hknown b (by simp)
    match i with
    | 0 =>
      cases hi
      cases c <;> cases b <;> first | rfl | exact absurd rfl (ha _) | exact absurd rfl (hb _)
    | 1 =>
      cases hi
      cases a <;> cases c <;> first | rfl | exact absurd rfl (ha _) | exact absurd rfl (hb _)
    | i + 2 => cases hi

/-- Arguments as a call passes them. -/
def narrowed (cs : List SizeClass) (ws : List UInt64) : List UInt64 := List.zipWith narrow cs ws

/-- The arguments that a call finds in registers. -/
theorem arguments_eq {m : State} {cs : List SizeClass} {ws : List UInt64} (hfew : cs.length ≤ 2)
    (hknown : ∀ c ∈ cs, ∀ n, c ≠ .other n) (hlength : ws.length = cs.length)
    (hregs : ∀ (i : Nat) w, ws[i]? = some w → ∃ r, virtualTarget.argRegs[i]? = some r ∧
      m.regs[r.byte.toNat]? = some w) :
    (List.range cs.length).mapM (fun (i : Nat) =>
      let c : SizeClass :=
        .ofByte (((Virtual.classBits cs).toInt64.toInt >>> (2 * i)) % 4).toNat.toUInt8
      (m.argument? ((cs.length : Int) - (0 : Nat)) i).map (narrow c)) = some (narrowed cs ws) := by
  have hfound : ∀ (i : Nat) w c, ws[i]? = some w → cs[i]? = some c →
      (m.argument? ((cs.length : Int) - (0 : Nat)) i).map (narrow (SizeClass.ofByte
        (((Virtual.classBits cs).toInt64.toInt >>> (2 * i)) % 4).toNat.toUInt8)) =
            some (narrow c w) := by
    intro i w c hw hc
    have hi := (List.getElem?_eq_some_iff.mp hc).1
    obtain ⟨r, hr, hreg⟩ := hregs i w hw
    rw [class_classBits hfew hknown hc, State.argument?, if_pos (by omega), hr,
      Option.bind_some, hreg]
    rfl
  match cs, ws, hfew, hlength with
  | [], [], _, _ => rfl
  | [c], [w], _, _ =>
    have h := hfound 0 w c rfl rfl
    simp only [List.length_singleton] at h ⊢
    rw [List.range_succ, List.range_zero, List.nil_append, List.mapM_cons, h]
    rfl
  | [c, d], [w, v], _, _ =>
    have h₀ := hfound 0 w c rfl rfl
    have h₁ := hfound 1 v d rfl rfl
    simp only [List.length_cons, List.length_nil] at h₀ h₁ ⊢
    rw [List.range_succ, List.range_succ, List.range_zero, List.nil_append, List.singleton_append,
      List.mapM_cons, h₀,
      List.mapM_cons, h₁]
    rfl

end LoopTracer.Machine

namespace LoopTracer.Trace.HelperTable

open Machine

/-- A helper cannot tell its arguments from those that a call passes, and its result is passed
back as it is. -/
def Unaware (d : Helper) : Prop := ∀ (heap : StringHeap) (ws : List UInt64),
  ws.length = d.args.length →
    d.run heap (narrowed d.args ws) = d.run heap ws ∧ ∀ v heap', d.run heap ws = .ok (v, heap') →
      narrow d.ret v = v

theorem standard_unaware : ∀ d ∈ standard.helpers, Unaware d := by
  -- words that are no ints are passed as they are
  have hone : ∀ (c : SizeClass), c ≠ .int → ∀ a, narrowed [c] [a] = [a] := by
    intro c hc a
    have hne : (c == .int) = false := beq_eq_false_iff_ne.mpr hc
    simp [narrowed, narrow, hne]
  have htwo : ∀ (c : SizeClass), c ≠ .int → ∀ a b, narrowed [c, c] [a, b] = [a, b] := by
    intro c hc a b
    have hne : (c == .int) = false := beq_eq_false_iff_ne.mpr hc
    simp [narrowed, narrow, hne]
  have hsame : ∀ (c : SizeClass), c ≠ .int → ∀ v, narrow c v = v := by
    intro c hc v
    exact if_neg (by simpa using hc)
  intro d hd heap ws hlength
  simp only [standard, List.mem_toArray, List.mem_cons, List.not_mem_nil, or_false] at hd
  rcases hd with rfl | rfl | rfl | rfl | rfl | rfl | rfl | rfl | rfl
  · match ws, hlength with
    | [a, b], _ =>
      refine ⟨?_, fun v heap' h => ?_⟩
      · show Helper.intRem heap [narrow32 a, narrow32 b] = Helper.intRem heap [a, b]
        simp only [Helper.intRem, Helper.binary, toUInt32_narrow32]
      · simp only [Helper.intRem, Helper.binary] at h
        split at h
        · cases h
        · cases h
          exact narrow32_toInt64 _
  · match ws, hlength with
    | [a, b], _ => exact ⟨by rw [htwo _ (by decide)], fun v _ _ => hsame _ (by decide) v⟩
  · match ws, hlength with
    | [a, b], _ => exact ⟨by rw [htwo _ (by decide)], fun v _ _ => hsame _ (by decide) v⟩
  · match ws, hlength with
    | [a, b], _ =>
      refine ⟨by rw [htwo _ (by decide)], fun v heap' h => ?_⟩
      obtain ⟨s, -, h⟩ := answer_eq_ok h
      obtain ⟨t, -, h⟩ := answer_eq_ok h
      cases h
      split <;> rfl
  · match ws, hlength with
    | [a], _ =>
      refine ⟨by rw [hone _ (by decide)], fun v heap' h => ?_⟩
      obtain ⟨s, -, h⟩ := answer_eq_ok h
      cases h
      exact narrow32_toInt64 _
  all_goals
    match ws, hlength with
    | [a], _ => exact ⟨by rw [hone _ (by decide)], fun v _ _ => hsame _ (by decide) v⟩

/-- The description of a helper has its number. -/
theorem standard_get {id : UInt8} {d : Helper} (h : standard.get id = .ok d) :
    d ∈ standard.helpers ∧ d.id = id.toNat ∧ d.args.length ≤ 2 ∧ (∀ c ∈ d.args, ∀ n, c ≠ .other n) ∧
      ∀ n, d.ret ≠ .other n := by
  have hall : ∀ n : Fin 9,
    (standard.helpers[n.val]?.all fun d => d.id == n.val && decide (d.args.length ≤ 2) &&
      (d.ret :: d.args).all fun c => c == .int || c == .ptr || c == .float) = true := by decide
  unfold HelperTable.get at h
  split at h
  · next d' hd =>
    cases h
    have hlt : id.toNat < 9 := (Array.getElem?_eq_some_iff.mp hd).1
    have hd' := hall ⟨id.toNat, hlt⟩
    dsimp only at hd'
    rw [hd, Option.all_some, Bool.and_eq_true, Bool.and_eq_true, beq_iff_eq, decide_eq_true_eq,
      List.all_eq_true] at hd'
    have hknown : ∀ c ∈ d.ret :: d.args, ∀ n, c ≠ .other n := by
      intro c hc n hother
      have hc' := hd'.2 c hc
      rw [hother] at hc'
      cases hc'
    exact ⟨Array.mem_of_getElem? hd, hd'.1.1, hd'.1.2,
      fun c hc => hknown c (List.mem_cons_of_mem _ hc),
      hknown _ List.mem_cons_self⟩
  · cases h

theorem argRegs_real : ∀ r ∈ virtualTarget.argRegs, r.Real := by
  intro r hr
  have hall : (virtualTarget.argRegs.all fun r => decide r.Real) = true := by decide
  exact of_decide_eq_true (List.all_eq_true.mp hall r hr)

/-- A call of a standard helper whose arguments are in their registers. -/
theorem perform_call {m : State} {id : UInt8} {d : Helper} {spec : CallSpec}
    {ws : List UInt64} {v : UInt64}
    {heap heap' : StringHeap} (hm : m.regs.size = 16) (hargs : m.args = #[])
    (hget : standard.get id = .ok d)
    (hspec : standard.spec id = .ok spec) (hlength : ws.length = d.args.length)
    (hregs : ∀ (i : Nat) w, ws[i]? = some w → ∃ r, virtualTarget.argRegs[i]? = some r ∧ m.reg r = w)
    (hinvoke : standard.invoke heap id ws = .ok (v, heap')) :
    Instr.perform standard.host (.call spec) m heap =
      .on (m.destroy.setReg virtualTarget.retReg v) heap' := by
  obtain ⟨hmem, hid, hfew, hknown, hknown'⟩ := standard_get hget
  obtain ⟨hrun, hret⟩ := standard_unaware d hmem heap ws hlength
  have hinvoked : ∀ ws, standard.invoke heap id ws = d.run heap ws := by
    intro ws
    unfold HelperTable.invoke
    rw [hget]
    rfl
  obtain rfl : spec = { index := Int32.ofNat d.id, address := d.address,
                        args := d.args, ret := d.ret } := by
    unfold HelperTable.spec at hspec
    rw [hget] at hspec
    exact (Except.ok.inj hspec).symm
  rw [hinvoked] at hinvoke
  have hindex : (Int32.ofNat d.id).toUInt32.toUInt8 = id := by
    rw [hid]
    apply UInt8.toNat.inj
    have := id.toNat_lt
    simp
  let w : Virtual.Word :=
    { op := .call, a := d.args.length.toUInt8, b := d.ret.toByte, c := 0, x := Int32.ofNat d.id,
                            y := Virtual.classBits d.args }
  have hword : Virtual.word? 0
    (.call { index := Int32.ofNat d.id, address := d.address, args := d.args, ret := d.ret }) =
      some w := by
    have hstack : CallSpec.stackArgs { index := Int32.ofNat d.id, address := d.address,
                                       args := d.args, ret := d.ret }
        virtualTarget = 0 := Nat.sub_eq_zero_of_le (Nat.le_trans hfew (by decide))
    show some _ = some _
    rw [hstack]
    rfl
  have hcount : d.args.length.toUInt8.toNat = d.args.length :=
    UInt8.toNat_ofNat_of_lt' (show _ < 2 ^ 8 by omega)
  have hret' : SizeClass.ofByte d.ret.toByte = d.ret := by
    cases hc : d.ret with
    | other n => exact absurd hc (hknown' n)
    | _ => rfl
  have harguments := arguments_eq (m := m) hfew hknown hlength fun i w hw => by
    obtain ⟨r, hr, hreg⟩ := hregs i w hw
    have hreal : r.Real := argRegs_real r (List.mem_of_getElem? hr)
    exact ⟨r, hr, by rw [State.getElem?_regs hm hreal, hreg]⟩
  have hstep : execute standard.host w 0 m heap =
      (m.destroy.setReg virtualTarget.retReg v, heap', .at (0 + Virtual.wordSize)) := by
    show callHelper standard.host m heap d.args.length.toUInt8.toNat (.ofByte d.ret.toByte) 0
      (Int32.ofNat d.id)
      (Virtual.classBits d.args) _ = _
    rw [hcount, hret']
    unfold callHelper HelperTable.host
    dsimp only
    rw [if_neg (Nat.not_lt_zero _), harguments]
    dsimp only
    rw [hindex, hinvoked, hrun, hinvoke]
    dsimp only
    rw [hret v heap' hinvoke]
    simp only [State.destroy, State.setReg, hargs, Array.extract_empty]
  exact Instr.perform_word trivial hword hstep

end LoopTracer.Trace.HelperTable
