import LoopTracer.Machine.Backend
import LoopTracer.Proofs.Machine.Memory
import LoopTracer.Trace.Inst

/-! The lengths of requests.

No request takes more bytes than its back end says (`length_encode`), and whatever the assembler
asks for can be encoded (`known_writable`). -/
namespace LoopTracer.Machine

open Trace

/-- A request that can be written anywhere, in the bytes that a back end allows for. -/
def Writable (b : Backend) (i : Instr) : Prop :=
  ∀ pos, ∃ bytes, b.encode pos i = .ok bytes ∧ bytes.length ≤ b.maxLength

/-- An operation of a request comes from an instruction with as many operands. -/
def Instr.Known : Instr → Prop
  | .binary op _ _ _ => ∃ o : TraceOp, o.binary? = some op
  | .unary op _ _ => ∃ o : TraceOp, o.unary? = some op
  | _ => True

namespace X64

variable (r r' : Reg)

theorem length_int32Bytes (n : Int32) : (int32Bytes n).length = 4 := length_littleEndian _ _

theorem length_movRR : (movRR r r').length ≤ 3 := by
  unfold movRR
  split <;> simp

theorem length_optRex : (optRex r r').length ≤ 1 := by
  unfold optRex
  split <;> simp

theorem length_memory (reg : UInt8) (base : Reg) (disp : Int32) :
    (memory reg base disp).length ≤ 6 := by
  unfold memory
  dsimp only
  repeat' split
  all_goals simp [length_int32Bytes]

theorem length_loadImm (v : UInt64) : (loadImm r v).length ≤ 10 := by
  have := length_optRex 0 r
  unfold loadImm
  repeat' split
  all_goals simp only [List.length_append, List.length_cons, List.length_nil, length_littleEndian]
  all_goals omega

theorem length_pushReg : (pushReg r).length ≤ 2 := by
  unfold pushReg
  split <;> simp

theorem length_adjustStack (ext : UInt8) (n : Int32) : (adjustStack ext n).length ≤ 7 := by
  unfold adjustStack
  split <;> simp [length_int32Bytes]

theorem length_flatMap_le {α β : Type} {f : α → List β} {k : Nat}
    (hf : ∀ a, (f a).length ≤ k) (l : List α) :
    (l.flatMap f).length ≤ k * l.length := by
  induction l with
  | nil => simp
  | cons a l ih =>
    have := hf a
    rw [List.flatMap_cons, List.length_append, List.length_cons, Nat.mul_succ]
    omega

theorem length_arrange (op : Op) (dst x y : Reg) : (arrange op dst x y).1.length ≤ 6 := by
  have := length_movRR x64Target.scratch y
  have := length_movRR dst x
  unfold arrange
  repeat' split
  all_goals simp only [List.length_append, List.length_nil]
  all_goals omega

theorem length_alu32 (opcode : UInt8) : (alu32 opcode r r').length ≤ 3 := by
  have := length_optRex r' r
  unfold alu32
  simp only [List.length_append, List.length_cons, List.length_nil]
  omega

theorem length_imul (wide : Bool) : (imul wide r r').length ≤ 4 := by
  have := length_optRex r r'
  unfold imul
  split <;> simp only [List.length_append, List.length_cons, List.length_nil] <;> omega

theorem length_binary {op : Op} {dst x y : Reg} {bytes : List UInt8}
    (h : binary op dst x y = .ok bytes) :
    bytes.length ≤ maxLength := by
  have hmoves := length_arrange op dst x y
  unfold binary at h
  generalize arrange op dst x y = arranged at hmoves h
  obtain ⟨moves, src⟩ := arranged
  have hwide := length_imul dst src true
  have hnarrow := length_imul dst src false
  have hadd := length_alu32 dst src 0x01
  have hsub := length_alu32 dst src 0x29
  dsimp only at hmoves
  cases op
  all_goals cases h
  all_goals simp only [List.length_append, movqToXmm, movqFromXmm, sse, shiftx, movsxd, alu,
    Op.setsOverflow, maxLength,
    List.length_cons, List.length_nil, if_true, Bool.false_eq_true, if_false]
  all_goals omega

theorem length_unary {op : Op} {dst x : Reg} {bytes : List UInt8} (h : unary op dst x = .ok bytes) :
    bytes.length ≤ maxLength := by
  have hmov := length_movRR dst x
  have hrex := length_optRex 0 dst
  cases op
  all_goals cases h
  all_goals simp only [List.length_append, movqFromXmm, movsxd, maxLength,
    List.length_cons, List.length_nil]
  all_goals omega

theorem length_compare (cond : Cond) (float : Bool) (dst x y : Reg) :
    (compare cond float dst x y).length ≤ maxLength := by
  have hflags : (floatFlags cond dst).length ≤ 16 := by
    unfold floatFlags
    cases cond <;> simp [ucomisd, setcc]
  unfold compare
  split
  all_goals simp only [List.length_append, movqToXmm, alu, setcc, movzx8, maxLength,
    List.length_cons, List.length_nil]
  all_goals omega

theorem length_guard (pos : CodeAddr) (cond : GuardCond) (target : CodeAddr) :
    (guard pos cond r target).length ≤ maxLength := by
  unfold guard
  cases cond
  all_goals simp only [List.length_append, branchField, length_int32Bytes, maxLength,
    List.length_cons, List.length_nil]
  all_goals omega

/-- The sign of an argument is extended if it is an integer. -/
def extended (x : SizeClass × Reg) : List UInt8 := if x.1 == .int then movsxd x.2 else []

theorem length_call (spec : CallSpec) : (call spec).length ≤ maxLength := by
  have hargs : ((spec.args.zip x64Target.argRegs).flatMap extended).length ≤ 12 := by
    refine Nat.le_trans (length_flatMap_le (k := 3) (fun x => ?_) _) ?_
    · unfold extended
      split <;> simp [movsxd]
    · rw [List.length_zip]
      have : x64Target.argRegs.length = 4 := rfl
      omega
  have himm := length_loadImm x64Target.scratch spec.address
  have hstack := length_adjustStack 0 (Int32.ofNat (8 * spec.stackWords x64Target))
  have hret : (if spec.ret == .int then movsxd x64Target.retReg else []).length ≤ 3 := by
    split <;> simp [movsxd]
  have hdrop : (if spec.stackWords x64Target == 0 then []
      else adjustStack 0 (Int32.ofNat (8 * spec.stackWords x64Target))).length ≤ 7 := by
    split
    · exact Nat.zero_le _
    · exact hstack
  change ((spec.args.zip x64Target.argRegs).flatMap extended ++ _ ++ _ ++ _ ++ _).length ≤ _
  rw [List.length_append, List.length_append, List.length_append, List.length_append]
  simp only [maxLength, List.length_cons, List.length_nil]
  omega

theorem length_prologue (slots : Int) : (prologue slots).length ≤ maxLength := by
  have hsaved := length_flatMap_le length_pushReg x64Saved
  have hlength : x64Saved.length = 5 := rfl
  have hpush := length_pushReg 5
  have hmov := length_movRR 5 4
  have hmov' := length_movRR x64Target.stateBase 7
  unfold prologue
  dsimp only
  split
  all_goals simp only [List.length_append, maxLength]
  all_goals have := length_adjustStack 5
  all_goals grind

theorem length_bailout : bailout.length ≤ maxLength := by decide

/-- Whatever is encoded is short enough. -/
theorem length_encode {pos : CodeAddr} {i : Instr} {bytes : List UInt8}
    (h : encode pos i = .ok bytes) :
    bytes.length ≤ maxLength := by
  cases i with
  | binary op dst x y => exact length_binary h
  | unary op dst x => exact length_unary h
  | mov dst src =>
    cases h
    exact Nat.le_trans (length_movRR dst src) (by decide)
  | movImm dst v =>
    cases h
    exact Nat.le_trans (length_loadImm dst v) (by decide)
  | load dst base disp =>
    cases h
    have := length_memory (low dst) base disp
    simp only [List.length_append, List.length_cons, List.length_nil, maxLength]
    omega
  | store base disp src =>
    cases h
    have := length_memory (low src) base disp
    simp only [List.length_append, List.length_cons, List.length_nil, maxLength]
    omega
  | compare cond float dst x y =>
    cases h
    exact length_compare cond float dst x y
  | guard cond r target =>
    cases h
    exact length_guard r pos cond target
  | jump target =>
    cases h
    simp [branchField, length_int32Bytes, maxLength]
  | push r =>
    cases h
    exact Nat.le_trans (length_pushReg r) (by decide)
  | call spec =>
    cases h
    exact length_call spec
  | prologue slots =>
    cases h
    exact length_prologue slots
  | bailout =>
    cases h
    exact length_bailout

/-- Every known request can be encoded. -/
theorem encode_known (pos : CodeAddr) {i : Instr} (h : i.Known) :
    ∃ bytes, encode pos i = .ok bytes := by
  cases i with
  | binary op dst x y =>
    obtain ⟨o, ho⟩ := h
    cases o <;> cases ho <;> exact ⟨_, rfl⟩
  | unary op dst x =>
    obtain ⟨o, ho⟩ := h
    cases o <;> cases ho <;> exact ⟨_, rfl⟩
  | _ => exact ⟨_, rfl⟩

end X64

theorem Virtual.length_encode (pos : CodeAddr) (i : Instr) : (encode pos i).length ≤ maxLength := by
  unfold encode
  cases word? pos i with
  | none => exact Nat.zero_le _
  | some w => simp [Word.bytes, length_littleEndian, maxLength, wordSize]

/-- No request takes more bytes than its back end allows for. -/
theorem length_encode {b : Backend} {pos : CodeAddr} {i : Instr} {bytes : List UInt8}
    (h : b.encode pos i = .ok bytes) :
    bytes.length ≤ b.maxLength := by
  cases b with
  | virtual =>
    cases h
    exact Virtual.length_encode pos i
  | x64 => exact X64.length_encode h

theorem known_writable (b : Backend) {i : Instr} (h : i.Known) : Writable b i := fun pos => by
  obtain ⟨bytes, hbytes⟩ : ∃ bytes, b.encode pos i = .ok bytes :=
    match b with
    | .virtual => ⟨_, rfl⟩
    | .x64 => X64.encode_known pos h
  exact ⟨bytes, hbytes, length_encode hbytes⟩

end LoopTracer.Machine
