import LoopTracer.Proofs.Machine.Memory
import LoopTracer.Proofs.Machine.Processor

/-! Encodings as the processor reads them.

Every part of an encoding is read as what it was written for: the extension byte, the byte with the
mode and two operands, the operand in memory for every base and displacement, and numbers. The moves
between registers, memory and numbers are then one instruction each, which does what was asked for
(`moves_decoded`). -/
namespace LoopTracer.Machine.X64

variable {w x : Bool} {r r' base : Gpr} {rest : List UInt8} {op : UInt8}

/-! ### Bytes -/

theorem ofByte?_rex (w r x b : Bool) : Rex.ofByte? (rex w r x b) = some ⟨w, r, x, b⟩ := by
  cases w <;> cases r <;> cases x <;> cases b <;> rfl

theorem rex_ne_vector (w r x b : Bool) : rex w r x b ≠ 0xC4 := by
  cases w <;> cases r <;> cases x <;> cases b <;> decide

theorem toNat_modrm : ∀ (mode : Fin 4) (r r' : Gpr),
    (modrm (UInt8.ofNat mode) (low r.reg) (low r'.reg)).toNat =
      64 * mode.val + 8 * (r.val % 8) + r'.val % 8 := by
  decide +kernel

theorem toNat_low : ∀ r : Gpr, (low r.reg).toNat = r.val % 8 := by decide

theorem high_eq : ∀ r : Gpr, high r.reg = decide (8 ≤ r.val) := by decide

/-- A register is put together again from its extension bit and its lower bits. -/
theorem gpr_high {n : Nat} (h : n % 8 = r.val % 8) : gpr (high r.reg) n = r := by
  have hlt := r.isLt
  have hjoin : n % 8 + (if high r.reg = true then 8 else 0) = r.val := by
    rw [high_eq]
    split
    · next hhigh => simp only [decide_eq_true_eq] at hhigh; omega
    · next hhigh => simp only [decide_eq_true_eq] at hhigh; omega
  apply Fin.ext
  show (n % 8 + if high r.reg = true then 8 else 0) % 16 = r.val
  rw [hjoin]
  omega

/-- A number is read from the bytes it was written to. -/
theorem number?_littleEndian (count n : Nat) (rest : List UInt8) :
    number? count (littleEndian count n ++ rest) = some (n % 256 ^ count, rest) := by
  induction count generalizing n with
  | zero => simp [number?, littleEndian, Nat.mod_one]
  | succ count ih =>
    rw [littleEndian, List.cons_append, number?, ih, Nat.pow_succ,
      Nat.mul_comm (256 ^ count), Nat.mod_mul]
    simp

theorem number?_int32Bytes (n : Int32) (rest : List UInt8) :
    number? 4 (int32Bytes n ++ rest) = some (n.toUInt32.toNat, rest) := by
  have hlt := n.toUInt32.toNat_lt
  rw [int32Bytes, number?_littleEndian, Nat.mod_eq_of_lt (by omega)]

/-! ### Opcodes -/

theorem decode_rex (w r x b : Bool) (op : UInt8) (rest : List UInt8) :
    decode (rex w r x b :: op :: rest) = opcode? (some ⟨w, r, x, b⟩) op rest := by
  rw [decode, if_neg (rex_ne_vector w r x b), ofByte?_rex]

theorem decode_plain (hvector : op ≠ 0xC4) (hrex : Rex.ofByte? op = none) :
    decode (op :: rest) = opcode? none op rest := by
  rw [decode, if_neg hvector, hrex]

/-! ### Operands -/

/-- Two registers are read as they were named. -/
theorem operands?_regs (w x : Bool) (r r' : Gpr) (rest : List UInt8) :
    operands? ⟨w, high r.reg, x, high r'.reg⟩ (modrm 3 (low r.reg) (low r'.reg) :: rest) =
      some (r, .reg r', rest) := by
  have hfields : (modrm 3 (low r.reg) (low r'.reg)).toNat = 192 + 8 * (r.val % 8) + r'.val % 8 :=
    toNat_modrm 3 r r'
  rw [operands?]
  dsimp only
  rw [hfields, if_pos (by omega), gpr_high (by omega), gpr_high (by omega)]

/-- A digit of the opcode and a register are read as they were named. -/
theorem operands?_digit (w x : Bool) (digit : Gpr) (hdigit : digit.val < 8) (r : Gpr)
    (rest : List UInt8) :
    operands? ⟨w, false, x, high r.reg⟩ (modrm 3 (low digit.reg) (low r.reg) :: rest) =
      some (digit, .reg r, rest) := by
  have hhigh : high digit.reg = false := by
    rw [high_eq, decide_eq_false_iff_not]
    omega
  rw [← operands?_regs w x digit r rest, hhigh]

/-- The displacement of an addressing mode is read as it was written. -/
structure Displaced (base : Gpr) (disp : Int32) (mode : Fin 4) (bytes : List UInt8) : Prop where
  memory : mode ≠ 3
  /-- The mode without a displacement means something else for these bases. -/
  plain : mode = 0 → base.val % 8 ≠ 5
  reads : ∀ rest, displacement? mode.val (bytes ++ rest) = some (disp, rest)

theorem displacement?_byte {n : Int32} (h : isShort n = true) (rest : List UInt8) :
    displacement? 1 (n.toUInt32.toUInt8 :: rest) = some (n, rest) := by
  have hrange : -128 ≤ n.toInt ∧ n.toInt ≤ 127 := by
    simpa [isShort, Int32.le_iff_toInt_le] using h
  have hbyte : n.toUInt32.toUInt8.toInt8 = n.toInt8 :=
    Int8.toBitVec_inj.mp (BitVec.signExtend_eq_setWidth_of_le n.toBitVec (by decide)).symm
  have hsame : n.toUInt32.toUInt8.toInt8.toInt32 = n := by
    apply Int32.toInt_inj.mp
    rw [hbyte, Int8.toInt_toInt32, Int32.toInt_toInt8, Int.bmod_eq_of_le (by omega) (by omega)]
  show some (n.toUInt32.toUInt8.toInt8.toInt32, rest) = _
  rw [hsame]

theorem displacement?_word (n : Int32) (rest : List UInt8) :
    displacement? 2 (int32Bytes n ++ rest) = some (n, rest) := by
  unfold displacement?
  rw [if_neg (by decide), if_neg (by decide), number?_int32Bytes]
  show some ((UInt32.ofNat n.toUInt32.toNat).toInt32, rest) = _
  rw [UInt32.ofNat_toNat]
  rfl

/-- An operand in memory is written in one of three modes, with the displacement as short as
it can be. -/
theorem memory_eq (r base : Gpr) (disp : Int32) : ∃ mode bytes, Displaced base disp mode bytes ∧
    memory (low r.reg) base.reg disp = modrm (UInt8.ofNat mode) (low r.reg) (low base.reg) ::
      ((if low base.reg = 4 then [0x24] else []) ++ bytes) := by
  unfold memory
  simp only [beq_iff_eq, bne_iff_ne, Bool.and_eq_true, ne_eq]
  split
  · next h =>
    refine ⟨0, [], ⟨by decide, fun _ hbase => h.2 ?_, fun rest => by rw [h.1]; rfl⟩,
      by rw [List.append_nil]; rfl⟩
    exact UInt8.toNat.inj (by rw [toNat_low, hbase]; rfl)
  · next h =>
    split
    · next hshort =>
      exact ⟨1, [disp.toUInt32.toUInt8], ⟨by decide, nofun, displacement?_byte hshort⟩,
        by rw [List.cons_append]; rfl⟩
    · exact ⟨2, int32Bytes disp, ⟨by decide, nofun, displacement?_word disp⟩,
        by rw [List.cons_append]; rfl⟩

/-- An operand in memory is read as it was named, for every base and displacement. -/
theorem operands?_memory (w : Bool) (r base : Gpr) (disp : Int32) (rest : List UInt8) :
    operands? ⟨w, high r.reg, false, high base.reg⟩ (memory (low r.reg) base.reg disp ++ rest) =
      some (r, .mem ⟨some base, none, disp⟩, rest) := by
  obtain ⟨mode, bytes, ⟨hmode, hplain, hreads⟩, hbytes⟩ := memory_eq r base disp
  have hfields := toNat_modrm mode r base
  have hlow := toNat_low base
  have hlt : mode.val < 3 := by
    have := mode.isLt
    have : mode.val ≠ 3 := fun h => hmode (Fin.ext h)
    omega
  have hplain' : ¬ (mode.val = 0 ∧ base.val % 8 = 5) := fun h => hplain (Fin.ext h.1) h.2
  rw [hbytes, List.cons_append, operands?]
  dsimp only
  rw [hfields, if_neg (by omega), gpr_high (by omega),
    show (64 * mode.val + 8 * (r.val % 8) + base.val % 8) / 64 = mode.val by omega,
    show (64 * mode.val + 8 * (r.val % 8) + base.val % 8) % 8 = base.val % 8 by omega]
  unfold address?
  by_cases hsib : base.val % 8 = 4
  · have hlow4 : low base.reg = 4 := UInt8.toNat.inj (by rw [hlow, hsib]; rfl)
    rw [if_pos hlow4, if_pos hsib, List.append_assoc, List.singleton_append]
    dsimp only
    rw [if_neg (by rintro ⟨-, h⟩; exact absurd h (by decide)), hreads, gpr_high (by rw [hsib]; rfl)]
    rfl
  · have hlow4 : low base.reg ≠ 4 := fun h => hsib (by rw [← hlow, h]; rfl)
    rw [if_neg hlow4, if_neg hsib, if_neg hplain', List.nil_append, hreads, gpr_high (by omega)]
    rfl

/-! ### Forms -/

/-- An opcode of an operation between two operands. -/
def Plain (op : UInt8) : Prop :=
  op ≠ 0xC4 ∧ Rex.ofByte? op = none ∧ op ≠ 0x0F ∧ op ≠ 0xF7 ∧ op ≠ 0xC7 ∧ op.toNat / 8 ≠ 0xB8 / 8

instance : Decidable (Plain op) := inferInstanceAs (Decidable (_ ∧ _))

theorem Plain.opcode? (h : Plain op) (x : Option Rex) (l : List UInt8) :
    X64.opcode? x op l = binary? (x.getD .absent) op l := by
  obtain ⟨-, -, hsecond, hunary, hstore, himm⟩ := h
  unfold X64.opcode?
  dsimp only
  rw [if_neg hsecond, if_neg hunary, if_neg hstore, if_neg himm]

/-- An operation of 64 bits between two registers. -/
theorem decode_wide (h : Plain op) {i : Insn} (hi : binaryOpcode? true r (.reg r') op = some i) :
    decode (rex true (high r.reg) false (high r'.reg) :: op :: modrm 3 (low r.reg)
      (low r'.reg) :: rest) =
      some (i, rest) := by
  rw [decode_rex, h.opcode?]
  unfold binary?
  rw [Option.getD_some, operands?_regs]
  show (binaryOpcode? true r (.reg r') op >>= fun i => some (i, rest)) = _
  rw [hi]
  rfl

/-- An operation of 64 bits between a register and memory. -/
theorem decode_memory (h : Plain op) {disp : Int32} {i : Insn}
    (hi : binaryOpcode? true r (.mem ⟨some base, none, disp⟩) op = some i) :
    decode (rex true (high r.reg) false (high base.reg) :: op :: memory
      (low r.reg) base.reg disp ++ rest) =
      some (i, rest) := by
  rw [List.cons_append, List.cons_append, decode_rex, h.opcode?]
  unfold binary?
  rw [Option.getD_some, operands?_memory]
  show (binaryOpcode? true r (.mem ⟨some base, none, disp⟩) op >>= fun i => some (i, rest)) = _
  rw [hi]
  rfl

/-- Where the extension byte is left out, its bits are all zero. -/
theorem decode_optRex (r r' : Gpr) (hvector : op ≠ 0xC4) (hrex : Rex.ofByte? op = none)
    (rest : List UInt8) :
    ∃ x : Option Rex, x.getD .absent = ⟨false, high r.reg, false, high r'.reg⟩ ∧
      decode (optRex r.reg r'.reg ++ op :: rest) = opcode? x op rest := by
  unfold optRex
  cases hr : high r.reg with
  | true => exact ⟨_, rfl, decode_rex ..⟩
  | false =>
    cases hr' : high r'.reg with
    | true => exact ⟨_, rfl, decode_rex ..⟩
    | false => exact ⟨none, rfl, decode_plain hvector hrex⟩

/-! ### Numbers -/

/-- The opcode of a load of a number names the register. -/
theorem numberOpcode : ∀ r : Gpr, 0xB8 + low r.reg ≠ 0xC4 ∧ Rex.ofByte? (0xB8 + low r.reg) = none ∧
    0xB8 + low r.reg ≠ 0x0F ∧ 0xB8 + low r.reg ≠ 0xF7 ∧ 0xB8 + low r.reg ≠ 0xC7 ∧
    (0xB8 + low r.reg).toNat / 8 = 0xB8 / 8 ∧ (0xB8 + low r.reg).toNat % 8 = r.val % 8 := by decide

theorem opcode?_number (x : Option Rex) (dst : Gpr) (hx : (x.getD .absent).b = high dst.reg)
    (l : List UInt8) :
    opcode? x (0xB8 + low dst.reg) l =
      (number? (if (x.getD .absent).w then 8 else 4) l).map fun (n, rest) =>
        (.movImm (x.getD .absent).w (.reg dst) (BitVec.ofNat 64 n), rest) := by
  obtain ⟨-, -, hsecond, hunary, hstore, himm, hreg⟩ := numberOpcode dst
  unfold opcode?
  dsimp only
  rw [if_neg hsecond, if_neg hunary, if_neg hstore, if_pos himm]
  unfold immediate?
  rw [hx, gpr_high hreg]
  cases number? (if (x.getD .absent).w then 8 else 4) l <;> rfl

/-- A number is loaded whole, in whichever of the three forms. -/
theorem decode_loadImm (dst : Gpr) (v : UInt64) (rest : List UInt8) :
    ∃ wide src, decode (loadImm dst.reg v ++ rest) = some (.movImm wide (.reg dst) src, rest) ∧
      (src.setWidth (bits wide)).setWidth 64 = v.toBitVec := by
  have hlt := v.toNat_lt
  have hnat : v.toBitVec.toNat = v.toNat := rfl
  obtain ⟨hvector, hrex, -⟩ := numberOpcode dst
  unfold loadImm
  split
  · next h =>
    -- the upper half is zero
    have hsmall : v.toNat < 2 ^ 32 := by
      have := UInt64.le_iff_toNat_le.mp h
      exact Nat.lt_succ_of_le this
    obtain ⟨x, hx, hdecode⟩ := decode_optRex 0 dst hvector hrex (littleEndian 4 v.toNat ++ rest)
    refine ⟨false, BitVec.ofNat 64 v.toNat, ?_, ?_⟩
    · rw [List.append_assoc, List.append_assoc, List.singleton_append]
      refine hdecode.trans ?_
      rw [opcode?_number x dst (by rw [hx]), hx]
      show (number? 4 _).map _ = _
      rw [number?_littleEndian, Nat.mod_eq_of_lt (by omega)]
      rfl
    · apply BitVec.eq_of_toNat_eq
      rw [BitVec.toNat_setWidth, BitVec.toNat_setWidth, BitVec.toNat_ofNat, hnat]
      show v.toNat % 2 ^ 64 % 2 ^ 32 % 2 ^ 64 = v.toNat
      omega
  · split
    · next h =>
      -- the upper half repeats the sign
      have hlarge : 0xFFFFFFFF80000000 ≤ v.toNat := UInt64.le_iff_toNat_le.mp h
      refine ⟨true, (BitVec.ofNat 32 (v.toNat % 2 ^ 32)).signExtend 64, ?_, ?_⟩
      · rw [List.append_assoc, List.cons_append, List.cons_append, List.cons_append,
          List.nil_append, decode_rex]
        show store? ⟨true, false, false, high dst.reg⟩
          (modrm 3 (low (0 : Gpr).reg) (low dst.reg) :: _) = _
        unfold store?
        simp only [operands?_digit true false 0 (by decide), number?_littleEndian,
          Option.bind_eq_bind,
          Option.bind_some]
        rfl
      · show (((BitVec.ofNat 32 _).signExtend 64).setWidth 64).setWidth 64 = _
        rw [BitVec.setWidth_eq, BitVec.setWidth_eq]
        apply BitVec.eq_of_toInt_eq
        rw [BitVec.toInt_signExtend_of_le (by decide), BitVec.toInt_eq_toNat_bmod,
          BitVec.toInt_eq_toNat_bmod, hnat,
          BitVec.toNat_ofNat, Int.bmod_def, Int.bmod_def]
        omega
    · refine ⟨true, BitVec.ofNat 64 v.toNat, ?_, ?_⟩
      · rw [List.append_assoc, List.cons_append, List.cons_append, List.nil_append, decode_rex,
          opcode?_number _ dst rfl]
        show (number? 8 _).map _ = _
        rw [number?_littleEndian, Nat.mod_eq_of_lt (by omega)]
        rfl
      · show ((BitVec.ofNat 64 v.toNat).setWidth 64).setWidth 64 = _
        rw [BitVec.setWidth_eq, BitVec.setWidth_eq, ← hnat, BitVec.ofNat_toNat, BitVec.setWidth_eq]

/-! ### Moves -/

/-- A move between registers, memory and numbers. -/
inductive Move where
  | copy (dst src : Gpr) (distinct : dst ≠ src)
  | load (dst base : Gpr) (disp : Int32)
  | store (base : Gpr) (disp : Int32) (src : Gpr)
  | number (dst : Gpr) (v : UInt64)

namespace Move

/-- The request for a move. -/
def request : Move → Instr
  | copy dst src _ => .mov dst.reg src.reg
  | load dst base disp => .load dst.reg base.reg disp
  | store base disp src => .store base.reg disp src.reg
  | number dst v => .movImm dst.reg v

/-- What a move is to do, a displacement being signed. -/
def effect (c : Cpu) : Move → Cpu
  | copy dst src _ => c.set dst (c.regs src)
  | load dst base disp => c.set dst (c.fetch 64 (c.regs base + BitVec.ofInt 64 disp.toInt))
  | store base disp src => c.store (c.regs base + BitVec.ofInt 64 disp.toInt) (c.regs src)
  | number dst v => c.set dst v.toBitVec

end Move

/-- Where a base and a displacement lead. -/
theorem place_base (c : Cpu) (base : Gpr) (disp : Int32) :
    c.place ⟨some base, none, disp⟩ = c.regs base + BitVec.ofInt 64 disp.toInt := by
  show c.regs base + 0#64 + disp.toBitVec.signExtend 64 = _
  rw [BitVec.add_zero]
  rfl

theorem reg_inj : ∀ r r' : Gpr, r.reg = r'.reg → r = r' := by decide

/-- A move of any registers, with any displacement and any number, is one instruction and no bytes
more, and the instruction does what was asked for. -/
theorem moves_decoded (m : Move) (pos : CodeAddr) : ∃ bytes i, encode pos m.request = .ok bytes ∧
    decode bytes = some (i, []) ∧ ∀ junk c, Insn.execute junk c i = m.effect c := by
  cases m with
  | copy dst src h =>
    have hne : (dst.reg == src.reg) = false := by
      rw [beq_eq_false_iff_ne]
      exact fun heq => h (reg_inj _ _ heq)
    refine ⟨_, .mov true (.reg dst) (.reg src), rfl, ?_, fun junk c => ?_⟩
    · unfold movRR
      rw [hne, if_neg Bool.false_ne_true]
      exact decode_wide (by decide) rfl
    · show c.set dst (((c.regs src).setWidth 64).setWidth 64) = _
      rw [BitVec.setWidth_eq, BitVec.setWidth_eq]
      rfl
  | load dst base disp =>
    refine ⟨_, .mov true (.reg dst) (.mem ⟨some base, none, disp⟩), rfl, ?_, fun junk c => ?_⟩
    · have h : decode (rex true (high dst.reg) false (high base.reg) :: 0x8B :: memory
          (low dst.reg) base.reg disp ++ []) = _ :=
        decode_memory (by decide) rfl
      rwa [List.append_nil] at h
    · show c.set dst ((c.fetch 64 _).setWidth 64) = _
      rw [BitVec.setWidth_eq, place_base]
      rfl
  | store base disp src =>
    refine ⟨_, .mov true (.mem ⟨some base, none, disp⟩) (.reg src), rfl, ?_, fun junk c => ?_⟩
    · have h : decode (rex true (high src.reg) false (high base.reg) :: 0x89 :: memory
          (low src.reg) base.reg disp ++ []) = _ :=
        decode_memory (by decide) rfl
      rwa [List.append_nil] at h
    · show c.store _ ((c.regs src).setWidth 64) = _
      rw [BitVec.setWidth_eq, place_base]
      rfl
  | number dst v =>
    obtain ⟨wide, src, hdecode, hsrc⟩ := decode_loadImm dst v []
    refine ⟨_, _, rfl, by rwa [List.append_nil] at hdecode, fun junk c => ?_⟩
    show c.set dst ((src.setWidth (bits wide)).setWidth 64) = _
    rw [hsrc]
    rfl

end LoopTracer.Machine.X64
