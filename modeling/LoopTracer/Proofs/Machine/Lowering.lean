import LoopTracer.Machine.Execution
import LoopTracer.Proofs.Machine.Decoding

/-! Integer operations on x86-64.

The processor's operations overwrite their first operand, so a request for three registers becomes
moves and an operation on two (`arranges`), with the scratch register in between where the
destination is also the second operand. Whatever registers are the same, what is left in the
destination and in the overflow flag is what the portable machine computes, and nothing else changes
(`integers_lowered`). -/
namespace LoopTracer.Machine.X64

variable {w : Bool} {r r' dst src x y : Gpr} {bytes bytes' rest : List UInt8}
  {is js : List Insn} {op : UInt8}
  {junk : Cpu → Flags} {c : Cpu}

/-! ### Code as a list of instructions -/

/-- Bytes that are these instructions, whatever comes behind them. -/
def Emits (bytes : List UInt8) (is : List Insn) : Prop :=
  ∀ rest js, Decodes rest js → Decodes (bytes ++ rest) (is ++ js)

theorem Emits.nil : Emits [] [] := fun _ _ => id

theorem Emits.append (h : Emits bytes is) (h' : Emits bytes' js) :
    Emits (bytes ++ bytes') (is ++ js) := by
  intro rest ks hrest
  rw [List.append_assoc, List.append_assoc]
  exact h _ _ (h' _ _ hrest)

theorem Emits.of_decode {i : Insn}
    (h : ∀ rest, decode (bytes ++ rest) = some (i, rest)) : Emits bytes [i] :=
  fun _ _ hrest => .cons (h _) hrest

theorem Emits.decodes (h : Emits bytes is) : Decodes bytes is := by
  have := h [] [] .nil
  rwa [List.append_nil, List.append_nil] at this

/-- The instructions that move one register to another, none if they are the same. -/
def copies (dst src : Gpr) : List Insn := if dst = src then []
  else [.mov true (.reg dst) (.reg src)]

theorem emits_movRR (dst src : Gpr) : Emits (movRR dst.reg src.reg) (copies dst src) := by
  unfold movRR copies
  by_cases h : dst = src
  · rw [h, if_pos rfl, if_pos (beq_self_eq_true _)]
    exact .nil
  · have hne : (dst.reg == src.reg) = false :=
      beq_eq_false_iff_ne.mpr fun heq => h (reg_inj _ _ heq)
    rw [if_neg h, hne, if_neg Bool.false_ne_true]
    exact .of_decode fun rest => decode_wide (by decide) rfl

theorem emits_alu {i : Insn} (h : Plain op) (hi : binaryOpcode? true src (.reg dst) op = some i) :
    Emits (alu op dst.reg src.reg) [i] := .of_decode fun _ => decode_wide h hi

theorem emits_alu32 {i : Insn} (h : Plain op)
    (hi : binaryOpcode? false src (.reg dst) op = some i) :
    Emits (alu32 op dst.reg src.reg) [i] := by
  refine .of_decode fun rest => ?_
  obtain ⟨x, hx, hdecode⟩ :=
    decode_optRex src dst h.1 h.2.1 (modrm 3 (low src.reg) (low dst.reg) :: rest)
  unfold alu32
  rw [List.append_assoc]
  refine hdecode.trans ?_
  rw [h.opcode?, hx]
  unfold binary?
  simp only [operands?_regs, hi, Option.bind_eq_bind, Option.bind_some]
  rfl

theorem emits_movsxd (r : Gpr) : Emits (movsxd r.reg) [.movsxd r (.reg r)] :=
  .of_decode fun _ => decode_wide (by decide) rfl

theorem opcode?_imul {o : Option Rex}
    (ho : o.getD .absent = ⟨w, high dst.reg, false, high src.reg⟩) :
    opcode? o 0x0F (0xAF :: modrm 3 (low dst.reg) (low src.reg) :: rest) =
      some (.imul w dst (.reg src), rest) := by
  show second? o (0xAF :: modrm 3 (low dst.reg) (low src.reg) :: rest) = _
  rw [second?]
  simp only [ho, operands?_regs, Option.bind_eq_bind, Option.bind_some]
  rfl

theorem emits_imul (wide : Bool) (dst src : Gpr) :
    Emits (imul wide dst.reg src.reg) [.imul wide dst (.reg src)] := by
  refine .of_decode fun rest => ?_
  unfold imul
  cases wide with
  | true => exact (decode_rex ..).trans (opcode?_imul rfl)
  | false =>
    obtain ⟨o, ho, hdecode⟩ :=
      decode_optRex dst src (show (0x0F : UInt8) ≠ 0xC4 by decide) (by decide)
      (0xAF :: modrm 3 (low dst.reg) (low src.reg) :: rest)
    rw [if_neg Bool.false_ne_true, List.append_assoc]
    exact hdecode.trans (opcode?_imul ho)

/-- The two operations of one register that have the opcode `F7`. -/
theorem opcode?_unary {o : Option Rex} (ho : o.getD .absent = ⟨w, false, false, high dst.reg⟩) :
    opcode? o 0xF7 (modrm 3 2 (low dst.reg) :: rest) = some (.not w (.reg dst), rest) ∧
      opcode? o 0xF7 (modrm 3 3 (low dst.reg) :: rest) = some (.neg w (.reg dst), rest) := by
  constructor
  · show unary? (o.getD .absent) (modrm 3 (low (2 : Gpr).reg) (low dst.reg) :: rest) = _
    unfold unary?
    simp only [ho, operands?_digit w false 2 (by decide), Option.bind_eq_bind, Option.bind_some]
    rfl
  · show unary? (o.getD .absent) (modrm 3 (low (3 : Gpr).reg) (low dst.reg) :: rest) = _
    unfold unary?
    simp only [ho, operands?_digit w false 3 (by decide), Option.bind_eq_bind, Option.bind_some]
    rfl

theorem emits_setcc (cc : Fin 16) (r : Gpr) :
    Emits (setcc (0x90 + UInt8.ofNat cc) r.reg) [.setcc cc (.low r)] := by
  have hop : ∀ cc : Fin 16, 0x90 + UInt8.ofNat cc ≠ 0xAF ∧ 0x90 + UInt8.ofNat cc ≠ 0xB6 ∧
      (0x90 + UInt8.ofNat cc).toNat / 16 = 9 ∧ (0x90 + UInt8.ofNat cc).toNat % 16 = cc.val := by
        decide
  obtain ⟨himul, hmovzx, hset, hcc⟩ := hop cc
  refine .of_decode fun rest => (decode_rex ..).trans ?_
  show second? _ (_ :: modrm 3 (low (0 : Gpr).reg) (low r.reg) :: rest) = _
  rw [second?]
  simp only [Option.getD_some, operands?_digit false false 0 (by decide),
    Option.bind_eq_bind, Option.bind_some]
  rw [if_neg himul, if_neg hmovzx, if_pos hset, hcc]
  rfl

theorem emits_movzx8 (r : Gpr) : Emits (movzx8 r.reg) [.movzx false r (.low r)] := by
  refine .of_decode fun rest => (decode_rex ..).trans ?_
  show second? _ (0xB6 :: modrm 3 (low r.reg) (low r.reg) :: rest) = _
  rw [second?]
  simp only [Option.getD_some, operands?_regs, Option.bind_eq_bind, Option.bind_some]
  rfl

/-- The first byte of a shift's prefix holds the extension bits of two operands, inverted. -/
theorem shiftPrefix_first : ∀ d s : Bool,
    let b : UInt8 := 0x02 ||| (if d then 0 else 0x80) ||| 0x40 ||| (if s then 0 else 0x20)
    (!b.toNat.testBit 7) = d ∧ (!b.toNat.testBit 6) = false ∧ (!b.toNat.testBit 5) = s ∧
        b.toNat % 32 = 2 := by
  decide

/-- The second byte holds the register of the count, inverted, and the kind of shift. -/
theorem shiftPrefix_second : ∀ (pp : Fin 4) (count : Gpr),
    let b : UInt8 := ((~~~ count.reg.byte &&& 0x0F) <<< 3) ||| UInt8.ofNat pp
    b.toNat.testBit 7 = false ∧ b.toNat.testBit 2 = false ∧ b.toNat % 4 = pp ∧
      Fin.ofNat 16 (15 - b.toNat / 8 % 16) = count := by
  decide

/-- The shift of a kind. -/
def shiftOf? : Fin 4 → Option ShiftOp
  | 0 => none
  | 1 => some .left
  | 2 => some .arithmetic
  | 3 => some .logical

theorem emits_shiftx {p : Fin 4} {o : ShiftOp} (h : shiftOf? p = some o) (dst src count : Gpr) :
    Emits (shiftx (UInt8.ofNat p) dst.reg src.reg count.reg) [.shiftx o dst (.reg src) count] := by
  obtain ⟨hdst, hindex, hsrc, hmap⟩ := shiftPrefix_first (high dst.reg) (high src.reg)
  obtain ⟨hw, hl, hkind, hcount⟩ := shiftPrefix_second p count
  refine .of_decode fun rest => ?_
  show vector? (_ :: _ :: 0xF7 :: modrm 3 (low dst.reg) (low src.reg) :: rest) = _
  rw [vector?]
  simp only [hdst, hindex, hsrc, hw, hl, hkind, hcount, hmap, operands?_regs, Option.bind_eq_bind,
    Option.bind_some, and_self, if_true]
  revert h
  match p with
  | 0 => exact nofun
  | 1 | 2 | 3 => rintro ⟨⟩; rfl

/-! ### What code computes -/

/-- The contents of a register as the portable machine has them. -/
def Cpu.word (c : Cpu) (r : Gpr) : UInt64 := ⟨c.regs r⟩

/-- Nothing but one register and the scratch register has changed, flags apart. -/
structure Keeps (dst : Gpr) (c c' : Cpu) : Prop where
  regs : ∀ r, r ≠ dst → r ≠ scratch → c'.regs r = c.regs r
  mem : c'.mem = c.mem

/-- A register holds a result, the overflow flag tells what goes with it, and the rest is as
before. -/
structure Leaves (c : Cpu) (dst : Gpr) (result : UInt64 × Option Bool) (c' : Cpu) : Prop where
  word : c'.word dst = result.1
  overflow : ∀ o, result.2 = some o → c'.flags.overflow = o
  keeps : Keeps dst c c'

/-- Code that leaves in `dst` what `f` makes of the registers. -/
def Computes (bytes : List UInt8) (dst : Gpr) (f : (Gpr → UInt64) → UInt64 × Option Bool) : Prop :=
  ∃ is, Emits bytes is ∧ ∀ junk c, Leaves c dst (f c.word) (run junk c is)

theorem Keeps.refl (dst : Gpr) (c : Cpu) : Keeps dst c c := ⟨fun _ _ _ => rfl, rfl⟩

theorem Keeps.trans {c' c'' : Cpu} (h : Keeps dst c c') (h' : Keeps dst c' c'') : Keeps dst c c'' :=
  ⟨fun r hr hs => (h'.regs r hr hs).trans (h.regs r hr hs), h'.mem.trans h.mem⟩

theorem Keeps.set (v : BitVec 64) (h : r = dst ∨ r = scratch) : Keeps dst c (c.set r v) :=
  ⟨fun _ hs hs' => if_neg fun heq => h.elim (fun h => hs (heq.trans h)) fun h =>
    hs' (heq.trans h), rfl⟩

theorem Keeps.flags {c' : Cpu} (h : Keeps dst c c') (flags : Flags) :
    Keeps dst c { c' with flags } :=
  ⟨h.regs, h.mem⟩

@[simp] theorem regs_set_self (c : Cpu) (r : Gpr)
    (v : BitVec 64) : (c.set r v).regs r = v := if_pos rfl

theorem regs_set_of_ne (c : Cpu) (v : BitVec 64) (h : r ≠ r') :
    (c.set r' v).regs r = c.regs r := if_neg h

@[simp] theorem run_append (junk : Cpu → Flags) (c : Cpu) (is js : List Insn) :
    run junk c (is ++ js) = run junk (run junk c is) js := List.foldl_append

@[simp] theorem run_single (junk : Cpu → Flags) (c : Cpu) (i : Insn) :
    run junk c [i] = i.execute junk c := rfl

theorem set_regs_self (c : Cpu) (r : Gpr) : c.set r (c.regs r) = c := by
  have hsame : (fun s => if s = r then c.regs r else c.regs s) = c.regs := by
    funext s
    split
    · next hs => rw [hs]
    · rfl
  show { c with regs := fun s => if s = r then c.regs r else c.regs s } = c
  rw [hsame]

theorem run_copies (junk : Cpu → Flags) (c : Cpu) (dst src : Gpr) :
    run junk c (copies dst src) = c.set dst (c.regs src) := by
  unfold copies
  split
  · next h =>
    rw [← h, set_regs_self]
    rfl
  · show c.set dst (((c.regs src).setWidth 64).setWidth 64) = _
    rw [BitVec.setWidth_eq, BitVec.setWidth_eq]

/-- After the moves the operands are in the destination and in another register; those of a
commutative operation may have changed places. -/
theorem arranges (o : Op) (dst x y : Gpr) (hdst : dst ≠ scratch) (hx : x ≠ scratch) : ∃ is src,
    Emits (arrange o dst.reg x.reg y.reg).1 is ∧ (arrange o dst.reg x.reg y.reg).2 = src.reg ∧
      ∀ junk c, Keeps dst c (run junk c is) ∧
        ((run junk c is).regs dst = c.regs x ∧ (run junk c is).regs src = c.regs y ∨
          o.commutative = true ∧ (run junk c is).regs dst = c.regs y ∧
          (run junk c is).regs src = c.regs x) := by
  have hbeq (r r' : Gpr) : (r.reg == r'.reg) = decide (r = r') := by
    by_cases h : r = r'
    · rw [h, decide_eq_true rfl, beq_self_eq_true]
    · rw [decide_eq_false h, beq_eq_false_iff_ne.mpr fun heq => h (reg_inj _ _ heq)]
  unfold arrange
  rw [hbeq, hbeq]
  by_cases hsame : dst = x
  · subst hsame
    exact ⟨[], y, by simpa using Emits.nil, by simp, fun junk c => ⟨.refl _ _, .inl ⟨rfl, rfl⟩⟩⟩
  · rw [decide_eq_false hsame, if_neg Bool.false_ne_true]
    by_cases hother : dst = y
    · subst hother
      rw [decide_eq_true rfl, if_pos rfl]
      cases hcomm : o.commutative with
      | true =>
        exact ⟨[], x, by simpa using Emits.nil, by simp,
          fun junk c => ⟨.refl _ _, .inr ⟨rfl, rfl, rfl⟩⟩⟩
      | false =>
        refine ⟨copies scratch dst ++ copies dst x, scratch,
          (emits_movRR scratch dst).append (emits_movRR dst x), rfl, fun junk c => ?_⟩
        rw [run_append, run_copies, run_copies]
        refine ⟨(Keeps.set _ (.inr rfl)).trans (.set _ (.inl rfl)), .inl ⟨?_, ?_⟩⟩
        · rw [regs_set_self, regs_set_of_ne _ _ hx]
        · rw [regs_set_of_ne _ _ hdst.symm, regs_set_self]
    · rw [decide_eq_false hother, if_neg Bool.false_ne_true]
      refine ⟨copies dst x, y, emits_movRR dst x, rfl, fun junk c => ?_⟩
      rw [run_copies]
      exact ⟨.set _ (.inl rfl), .inl ⟨regs_set_self .., regs_set_of_ne _ _ fun h => hother h.symm⟩⟩

/-- An operation that overwrites its first operand becomes one on three registers. -/
theorem Computes.arranged {o : Op} {k : Reg → List UInt8}
    {g : UInt64 → UInt64 → UInt64 × Option Bool}
    (hcore : ∀ src : Gpr, Computes (k src.reg) dst fun w => g (w dst) (w src))
    (hcomm : o.commutative = true → ∀ a b, g a b = g b a) (hdst : dst ≠ scratch)
    (hx : x ≠ scratch) (y : Gpr) :
    Computes ((arrange o dst.reg x.reg y.reg).1 ++ k (arrange o dst.reg x.reg y.reg).2) dst
      fun w => g (w x) (w y) := by
  obtain ⟨is, src, hmoves, hsrc, hrun⟩ := arranges o dst x y hdst hx
  obtain ⟨js, hemits, hleaves⟩ := hcore src
  refine ⟨is ++ js, hmoves.append (hsrc ▸ hemits), fun junk c => ?_⟩
  obtain ⟨hkeeps, hoperands⟩ := hrun junk c
  have hafter : Leaves _ _ (g ((run junk c is).word dst) ((run junk c is).word src)) _ :=
    hleaves junk (run junk c is)
  have hresult : g ((run junk c is).word dst) ((run junk c is).word src) =
      g (c.word x) (c.word y) := by
    rcases hoperands with ⟨hd, hs⟩ | ⟨ho, hd, hs⟩
    · rw [Cpu.word, Cpu.word, hd, hs]
      rfl
    · rw [Cpu.word, Cpu.word, hd, hs, hcomm ho]
      rfl
  rw [hresult] at hafter
  rw [run_append]
  exact ⟨hafter.word, hafter.overflow, hkeeps.trans hafter.keeps⟩

/-! ### Two registers -/

/-- A register that was set holds the result. -/
theorem leaves_set (c : Cpu) (dst : Gpr) (v : BitVec 64) (flags : Flags) :
    Leaves c dst (⟨v⟩, none) { c.set dst v with flags } where
  word := congrArg UInt64.ofBitVec (regs_set_self c dst v)
  overflow := nofun
  keeps := (Keeps.set v (.inl rfl)).flags flags

/-- A result of 32 bits is sign-extended, which leaves the flags alone. -/
theorem leaves_extended (junk : Cpu → Flags) (c : Cpu) (dst : Gpr) (v : BitVec 32) (flags : Flags) :
    Leaves c dst (⟨v.signExtend 64⟩, some flags.overflow)
      (Insn.execute junk { c.set dst (v.setWidth 64) with flags } (.movsxd dst (.reg dst))) where
  word := by
    show (⟨((c.set dst (v.setWidth 64)).set dst _).regs dst⟩ : UInt64) = _
    rw [regs_set_self]
    show (⟨(((c.set dst (v.setWidth 64)).regs dst).setWidth 32).signExtend 64⟩ : UInt64) = _
    rw [regs_set_self, BitVec.setWidth_setWidth_of_le _ (by decide), BitVec.setWidth_eq]
  overflow o ho := Option.some.inj ho
  keeps := ((Keeps.set _ (.inl rfl)).flags flags).trans (Keeps.set _ (.inl rfl))

theorem execute_alu {o : AluOp} (ho : o ≠ .cmp) (junk : Cpu → Flags) (c : Cpu)
    (wide : Bool) (dst src : Gpr) :
    Insn.execute junk c (.alu o wide (.reg dst) (.reg src)) =
      let a := (c.regs dst).setWidth (bits wide)
      let b := (c.regs src).setWidth (bits wide)
      { c.set dst ((o.compute a b).setWidth 64) with flags := o.flags a b } := by
  cases o with
  | cmp => exact absurd rfl ho
  | _ => rfl

theorem execute_imul (junk : Cpu → Flags) (c : Cpu) (wide : Bool) (dst src : Gpr) :
    Insn.execute junk c (.imul wide dst (.reg src)) =
      let a := (c.regs dst).setWidth (bits wide)
      let b := (c.regs src).setWidth (bits wide)
      { c.set dst ((a * b).setWidth 64) with
        flags := { junk c with carry := BitVec.smulOverflow a b,
                               overflow := BitVec.smulOverflow a b } } := rfl

theorem alu_computes {o : AluOp} (ho : o ≠ .cmp) (h : Plain op)
    (hi : ∀ src, binaryOpcode? true src (.reg dst) op = some (.alu o true (.reg dst) (.reg src)))
    (src : Gpr) :
    Computes (alu op dst.reg src.reg) dst fun w =>
    (⟨o.compute (w dst).toBitVec (w src).toBitVec⟩, none) := by
  refine ⟨_, emits_alu h (hi src), fun junk c => ?_⟩
  rw [run_single, execute_alu ho]
  dsimp only [bits]
  rw [BitVec.setWidth_eq, BitVec.setWidth_eq, BitVec.setWidth_eq]
  exact leaves_set ..

theorem imul_computes (dst src : Gpr) :
    Computes (imul true dst.reg src.reg) dst fun w => (w dst * w src, none) := by
  refine ⟨_, emits_imul true dst src, fun junk c => ?_⟩
  rw [run_single, execute_imul]
  dsimp only [bits]
  rw [BitVec.setWidth_eq, BitVec.setWidth_eq, BitVec.setWidth_eq]
  exact leaves_set ..

/-! ### Results of 32 bits -/

/-- The lower half of a word. -/
theorem int32_eq (v : UInt64) : int32 v = (v.toBitVec.setWidth 32).toInt := rfl

/-- Whether a number needs more than 32 bits. -/
def overflows (n : Int) : Bool := n < -2147483648 || 2147483647 < n

/-- What the portable machine makes of a result that is to be checked. -/
def told (n : Int) : UInt64 × Option Bool := ((checked n).1, some (checked n).2)

/-- It is the result of 32 bits, sign-extended. -/
theorem told_eq {n : Int} {v : BitVec 32} {o : Bool} (hv : BitVec.ofInt 32 n = v)
    (ho : o = overflows n) :
    told n = (⟨v.signExtend 64⟩, some o) := by
  rw [← hv, ho]
  rfl

/-- The processor finds out about overflow in the same way. -/
theorem overflows_eq (n : Int) :
    (decide (2 ^ (32 - 1) ≤ n) || decide (n < -2 ^ (32 - 1))) = overflows n := by
  rw [overflows, Bool.or_comm]
  rfl

theorem alu32_computes {o : AluOp} (ho : o ≠ .cmp) (h : Plain op)
    (hi : ∀ src, binaryOpcode? false src (.reg dst) op = some (.alu o false (.reg dst) (.reg src)))
    {f : Int → Int → Int}
    (hf : ∀ a b : BitVec 32, BitVec.ofInt 32 (f a.toInt b.toInt) = o.compute a b)
    (hflag : ∀ a b : BitVec 32, (o.flags a b).overflow = overflows (f a.toInt b.toInt))
    (src : Gpr) :
    Computes (alu32 op dst.reg src.reg ++ movsxd dst.reg) dst fun w =>
    told (f (int32 (w dst)) (int32 (w src))) := by
  refine ⟨_, (emits_alu32 h (hi src)).append (emits_movsxd dst), fun junk c => ?_⟩
  show Leaves c dst (told (f (int32 (c.word dst)) (int32 (c.word src)))) _
  rw [run_append, run_single, run_single, execute_alu ho, int32_eq, int32_eq,
    told_eq (hf _ _) (hflag _ _)]
  exact leaves_extended ..

theorem addOv_computes (dst src : Gpr) :
    Computes (alu32 0x01 dst.reg src.reg ++ movsxd dst.reg) dst fun w =>
    told (int32 (w dst) + int32 (w src)) :=
  alu32_computes (f := (· + ·)) (o := .add) nofun (by decide) (fun _ => rfl)
    (fun a b => by rw [BitVec.ofInt_add, BitVec.ofInt_toInt, BitVec.ofInt_toInt]; rfl)
    (fun a b => overflows_eq (a.toInt + b.toInt)) src

theorem subOv_computes (dst src : Gpr) :
    Computes (alu32 0x29 dst.reg src.reg ++ movsxd dst.reg) dst fun w =>
    told (int32 (w dst) - int32 (w src)) :=
  alu32_computes (f := (· - ·)) (o := .sub) nofun (by decide) (fun _ => rfl)
    (fun a b => by
      rw [Int.sub_eq_add_neg, BitVec.ofInt_add, BitVec.ofInt_neg, BitVec.ofInt_toInt,
        BitVec.ofInt_toInt,
        ← BitVec.sub_eq_add_neg]
      rfl)
    (fun a b => overflows_eq (a.toInt - b.toInt)) src

theorem mulOv_computes (dst src : Gpr) :
    Computes (imul false dst.reg src.reg ++ movsxd dst.reg) dst fun w =>
    told (int32 (w dst) * int32 (w src)) := by
  refine ⟨_, (emits_imul false dst src).append (emits_movsxd dst), fun junk c => ?_⟩
  have hv (a b : BitVec 32) : BitVec.ofInt 32 (a.toInt * b.toInt) = a * b := by
    rw [BitVec.ofInt_mul, BitVec.ofInt_toInt, BitVec.ofInt_toInt]
  have ho (a b : BitVec 32) : BitVec.smulOverflow a b = overflows (a.toInt * b.toInt) :=
    overflows_eq _
  show Leaves c dst (told (int32 (c.word dst) * int32 (c.word src))) _
  rw [run_append, run_single, run_single, execute_imul, int32_eq, int32_eq,
    told_eq (hv _ _) (ho _ _)]
  exact leaves_extended junk c dst _ { junk c with carry := _, overflow := _ }

/-! ### One register -/

/-- An operation that overwrites its operand becomes one on two registers. -/
theorem Computes.copied {core : List UInt8} {g : UInt64 → UInt64 × Option Bool}
    (hcore : Computes core dst fun w => g (w dst)) (x : Gpr) :
    Computes (movRR dst.reg x.reg ++ core) dst fun w => g (w x) := by
  obtain ⟨js, hemits, hleaves⟩ := hcore
  refine ⟨copies dst x ++ js, (emits_movRR dst x).append hemits, fun junk c => ?_⟩
  have hafter : Leaves _ dst (g ((c.set dst (c.regs x)).word dst)) _ :=
    hleaves junk (c.set dst (c.regs x))
  rw [Cpu.word, regs_set_self] at hafter
  rw [run_append, run_copies]
  exact ⟨hafter.word, hafter.overflow, (Keeps.set _ (.inl rfl)).trans hafter.keeps⟩

theorem not_computes (dst : Gpr) :
    Computes [rex true false false (high dst.reg), 0xF7, modrm 3 2 (low dst.reg)] dst fun w =>
    (~~~ w dst, none) := by
  refine ⟨_, .of_decode fun rest => (decode_rex ..).trans (opcode?_unary rfl).1, fun junk c => ?_⟩
  show Leaves c dst _ (c.set dst ((~~~ (c.regs dst).setWidth 64).setWidth 64))
  rw [BitVec.setWidth_eq, BitVec.setWidth_eq]
  exact leaves_set ..

theorem execute_neg (junk : Cpu → Flags) (c : Cpu) (wide : Bool) (dst : Gpr) :
    Insn.execute junk c (.neg wide (.reg dst)) =
      let a := (c.regs dst).setWidth (bits wide)
      { c.set dst ((-a).setWidth 64)
        with flags := .ofResult (-a) (a != 0) (BitVec.negOverflow a) } := rfl

theorem neg_computes (dst : Gpr) :
    Computes [rex true false false (high dst.reg), 0xF7, modrm 3 3 (low dst.reg)] dst fun w =>
    (0 - w dst, none) := by
  refine ⟨_, .of_decode fun rest => (decode_rex ..).trans (opcode?_unary rfl).2, fun junk c => ?_⟩
  have hzero : 0 - c.word dst = ⟨-(c.regs dst)⟩ :=
    congrArg UInt64.ofBitVec (BitVec.zero_sub (c.regs dst))
  show Leaves c dst (0 - c.word dst, none) _
  rw [hzero, run_single, execute_neg]
  dsimp only [bits]
  rw [BitVec.setWidth_eq, BitVec.setWidth_eq]
  exact leaves_set ..

theorem negOv_computes (dst : Gpr) :
    Computes (optRex 0 dst.reg ++ [0xF7, modrm 3 3 (low dst.reg)] ++ movsxd dst.reg) dst
      fun w => told (-(int32 (w dst))) := by
  have hemits : Emits (optRex 0 dst.reg ++ [0xF7, modrm 3 3 (low dst.reg)])
      [.neg false (.reg dst)] := by
    refine .of_decode fun rest => ?_
    obtain ⟨o, ho, hdecode⟩ :=
      decode_optRex 0 dst (show (0xF7 : UInt8) ≠ 0xC4 by decide) (by decide)
      (modrm 3 3 (low dst.reg) :: rest)
    rw [List.append_assoc]
    exact hdecode.trans (opcode?_unary ho).2
  refine ⟨_, hemits.append (emits_movsxd dst), fun junk c => ?_⟩
  have hv (a : BitVec 32) : BitVec.ofInt 32 (-a.toInt) = -a := by
    rw [BitVec.ofInt_neg, BitVec.ofInt_toInt]
  have ho (a : BitVec 32) : BitVec.negOverflow a = overflows (-a.toInt) := by
    have hlt := a.toInt_lt
    have hle := a.le_toInt
    rw [BitVec.negOverflow, overflows, Bool.eq_iff_iff, beq_iff_eq, Bool.or_eq_true,
      decide_eq_true_iff,
      decide_eq_true_iff]
    rw [show (2 : Int) ^ (32 - 1) = 2147483648 from rfl] at hlt hle ⊢
    omega
  show Leaves c dst (told (-(int32 (c.word dst)))) _
  rw [run_append, run_single, run_single, execute_neg, int32_eq, told_eq (hv _) (ho _)]
  exact leaves_extended junk c dst _ (.ofResult _ _ (BitVec.negOverflow _))

/-! ### Shifts -/

theorem toNat_shiftCount (v : UInt64) :
    (shiftCount v).toNat = (v.toBitVec.setWidth 32).toNat % 32 := by
  show ((v.toBitVec.setWidth 32) &&& 31#32).toNat = _
  rw [BitVec.toNat_and]
  exact Nat.and_two_pow_sub_one_eq_mod _ 5

theorem shift_computes {p : Fin 4} {o : ShiftOp} (h : shiftOf? p = some o) (dst x y : Gpr) :
    Computes (shiftx (UInt8.ofNat p) dst.reg x.reg y.reg ++ movsxd dst.reg) dst fun w =>
      (⟨(o.compute ((w x).toBitVec.setWidth 32) ((w y).toBitVec.setWidth 32)).signExtend 64⟩,
        none) := by
  refine ⟨_, (emits_shiftx h dst x y).append (emits_movsxd dst), fun junk c => ?_⟩
  obtain ⟨hword, -, hkeeps⟩ := leaves_extended junk c dst
    (o.compute ((c.regs x).setWidth 32) ((c.regs y).setWidth 32)) c.flags
  exact ⟨hword, nofun, hkeeps⟩

theorem shl32_eq (a b : UInt64) : narrow32 (a.toUInt32 <<< shiftCount b).toUInt64 =
    ⟨(ShiftOp.left.compute (a.toBitVec.setWidth 32) (b.toBitVec.setWidth 32)).signExtend 64⟩ := by
  have hcount : ((shiftCount b).toBitVec % 32#32).toNat = (b.toBitVec.setWidth 32).toNat % 32 := by
    rw [BitVec.toNat_umod]
    show (shiftCount b).toNat % 32 = _
    rw [toNat_shiftCount, Nat.mod_mod]
  unfold narrow32
  rw [UInt32.toUInt32_toUInt64]
  show (⟨(a.toUInt32 <<< shiftCount b).toBitVec.signExtend 64⟩ : UInt64) = _
  rw [UInt32.toBitVec_shiftLeft, BitVec.shiftLeft_eq', ShiftOp.compute, ← hcount]
  rfl

theorem sar32_eq (a b : UInt64) : (a.toUInt32.toInt32 >>> (shiftCount b).toInt32).toInt64.toUInt64 =
    ⟨(ShiftOp.arithmetic.compute (a.toBitVec.setWidth 32)
      (b.toBitVec.setWidth 32)).signExtend 64⟩ := by
  have hnat : (shiftCount b).toBitVec.toNat = (b.toBitVec.setWidth 32).toNat % 32 :=
    toNat_shiftCount b
  have hlt : (b.toBitVec.setWidth 32).toNat % 32 < 32 := Nat.mod_lt _ (by decide)
  -- a count is never negative
  have hmsb : (shiftCount b).toBitVec.msb = false := by
    rw [BitVec.msb_eq_false_iff_two_mul_lt, hnat]
    omega
  have hcount : ((shiftCount b).toBitVec.smod 32#32).toNat =
      (b.toBitVec.setWidth 32).toNat % 32 := by
    rw [BitVec.smod_eq, hmsb]
    show ((shiftCount b).toBitVec % 32#32).toNat = _
    rw [BitVec.toNat_umod, hnat]
    exact Nat.mod_eq_of_lt hlt
  show (⟨(a.toUInt32.toInt32 >>> (shiftCount b).toInt32).toBitVec.signExtend 64⟩ : UInt64) = _
  rw [Int32.toBitVec_shiftRight, BitVec.sshiftRight_eq', ShiftOp.compute, ← hcount]
  rfl

/-! ### Comparisons -/

theorem signed_less (a b : BitVec 64) :
    ((a - b).msb != BitVec.ssubOverflow a b) = decide (a.toInt < b.toInt) := by
  have ha := a.toInt_lt
  have ha' := a.le_toInt
  have hb := b.toInt_lt
  have hb' := b.le_toInt
  rw [BitVec.msb_eq_toInt, BitVec.toInt_sub, BitVec.ssubOverflow, Int.bmod_def, Bool.eq_iff_iff,
    bne_iff_ne, ne_eq,
    Bool.eq_iff_iff, Bool.or_eq_true, decide_eq_true_iff, decide_eq_true_iff, decide_eq_true_iff,
    decide_eq_true_iff]
  rw [show (2 : Int) ^ (64 - 1) = 9223372036854775808 from rfl] at *
  rw [show ((2 ^ 64 : Nat) : Int) = 18446744073709551616 from rfl]
  omega

theorem intFlag_eq {cond : Cond} (h : cond ∈ Cond.all) :
    intFlag cond = 0x90 + UInt8.ofNat (conditionCode cond) := by
  cases cond with
  | other n => simp [Cond.all] at h
  | _ => rfl

/-- The flags after a comparison tell how the signed numbers compare. -/
theorem holds_compared {cond : Cond} (h : cond ∈ Cond.all) (a b : UInt64) :
    (AluOp.flags a.toBitVec b.toBitVec .cmp).holds (conditionCode cond) = cond.holds false a b := by
  obtain ⟨f, hf⟩ : ∃ f, f = AluOp.flags a.toBitVec b.toBitVec .cmp := ⟨_, rfl⟩
  have hzero : f.zero = decide (a.toBitVec.toInt = b.toBitVec.toInt) := by
    rw [hf]
    show (a.toBitVec - b.toBitVec == 0#64) = _
    rw [Bool.eq_iff_iff, beq_iff_eq, decide_eq_true_iff, BitVec.sub_eq_iff_eq_add,
      BitVec.zero_add, BitVec.toInt_inj]
  have hless : (f.sign != f.overflow) = decide (a.toBitVec.toInt < b.toBitVec.toInt) := by
    rw [hf]
    exact signed_less a.toBitVec b.toBitVec
  have heq : a.toInt64 = b.toInt64 ↔ a.toBitVec.toInt = b.toBitVec.toInt := Int64.toInt_inj.symm
  have hlt (a b : UInt64) : a.toInt64 < b.toInt64 ↔ a.toBitVec.toInt < b.toBitVec.toInt :=
    Int64.lt_iff_toInt_lt
  have hle (a b : UInt64) : a.toInt64 ≤ b.toInt64 ↔ a.toBitVec.toInt ≤ b.toBitVec.toInt :=
    Int64.le_iff_toInt_le
  rw [← hf]
  cases cond with
  | other n => simp [Cond.all] at h
  | eq =>
    show (false != f.zero) = (a.toInt64 == b.toInt64)
    rw [hzero, Bool.false_bne, Bool.eq_iff_iff, beq_iff_eq, heq, decide_eq_true_iff]
  | ne =>
    show (true != f.zero) = (a.toInt64 != b.toInt64)
    rw [hzero, Bool.true_bne, Bool.eq_iff_iff, bne_iff_ne, ne_eq, heq, Bool.not_eq_true',
      decide_eq_false_iff_not]
  | lt =>
    show (false != (f.sign != f.overflow)) = decide (a.toInt64 < b.toInt64)
    rw [hless, Bool.false_bne, decide_eq_decide, hlt]
  | ge =>
    show (true != (f.sign != f.overflow)) = decide (b.toInt64 ≤ a.toInt64)
    rw [hless, Bool.true_bne, ← decide_not, decide_eq_decide, hle, Int.not_lt]
  | le =>
    show (false != (f.zero || f.sign != f.overflow)) = decide (a.toInt64 ≤ b.toInt64)
    rw [hzero, hless, Bool.false_bne, ← Bool.decide_or, decide_eq_decide, hle, Int.le_iff_eq_or_lt]
  | gt =>
    show (true != (f.zero || f.sign != f.overflow)) = decide (b.toInt64 < a.toInt64)
    rw [hzero, hless, Bool.true_bne, ← Bool.decide_or, ← decide_not, decide_eq_decide, hlt,
      ← Int.le_iff_eq_or_lt,
      Int.not_le]

/-- The lowest byte alone remains of a register. -/
theorem low_byte (v : BitVec 64) (b : BitVec 8) :
    ((v.extractLsb' 8 56 ++ b : BitVec 64).setWidth 8).setWidth 32 = b.setWidth 32 := by
  rw [BitVec.setWidth_append_eq_right (a := v.extractLsb' 8 56)]

/-- Setting the lowest byte from a condition and clearing the others leaves one or zero. -/
theorem run_setcc (junk : Cpu → Flags) (c : Cpu) (cc : Nat) (dst : Gpr) :
    Leaves c dst (if c.flags.holds cc then 1 else 0, none)
      (run junk c [.setcc cc (.low dst), .movzx false dst (.low dst)]) where
  word := by
    obtain ⟨b, hb⟩ : ∃ b : BitVec 8, b = if c.flags.holds cc then 1 else 0 := ⟨_, rfl⟩
    show UInt64.ofBitVec
      (((c.set dst _).set dst
        (((((c.set dst _).regs dst).setWidth 8).setWidth 32).setWidth 64)).regs dst) = _
    rw [regs_set_self, regs_set_self, ← hb, low_byte, hb]
    cases c.flags.holds cc <;> rfl
  overflow := nofun
  keeps := (Keeps.set _ (.inl rfl)).trans (Keeps.set _ (.inl rfl))

theorem compare_computes {cond : Cond} (h : cond ∈ Cond.all) (dst x y : Gpr) :
    Computes (compare cond false dst.reg x.reg y.reg) dst fun w =>
      (if cond.holds false (w x) (w y) then 1 else 0, none) := by
  have hemits : Emits (compare cond false dst.reg x.reg y.reg) [.alu .cmp true (.reg x) (.reg y),
      .setcc (conditionCode cond) (.low dst), .movzx false dst (.low dst)] := by
    unfold compare
    rw [if_neg Bool.false_ne_true, intFlag_eq h]
    exact ((emits_alu (by decide) rfl).append (emits_setcc _ dst)).append (emits_movzx8 dst)
  refine ⟨_, hemits, fun junk c => ?_⟩
  have hholds : (AluOp.flags ((c.regs x).setWidth 64) ((c.regs y).setWidth 64) .cmp).holds
    (conditionCode cond) =
      cond.holds false (c.word x) (c.word y) := by
    rw [BitVec.setWidth_eq, BitVec.setWidth_eq]
    exact holds_compared h (c.word x) (c.word y)
  show Leaves c dst _
    (run junk { c with flags := AluOp.flags ((c.regs x).setWidth 64) ((c.regs y).setWidth 64) .cmp }
    [.setcc (conditionCode cond) (.low dst), .movzx false dst (.low dst)])
  have hleaves :=
    run_setcc junk
      { c with flags := AluOp.flags ((c.regs x).setWidth 64) ((c.regs y).setWidth 64) .cmp }
    (conditionCode cond) dst
  rw [hholds] at hleaves
  exact ⟨hleaves.word, nofun, hleaves.keeps.regs, hleaves.keeps.mem⟩

/-! ### Requests -/

/-- The bytes of a request compute what the portable machine does. -/
def Performs (code : Except Fault (List UInt8)) (dst : Gpr)
    (result? : (Gpr → UInt64) → Option (UInt64 × Option Bool)) : Prop :=
  ∃ bytes f, code = .ok bytes ∧ Computes bytes dst f ∧ ∀ w, result? w = some (f w)

/-- The operations of 64 bits that have an opcode for two registers. -/
theorem alu_performs {o : Op} {a : AluOp} (ha : a ≠ .cmp) (h : Plain op)
    (hi : ∀ src, binaryOpcode? true src (.reg dst) op = some (.alu a true (.reg dst) (.reg src)))
    (hcomm : o.commutative = true → ∀ v w : BitVec 64, a.compute v w = a.compute w v)
    (hdst : dst ≠ scratch) (hx : x ≠ scratch) (y : Gpr) :
    Computes ((arrange o dst.reg x.reg y.reg).1 ++
      alu op dst.reg (arrange o dst.reg x.reg y.reg).2) dst
      fun w => (⟨a.compute (w x).toBitVec (w y).toBitVec⟩, none) :=
  Computes.arranged (k := alu op dst.reg)
    (g := fun v w => (⟨a.compute v.toBitVec w.toBitVec⟩, none))
    (alu_computes ha h hi) (fun ho v w => by rw [hcomm ho]) hdst hx y

/-- The operations that tell whether their results fit. -/
theorem told_performs {o : Op} {k : Reg → List UInt8} {f : Int → Int → Int}
    (hcore : ∀ src : Gpr, Computes (k src.reg ++ movsxd dst.reg) dst
      fun w => told (f (int32 (w dst)) (int32 (w src))))
    (hcomm : o.commutative = true → ∀ m n, f m n = f n m) (hdst : dst ≠ scratch)
    (hx : x ≠ scratch) (y : Gpr) :
    Computes ((arrange o dst.reg x.reg y.reg).1 ++
      (k (arrange o dst.reg x.reg y.reg).2 ++ movsxd dst.reg)) dst
      fun w => told (f (int32 (w x)) (int32 (w y))) :=
  Computes.arranged (k := fun src => k src ++ movsxd dst.reg)
    (g := fun v w => told (f (int32 v) (int32 w)))
    hcore (fun ho v w => by rw [hcomm ho]) hdst hx y

/-- The operations on two integers. -/
def integerBinary : List Op :=
  [.add, .sub, .mul, .and, .or, .xor, .shl32, .sar32, .addOv, .subOv, .mulOv]

/-- The operations on one integer. -/
def integerUnary : List Op := [.neg, .not, .negOv]

theorem binary_performs {o : Op} (h : o ∈ integerBinary) (hdst : dst ≠ scratch)
    (hx : x ≠ scratch) (y : Gpr) :
    Performs (binary o dst.reg x.reg y.reg) dst fun w => o.binary? (w x) (w y) := by
  cases o with
  | add =>
    exact ⟨_, _, rfl, alu_performs (a := .add) nofun (by decide) (fun _ => rfl)
      (fun _ => BitVec.add_comm) hdst hx y,
      fun _ => rfl⟩
  | sub =>
    exact ⟨_, _, rfl, alu_performs (o := .sub) (a := .sub) nofun (by decide) (fun _ => rfl)
      (fun ho => absurd ho Bool.false_ne_true) hdst hx y, fun _ => rfl⟩
  | and =>
    exact ⟨_, _, rfl, alu_performs (a := .and) nofun (by decide) (fun _ => rfl)
      (fun _ => BitVec.and_comm) hdst hx y,
      fun _ => rfl⟩
  | or =>
    exact ⟨_, _, rfl, alu_performs (a := .or) nofun (by decide) (fun _ => rfl)
      (fun _ => BitVec.or_comm) hdst hx y,
      fun _ => rfl⟩
  | xor =>
    exact ⟨_, _, rfl, alu_performs (a := .xor) nofun (by decide) (fun _ => rfl)
      (fun _ => BitVec.xor_comm) hdst hx y,
      fun _ => rfl⟩
  | mul =>
    exact ⟨_, _, rfl, Computes.arranged (k := imul true dst.reg) (g := fun v w => (v * w, none))
      (imul_computes dst) (fun _ v w => by rw [UInt64.mul_comm]) hdst hx y, fun _ => rfl⟩
  | addOv =>
    exact ⟨_, _, rfl, told_performs (k := alu32 0x01 dst.reg) (f := (· + ·)) (addOv_computes dst)
      (fun _ => Int.add_comm) hdst hx y, fun _ => rfl⟩
  | subOv =>
    exact ⟨_, _, rfl, told_performs (o := .subOv) (k := alu32 0x29 dst.reg) (f := (· - ·))
      (subOv_computes dst)
      (fun ho => absurd ho Bool.false_ne_true) hdst hx y, fun _ => rfl⟩
  | mulOv =>
    have hcomputes :=
      told_performs (o := .mulOv) (k := imul false dst.reg) (f := (· * ·)) (mulOv_computes dst)
      (fun _ => Int.mul_comm) hdst hx y
    rw [← List.append_assoc] at hcomputes
    exact ⟨_, _, rfl, hcomputes, fun _ => rfl⟩
  | shl32 => exact ⟨_, _, rfl, shift_computes (p := 1) rfl dst x y, fun w =>
    congrArg (fun v => some (v, none)) (shl32_eq (w x) (w y))⟩
  | sar32 => exact ⟨_, _, rfl, shift_computes (p := 2) rfl dst x y, fun w =>
    congrArg (fun v => some (v, none)) (sar32_eq (w x) (w y))⟩
  | _ => simp [integerBinary] at h

theorem unary_performs {o : Op} (h : o ∈ integerUnary) (dst x : Gpr) :
    Performs (unary o dst.reg x.reg) dst fun w => o.unary? (w x) := by
  cases o with
  | neg => exact ⟨_, _, rfl, Computes.copied (g := fun v => (0 - v, none)) (neg_computes dst) x,
    fun _ => rfl⟩
  | not => exact ⟨_, _, rfl, Computes.copied (g := fun v => (~~~ v, none)) (not_computes dst) x,
    fun _ => rfl⟩
  | negOv =>
    have hcomputes := Computes.copied (g := fun v => told (-(int32 v))) (negOv_computes dst) x
    rw [List.append_assoc, ← List.append_assoc, ← List.append_assoc] at hcomputes
    exact ⟨_, _, rfl, hcomputes, fun _ => rfl⟩
  | _ => simp [integerUnary] at h

theorem compare_performs {cond : Cond} (h : cond ∈ Cond.all) (dst x y : Gpr) :
    Performs (.ok (compare cond false dst.reg x.reg y.reg)) dst fun w =>
      some (if cond.holds false (w x) (w y) then 1 else 0, none) :=
  ⟨_, _, rfl, compare_computes h dst x y, fun _ => rfl⟩

/-- A request for an operation on integers. -/
inductive IntRequest where
  | binary (op : Op) (dst x y : Gpr)
  | unary (op : Op) (dst x : Gpr)
  | compare (cond : Cond) (dst x y : Gpr)

namespace IntRequest

/-- Whether there is such an operation on integers. -/
def Known : IntRequest → Prop
  | binary op .. => op ∈ integerBinary
  | unary op .. => op ∈ integerUnary
  | compare cond .. => cond ∈ Cond.all

def destination : IntRequest → Gpr
  | binary _ dst .. | unary _ dst .. | compare _ dst .. => dst

def operands : IntRequest → List Gpr
  | binary _ _ x y | compare _ _ x y => [x, y]
  | unary _ _ x => [x]

/-- The request as the encoder takes it. -/
def instr : IntRequest → Instr
  | binary op dst x y => .binary op dst.reg x.reg y.reg
  | unary op dst x => .unary op dst.reg x.reg
  | compare cond dst x y => .compare cond false dst.reg x.reg y.reg

/-- What the portable machine makes of the contents of the registers. -/
def result? (w : Gpr → UInt64) : IntRequest → Option (UInt64 × Option Bool)
  | binary op _ x y => op.binary? (w x) (w y)
  | unary op _ x => op.unary? (w x)
  | compare cond _ x y => some (if cond.holds false (w x) (w y) then 1 else 0, none)

end IntRequest

theorem ne_scratch : ∀ r : Gpr, x64Target.allocatable.contains r.reg = true →
    r ≠ scratch := by decide

theorem request_performs {r : IntRequest} (hknown : r.Known) (hdst : r.destination ≠ scratch)
    (hoperands : ∀ x ∈ r.operands, x ≠ scratch) (pos : CodeAddr) :
    Performs (encode pos r.instr) r.destination fun w => r.result? w := by
  cases r with
  | binary op dst x y => exact binary_performs hknown hdst (hoperands x List.mem_cons_self) y
  | unary op dst x => exact unary_performs hknown dst x
  | compare cond dst x y => exact compare_performs hknown dst x y

/-- Every operation and every comparison on integers is encoded, whichever registers are the same.
Executing the bytes leaves in the destination what the portable machine computes from the registers,
and in the overflow flag what it tells; no other register but the scratch register changes, and
neither does memory. -/
theorem integers_lowered (r : IntRequest) (pos : CodeAddr) (hknown : r.Known)
    (halloc : ∀ g ∈ r.destination :: r.operands, x64Target.allocatable.contains g.reg = true) :
    ∃ bytes is, encode pos r.instr = .ok bytes ∧ Decodes bytes is ∧ ∀ junk c,
      ∃ result, r.result? c.word = some result ∧ Leaves c r.destination result (run junk c is) := by
  obtain ⟨bytes, f, hencode, ⟨is, hemits, hleaves⟩, hresult⟩ := request_performs hknown
    (ne_scratch _ (halloc _ List.mem_cons_self))
    (fun x hx => ne_scratch _ (halloc _ (List.mem_cons_of_mem _ hx))) pos
  exact ⟨bytes, is, hencode, hemits.decodes,
    fun junk c => ⟨f c.word, hresult c.word, hleaves junk c⟩⟩

/-- A subtraction whose destination holds the second operand. -/
theorem aliased_subtraction_lowered : ∃ bytes is,
    encode 0 (.binary .subOv 8 3 8) = .ok bytes ∧ Decodes bytes is ∧ ∀ junk c,
      ∃ result, Op.subOv.binary? (c.word 3) (c.word 8) = some result ∧
      Leaves c 8 result (run junk c is) :=
  integers_lowered (.binary .subOv 8 3 8) 0 (by simp [IntRequest.Known, integerBinary])
    (by simp only [IntRequest.destination, IntRequest.operands]; decide)

end LoopTracer.Machine.X64
