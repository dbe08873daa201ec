import LoopTracer.Proofs.Source.Lines
import LoopTracer.Proofs.Verification.Boundaries

/-! What an instruction of a text writes.

`Chunk.decode?` reads code from an offset on, one instruction right behind the other. `Emitted` says
what stands in the code for the instruction of one line: its opcode, an operand that means what the
line says (`Carries`), and the number of the line beside every byte. `statement_emits` says once what
a statement does to the function that it belongs to: nothing, or one such instruction behind the
others; jumps are remembered, and a label is remembered with the size that the code has there. -/
namespace LoopTracer.Bytecode

/-- The instructions from an offset on, each with its offset; no answer if a byte is no opcode or
the last instruction is not whole. -/
def Chunk.decode? (c : Chunk) (o : Nat) : Option (List (Nat × Opcode)) :=
  if o < c.size then
    (c.opcode? o).bind fun op =>
      if o + op.size ≤ c.size then (c.decode? (o + op.size)).map ((o, op) :: ·) else none
  else some []
termination_by c.size - o
decreasing_by
  have := op.size_pos
  omega

namespace Source

/-! ### Instructions of lines -/

/-- A line has an instruction, perhaps behind a label. -/
def isInstruction (raw : Text) : Bool := !isDirective raw && !(instructionOf raw).isEmpty

/-- The label of a line. -/
def labelOf? (raw : Text) : Option Text :=
  if isDirective raw then none else (splitLabel? (content raw)).map (·.1)

/-- The instruction of a line is the operation `op` with the operand `t`. -/
structure Instructs (raw : Text) (op : Opcode) (t : Text) : Prop where
  instruction : isInstruction raw = true
  opcode : Opcode.ofMnemonic? (splitWord (instructionOf raw)).1.lower = some op
  operand : t = (splitWord (instructionOf raw)).2

/-- The operation leads to a label. -/
def Leads (op : Opcode) : Prop := op.operand = .jump ∨ op.operand = .loop

instance (op : Opcode) : Decidable (Leads op) := inferInstanceAs (Decidable (_ ∨ _))

theorem Leads.size {op : Opcode} (h : Leads op) : op.size = 3 := by
  rcases h with h | h <;> simp [Opcode.size, h]

/-- The operand behind the opcode at an offset is what the line says. Which constant it is, the pool
decides, and where a jump leads, the labels. -/
def Carries (c : Chunk) (o : Nat) (op : Opcode) (t : Text) : Prop :=
  match op.operand with
  | .none => t.isEmpty = true
  | .const => ∃ l, literal t = .ok l
  | .slot => ∃ n, bounded? t 65535 = some n ∧ (c.u16?
    ((o + 1 : Nat) : Int)).map UInt16.toNat = some n
  | .jump | .loop => True
  | .byte =>
    if op = .builtin then
      ∃ b, Builtin.ofName? t = some b ∧
        (c.byte? ((o + 1 : Nat) : Int)).bind Builtin.ofByte? = some b
    else ∃ n, bounded? t 255 = some n ∧ (c.byte? ((o + 1 : Nat) : Int)).map UInt8.toNat = some n

/-- The code at an offset is the instruction of line number `n`, counted from zero: `op` with the
operand `t`. -/
structure Emitted (c : Chunk) (n o : Nat) (op : Opcode) (t : Text) : Prop where
  fits : o + op.size ≤ c.size
  opcode : c.opcode? o = some op
  carries : Carries c o op t
  lines : ∀ i, o ≤ i → i < o + op.size → c.lines[i]? = some ((n + 1 : Nat) : Int)

/-! ### Code that stays -/

variable {c c' : Chunk}

theorem u16?_eq (c : Chunk) (i : Nat) : c.u16? i = (c.byte? i).bind fun hi =>
    (c.byte? ((i + 1 : Nat) : Int)).map fun lo => (hi.toUInt16 <<< 8) ||| lo.toUInt16 := by
  rw [Chunk.u16?]
  show _ = (c.byte? i).bind fun hi => (c.byte? ((i : Int) + 1)).map fun lo =>
    (hi.toUInt16 <<< 8) ||| lo.toUInt16
  cases c.byte? i with
  | none => rfl
  | some hi =>
    cases c.byte? ((i : Int) + 1) with
    | none => rfl
    | some lo => rfl

/-- Only the bytes behind an opcode matter to what its operand is, and those of a jump do not. -/
theorem Carries.congr {o : Nat} {op : Opcode} {t : Text} (h : Carries c o op t)
    (hsame : ¬ Leads op → ∀ i, o < i → i < o + op.size →
      c'.byte? i = c.byte? i) : Carries c' o op t := by
  unfold Carries at h ⊢
  cases hop : op.operand with
  | none | const => rwa [hop] at h
  | jump | loop => trivial
  | slot =>
    have hsame := hsame (by simp [Leads, hop])
    have hsize : op.size = 3 := by simp [Opcode.size, hop]
    rw [hop] at h
    dsimp only at h ⊢
    rwa [u16?_eq, hsame (o + 1) (by omega) (by omega),
      hsame (o + 1 + 1) (by omega) (by omega), ← u16?_eq]
  | byte =>
    have hsame := hsame (by simp [Leads, hop])
    have hsize : op.size = 2 := by simp [Opcode.size, hop]
    rw [hop] at h
    dsimp only at h ⊢
    rwa [hsame (o + 1) (by omega) (by omega)]

/-- Bytes are put behind the code, with their lines. -/
structure Appends (line : Nat) (c c' : Chunk) : Prop where
  size : c.size ≤ c'.size
  paired : c.lines.size = c.size → c'.lines.size = c'.size
  bytes : ∀ i < c.size, c'.byte? i = c.byte? i
  old : ∀ (i : Nat) x, c.lines[i]? = some x → c'.lines[i]? = some x
  new : c.lines.size = c.size → ∀ i : Nat, c.size ≤ i → i < c'.size →
    c'.lines[i]? = some (line : Int)

variable {line : Nat}

theorem Appends.refl (line : Nat) (c : Chunk) : Appends line c c :=
  ⟨Nat.le_refl _, id, fun _ _ => rfl, fun _ _ => id, fun _ _ _ _ => by omega⟩

theorem Appends.trans {c'' : Chunk} (h : Appends line c c')
    (h' : Appends line c' c'') : Appends line c c'' where
  size := Nat.le_trans h.size h'.size
  paired := h'.paired ∘ h.paired
  bytes i hi := (h'.bytes i (Nat.lt_of_lt_of_le hi h.size)).trans (h.bytes i hi)
  old i x hx := h'.old i x (h.old i x hx)
  new hpaired i hlo hhi := by
    by_cases hi : i < c'.size
    · exact h'.old i _ (h.new hpaired i hlo hi)
    · exact h'.new (h.paired hpaired) i (Nat.le_of_not_lt hi) hhi

theorem appends_write (c : Chunk) (b : UInt8) (line : Nat) : Appends line c (c.write b line) where
  size := by rw [size_write]; omega
  paired := (adds_write c b line).paired
  bytes i hi := by rw [byte?_write, if_neg (by omega)]
  old := (adds_write c b line).old
  new hpaired i hlo hhi := by
    rw [size_write] at hhi
    rw [lines_write, if_pos (by omega)]

theorem appends_writeU16 (c : Chunk) (n : UInt16) (line : Nat) :
    Appends line c (c.writeU16 n line) :=
  (appends_write c _ line).trans (appends_write _ _ line)

theorem size_writeU16 (c : Chunk) (n : UInt16) (line : Int) :
    (c.writeU16 n line).size = c.size + 2 := by
  rw [Chunk.writeU16, size_write, size_write]

theorem u16?_writeU16 (c : Chunk) (n : UInt16) (line : Int) :
    (c.writeU16 n line).u16? c.size = some n := by
  rw [u16?_eq, Chunk.writeU16, byte?_write, byte?_write, byte?_write, size_write,
    if_neg (by omega), if_pos rfl,
    if_pos rfl]
  exact congrArg some (join_bytes n)

/-! ### What an operand writes -/

/-- The instruction of a line is written behind the code of a function. -/
structure Emits (line : Nat) (op : Opcode) (t : Text) (d d' : Draft) : Prop where
  appends : Appends line d.chunk d'.chunk
  size : d'.chunk.size = d.chunk.size + op.size
  opcode : d'.chunk.opcode? d.chunk.size = some op
  carries : Carries d'.chunk d.chunk.size op t
  fixups : d'.fixups = if Leads op then d.fixups.push ⟨d.chunk.size, t, line⟩ else d.fixups
  labels : d'.labels = d.labels
  heading : d'.name = d.name ∧ d'.arity = d.arity ∧ d'.locals = d.locals

/-- An operand is put behind the opcode. -/
theorem emits_operand {op : Opcode} {t : Text} {d : Draft} {c : Chunk} {fixups : Array Fixup}
    (happends : Appends line (d.chunk.writeOp op line) c) (hsize : c.size = d.chunk.size + op.size)
    (hcarries : Carries c d.chunk.size op t)
    (hfixups : fixups = if Leads op then d.fixups.push ⟨d.chunk.size, t, line⟩ else d.fixups) :
    Emits line op t d { d with chunk := c, fixups } := by
  refine ⟨(appends_write _ _ _).trans happends, hsize, ?_, hcarries, hfixups, rfl, rfl, rfl, rfl⟩
  have hplace : d.chunk.size < (d.chunk.writeOp op line).size := by
    rw [Chunk.writeOp, size_write]
    omega
  show c.opcode? d.chunk.size = some op
  rw [opcode?_eq, happends.bytes _ hplace, Chunk.writeOp, byte?_write, if_pos rfl]
  exact op.ofByte?_toByte

/-- Constants are no bytes. -/
theorem Appends.constants (h : Appends line c c') (constants : Array Value) :
    Appends line c { c' with constants } := ⟨h.size, h.paired, h.bytes, h.old, h.new⟩

theorem addConstant_eq (c : Chunk) (v : Value) :
    ∃ constants, (c.addConstant v).1 = { c with constants } := by
  obtain ⟨constants, index, h, -⟩ := pooled_addConstant c v
  exact ⟨constants, by rw [h]⟩

theorem operand_emits {line function : Nat} {op : Opcode} {t : Text} {d d' : Draft}
    {pending : Option Pending}
    (hempty : op.operand = .none → t.isEmpty = true)
    (h : operand line function { d with chunk := d.chunk.writeOp op line } op d.chunk.size t =
      .ok (d', pending)) :
    Emits line op t d d' := by
  have hop₁ : (d.chunk.writeOp op line).size = d.chunk.size + 1 := size_write _ _
  unfold operand at h
  cases hop : op.operand with
  | none =>
    rw [hop] at h
    cases h
    have hsize : op.size = 1 := by simp [Opcode.size, hop]
    refine emits_operand (.refl _ _) (hop₁.trans (by rw [hsize])) ?_ (by simp [Leads, hop])
    unfold Carries
    rw [hop]
    exact hempty hop
  | const =>
    have hsize : op.size = 3 := by simp [Opcode.size, hop]
    rw [hop] at h
    cases hl : literal t with
    | error e =>
      rw [hl] at h
      cases h
    | ok l =>
      rw [hl] at h
      have hpool : ∀ (constants : Array Value) (index : UInt16), Emits line op t d
          { d with chunk := Chunk.writeU16 { d.chunk.writeOp op
              line with constants } index line } := by
        intro constants index
        have happends : Appends line (d.chunk.writeOp op line)
            { d.chunk.writeOp op line with constants } :=
          (Appends.refl line _).constants constants
        refine emits_operand (happends.trans (appends_writeU16 _ _ _)) ?_ ?_ (by simp [Leads, hop])
        · rw [size_writeU16]
          show (d.chunk.writeOp op line).size + 2 = _
          rw [hop₁, hsize]
        · unfold Carries
          rw [hop]
          exact ⟨l, hl⟩
      cases l with
      | value v =>
        dsimp only at h
        obtain ⟨constants, hadd⟩ := addConstant_eq (d.chunk.writeOp op line) v
        split at h
        · cases h
        · cases h
          rw [hadd]
          exact hpool constants _
      | function name =>
        dsimp only at h
        split at h
        · cases h
        · cases h
          exact hpool _ _
  | slot =>
    have hsize : op.size = 3 := by simp [Opcode.size, hop]
    rw [hop] at h
    dsimp only at h
    split at h
    · next n hn =>
      cases h
      refine emits_operand (appends_writeU16 _ _ _) (by rw [size_writeU16, hop₁, hsize]) ?_
        (by simp [Leads, hop])
      unfold Carries
      rw [hop]
      refine ⟨n, hn, ?_⟩
      rw [← hop₁, u16?_writeU16, Option.map_some]
      exact congrArg some (UInt16.toNat_ofNat_of_lt' (Nat.lt_succ_of_le (bounded?_le hn)))
    · cases h
  | jump | loop =>
    have hsize : op.size = 3 := by simp [Opcode.size, hop]
    rw [hop] at h
    cases h
    refine emits_operand (appends_writeU16 _ _ _) (by rw [size_writeU16, hop₁, hsize]) ?_
      (by simp [Leads, hop])
    unfold Carries
    rw [hop]
    trivial
  | byte =>
    have hsize : op.size = 2 := by simp [Opcode.size, hop]
    have hbyte : ∀ b : UInt8, ((d.chunk.writeOp op line).write b line).byte?
        ((d.chunk.size + 1 : Nat) : Int) = some b := by
      intro b
      rw [byte?_write, hop₁, if_pos rfl]
    rw [hop] at h
    dsimp only at h
    split at h
    · next hbuiltin =>
      split at h
      · next b hb =>
        cases h
        refine emits_operand (appends_write _ _ _) (by rw [size_write, hop₁, hsize]) ?_
          (by simp [Leads, hop])
        unfold Carries
        rw [hop]
        dsimp only
        rw [if_pos (by simpa using hbuiltin), hbyte]
        exact ⟨b, hb, by cases b <;> rfl⟩
      · cases h
    · next hbuiltin =>
      split at h
      · next n hn =>
        cases h
        refine emits_operand (appends_write _ _ _) (by rw [size_write, hop₁, hsize]) ?_
          (by simp [Leads, hop])
        unfold Carries
        rw [hop]
        dsimp only
        rw [if_neg (by simpa using hbuiltin), hbyte]
        refine ⟨n, hn, ?_⟩
        exact congrArg some (UInt8.toNat_ofNat_of_lt' (Nat.lt_succ_of_le (bounded?_le hn)))
      · cases h

/-! ### What a statement writes -/

theorem instruction_emits {line function : Nat} {raw : Text} {d d' : Draft}
    {pending : Option Pending}
    (hraw : isInstruction raw = true)
    (h : instruction line function d (instructionOf raw) = .ok (d', pending)) :
    ∃ op t, Instructs raw op t ∧ Emits line op t d d' := by
  unfold instruction at h
  dsimp only at h
  split at h
  · cases h
  · next op hop =>
    split at h
    · cases h
    · next hnone =>
      split at h
      · cases h
      · refine ⟨op, _, ⟨hraw, hop, rfl⟩, operand_emits (fun hoperand => ?_) h⟩
        simpa [hoperand] using hnone

/-- What a statement does to its function. -/
inductive Emission (line : Nat) (raw : Text) (d d' : Draft) : Prop
  /-- A line with a label only. -/
  | marks {label : Text} (hraw : isInstruction raw = false) (hlabel : labelOf? raw = some label)
      (hfresh : d.labels.lookup label = none)
      (h : d' = { d with labels := (label, d.chunk.size) :: d.labels })
  /-- A line without a label. -/
  | plain {op : Opcode} {t : Text} (hlabel : labelOf? raw = none) (hraw : Instructs raw op t)
      (h : Emits line op t d d')
  /-- A label and an instruction. -/
  | marked {op : Opcode} {t label : Text} (hlabel : labelOf? raw = some label)
      (hfresh : d.labels.lookup label = none)
      (hraw : Instructs raw op t)
      (h : Emits line op t { d with labels := (label, d.chunk.size) :: d.labels } d')

theorem statement_emits {line function : Nat} {raw : Text} {d d' : Draft} {pending : Option Pending}
    (hraw : isDirective raw = false) (hcontent : (content raw).isEmpty = false)
    (h : statement line function d (content raw) = .ok (d', pending)) : Emission line raw d d' := by
  unfold statement at h
  split at h
  · next hlabel =>
    have hinstruction : instructionOf raw = content raw := by
      unfold instructionOf
      rw [hlabel]
    rw [← hinstruction] at h hcontent
    obtain ⟨op, t, hinstructs, hemits⟩ :=
      instruction_emits (by simp [isInstruction, hraw, hcontent]) h
    exact .plain (by simp [labelOf?, hraw, hlabel]) hinstructs hemits
  · next label rest hlabel =>
    have hinstruction : instructionOf raw = rest := by
      unfold instructionOf
      rw [hlabel]
    have hlabelOf : labelOf? raw = some label := by simp [labelOf?, hraw, hlabel]
    split at h
    · cases h
    · next hfresh =>
      have hfresh : d.labels.lookup label = none := Option.not_isSome_iff_eq_none.mp hfresh
      dsimp only at h
      rw [← hinstruction] at h
      split at h
      · next hrest =>
        cases h
        exact .marks (by simp [isInstruction, hrest]) hlabelOf hfresh rfl
      · next hrest =>
        obtain ⟨op, t, hinstructs, hemits⟩ :=
          instruction_emits (by simp [isInstruction, hraw, hrest]) h
        exact .marked hlabelOf hfresh hinstructs hemits

end Source

end LoopTracer.Bytecode
