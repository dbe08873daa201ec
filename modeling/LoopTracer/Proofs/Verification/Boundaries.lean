import Mathlib.Algebra.Group.Int.Defs
import Mathlib.Algebra.GroupWithZero.Nat
import LoopTracer.Bytecode.Verify

/-! Instruction boundaries.

Decoding a chunk from its first byte meets an instruction, then the one right behind it, and so
on; `Boundary` says at which offsets. The first pass of verification walks the same offsets. When
it has nothing to complain about, every boundary inside the code is the start of a whole known
instruction whose operand is in range, the pass has marked exactly these offsets, and the last
instruction it saw ends where the code ends (`scan_clean`). -/
namespace LoopTracer.Bytecode

/-- Decoding from `o` on meets a boundary at `i`. -/
inductive Reaches (c : Chunk) : Nat → Nat → Prop
  | here (o : Nat) : Reaches c o o
  | behind {o i : Nat} {b : UInt8} : c.code[o]? = some b → Reaches c (o + byteSize b) i →
      Reaches c o i

/-- An instruction starts at the offset, or the code ends there. -/
def Boundary (c : Chunk) (i : Nat) : Prop := Reaches c 0 i

/-- An instruction starts at the offset. -/
def Starts (c : Chunk) (i : Nat) : Prop := Boundary c i ∧ i < c.size

namespace Chunk

/-- The operation at an offset, if it is a known one. -/
def opcode? (c : Chunk) (i : Nat) : Option Opcode := c.code[i]?.bind Opcode.ofByte?

theorem lt_size_of_opcode? {c : Chunk} {i : Nat} {op : Opcode} (h : c.opcode? i = some op) :
    i < c.size := by
  unfold opcode? at h
  cases hb : c.code[i]? with
  | none => simp [hb] at h
  | some b => exact (getElem?_eq_some_iff.mp hb).1

theorem opcode?_eq_some_iff {c : Chunk} {i : Nat} {op : Opcode} :
    c.opcode? i = some op ↔ ∃ b, c.code[i]? = some b ∧ Opcode.ofByte? b = some op := by
  simp [opcode?, Option.bind_eq_some_iff]

end Chunk

theorem opcode?_eq (c : Chunk) (i : Nat) : c.opcode? i = (c.byte? i).bind Opcode.ofByte? := by
  rw [Chunk.opcode?, Chunk.byte?, if_pos (Int.natCast_nonneg i), Int.toNat_natCast]

theorem byteSize_of_opcode {b : UInt8} {op : Opcode} (h : Opcode.ofByte? b = some op) :
    byteSize b = op.size := by
  simp [byteSize, h]

theorem byteOperand_of_opcode {b : UInt8} {op : Opcode} (h : Opcode.ofByte? b = some op) :
    byteOperand b = op.operand := by
  simp [byteOperand, h]

theorem Reaches.snoc {c : Chunk} {o i : Nat} {b : UInt8} (h : Reaches c o i)
    (hb : c.code[i]? = some b) : Reaches c o (i + byteSize b) := by
  induction h with
  | here o => exact .behind hb (.here _)
  | behind hb' _ ih => exact .behind hb' (ih hb)

theorem Reaches.le {c : Chunk} {o i : Nat} (h : Reaches c o i) : o ≤ i := by
  induction h with
  | here => exact Nat.le_refl _
  | behind _ _ ih => omega

theorem Boundary.next {c : Chunk} {i : Nat} {op : Opcode} (h : Boundary c i)
    (hop : c.opcode? i = some op) : Boundary c (i + op.size) := by
  obtain ⟨b, hb, ho⟩ := Chunk.opcode?_eq_some_iff.mp hop
  rw [← byteSize_of_opcode ho]
  exact Reaches.snoc h hb

/-- A whole instruction with an operand in range. -/
structure Whole (f : Function) (c : Chunk) (i : Nat) (op : Opcode) : Prop where
  opcode : c.opcode? i = some op
  fits : i + op.size ≤ c.size
  operand : operandComplaint? f c op i = none

/-! ### One instruction of the first pass -/

/-- What the pass has found once it went past the whole instruction at an offset. -/
def Scan.past (s : Scan) (f : Function) (c : Chunk) (op : Opcode) (offset : Nat) : Scan :=
  let s := { s with starts := s.starts.set! offset true, last := offset }
  match operandComplaint? f c op offset with
  | some e => { s with complaints := s.complaints.push (offset, e) }
  | none => s

theorem Scan.past_starts (s : Scan) (f : Function) (c : Chunk) (op : Opcode) (offset : Nat) :
    (s.past f c op offset).starts = s.starts.set! offset true := by
  unfold past
  split <;> rfl

theorem Scan.past_last (s : Scan) (f : Function) (c : Chunk) (op : Opcode) (offset : Nat) :
    (s.past f c op offset).last = offset := by
  unfold past
  split <;> rfl

theorem Scan.past_clean {s : Scan} {f : Function} {c : Chunk} {op : Opcode} {offset : Nat}
    (h : (s.past f c op offset).complaints = #[]) :
    s.complaints = #[] ∧ operandComplaint? f c op offset = none := by
  unfold past at h
  split at h
  · simp at h
  · next hn => exact ⟨h, hn⟩

/-- A pass that ends without complaints stands at the end of the code, or went past a whole
instruction. -/
theorem scanFrom_cases {f : Function} {c : Chunk} {fuel offset : Nat} {s : Scan}
    (h : (scanFrom f c (fuel + 1) offset s).complaints = #[]) :
    (c.size ≤ offset ∧ scanFrom f c (fuel + 1) offset s = s) ∨
      ∃ op, c.opcode? offset = some op ∧ offset + op.size ≤ c.size ∧
        scanFrom f c (fuel + 1) offset s =
          scanFrom f c fuel (offset + op.size) (s.past f c op offset) := by
  rw [scanFrom] at h
  cases hb : c.code[offset]? with
  | none =>
    left
    refine ⟨Nat.le_of_not_lt fun hlt => ?_, by rw [scanFrom, hb]⟩
    rw [getElem?_pos c.code offset hlt] at hb
    cases hb
  | some b =>
    rw [hb] at h
    cases ho : Opcode.ofByte? b with
    | none => simp [ho] at h
    | some op =>
      simp only [ho] at h
      by_cases hsize : c.size < offset + op.size
      · simp [hsize] at h
      · right
        refine ⟨op, Chunk.opcode?_eq_some_iff.mpr ⟨b, hb, ho⟩, by omega, ?_⟩
        rw [scanFrom, hb]
        simp only [ho, if_neg hsize]
        rfl

/-- Complaints are never withdrawn. -/
theorem scanFrom_clean {f : Function} {c : Chunk} (fuel offset : Nat) (s : Scan)
    (h : (scanFrom f c fuel offset s).complaints = #[]) : s.complaints = #[] := by
  induction fuel generalizing offset s with
  | zero => exact h
  | succ fuel ih =>
    rcases scanFrom_cases h with ⟨_, he⟩ | ⟨op, _, _, he⟩
    · rwa [he] at h
    · rw [he] at h
      exact (Scan.past_clean (ih _ _ h)).1

theorem Scan.past_broken (s : Scan) (f : Function) (c : Chunk) (op : Opcode) (offset : Nat) :
    (s.past f c op offset).broken = s.broken := by
  unfold past
  split <;> rfl

/-- A pass without complaints is not broken off. -/
theorem scanFrom_unbroken {f : Function} {c : Chunk} (fuel offset : Nat) (s : Scan)
    (h : (scanFrom f c fuel offset s).complaints = #[]) :
    (scanFrom f c fuel offset s).broken = s.broken := by
  induction fuel generalizing offset s with
  | zero => rfl
  | succ fuel ih =>
    rcases scanFrom_cases h with ⟨_, he⟩ | ⟨op, _, _, he⟩
    · rw [he]
    · rw [he] at h ⊢
      rw [ih _ _ h, Scan.past_broken]

/-- Marks are never taken back. -/
theorem scanFrom_keeps {f : Function} {c : Chunk} (fuel offset : Nat) (s : Scan) (i : Nat)
    (h : (scanFrom f c fuel offset s).complaints = #[]) (hi : s.starts[i]? = some true) :
    (scanFrom f c fuel offset s).starts[i]? = some true := by
  induction fuel generalizing offset s with
  | zero => exact hi
  | succ fuel ih =>
    rcases scanFrom_cases h with ⟨_, he⟩ | ⟨op, _, _, he⟩
    · rwa [he]
    · rw [he] at h ⊢
      apply ih _ _ h
      rw [Scan.past_starts, Array.set!_eq_setIfInBounds, Array.getElem?_setIfInBounds]
      have := (getElem?_eq_some_iff.mp hi).1
      split <;> simp_all

/-! ### The whole pass -/

/-- Every boundary from the offset on is a whole instruction and gets marked. -/
theorem scanFrom_whole {f : Function} {c : Chunk} (fuel offset : Nat) (s : Scan)
    (hfuel : c.size ≤ offset + fuel) (hsize : s.starts.size = c.size)
    (h : (scanFrom f c fuel offset s).complaints = #[]) (i : Nat) (hr : Reaches c offset i)
    (hi : i < c.size) :
    (∃ op, Whole f c i op) ∧ (scanFrom f c fuel offset s).starts[i]? = some true := by
  induction fuel generalizing offset s with
  | zero =>
    have := hr.le
    omega
  | succ fuel ih =>
    rcases scanFrom_cases h with ⟨hend, _⟩ | ⟨op, hop, hfits, he⟩
    · have := hr.le
      omega
    · rw [he] at h ⊢
      have hpast := Scan.past_clean (scanFrom_clean _ _ _ h)
      have hpos := op.size_pos
      cases hr with
      | here =>
        refine ⟨⟨op, hop, hfits, hpast.2⟩, scanFrom_keeps _ _ _ _ h ?_⟩
        rw [Scan.past_starts, Array.set!_eq_setIfInBounds, Array.getElem?_setIfInBounds]
        simp [hsize, hi]
      | @behind _ _ b hb hr' =>
        obtain ⟨b', hb', ho⟩ := Chunk.opcode?_eq_some_iff.mp hop
        obtain rfl : b' = b := Option.some.inj (hb'.symm.trans hb)
        rw [byteSize_of_opcode ho] at hr'
        refine ih _ _ (by omega) ?_ h hr'
        rw [Scan.past_starts]
        simp [hsize]

/-- Nothing but boundaries from the offset on gets marked. -/
theorem scanFrom_marks {f : Function} {c : Chunk} (fuel offset : Nat) (s : Scan)
    (h : (scanFrom f c fuel offset s).complaints = #[]) (i : Nat)
    (hi : (scanFrom f c fuel offset s).starts[i]? = some true) :
    s.starts[i]? = some true ∨ Reaches c offset i := by
  induction fuel generalizing offset s with
  | zero => exact .inl hi
  | succ fuel ih =>
    rcases scanFrom_cases h with ⟨_, he⟩ | ⟨op, hop, _, he⟩
    · rw [he] at hi
      exact .inl hi
    · rw [he] at h hi
      obtain ⟨b, hb, ho⟩ := Chunk.opcode?_eq_some_iff.mp hop
      rcases ih _ _ h hi with hs | hr
      · rw [Scan.past_starts, Array.set!_eq_setIfInBounds, Array.getElem?_setIfInBounds] at hs
        by_cases hoff : offset = i
        · subst hoff
          exact .inr (.here _)
        · rw [if_neg hoff] at hs
          exact .inl hs
      · exact .inr (.behind hb (by rw [byteSize_of_opcode ho]; exact hr))

/-- An instruction that ends where the code ends is the last one the pass saw. -/
theorem scanFrom_last {f : Function} {c : Chunk} (fuel offset : Nat) (s : Scan)
    (hfuel : c.size ≤ offset + fuel) (h : (scanFrom f c fuel offset s).complaints = #[]) {i : Nat}
    {op : Opcode} (hr : Reaches c offset i) (hop : c.opcode? i = some op)
    (hend : i + op.size = c.size) : (scanFrom f c fuel offset s).last = i := by
  have hi := Chunk.lt_size_of_opcode? hop
  induction fuel generalizing offset s with
  | zero =>
    have := hr.le
    omega
  | succ fuel ih =>
    rcases scanFrom_cases h with ⟨hover, _⟩ | ⟨op', hop', hfits, he⟩
    · have := hr.le
      omega
    · rw [he] at h ⊢
      have hpos := op'.size_pos
      cases hr with
      | here =>
        obtain rfl : op = op' := Option.some.inj (hop.symm.trans hop')
        -- Nothing is left of the code, so the rest of the pass changes nothing.
        rw [hend] at h ⊢
        cases fuel with
        | zero => exact Scan.past_last ..
        | succ fuel =>
          rcases scanFrom_cases h with ⟨_, he'⟩ | ⟨beyond, _, hover, _⟩
          · rw [he']
            exact Scan.past_last ..
          · have := beyond.size_pos
            omega
      | @behind _ _ b hb hr' =>
        obtain ⟨b', hb', ho⟩ := Chunk.opcode?_eq_some_iff.mp hop'
        obtain rfl : b' = b := Option.some.inj (hb'.symm.trans hb)
        rw [byteSize_of_opcode ho] at hr'
        exact ih _ _ (by omega) h hr'

theorem scanFrom_starts_size {f : Function} {c : Chunk} (fuel offset : Nat) (s : Scan) :
    (scanFrom f c fuel offset s).starts.size = s.starts.size := by
  induction fuel generalizing offset s with
  | zero => rfl
  | succ fuel ih =>
    rw [scanFrom]
    split
    · rfl
    · split
      · rfl
      · split
        · rfl
        · rw [ih]
          split <;> simp

theorem scan_starts_size (f : Function) (c : Chunk) : (scan f c).starts.size = c.size := by
  rw [scan, scanFrom_starts_size]
  simp

/-- What a first pass without complaints has established about a chunk. -/
structure Clean (f : Function) (c : Chunk) : Prop where
  complaints : (scan f c).complaints = #[]
  nonempty : 0 < c.size

namespace Clean

variable {f : Function} {c : Chunk}

theorem whole (h : Clean f c) {i : Nat} (hi : Starts c i) : ∃ op, Whole f c i op :=
  (scanFrom_whole _ _ _ (by omega) (by simp) h.complaints i hi.1 hi.2).1

theorem isStart_iff (h : Clean f c) (place : Int) :
    (scan f c).isStart place = true ↔ ∃ i : Nat, place = i ∧ Starts c i := by
  unfold Scan.isStart
  constructor
  · intro hs
    simp only [Bool.and_eq_true, decide_eq_true_eq] at hs
    refine ⟨place.toNat, by omega, ?_⟩
    have hmark : (scan f c).starts[place.toNat]? = some true := by
      cases hm : (scan f c).starts[place.toNat]? with
      | none => simp [hm] at hs
      | some b => simpa [hm] using hs.2
    rcases scanFrom_marks _ _ _ h.complaints _ hmark with hn | hr
    · simp [Array.getElem?_replicate] at hn
    · refine ⟨hr, ?_⟩
      have hlt := (getElem?_eq_some_iff.mp hmark).1
      rwa [scan_starts_size] at hlt
  · rintro ⟨i, rfl, hi⟩
    have := (scanFrom_whole _ _ _ (by omega) (by simp) h.complaints i hi.1 hi.2).2
    simp [scan, this]

theorem eq_last (h : Clean f c) {i : Nat} {op : Opcode} (hi : Starts c i)
    (hop : c.opcode? i = some op) (hend : i + op.size = c.size) : (scan f c).last = i :=
  scanFrom_last _ _ _ (by omega) h.complaints hi.1 hop hend

end Clean

/-! ### Reading a whole instruction -/

namespace Chunk

theorem byte?_of_lt {c : Chunk} {i : Nat} (h : i < c.size) : ∃ b, c.byte? (i : Int) = some b := by
  refine ⟨c.code[i], ?_⟩
  rw [byte?, if_pos (by omega), Int.toNat_natCast, getElem?_pos c.code i h]

theorem u16?_of_lt {c : Chunk} {i : Nat} (h : i + 1 < c.size) : ∃ n, c.u16? (i : Int) = some n := by
  obtain ⟨hi, hhi⟩ := byte?_of_lt (c := c) (i := i) (by omega)
  obtain ⟨lo, hlo⟩ := byte?_of_lt h
  push_cast at hlo
  exact ⟨_, by rw [u16?, hhi, hlo]; rfl⟩

/-- Where the instruction at an offset jumps; `-1` where none does. -/
def jumpTarget (c : Chunk) (i : Nat) : Int := (c.target? i).getD (-1)

end Chunk

namespace Whole

variable {f : Function} {c : Chunk} {i : Nat} {op : Opcode}

theorem lt_size (h : Whole f c i op) : i < c.size := Chunk.lt_size_of_opcode? h.opcode

theorem byte (h : Whole f c i op) :
    ∃ b, c.code[i]? = some b ∧ c.byte? (i : Int) = some b ∧ Opcode.ofByte? b = some op := by
  obtain ⟨b, hb, ho⟩ := Chunk.opcode?_eq_some_iff.mp h.opcode
  exact ⟨b, hb, by rw [Chunk.byte?, if_pos (by omega), Int.toNat_natCast, hb], ho⟩

/-- An operand of two bytes can be read. -/
theorem word (h : Whole f c i op) (hsize : op.size = 3) : ∃ n, c.u16? ((i : Int) + 1) = some n := by
  have hfits := h.fits
  exact_mod_cast Chunk.u16?_of_lt (c := c) (i := i + 1) (by omega)

theorem target (h : Whole f c i op) : c.target? i = some (c.jumpTarget i) := by
  obtain ⟨b, -, hb, ho⟩ := h.byte
  have hsome : ∃ t, c.target? i = some t := by
    unfold Chunk.target?
    rw [hb, Option.bind_eq_bind, Option.bind_some, byteOperand_of_opcode ho]
    split
    · next hop =>
      obtain ⟨n, hn⟩ := h.word (by simp [Opcode.size, hop])
      exact ⟨_, by rw [Chunk.i16?, hn]; rfl⟩
    · next hop =>
      obtain ⟨n, hn⟩ := h.word (by simp [Opcode.size, hop])
      exact ⟨_, by rw [hn]; rfl⟩
    · exact ⟨-1, rfl⟩
  obtain ⟨t, ht⟩ := hsome
  rw [Chunk.jumpTarget, ht]
  rfl

/-- The pool has the constant that an instruction names. -/
theorem constant (h : Whole f c i op) (hop : op.operand = .const) :
    ∃ n, c.u16? ((i : Int) + 1) = some n ∧ n.toNat < c.constants.size := by
  obtain ⟨n, hn⟩ := h.word (by simp [Opcode.size, hop])
  have hclean := h.operand
  refine ⟨n, hn, ?_⟩
  unfold operandComplaint? at hclean
  rw [hop, hn] at hclean
  simpa using hclean

/-- The function has the local that an instruction names. -/
theorem slot (h : Whole f c i op) (hop : op.operand = .slot) :
    ∃ n, c.u16? ((i : Int) + 1) = some n ∧ (n.toNat : Int) < f.locals := by
  obtain ⟨n, hn⟩ := h.word (by simp [Opcode.size, hop])
  have hclean := h.operand
  refine ⟨n, hn, ?_⟩
  unfold operandComplaint? at hclean
  rw [hop, hn] at hclean
  simpa using hclean

theorem arg (h : Whole f c i op) (hop : op.operand = .byte) :
    ∃ b, c.byte? ((i : Int) + 1) = some b := by
  have hfits := h.fits
  have hsize : op.size = 2 := by simp [Opcode.size, hop]
  exact_mod_cast Chunk.byte?_of_lt (c := c) (i := i + 1) (by omega)

/-- There is a builtin of the number that an instruction names. -/
theorem builtin (h : Whole f c i .builtin) :
    ∃ b n, c.byte? ((i : Int) + 1) = some b ∧ Builtin.ofByte? b = some n := by
  obtain ⟨b, hb⟩ := h.arg rfl
  have hclean := h.operand
  simp only [operandComplaint?, Opcode.operand, hb] at hclean
  cases hn : Builtin.ofByte? b with
  | none => simp [hn] at hclean
  | some n => exact ⟨b, n, hb, hn⟩

end Whole

end LoopTracer.Bytecode
