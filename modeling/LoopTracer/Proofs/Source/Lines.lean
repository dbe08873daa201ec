import LoopTracer.Proofs.Image.Sources

/-! What a line of source adds.

A line of a text is blank, a directive or a statement. `constOperand?` reads the operand of a `const`
instruction off a line alone, without a state. `line_adds` says once what reading a line does: a
directive ends a function and begins another one, a `const` writes three bytes and adds at most one
constant, and any other statement writes bytes that belong to its line and leaves the constants. -/
namespace LoopTracer.Bytecode.Source

/-! ### Lines on their own -/

/-- What a line holds besides blanks and its comment. -/
def content (raw : Text) : Text := (Text.ofList (stripComment raw.toList)).trim

def isDirective (raw : Text) : Bool := (content raw).startsWith "."

/-- The instruction of a line, which may stand behind a label. -/
def instructionOf (raw : Text) : Text :=
  match splitLabel? (content raw) with
  | none => content raw
  | some (_, rest) => rest

/-- The operand of a line that is a `const` instruction. -/
def constOperand? (raw : Text) : Option Text :=
  if isDirective raw then none
  else if Opcode.ofMnemonic? (splitWord (instructionOf raw)).1.lower = some .const then
    some (splitWord (instructionOf raw)).2
  else none

theorem eq_empty_of_isEmpty {t : Text} (h : t.isEmpty = true) : t = ∅ := by
  have hsize : t.bytes.size = 0 := by simpa [Text.isEmpty, ByteArray.isEmpty] using h
  exact congrArg Text.mk (ByteArray.size_eq_zero_iff.mp hsize)

theorem constOperand?_of_isEmpty {raw : Text} (h : (instructionOf raw).isEmpty = true) :
    constOperand? raw = none := by
  have hword : Opcode.ofMnemonic? (splitWord ∅).1.lower = none := by decide +kernel
  unfold constOperand?
  rw [eq_empty_of_isEmpty h, hword]
  simp

/-! ### Code that is added -/

/-- The bytes of one line are left alone: no other byte gets this line, and its bytes stay. -/
structure Leaves (line : Nat) (c c' : Chunk) : Prop where
  lines : ∀ i : Nat, c'.lines[i]? = some (line : Int) ↔ c.lines[i]? = some (line : Int)
  bytes : ∀ i : Nat, c.lines[i]? = some (line : Int) → c'.byte? i = c.byte? i

theorem Leaves.refl (line : Nat) (c : Chunk) : Leaves line c c := ⟨fun _ => .rfl, fun _ _ => rfl⟩

theorem Leaves.trans {line : Nat} {c c' c'' : Chunk} (h : Leaves line c c')
    (h' : Leaves line c' c'') : Leaves line c c'' :=
  ⟨fun i => (h'.lines i).trans (h.lines i),
    fun i hi => (h'.bytes i ((h.lines i).mpr hi)).trans (h.bytes i hi)⟩

variable {c c' : Chunk} {line : Nat}

theorem byte?_write (b : UInt8) (n : Int) (i : Nat) :
    (c.write b n).byte? i = if i = c.size then some b else c.byte? i := by
  unfold Chunk.byte? Chunk.write Chunk.size
  rw [if_pos (Int.natCast_nonneg i), if_pos (Int.natCast_nonneg i)]
  show (c.code.data.push b)[i]? = if i = c.code.data.size then some b else c.code.data[i]?
  rw [Array.getElem?_push]

theorem size_write (b : UInt8) (n : Int) : (c.write b n).size = c.size + 1 := ByteArray.size_push

theorem lines_write (b : UInt8) (n : Int) (i : Nat) :
    (c.write b n).lines[i]? = if i = c.lines.size then some n else c.lines[i]? :=
      Array.getElem?_push

/-- Bytes of a line are put behind the code. -/
structure Adds (line : Nat) (c c' : Chunk) : Prop where
  paired : c.lines.size = c.size → c'.lines.size = c'.size
  own : ∀ x ∈ c'.lines, x ∈ c.lines ∨ x = (line : Int)
  old : ∀ (i : Nat) x, c.lines[i]? = some x → c'.lines[i]? = some x
  leaves : c.lines.size = c.size → ∀ other, other ≠ line → Leaves other c c'

theorem Adds.refl (line : Nat) (c : Chunk) : Adds line c c :=
  ⟨id, fun _ => .inl, fun _ _ => id, fun _ _ _ => .refl _ _⟩

theorem Adds.trans {c'' : Chunk} (h : Adds line c c')
    (h' : Adds line c' c'') : Adds line c c'' where
  paired := h'.paired ∘ h.paired
  own x hx := (h'.own x hx).elim (h.own x) .inr
  old i x hx := h'.old i x (h.old i x hx)
  leaves hpaired other hother :=
    (h.leaves hpaired other hother).trans (h'.leaves (h.paired hpaired) other hother)

theorem adds_write (c : Chunk) (b : UInt8) (line : Nat) : Adds line c (c.write b line) where
  paired h := by
    rw [size_write]
    exact Array.size_push .. |>.trans (by rw [h])
  own x hx := Array.mem_push.mp hx
  old i x hx := by
    have hi := (Array.getElem?_eq_some_iff.mp hx).1
    rw [lines_write, if_neg (by omega), hx]
  leaves hpaired other hother := by
    constructor
    · intro i
      rw [lines_write]
      split
      · next hi =>
        subst hi
        constructor
        · intro h
          have : (line : Int) = other := Option.some.inj h
          omega
        · intro h
          have := (Array.getElem?_eq_some_iff.mp h).1
          omega
      · rfl
    · intro i hi
      have := (Array.getElem?_eq_some_iff.mp hi).1
      rw [byte?_write, if_neg (by omega)]

theorem adds_writeU16 (c : Chunk) (n : UInt16) (line : Nat) : Adds line c (c.writeU16 n line) :=
  (adds_write c _ line).trans (adds_write _ _ line)

/-- The constants of code do not matter to its bytes. -/
theorem adds_constants (c : Chunk) (constants : Array Value) (line : Nat) :
    Adds line c { c with constants } :=
  ⟨id, fun _ => .inl, fun _ _ => id, fun _ _ _ => ⟨fun _ => .rfl, fun _ _ => rfl⟩⟩

/-- The bytes of a line are a `const` instruction with a place in the pool. -/
structure Stands (c : Chunk) (line : Nat) (index : UInt16) : Prop where
  emitted : ∃ o : Nat, (∀ i : Nat, c.lines[i]? = some (line : Int) ↔ o ≤ i ∧ i < o + 3) ∧
    c.byte? o = some Opcode.const.toByte ∧ c.u16? (o + 1) = some index

theorem Stands.leaves {index : UInt16} (h : Stands c line index)
    (hl : Leaves line c c') : Stands c' line index := by
  obtain ⟨o, hlines, hbyte, hindex⟩ := h.emitted
  have hsame : ∀ i : Nat, o ≤ i → i < o + 3 → c'.byte? i = c.byte? i := fun i hlo hhi =>
    hl.bytes i ((hlines i).mpr ⟨hlo, hhi⟩)
  refine ⟨o, fun i => (hl.lines i).trans (hlines i), ?_, ?_⟩
  · rw [hsame o (by omega) (by omega)]
    exact hbyte
  · have h₁ : c'.byte? (o + 1) = c.byte? (o + 1) := by
      exact_mod_cast hsame (o + 1) (by omega) (by omega)
    have h₂ : c'.byte? (o + 1 + 1) = c.byte? (o + 1 + 1) := by
      exact_mod_cast hsame (o + 2) (by omega) (by omega)
    rw [← hindex, Chunk.u16?, Chunk.u16?, h₁, h₂]

theorem join_bytes (n : UInt16) :
    ((n >>> 8).toUInt8.toUInt16 <<< 8) ||| n.toUInt8.toUInt16 = n := by
  apply UInt16.toNat_inj.mp
  have hlow : n.toNat % 256 < 2 ^ 8 := Nat.mod_lt _ (by decide)
  have hhigh : n.toNat / 256 < 256 := by
    have := n.toNat_lt
    omega
  simp only [UInt16.toNat_or, UInt16.toNat_shiftLeft, UInt8.toNat_toUInt16, UInt16.toNat_toUInt8,
    UInt16.toNat_shiftRight,
    UInt16.reduceToNat, Nat.reduceMod, Nat.reducePow, Nat.shiftRight_eq_div_pow]
  rw [Nat.mod_eq_of_lt hhigh, Nat.mod_eq_of_lt (by rw [Nat.shiftLeft_eq]; omega),
    ← Nat.shiftLeft_add_eq_or_of_lt hlow,
    Nat.shiftLeft_eq]
  omega

/-- A `const` instruction is written, whatever it does to the pool. -/
def writeConst (c : Chunk) (constants : Array Value) (index : UInt16) (line : Nat) : Chunk :=
  Chunk.writeU16 { c.writeOp .const line with constants } index line

theorem adds_writeConst (c : Chunk) (constants : Array Value) (index : UInt16) (line : Nat) :
    Adds line c (writeConst c constants index line) :=
  ((adds_write c _ line).trans (adds_constants _ constants line)).trans (adds_writeU16 _ index line)

/-- A `const` instruction that is written stands there, if its line is a new one. -/
theorem stands_written (hpaired : c.lines.size = c.size) (hnew : ∀ x ∈ c.lines, x ≠ (line : Int))
    (constants : Array Value)
    (index : UInt16) : Stands (writeConst c constants index line) line index := by
  have hlines : ∀ i : Nat, (writeConst c constants index line).lines[i]? =
      if i = c.size + 2 then some (line : Int) else if i = c.size + 1 then some (line : Int)
        else if i = c.size then some (line : Int) else c.lines[i]? := by
    intro i
    show (((c.lines.push _).push _).push _)[i]? = _
    rw [Array.getElem?_push, Array.getElem?_push, Array.getElem?_push, Array.size_push,
      Array.size_push, hpaired]
  have hbytes : ∀ i : Nat, (writeConst c constants index line).byte? i =
      if i = c.size + 2 then some index.toUInt8 else if i = c.size + 1
        then some (index >>> 8).toUInt8
        else if i = c.size then some Opcode.const.toByte else c.byte? i := by
    intro i
    unfold writeConst Chunk.writeU16
    rw [byte?_write, byte?_write, size_write]
    show (if i = (c.writeOp .const line).size + 1 then _
      else if i = (c.writeOp .const line).size then _
      else (c.write Opcode.const.toByte line).byte? i) = _
    rw [byte?_write, show (c.writeOp .const line).size = c.size + 1 from size_write _ _]
  refine ⟨c.size, fun i => ?_, ?_, ?_⟩
  · rw [hlines]
    have hold : c.lines[i]? ≠ some (line : Int) := fun h => hnew _ (Array.mem_of_getElem? h) rfl
    split_ifs <;> simp [hold] <;> omega
  · rw [hbytes, if_neg (by omega), if_neg (by omega), if_pos rfl]
  · have h₁ := hbytes (c.size + 1)
    have h₂ := hbytes (c.size + 2)
    rw [if_neg (by omega), if_pos rfl] at h₁
    rw [if_pos rfl] at h₂
    rw [Chunk.u16?, show ((c.size : Int) + 1 + 1) = ((c.size + 2 : Nat) : Int) by omega,
      show (c.size : Int) + 1 = ((c.size + 1 : Nat) : Int) from rfl, h₁, h₂]
    exact congrArg some (join_bytes index)

/-! ### Statements -/

/-- A value is in the pool: an identical one is used again, and a new one is put behind the others. -/
inductive Pooled (constants : Array Value) (v : Value) : Array Value → UInt16 → Prop
  | found {i : Nat} (h : constants.findIdx? (·.identical v) = some i) :
      Pooled constants v constants i.toUInt16
  | added (h : constants.findIdx? (·.identical v) = none) :
      Pooled constants v (constants.push v) constants.size.toUInt16

/-- What a statement makes of the function that it belongs to. -/
inductive Stated (line function : Nat) (raw : Text) (d : Draft) : Draft → Option Pending → Prop
  | other {labels : List (Text × Nat)} {chunk : Chunk} {fixups : Array Fixup}
      (ht : constOperand? raw = none)
      (hadds : Adds line d.chunk chunk) (hconstants : chunk.constants = d.chunk.constants)
      (hfixups : ∀ f ∈ fixups, f ∈ d.fixups ∨ f.line = line ∧ ∀ k, k = 1 ∨ k = 2 →
        d.chunk.lines.size = d.chunk.size →
        chunk.lines[f.place + k]? = some (line : Int)) :
      Stated line function raw d { d with labels, chunk, fixups } none
  | value {t : Text} {v : Value} {index : UInt16} {labels : List (Text × Nat)}
      {constants : Array Value}
      (ht : constOperand? raw = some t) (hl : literal t = .ok (.value v))
      (hpooled : Pooled d.chunk.constants v constants index) (hfew : constants.size ≤ 65536) :
      Stated line function raw d
        { d with labels, chunk := writeConst d.chunk constants index line } none
  | function {t name : Text} {index : UInt16} {labels : List (Text × Nat)}
      (ht : constOperand? raw = some t) (hl : literal t = .ok (.function name))
      (hindex : index = d.chunk.constants.size.toUInt16) (hfew : d.chunk.constants.size < 65536) :
      Stated line function raw d
        { d with labels, chunk := writeConst d.chunk (d.chunk.constants.push .null) index line }
        (some { function, index, name, line })

theorem pooled_addConstant (c : Chunk) (v : Value) :
    ∃ constants index, c.addConstant v = ({ c with constants }, index) ∧
    Pooled c.constants v constants index := by
  unfold Chunk.addConstant
  cases h : c.constants.findIdx? (·.identical v) with
  | some i => exact ⟨_, _, rfl, .found h⟩
  | none => exact ⟨_, _, rfl, .added h⟩

/-- What an operand makes of a function whose line is `raw`. -/
theorem operand_states {line function : Nat} {raw : Text} {d : Draft} {labels : List (Text × Nat)}
    {op : Opcode} {t : Text}
    (ht : constOperand? raw = if op = .const then some t else none) {d' : Draft}
    {pending : Option Pending}
    (h : operand line function { d with labels, chunk := d.chunk.writeOp op line } op d.chunk.size
      t = .ok (d', pending)) :
    Stated line function raw d d' pending := by
  have other : ∀ {c : Chunk}, op ≠ .const → Adds line (d.chunk.writeOp op line) c →
    c.constants = d.chunk.constants →
      Stated line function raw d { d with labels, chunk := c } none := by
    intro c hop hadds hconstants
    rw [if_neg hop] at ht
    exact .other ht ((adds_write _ _ _).trans hadds) hconstants fun f hf => .inl hf
  have jump : op ≠ .const → Stated line function raw d { d with
      labels, fixups := d.fixups.push ⟨d.chunk.size, t, line⟩, chunk :=
        (d.chunk.writeOp op line).writeU16 0 line } none := by
    intro hop
    rw [if_neg hop] at ht
    refine .other ht ((adds_write _ _ _).trans (adds_writeU16 _ _ _)) rfl fun f hf => ?_
    rcases Array.mem_push.mp hf with hf | rfl
    · exact .inl hf
    · refine .inr ⟨rfl, fun k hk hpaired => ?_⟩
      show (((d.chunk.lines.push _).push _).push _)[d.chunk.size + k]? = _
      rw [Array.getElem?_push, Array.getElem?_push, Array.size_push, Array.size_push, hpaired]
      rcases hk with rfl | rfl
      all_goals simp
  unfold operand at h
  cases hop : op.operand with
  | none =>
    rw [hop] at h
    cases h
    exact other (by rintro rfl; cases hop) (.refl _ _) rfl
  | const =>
    obtain rfl : op = .const := by cases op <;> first | rfl | cases hop
    rw [if_pos rfl] at ht
    rw [hop] at h
    cases hl : literal t with
    | error e =>
      rw [hl] at h
      cases h
    | ok l =>
      rw [hl] at h
      cases l with
      | value v =>
        dsimp only at h
        obtain ⟨constants, index, hadd, hpooled⟩ :=
          pooled_addConstant (d.chunk.writeOp .const line) v
        split at h
        · cases h
        · next hfew =>
          cases h
          rw [hadd] at hfew ⊢
          exact .value ht hl hpooled (Nat.le_of_not_lt hfew)
      | function name =>
        dsimp only at h
        split at h
        · cases h
        · next hfew =>
          cases h
          refine .function ht hl rfl ?_
          replace hfew : ¬ 65536 < (d.chunk.constants.push .null).size := hfew
          rw [Array.size_push] at hfew
          omega
  | slot =>
    have hne : op ≠ .const := by rintro rfl; cases hop
    rw [hop] at h
    dsimp only at h
    split at h
    · cases h
      exact other hne (adds_writeU16 _ _ _) rfl
    · cases h
  | jump =>
    rw [hop] at h
    cases h
    exact jump (by rintro rfl; cases hop)
  | loop =>
    rw [hop] at h
    cases h
    exact jump (by rintro rfl; cases hop)
  | byte =>
    have hne : op ≠ .const := by rintro rfl; cases hop
    rw [hop] at h
    dsimp only at h
    split at h
    · split at h
      · cases h
        exact other hne (adds_write _ _ _) rfl
      · cases h
    · split at h
      · cases h
        exact other hne (adds_write _ _ _) rfl
      · cases h

/-- What the instruction of a line makes of its function. -/
theorem instruction_states {line function : Nat} {raw : Text} {d : Draft}
    (labels : List (Text × Nat))
    (hraw : isDirective raw = false) {d' : Draft} {pending : Option Pending}
    (h : instruction line function { d with labels } (instructionOf raw) = .ok (d', pending)) :
    Stated line function raw d d' pending := by
  unfold instruction at h
  dsimp only at h
  split at h
  · cases h
  · next op hop =>
    split at h
    · cases h
    · split at h
      · cases h
      · have hconst : constOperand? raw = if op = .const
            then some (splitWord (instructionOf raw)).2 else none := by
          unfold constOperand?
          rw [hraw, hop]
          simp
        exact operand_states hconst h

theorem statement_states {line function : Nat} {raw : Text} {d : Draft}
    (hraw : isDirective raw = false) {d' : Draft}
    {pending : Option Pending} (h : statement line function d (content raw) = .ok (d', pending)) :
    Stated line function raw d d' pending := by
  unfold statement at h
  split at h
  · next hlabel =>
    refine instruction_states d.labels hraw ?_
    unfold instructionOf
    rw [hlabel]
    exact h
  · next label rest hlabel =>
    split at h
    · cases h
    · dsimp only at h
      split at h
      · next hrest =>
        cases h
        refine .other ?_ (.refl _ _) rfl fun f hf => .inl hf
        exact constOperand?_of_isEmpty (by unfold instructionOf; rw [hlabel]; exact hrest)
      · refine instruction_states ((label, d.chunk.size) :: d.labels) hraw ?_
        unfold instructionOf
        rw [hlabel]
        exact h

/-! ### Lines in a text -/

/-- What a line makes of the functions that were read before. -/
inductive Lined (line : Nat) (raw : Text) (s : State) : State → Prop
  | blank (hraw : isDirective raw = false) (ht : constOperand? raw = none) : Lined line raw s s
  | begun {s' : State} {name : Text} {arity locals : Nat} (hraw : isDirective raw = true)
      (hfinish : s.finish = .ok s')
      (hname : ∀ f ∈ s'.functions, f.name ≠ name) :
      Lined line raw s { s' with draft := some { name, arity, locals } }
  | stated {d d' : Draft} {pending : Option Pending} (hraw : isDirective raw = false)
      (hdraft : s.draft = some d)
      (hstated : Stated line s.functions.size raw d d' pending) :
      Lined line raw s { s with draft := some d', pending := s.pending ++ pending.toArray }

theorem finish_answers (s : State) :
    Answers (fun _ => True) s.finish fun s' => s.finish = .ok s' := by
  cases h : s.finish with
  | error e => trivial
  | ok s' => rfl

theorem directive_begins {line : Nat} {raw : Text} (s : State) (hraw : isDirective raw = true) :
    Answers (fun _ => True) (s.directive line (content raw)) (Lined line raw s) := by
  unfold State.directive
  dsimp only
  split
  · trivial
  · split
    case h_3 => trivial
    all_goals
      show Answers _ (s.finish >>= _) _
      refine (finish_answers s).bind fun s' hs' => ?_
      dsimp only
      split
      · trivial
      · next hname =>
        have hname : ∀ f ∈ s'.functions, f.name ≠ _ := fun f hf hf' =>
          hname (Array.any_eq_true'.mpr ⟨f, hf, beq_iff_eq.mpr hf'⟩)
        split
        · first
          | exact .begun hraw hs' hname
          | split
            · exact .begun hraw hs' hname
            · trivial
        · trivial

theorem line_adds {line : Nat} {raw : Text} {s s' : State}
    (h : s.line line raw = .ok s') : Lined line raw s s' := by
  unfold State.line at h
  dsimp only at h
  split at h
  · next hempty =>
    cases h
    have hcontent : content raw = ∅ := eq_empty_of_isEmpty hempty
    refine .blank ?_ (constOperand?_of_isEmpty ?_)
    · unfold isDirective
      rw [hcontent]
      decide
    · unfold instructionOf
      rw [hcontent]
      decide
  · split at h
    · next hraw =>
      have hbegins := @directive_begins line raw s hraw
      rw [show s.directive line (content raw) = .ok s' from h] at hbegins
      exact hbegins
    · next hraw =>
      replace hraw : isDirective raw = false := by rw [← Bool.not_eq_true]; exact hraw
      split at h
      · cases h
      · next d hdraft =>
        split at h
        · cases h
        · next d' pending hx =>
          cases h
          exact .stated hraw hdraft (statement_states hraw hx)

/-- What holds at the start and is kept by every line holds when all lines of a text are read. -/
theorem read_lines {P : Nat → State → Prop} {lines : List Text} (hstart : P 0 {})
    (hline : ∀ m raw s s', lines[m]? = some raw → P m s →
      s.line (m + 1) raw = .ok s' → P (m + 1) s') {s : State} {count : Nat}
    (h : lines.foldlM (fun ((s, n) : State × Nat) raw => do return (← s.line n raw, n + 1))
      ({}, 1) = .ok (s, count)) :
    P lines.length s := by
  have hfold : ∀ (rest : List Text) (m : Nat) (s₀ : State), lines.drop m = rest →
    m ≤ lines.length → P m s₀ →
      rest.foldlM (fun ((s, n) : State × Nat) raw => do return (← s.line n raw, n + 1))
        (s₀, m + 1) = .ok (s, count) →
      P lines.length s := by
    intro rest
    induction rest with
    | nil =>
      intro m s₀ hdrop hm h₀ hs
      cases hs
      rwa [show m = lines.length from Nat.le_antisymm hm (List.drop_eq_nil_iff.mp hdrop)] at h₀
    | cons raw rest ih =>
      intro m s₀ hdrop hm h₀ hs
      obtain ⟨⟨s₁, n⟩, hfirst, hs⟩ := answer_eq_ok hs
      obtain ⟨_, hfirst', heq⟩ := answer_eq_ok hfirst
      cases heq
      have hraw : lines[m]? = some raw := by
        rw [← List.head?_drop, hdrop]
        rfl
      refine ih (m + 1) s₁ ?_ ?_ (hline m raw s₀ s₁ hraw h₀ hfirst') hs
      · rw [← List.tail_drop, hdrop]
        rfl
      · exact (List.getElem?_eq_some_iff.mp hraw).1
  exact hfold lines 0 {} rfl (Nat.zero_le _) hstart h

end LoopTracer.Bytecode.Source
