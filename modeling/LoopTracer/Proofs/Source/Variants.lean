import LoopTracer.Proofs.Source.Placement

/-! Texts that differ in constants.

Whether a text is read without an error does not depend on what its constants are, but for the
number of them that a function can have. Two texts that differ in the values that some lines load
are read side by side: the states stay `Twin`, so what is read in one is read in the other while its
pools have room (`parse_twin`). -/
namespace LoopTracer.Bytecode.Source

variable {line function : Nat} {raw raw' t t' : Text} {lines lines' : List Text} {m n k : Nat}

/-! ### Lines -/

/-- A line without a label that loads a value. -/
structure Loads (raw : Text) (v : Value) : Prop where
  label : labelOf? raw = none
  instructs : ∃ t, Instructs raw .const t ∧ literal t = .ok (.value v)

/-- The same line, or one that loads another value. -/
def Variant (raw raw' : Text) : Prop := raw' = raw ∨ ∃ u v, Loads raw u ∧ Loads raw' v

theorem Instructs.directive {op : Opcode} (h : Instructs raw op t) : isDirective raw = false := by
  have hinstruction := h.instruction
  unfold isInstruction at hinstruction
  rw [Bool.and_eq_true, Bool.not_eq_true'] at hinstruction
  exact hinstruction.1

theorem Instructs.constOperand? (h : Instructs raw .const t) : constOperand? raw = some t := by
  rw [Source.constOperand?, h.directive, if_neg Bool.false_ne_true, if_pos h.opcode, ← h.operand]

theorem Variant.directive (h : Variant raw raw') : isDirective raw' = isDirective raw := by
  obtain rfl | ⟨u, v, ⟨-, t, hold, -⟩, ⟨-, t', hnew, -⟩⟩ := h
  · rfl
  · rw [hold.directive, hnew.directive]

theorem Variant.instruction (h : Variant raw raw') : isInstruction raw' = isInstruction raw := by
  obtain rfl | ⟨u, v, ⟨-, t, hold, -⟩, ⟨-, t', hnew, -⟩⟩ := h
  · rfl
  · rw [hold.instruction, hnew.instruction]

theorem Variant.label (h : Variant raw raw') : labelOf? raw' = labelOf? raw := by
  obtain rfl | ⟨u, v, hold, hnew⟩ := h
  · rfl
  · rw [hold.label, hnew.label]

/-- What a line is in one text it is in the other. -/
theorem variants_map {β : Type} {g : Text → β} (hg : ∀ raw raw', Variant raw raw' → g raw' = g raw)
    (h : List.Forall₂ Variant lines lines') : lines'.map g = lines.map g := by
  induction h with
  | nil => rfl
  | cons hraw _ ih => rw [List.map_cons, List.map_cons, hg _ _ hraw, ih]

theorem variants_belongs (h : List.Forall₂ Variant lines lines') :
    Belongs lines' n k ↔ Belongs lines n k := by
  have hcount (l : List Text) : (l.take n).countP isDirective =
      ((l.map isDirective).take n).countP id := by
    rw [← List.map_take, List.countP_map]
    rfl
  rw [Belongs, Belongs, hcount, hcount, variants_map (fun _ _ => Variant.directive) h]

/-! ### Pools -/

/-- The pool after one more `const`. -/
def addLiteral (constants : Array Value) : Literal → Array Value
  | .value v => if (constants.findIdx? (·.identical v)).isSome then constants else constants.push v
  | .function _ => constants.push .null

theorem Pooled.eq_addLiteral {constants constants' : Array Value} {v : Value} {index : UInt16}
    (h : Pooled constants v constants' index) : constants' = addLiteral constants (.value v) := by
  cases h with
  | found h =>
    rw [addLiteral, h]
    rfl
  | added h =>
    rw [addLiteral, h]
    rfl

theorem size_addLiteral (constants : Array Value) (l : Literal) :
    constants.size ≤ (addLiteral constants l).size ∧
    (addLiteral constants l).size ≤ constants.size + 1 := by
  cases l with
  | value v =>
    show _ ≤ (if _ then constants else constants.push v).size ∧ (if _ then constants
      else constants.push v).size ≤ _
    split
    · exact ⟨Nat.le_refl _, Nat.le_succ _⟩
    · rw [Array.size_push]
      exact ⟨Nat.le_succ _, Nat.le_refl _⟩
  | function name =>
    rw [addLiteral, Array.size_push]
    exact ⟨Nat.le_succ _, Nat.le_refl _⟩

/-! ### Drafts -/

/-- Drafts that fail alike: their code is equally long and has the same opcodes where jumps wait. -/
structure Draft.Twin (d d' : Draft) : Prop where
  name : d'.name = d.name
  labels : d'.labels = d.labels
  fixups : d'.fixups = d.fixups
  size : d'.chunk.size = d.chunk.size
  places : ∀ f ∈ d.fixups, f.place < d.chunk.size ∧ d'.chunk.byte? f.place = d.chunk.byte? f.place

variable {d d' e : Draft} {p : Option Pending}

/-- A byte more on both sides, perhaps not the same one. -/
theorem Draft.Twin.write (h : Draft.Twin d d') (b b' : UInt8) (line line' : Int) :
    Draft.Twin { d with chunk := d.chunk.write b line }
    { d' with chunk := d'.chunk.write b' line' } := by
  refine ⟨h.name, h.labels, h.fixups, ?_, fun f hf => ?_⟩
  · show (d'.chunk.write b' line').size = (d.chunk.write b line).size
    rw [size_write, size_write, h.size]
  · obtain ⟨hlt, hbyte⟩ := h.places f hf
    show f.place < (d.chunk.write b line).size ∧ (d'.chunk.write b' line').byte? f.place =
      (d.chunk.write b line).byte? f.place
    rw [size_write, byte?_write, byte?_write, if_neg (by have := h.size; omega), if_neg (by omega)]
    exact ⟨by omega, hbyte⟩

theorem Draft.Twin.writeU16 (h : Draft.Twin d d') (n n' : UInt16) (line line' : Int) :
    Draft.Twin { d with chunk := d.chunk.writeU16 n line }
    { d' with chunk := d'.chunk.writeU16 n' line' } :=
  (h.write _ _ line line').write _ _ line line'

/-- The constants of the code do not matter. -/
theorem Draft.Twin.constants (h : Draft.Twin d d') (constants constants' : Array Value) :
    Draft.Twin
    { d with chunk := { d.chunk with constants } } { d' with chunk := { d'.chunk
      with constants := constants' } } :=
  ⟨h.name, h.labels, h.fixups, h.size, h.places⟩

theorem Draft.Twin.label (h : Draft.Twin d d') (label : Text) :
    Draft.Twin { d with labels := (label, d.chunk.size) :: d.labels }
    { d' with labels := (label, d'.chunk.size) :: d'.labels } :=
  ⟨h.name, by rw [h.size, h.labels], h.fixups, h.size, h.places⟩

/-- A jump that waits at an opcode which is the same on both sides. -/
theorem Draft.Twin.jump (h : Draft.Twin d d') {f : Fixup}
    (hf : f.place < d.chunk.size ∧ d'.chunk.byte? f.place = d.chunk.byte? f.place) :
    Draft.Twin { d with fixups := d.fixups.push f } { d' with fixups := d'.fixups.push f } := by
  refine ⟨h.name, h.labels, by rw [h.fixups], h.size, fun g hg => ?_⟩
  rcases Array.mem_push.mp hg with hg | rfl
  · exact h.places g hg
  · exact hf

/-! ### Statements -/

/-- The name of the function that a constant refers to. -/
def Literal.name? : Literal → Option Text
  | .value _ => none
  | .function name => some name

/-- What the operand of a `const` does, in one form. -/
theorem operand_const {op : Opcode} (hop : op.operand = .const) {l : Literal}
    (hl : literal t = .ok l) (line function : Nat) (d : Draft)
    (place : Nat) : ∃ (index : UInt16)
    (p : Option Pending), p.map (·.name) = l.name? ∧ operand line function d op place t =
      if 65536 < (addLiteral d.chunk.constants l).size then .error .tooManyConstants
      else .ok ({ d with chunk := Chunk.writeU16 { d.chunk
        with constants := addLiteral d.chunk.constants l } index line }, p) := by
  unfold operand
  rw [hop, hl]
  cases l with
  | value v =>
    obtain ⟨constants, index, hadd, hpooled⟩ := pooled_addConstant d.chunk v
    refine ⟨index, none, rfl, ?_⟩
    simp only [hadd]
    rw [hpooled.eq_addLiteral]
  | function name => exact ⟨_, some ⟨function, _, name, line⟩, rfl, rfl⟩

/-- The other constant of a line: it refers to the same function if to any, and there is room
for it. -/
def Fits (constants : Array Value) (t t' : Text) : Prop :=
  ∀ l, literal t = .ok l → ∃ l', literal t' = .ok l' ∧ l'.name? = l.name? ∧
    (addLiteral constants l').size ≤ 65536

theorem operand_twin {op : Opcode} {place : Nat} (h : Draft.Twin d d')
    (hplace : place < d.chunk.size ∧ d'.chunk.byte? place = d.chunk.byte? place)
    (hsame : op.operand ≠ .const → t' = t)
    (hfits : op.operand = .const → Fits d'.chunk.constants t t')
    (hd : operand line function d op place t = .ok (e, p)) :
    ∃ e' p', operand line function d' op place t' = .ok (e', p') ∧ Draft.Twin e e' ∧
    p'.map (·.name) = p.map (·.name) := by
  by_cases hconst : op.operand = .const
  · cases hl : literal t with
    | error cause =>
      unfold operand at hd
      rw [hconst, hl] at hd
      cases hd
    | ok l =>
      obtain ⟨l', hl', hname, hroom⟩ := hfits hconst l hl
      obtain ⟨index, q, hq, heq⟩ := operand_const hconst hl line function d place
      obtain ⟨index', q', hq', heq'⟩ := operand_const hconst hl' line function d' place
      rw [heq] at hd
      split at hd
      · cases hd
      · cases hd
        rw [heq', if_neg (Nat.not_lt.mpr hroom)]
        refine ⟨_, _, rfl, ?_, by rw [hq', hname, hq]⟩
        exact (h.constants (addLiteral d.chunk.constants l)
          (addLiteral d'.chunk.constants l')).writeU16 index index' line line
  · obtain rfl := hsame hconst
    unfold operand at hd ⊢
    cases hop : op.operand with
    | const => exact absurd hop hconst
    | none =>
      rw [hop] at hd
      cases hd
      exact ⟨_, _, rfl, h, rfl⟩
    | jump | loop =>
      rw [hop] at hd
      cases hd
      exact ⟨_, _, rfl, (h.jump hplace).writeU16 _ _ _ _, rfl⟩
    | slot =>
      rw [hop] at hd
      dsimp only at hd ⊢
      cases hn : bounded? t' 65535 with
      | none =>
        rw [hn] at hd
        cases hd
      | some n =>
        rw [hn] at hd
        cases hd
        exact ⟨_, _, rfl, h.writeU16 _ _ _ _, rfl⟩
    | byte =>
      rw [hop] at hd
      dsimp only at hd ⊢
      split at hd
      · next hbuiltin =>
        rw [if_pos hbuiltin]
        cases hn : Builtin.ofName? t' with
        | none =>
          rw [hn] at hd
          cases hd
        | some b =>
          rw [hn] at hd
          cases hd
          exact ⟨_, _, rfl, h.write _ _ _ _, rfl⟩
      · next hbuiltin =>
        rw [if_neg hbuiltin]
        cases hn : bounded? t' 255 with
        | none =>
          rw [hn] at hd
          cases hd
        | some n =>
          rw [hn] at hd
          cases hd
          exact ⟨_, _, rfl, h.write _ _ _ _, rfl⟩

/-- The opcode is the same on both sides. -/
theorem Draft.Twin.op (h : Draft.Twin d d') (op : Opcode) (line : Nat) :
    Draft.Twin { d with chunk := d.chunk.writeOp op line }
    { d' with chunk := d'.chunk.writeOp op line } ∧
      d.chunk.size < (d.chunk.writeOp op line).size ∧
      (d'.chunk.writeOp op line).byte? d.chunk.size =
        (d.chunk.writeOp op line).byte? d.chunk.size := by
  refine ⟨h.write _ _ _ _, ?_, ?_⟩
  · rw [Chunk.writeOp, size_write]
    exact Nat.lt_succ_self _
  · rw [Chunk.writeOp, Chunk.writeOp, byte?_write, byte?_write, h.size, if_pos rfl, if_pos rfl]

/-- What must be in a pool for the constants of a line to fit in it. -/
def Roomy (constants : Array Value) (raw : Text) : Prop :=
  ∀ t l, constOperand? raw = some t → literal t = .ok l → (addLiteral constants l).size ≤ 65536

/-- The same instruction. -/
theorem instruction_twin (h : Draft.Twin d d') (hraw : isDirective raw = false)
    (hroom : Roomy d'.chunk.constants raw)
    (hd : instruction line function d (instructionOf raw) = .ok (e, p)) :
    ∃ e' p', instruction line function d' (instructionOf raw) = .ok (e', p') ∧ Draft.Twin e e' ∧
      p'.map (·.name) = p.map (·.name) := by
  unfold instruction at hd ⊢
  dsimp only at hd ⊢
  split at hd
  · cases hd
  · next op hop =>
    split at hd
    · cases hd
    · next hnone =>
      split at hd
      · cases hd
      · next hsome =>
        obtain ⟨htwin, hplace⟩ := h.op op line
        rw [if_neg hnone, if_neg hsome, h.size]
        refine operand_twin htwin hplace (fun _ => rfl)
          (fun hconst l hl => ⟨l, hl, rfl, hroom _ l ?_ hl⟩) hd
        obtain rfl : op = .const := by cases op <;> first | rfl | cases hconst
        rw [constOperand?, hraw, if_neg Bool.false_ne_true, if_pos hop]

/-- The same statement. -/
theorem statement_twin (h : Draft.Twin d d') (hraw : isDirective raw = false)
    (hroom : Roomy d'.chunk.constants raw)
    (hd : statement line function d (content raw) = .ok (e, p)) :
    ∃ e' p', statement line function d' (content raw) = .ok (e', p') ∧ Draft.Twin e e' ∧
      p'.map (·.name) = p.map (·.name) := by
  unfold statement at hd ⊢
  split at hd
  · next hlabel =>
    have hinstruction : instructionOf raw = content raw := by
      unfold instructionOf
      rw [hlabel]
    rw [← hinstruction] at hd ⊢
    exact instruction_twin h hraw hroom hd
  · next label rest hlabel =>
    have hinstruction : instructionOf raw = rest := by
      unfold instructionOf
      rw [hlabel]
    split at hd
    · cases hd
    · next hfresh =>
      rw [h.labels, if_neg hfresh]
      dsimp only at hd ⊢
      have htwin := h.label label
      rw [h.labels] at htwin
      rw [← hinstruction] at hd ⊢
      split at hd
      · next hrest =>
        cases hd
        rw [if_pos hrest]
        exact ⟨_, none, rfl, htwin, rfl⟩
      · next hrest =>
        rw [if_neg hrest]
        exact instruction_twin htwin hraw hroom hd

/-- A line that loads a value, and nothing else. -/
theorem statement_loads {v : Value} (h : Loads raw v) :
    ∃ t, constOperand? raw = some t ∧ literal t = .ok (.value v) ∧
    ∀ (line function : Nat) (d : Draft), statement line function d (content raw) =
      operand line function { d with chunk := d.chunk.writeOp .const line } .const
      d.chunk.size t := by
  obtain ⟨t, hinstructs, hl⟩ := h.instructs
  refine ⟨t, hinstructs.constOperand?, hl, fun line function d => ?_⟩
  have hlabel : splitLabel? (content raw) = none := by
    have hlabel := h.label
    rw [labelOf?, hinstructs.directive, if_neg Bool.false_ne_true, Option.map_eq_none_iff] at hlabel
    exact hlabel
  have hinstruction : instructionOf raw = content raw := by
    unfold instructionOf
    rw [hlabel]
  have hsome : t.isEmpty = false := by
    cases hempty : t.isEmpty with
    | false => rfl
    | true =>
      rw [eq_empty_of_isEmpty hempty] at hl
      have herror : (literal ∅).toOption.isSome = false := by decide +kernel
      rw [hl] at herror
      cases herror
  have hopcode := hinstructs.opcode
  have hoperand := hinstructs.operand
  rw [hinstruction] at hopcode hoperand
  rw [hoperand] at hsome
  unfold statement
  rw [hlabel]
  dsimp only
  unfold instruction
  dsimp only
  rw [hopcode, hoperand]
  dsimp only
  rw [hsome]
  rfl

/-- A line and another one that is a variant of it. -/
theorem statement_variant (h : Draft.Twin d d') (hv : Variant raw raw')
    (hraw : isDirective raw = false)
    (hroom : Roomy d'.chunk.constants raw')
    (hd : statement line function d (content raw) = .ok (e, p)) :
    ∃ e' p', statement line function d' (content raw') = .ok (e', p') ∧ Draft.Twin e e' ∧
      p'.map (·.name) = p.map (·.name) := by
  obtain rfl | ⟨u, v, hold, hnew⟩ := hv
  · exact statement_twin h hraw hroom hd
  · obtain ⟨t, -, hl, hstatement⟩ := statement_loads hold
    obtain ⟨t', ht', hl', hstatement'⟩ := statement_loads hnew
    obtain ⟨htwin, hplace⟩ := h.op .const line
    rw [hstatement] at hd
    rw [hstatement', h.size]
    refine operand_twin htwin hplace (fun hother => absurd rfl hother) (fun _ l hl₁ => ?_) hd
    rw [hl] at hl₁
    cases hl₁
    exact ⟨_, hl', rfl, hroom t' _ ht' hl'⟩

/-! ### Jumps -/

theorem putU16?_of_gt {c : Chunk} {i : Nat} (h : ¬ i + 2 ≤ c.size) (v : UInt16) :
    c.putU16? (i : Int) v = none := by
  unfold Chunk.putU16?
  rw [if_neg]
  simp only [Bool.and_eq_true, decide_eq_true_eq, not_and]
  omega

/-- Two bytes that are put into both codes. -/
theorem put_twin {c c' : Chunk} {a : Nat} (hsize : c'.size = c.size)
    (hbyte : c'.byte? a = c.byte? a) (i : Nat) (v : UInt16) :
    ((c'.putU16? (i : Int) v).getD c').size = ((c.putU16? (i : Int) v).getD c).size ∧
      ((c'.putU16? (i : Int) v).getD c').byte? a = ((c.putU16? (i : Int) v).getD c).byte? a := by
  by_cases hi : i + 2 ≤ c.size
  · obtain ⟨code, heq, hlength, hbytes⟩ := putU16?_of_le hi v
    obtain ⟨code', heq', hlength', hbytes'⟩ := putU16?_of_le (hsize ▸ hi) v
    rw [heq, heq', hbytes, hbytes', hbyte]
    exact ⟨hlength'.trans (hsize.trans hlength.symm), rfl⟩
  · rw [putU16?_of_gt hi, putU16?_of_gt (hsize ▸ hi)]
    exact ⟨hsize, hbyte⟩

/-- A jump is filled in alike. -/
theorem resolve_twin {labels : List (Text × Nat)} {f : Fixup} {c c' c₁ : Chunk}
    (hbyte : c'.byte? f.place = c.byte? f.place)
    (h : resolve labels c f = .ok c₁) : ∃ v, c₁ = (c.putU16? ((f.place + 1 : Nat) : Int) v).getD c ∧
      resolve labels c' f = .ok ((c'.putU16? ((f.place + 1 : Nat) : Int) v).getD c') := by
  unfold resolve at h ⊢
  dsimp only at h ⊢
  rw [hbyte]
  split at h
  · cases h
  · split at h
    all_goals
      next hloop =>
      split at h
      · cases h
      · next hrange =>
        cases h
        first
        | rw [if_pos hloop, if_neg hrange]
        | rw [if_neg hloop, if_neg hrange]
        exact ⟨_, rfl, rfl⟩

theorem resolveAll_twin {labels : List (Text × Nat)} {fixups : List Fixup} {c c' c₁ : Chunk}
    (hsize : c'.size = c.size)
    (hbytes : ∀ f ∈ fixups, c'.byte? f.place = c.byte? f.place)
    (h : fixups.foldlM (resolve labels) c = .ok c₁) :
    ∃ c₁', fixups.foldlM (resolve labels) c' = .ok c₁' := by
  induction fixups generalizing c c' with
  | nil => exact ⟨c', rfl⟩
  | cons f rest ih =>
    obtain ⟨c₂, hfirst, hrest⟩ := answer_eq_ok h
    obtain ⟨v, rfl, hfirst'⟩ := resolve_twin (hbytes f List.mem_cons_self) hfirst
    have hput (a : Nat) (ha : c'.byte? a = c.byte? a) := put_twin hsize ha (f.place + 1) v
    obtain ⟨c₁', hc₁'⟩ := ih (hput f.place (hbytes f List.mem_cons_self)).1
      (fun g hg => (hput g.place (hbytes g (List.mem_cons_of_mem f hg))).2) hrest
    refine ⟨c₁', ?_⟩
    rw [List.foldlM_cons, hfirst']
    exact hc₁'

/-! ### States -/

/-- States that fail alike. -/
structure State.Twin (s s' : State) : Prop where
  names : s'.functions.map (·.name) = s.functions.map (·.name)
  pending : s'.pending.toList.map (·.name) = s.pending.toList.map (·.name)
  draft : Option.Rel Draft.Twin s.draft s'.draft

variable {s s' s₁ : State}

theorem State.Twin.size (h : State.Twin s s') : s'.functions.size = s.functions.size := by
  have := congrArg Array.size h.names
  rwa [Array.size_map, Array.size_map] at this

theorem State.Twin.finish (h : State.Twin s s') (hs : s.finish = .ok s₁) :
    ∃ s₁', s'.finish = .ok s₁' ∧ State.Twin s₁ s₁' := by
  have hdraft := h.draft
  unfold State.finish at hs ⊢
  cases hd : s.draft with
  | none =>
    rw [hd] at hs hdraft
    cases hd' : s'.draft with
    | none =>
      cases hs
      exact ⟨s', rfl, h⟩
    | some d' =>
      rw [hd'] at hdraft
      cases hdraft
  | some d =>
    rw [hd] at hs hdraft
    cases hd' : s'.draft with
    | none =>
      rw [hd'] at hdraft
      cases hdraft
    | some d' =>
      rw [hd'] at hdraft
      obtain @⟨_, _, htwin⟩ := hdraft
      obtain ⟨f, hf, hs⟩ := answer_eq_ok hs
      cases hs
      obtain ⟨c, hc, hf⟩ := answer_eq_ok hf
      cases hf
      rw [← Array.foldlM_toList] at hc
      obtain ⟨c', hc'⟩ :=
        resolveAll_twin htwin.size (fun f hf => (htwin.places f (by simpa using hf)).2) hc
      rw [Array.foldlM_toList, ← htwin.fixups, ← htwin.labels] at hc'
      have hfinish : d'.finish (s'.functions.size + 1) = .ok
          { id := (s'.functions.size + 1).toUInt32, name := d'.name, arity := d'.arity,
            locals := d'.locals, chunk := c' } := by
        rw [Draft.finish, hc']
        rfl
      dsimp only
      rw [hfinish]
      refine ⟨_, rfl, ?_, h.pending, .none⟩
      rw [Array.map_push, Array.map_push, h.names, htwin.name]

/-- A name that is free for a function is free in the other state. -/
theorem State.Twin.fresh (h : State.Twin s s') {name : Text}
    (hname : ∀ f ∈ s.functions, f.name ≠ name) :
    ∀ f ∈ s'.functions, f.name ≠ name := by
  intro f hf heq
  have hmem : name ∈ s.functions.map (·.name) := h.names ▸ Array.mem_map.mpr ⟨f, hf, heq⟩
  obtain ⟨g, hg, hgname⟩ := Array.mem_map.mp hmem
  exact hname g hg hgname

theorem isEmpty_content (h : isDirective raw = true ∨ isInstruction raw = true) :
    (content raw).isEmpty = false := by
  cases hempty : (content raw).isEmpty with
  | false => rfl
  | true =>
    unfold isDirective isInstruction isDirective instructionOf at h
    rw [eq_empty_of_isEmpty hempty] at h
    exact absurd h (by decide)

theorem line_blank (hempty : (content raw).isEmpty = true) (s : State)
    (line : Nat) : s.line line raw = .ok s := by
  unfold State.line
  dsimp only
  rw [show Text.trim (Text.ofList (stripComment raw.toList)) = content raw from rfl, if_pos hempty]

theorem line_directive (hraw : isDirective raw = true) (s : State) (line : Nat) :
    s.line line raw = s.directive line (content raw) := by
  unfold State.line
  dsimp only
  rw [show Text.trim (Text.ofList (stripComment raw.toList)) = content raw from rfl,
    isEmpty_content (.inl hraw),
    if_neg Bool.false_ne_true, if_pos (show Text.startsWith (content raw) "." = true from hraw)]

theorem line_statement (hraw : isDirective raw = false) (hempty : (content raw).isEmpty = false)
    (s : State) (line : Nat) :
    s.line line raw = match s.draft with
      | none => .error ⟨line, .outsideFunction⟩
      | some d => match statement line s.functions.size d (content raw) with
        | .error cause => .error ⟨line, cause⟩
        | .ok (d', p) => .ok { s with draft := some d', pending := s.pending ++ p.toArray } := by
  unfold State.line
  dsimp only
  rw [show Text.trim (Text.ofList (stripComment raw.toList)) = content raw from rfl, hempty,
    if_neg Bool.false_ne_true,
    show Text.startsWith (content raw) "." = false from hraw]
  exact if_neg Bool.false_ne_true

/-- A directive that declares a function begins it. -/
theorem directive_of_declares {name : Text} {arity locals : Nat} (hraw : isDirective raw = true)
    (hdeclares : declares? raw = some (name, (arity : Int), (locals : Int)))
    (hfinish : s.finish = .ok s₁)
    (hname : ∀ f ∈ s₁.functions, f.name ≠ name) :
    s.line line raw = .ok { s₁ with draft := some { name, arity, locals } } := by
  have hfree : s₁.functions.any (·.name == name) = false := by
    rw [Array.any_eq_false']
    intro f hf
    simpa using hname f hf
  rw [line_directive hraw]
  unfold declares? at hdeclares
  unfold State.directive
  dsimp only
  split at hdeclares
  case h_3 => cases hdeclares
  all_goals
    rename_i hwords
    split at hdeclares
    case isFalse => cases hdeclares
    rename_i hhead
    rw [hwords, List.headD_cons, hhead]
    show s.finish >>= _ = _
    rw [hfinish]
    show (if _ then _ else _) = _
    dsimp only
  · next name' word =>
    cases hlocals : bounded? word 65535 with
    | none =>
      rw [hlocals] at hdeclares
      cases hdeclares
    | some n =>
      rw [hlocals] at hdeclares
      cases hdeclares
      rw [hfree, if_neg Bool.false_ne_true]
      rfl
  · next name' word word' =>
    cases hlocals : bounded? word 65535 with
    | none =>
      rw [hlocals] at hdeclares
      cases hdeclares
    | some n =>
      cases harity : bounded? word' 255 with
      | none =>
        rw [hlocals, harity] at hdeclares
        cases hdeclares
      | some k =>
        rw [hlocals, harity] at hdeclares
        cases hdeclares
        rw [hfree, if_neg Bool.false_ne_true]
        rfl

/-- A line that loads no value has no variant but itself. -/
theorem Variant.eq (h : Variant raw raw')
    (hraw : isDirective raw = true ∨ (content raw).isEmpty = true) : raw' = raw := by
  obtain heq | ⟨u, v, ⟨-, t, hold, -⟩, -⟩ := h
  · exact heq
  · rw [hold.directive, isEmpty_content (.inr hold.instruction)] at hraw
    simp at hraw

/-- A line that is read is read in the other state. -/
theorem State.Twin.read (h : State.Twin s s') (hv : Variant raw raw')
    (hroom : ∀ d' ∈ s'.draft, Roomy d'.chunk.constants raw')
    (hs : s.line line raw = .ok s₁) : ∃ s₁', s'.line line raw' = .ok s₁' ∧ State.Twin s₁ s₁' := by
  cases hempty : (content raw).isEmpty with
  | true =>
    obtain rfl := hv.eq (.inr hempty)
    rw [line_blank hempty] at hs ⊢
    cases hs
    exact ⟨s', rfl, h⟩
  | false =>
    cases hraw : isDirective raw with
    | true =>
      obtain rfl := hv.eq (.inl hraw)
      have hreads := line_reads hs
      have hadds := line_adds hs
      cases hreads with
      | nothing hraw' => simp [hraw] at hraw'
      | states hraw' => simp [hraw] at hraw'
      | @declares s₂ name arity locals _ hfinish hdeclares heq =>
        cases hadds with
        | blank hraw' => simp [hraw] at hraw'
        | stated hraw' => simp [hraw] at hraw'
        | @begun s₃ name' arity' locals' _ hfinish' hname =>
          rw [hfinish] at hfinish'
          cases hfinish'
          cases heq
          obtain ⟨s₂', hfinish', htwin⟩ := h.finish hfinish
          refine ⟨_, directive_of_declares hraw hdeclares hfinish' (htwin.fresh hname), htwin.names,
            htwin.pending, .some ?_⟩
          exact ⟨rfl, rfl, rfl, rfl, nofun⟩
    | false =>
      have hempty' : (content raw').isEmpty = false := by
        obtain rfl | ⟨u, v, -, ⟨-, t, hnew, -⟩⟩ := hv
        · exact hempty
        · exact isEmpty_content (.inr hnew.instruction)
      rw [line_statement hraw hempty] at hs
      rw [line_statement (hv.directive.trans hraw) hempty', h.size]
      have hdraft := h.draft
      cases hd : s.draft with
      | none =>
        rw [hd] at hs
        cases hs
      | some d =>
        cases hd' : s'.draft with
        | none =>
          rw [hd, hd'] at hdraft
          cases hdraft
        | some d' =>
          rw [hd, hd'] at hdraft
          obtain @⟨_, _, htwin⟩ := hdraft
          rw [hd] at hs
          dsimp only at hs ⊢
          split at hs
          · cases hs
          · next e p hstatement =>
            cases hs
            obtain ⟨e', p', hstatement', htwin', hnames⟩ :=
              statement_variant htwin hv hraw (hroom d' hd') hstatement
            rw [hstatement']
            refine ⟨_, rfl, h.names, ?_, .some htwin'⟩
            have hlist (p : Option Pending) : p.toArray.toList.map (·.name) =
                (p.map (·.name)).toList := by
              cases p <;> rfl
            rw [Array.toList_append, Array.toList_append, List.map_append, List.map_append,
              h.pending, hlist, hlist, hnames]

/-! ### The pools of a text -/

/-- What the `const` on a line denotes, if the line belongs to function `k`. -/
def saying? (lines : List Text) (k n : Nat) : Option Literal :=
  if Belongs lines n k then (lines[n]?.bind constOperand?).bind fun t =>
    (literal t).toOption else none

/-- The pool of function `k` after `m` lines, without the functions in it. -/
def pool (lines : List Text) (m k : Nat) : Array Value :=
  ((List.range m).filterMap (saying? lines k)).foldl addLiteral #[]

theorem pool_succ (lines : List Text) (m k : Nat) :
    pool lines (m + 1) k = (saying? lines k m).elim (pool lines m k)
    (addLiteral (pool lines m k)) := by
  unfold pool
  rw [List.range_succ, List.filterMap_append, List.foldl_append, List.filterMap_cons,
    List.filterMap_nil]
  cases saying? lines k m <;> rfl

theorem size_pool {m' : Nat} (h : m ≤ m') : (pool lines m k).size ≤ (pool lines m' k).size := by
  induction h with
  | refl => exact Nat.le_refl _
  | @step m' _ ih =>
    rw [pool_succ]
    cases saying? lines k m' with
    | none => exact ih
    | some l => exact Nat.le_trans ih (size_addLiteral _ l).1

/-- A text has room for a constant on every line if it is not longer than a pool. -/
theorem size_pool_le (lines : List Text) (m k : Nat) : (pool lines m k).size ≤ m := by
  induction m with
  | zero => exact Nat.le_refl _
  | succ m ih =>
    rw [pool_succ]
    cases saying? lines k m with
    | none => exact Nat.le_succ_of_le ih
    | some l => exact Nat.le_trans (size_addLiteral _ l).2 (Nat.succ_le_succ ih)

/-- No line of the function was read yet. -/
theorem pool_eq_empty (h : ∀ n < m, ¬ Belongs lines n k) : pool lines m k = #[] := by
  have hnone : (List.range m).filterMap (saying? lines k) = [] :=
    List.filterMap_eq_nil_iff.mpr fun n hn => if_neg (h n (List.mem_range.mp hn))
  rw [pool, hnone, List.foldl_nil]

/-- A statement puts what it says into the pool of its function. -/
theorem Stated.constants (h : Stated line function raw d d' p) : d'.chunk.constants =
    ((constOperand? raw).bind fun t => (literal t).toOption).elim d.chunk.constants
    (addLiteral d.chunk.constants) := by
  cases h with
  | other ht _ hconstants =>
    rw [ht]
    exact hconstants
  | value ht hl hpooled =>
    rw [ht, Option.bind_some, hl]
    exact hpooled.eq_addLiteral
  | function ht hl =>
    rw [ht, Option.bind_some, hl]
    rfl

theorem Told.belongs (h : Told lines m s) (hdraft : s.draft = some d) :
    Belongs lines m s.functions.size := by
  have hcount := h.count
  rwa [hdraft] at hcount

/-- The function that is being read has the pool of its lines. -/
def Pools (lines : List Text) (m : Nat) (s : State) : Prop :=
  ∀ d, s.draft = some d → d.chunk.constants = pool lines m s.functions.size

theorem Told.pools (h : Told lines m s) (hpools : Pools lines m s) (hraw : lines[m]? = some raw)
    (hs : Lined (m + 1) raw s s₁) :
    Pools lines (m + 1) s₁ := by
  intro e he
  cases hs with
  | blank _ ht =>
    have hsaying : saying? lines s.functions.size m = none := by
      unfold saying?
      rw [hraw, Option.bind_some, ht]
      split <;> rfl
    rw [pool_succ, hsaying]
    exact hpools e he
  | @begun s₂ name arity locals hdirective hfinish hname =>
    obtain ⟨h₂, hdraft⟩ := h.finish hfinish
    cases he
    refine (pool_eq_empty fun n hn hb => ?_).symm
    have hcount₂ := h₂.count
    rw [hdraft] at hcount₂
    have hle :=
      (List.take_sublist_take_left (l := lines) (Nat.le_of_lt_succ hn)).countP_le (p := isDirective)
    replace hb : (lines.take n).countP isDirective = s₂.functions.size + 1 := hb
    simp only [Option.isSome_none, Bool.false_eq_true, if_false, Nat.add_zero] at hcount₂
    omega
  | @stated d d' p hquiet hdraft hstated =>
    cases he
    have hsaying : saying? lines s.functions.size m = (constOperand? raw).bind fun t =>
        (literal t).toOption := by
      unfold saying?
      rw [if_pos (h.belongs hdraft), hraw, Option.bind_some]
    rw [pool_succ, hsaying, ← hpools d hdraft]
    exact hstated.constants

/-- Pools that have room in the end have room for every line. -/
theorem Told.roomy (h : Told lines m s) (hpools : Pools lines m s)
    (hroom : ∀ k, (pool lines lines.length k).size ≤ 65536)
    (hraw : lines[m]? = some raw) : ∀ d ∈ s.draft, Roomy d.chunk.constants raw := by
  intro d hdraft t l ht hl
  have hsaying : saying? lines s.functions.size m = some l := by
    unfold saying?
    rw [if_pos (h.belongs hdraft), hraw, Option.bind_some, ht, Option.bind_some, hl]
    rfl
  rw [hpools d hdraft]
  calc (addLiteral (pool lines m s.functions.size) l).size
    _ = (pool lines (m + 1) s.functions.size).size := by rw [pool_succ, hsaying, Option.elim_some]
    _ ≤ (pool lines lines.length s.functions.size).size :=
      size_pool (List.getElem?_eq_some_iff.mp hraw).1
    _ ≤ 65536 := hroom _

/-! ### Texts side by side -/

/-- Two states after as many lines. -/
structure Abreast (lines' : List Text) (m : Nat) (s s' : State) : Prop where
  told : Told lines' m s'
  pools : Pools lines' m s'
  twin : State.Twin s s'

theorem Abreast.read (h : Abreast lines' m s s')
    (hroom : ∀ k, (pool lines' lines'.length k).size ≤ 65536)
    (hraw : lines'[m]? = some raw') (hv : Variant raw raw') (hs : s.line (m + 1) raw = .ok s₁) :
    ∃ s₁', s'.line (m + 1) raw' = .ok s₁' ∧ Abreast lines' (m + 1) s₁ s₁' := by
  obtain ⟨s₁', hs', htwin⟩ := h.twin.read hv (h.told.roomy h.pools hroom hraw) hs
  exact ⟨s₁', hs', h.told.line hraw (line_adds hs'),
    h.told.pools h.pools hraw (line_adds hs'), htwin⟩

/-- All lines of the other text are read as well. -/
theorem abreast_lines {count : Nat} (hvariants : List.Forall₂ Variant lines lines')
    (hroom : ∀ k, (pool lines' lines'.length k).size ≤ 65536)
    (h : lines.foldlM (fun ((s, n) : State × Nat) raw => do return (← s.line n raw, n + 1))
      ({}, 1) = .ok (s, count)) :
    ∃ s', lines'.foldlM (fun ((s, n) : State × Nat) raw => do return (← s.line n raw, n + 1))
    ({}, 1) = .ok (s', count) ∧
      Abreast lines' lines'.length s s' := by
  have hfold : ∀ {rest rest' : List Text}, List.Forall₂ Variant rest rest' →
    ∀ (m : Nat) (s₀ s₀' : State), lines'.drop m = rest' →
      m ≤ lines'.length → Abreast lines' m s₀ s₀' →
      rest.foldlM (fun ((s, n) : State × Nat) raw => do return (← s.line n raw, n + 1))
        (s₀, m + 1) = .ok (s, count) →
      ∃ s', rest'.foldlM (fun ((s, n) : State × Nat) raw => do return (← s.line n raw, n + 1))
        (s₀', m + 1) = .ok (s', count) ∧
        Abreast lines' lines'.length s s' := by
    intro rest rest' hrest
    induction hrest with
    | nil =>
      intro m s₀ s₀' hdrop hm h₀ hs
      cases hs
      rw [show m = lines'.length from Nat.le_antisymm hm (List.drop_eq_nil_iff.mp hdrop)] at h₀ ⊢
      exact ⟨s₀', rfl, h₀⟩
    | @cons raw raw' rest rest' hv _ ih =>
      intro m s₀ s₀' hdrop hm h₀ hs
      obtain ⟨⟨s₁, n⟩, hfirst, hs⟩ := answer_eq_ok hs
      obtain ⟨_, hfirst', heq⟩ := answer_eq_ok hfirst
      cases heq
      have hraw : lines'[m]? = some raw' := by
        rw [← List.head?_drop, hdrop]
        rfl
      obtain ⟨s₁', hline', h₁⟩ := h₀.read hroom hraw hv hfirst'
      obtain ⟨s', hrest', habreast⟩ := ih (m + 1) s₁ s₁' (by rw [← List.tail_drop, hdrop]; rfl)
        (List.getElem?_eq_some_iff.mp hraw).1 h₁ hs
      refine ⟨s', ?_, habreast⟩
      rw [List.foldlM_cons]
      show (s₀'.line (m + 1) raw' >>= fun s => pure (s, m + 1 + 1)) >>= _ = _
      rw [hline']
      exact hrest'
  exact hfold hvariants 0 {} {} rfl (Nat.zero_le _) ⟨told_start, nofun, rfl, rfl, .none⟩ h

/-- The functions that constants refer to are found in the other text. -/
theorem linkAll_twin {pending pending' : List Pending} {functions functions' out : Array Function}
    (hnames : functions'.map (·.name) = functions.map (·.name))
    (hpending : pending'.map (·.name) = pending.map (·.name))
    (h : pending.foldlM link functions = .ok out) :
    ∃ out', pending'.foldlM link functions' = .ok out' := by
  induction pending generalizing pending' functions functions' with
  | nil =>
    obtain rfl := List.map_eq_nil_iff.mp hpending
    exact ⟨functions', rfl⟩
  | cons p rest ih =>
    obtain ⟨p', rest', rfl, hp, hrest⟩ := List.map_eq_cons_iff.mp hpending
    obtain ⟨functions₁, hlink, h⟩ := answer_eq_ok h
    have hfind : functions'.findIdx? (·.name == p'.name) =
        functions.findIdx? (·.name == p.name) := by
      have hmap (functions : Array Function) (name : Text) :
          functions.findIdx? (·.name == name) = (functions.map (·.name)).findIdx? (· == name) := by
        rw [Array.findIdx?_map]
        rfl
      rw [hmap, hmap, hnames, hp]
    obtain ⟨functions₁', hlink'⟩ : ∃ functions₁', link functions' p' = .ok functions₁' := by
      unfold link at hlink ⊢
      rw [hfind]
      split at hlink
      · cases hlink
      · exact ⟨_, rfl⟩
    have hkept := link_keeps (g := (·.name)) (fun _ _ => rfl) hlink
    have hkept' := link_keeps (g := (·.name)) (fun _ _ => rfl) hlink'
    obtain ⟨out', hout'⟩ := ih (hkept'.trans (hnames.trans hkept.symm)) hrest h
    refine ⟨out', ?_⟩
    rw [List.foldlM_cons, hlink']
    exact hout'

/-- What is read with some constants is read with others, while no function has too many of them. -/
theorem parse_twin {text text' : Text} {p : Program} (h : parse text = .ok p)
    (hvariants : List.Forall₂ Variant (text.split 10) (text'.split 10))
    (hroom : ∀ k, (pool (text'.split 10) (text'.split 10).length k).size ≤ 65536) :
    ∃ p', parse text' = .ok p' := by
  unfold parse at h
  obtain ⟨⟨s, count⟩, hlines, h⟩ := answer_eq_ok h
  obtain ⟨s₁, hfinish, h⟩ := answer_eq_ok h
  dsimp only at h
  split at h
  · cases h
  · next hsome =>
    obtain ⟨functions, hlink, -⟩ := answer_eq_ok h
    obtain ⟨s', hlines', habreast⟩ := abreast_lines hvariants hroom hlines
    obtain ⟨s₁', hfinish', htwin⟩ := habreast.twin.finish hfinish
    rw [← Array.foldlM_toList] at hlink
    obtain ⟨functions', hlink'⟩ := linkAll_twin htwin.names htwin.pending hlink
    rw [Array.foldlM_toList] at hlink'
    have hsome' : ¬ s₁'.functions.isEmpty = true := by
      rw [Array.isEmpty_iff_size_eq_zero] at hsome ⊢
      rwa [htwin.size]
    unfold parse
    rw [hlines']
    show ∃ p', (s'.finish >>= _) = .ok p'
    rw [hfinish']
    dsimp only [bind, Except.bind]
    rw [if_neg hsome', hlink']
    exact ⟨_, rfl⟩

end LoopTracer.Bytecode.Source
