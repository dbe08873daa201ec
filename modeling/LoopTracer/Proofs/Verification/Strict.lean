import LoopTracer.Proofs.Computation
import LoopTracer.Proofs.Verification.Depths

/-! Verification that stops at its first stray access.

Verification indexes code that nobody has vouched for yet, and its loops run until they have
seen all of it. `Strict.verify` makes both visible: it looks at the same places in the same order,
but an access outside the code and a loop that has not come to its end stop it without an answer.
Neither ever happens (`Strict.verify_eq`): every access is covered by a check made before, whatever
else is wrong with the function. -/
namespace LoopTracer.Bytecode.Strict

open StackDepth

/-- What stops a verification without an answer. -/
inductive Trap where
  /-- An access outside the code. -/
  | outside
  /-- A loop with something left to look at. -/
  | unfinished

/-- What an access has found. -/
def found {α : Type} : Option α → Except Trap α
  | some a => .ok a
  | none => .error .outside

@[simp] theorem found_some {α : Type} (a : α) : found (some a) = .ok a := rfl

/-- The complaint about the operand of a whole instruction. -/
def operandComplaint (f : Function) (c : Chunk) (op : Opcode) (offset : Nat) :
    Except Trap (Option Complaint) :=
  match op.operand with
  | .const => do
    let word ← found (c.u16? (offset + 1))
    return if c.constants.size ≤ word.toNat
      then some (.constantRange word.toNat c.constants.size) else none
  | .slot => do
    let word ← found (c.u16? (offset + 1))
    return if f.locals ≤ word.toNat then some (.localRange word.toNat f.locals) else none
  | .byte => do
    let arg ← found (c.byte? (offset + 1))
    return if op == .builtin && (Builtin.ofByte? arg).isNone
      then some (.unknownBuiltin arg) else none
  | _ => .ok none

/-- The first pass from an offset on. -/
def scanFrom (f : Function) (c : Chunk) : (fuel : Nat) → (offset : Nat) → Scan → Except Trap Scan
  | 0, offset, s => if c.size ≤ offset then .ok s else .error .unfinished
  | fuel + 1, offset, s =>
    if c.size ≤ offset then .ok s
    else do
      let b ← found c.code[offset]?
      match Opcode.ofByte? b with
      | none =>
        return { s with complaints := s.complaints.push (offset, .unknownOpcode b), broken := true }
      | some op =>
        if c.size < offset + op.size then
          return { s with complaints := s.complaints.push (offset, .truncated op), broken := true }
        else
          let s := { s with starts := s.starts.set! offset true, last := offset }
          match ← operandComplaint f c op offset with
          | some e =>
            scanFrom f c fuel (offset + op.size)
              { s with complaints := s.complaints.push (offset, e) }
          | none => scanFrom f c fuel (offset + op.size) s

/-- The complaints about the jump at an instruction start. -/
def jumpComplaints (c : Chunk) (s : Scan) (offset : Nat) :
    Except Trap (List (Nat × Complaint)) := do
  let b ← found (c.byte? offset)
  match Opcode.ofByte? b with
  | none => return []
  | some op =>
    if op.operand == .jump || op.operand == .loop then
      let target ← found (c.target? offset)
      return (if s.isStart target then [] else [(offset, .jumpTarget op target)])
        ++ (if op == .loop && (offset : Int) < target then [(offset, .loopForward target)] else [])
    else return []

/-- The complaint when the last instruction lets control run off the end. -/
def endComplaint (c : Chunk) (s : Scan) : Except Trap (Option (Nat × Complaint)) := do
  let b ← found c.code[s.last]?
  return match Opcode.ofByte? b with
    | some .ret | some .halt | some .jump | some .loop => none
    | _ => some (s.last, .fallsOff (byteName b))

/-- The depths of a chunk's instructions, once no place is left to look at. -/
def depths (c : Chunk) : Except Trap Result := do
  let start : State := { depths := Array.replicate c.size none, pending := [(0, 0)] }
  let s ← (explore c defaultLimit (2 * c.size + 2) start).mapError fun _ => .outside
  if s.pending.isEmpty
    then return { maxDepth := s.maxDepth, depths := s.depths, errors := s.errors }
  else .error .unfinished

/-- The complaints about a function, and the function with its greatest stack depth. -/
def verify (f : Function) : Except Trap (Function × List (Nat × Complaint)) :=
  match f.chunk with
  | none => .ok (f, [(0, .empty)])
  | some c =>
    if c.size == 0 then .ok (f, [(0, .empty)])
    else do
      let early := if f.locals < f.arity then [(0, .arity f.arity f.locals)] else []
      let s ← scanFrom f c c.size 0 { starts := Array.replicate c.size false }
      let seen := early ++ s.complaints.toList
      if s.broken then return (f, seen)
      else
        let starts := (List.range c.size).filter fun (i : Nat) => s.isStart i
        let jumps ← starts.mapM (jumpComplaints c s)
        let seen := seen ++ jumps.flatten ++ (← endComplaint c s).toList
        if !seen.isEmpty then return (f, seen)
        else
          let r ← depths c
          return ({ f with maxStack := r.maxDepth },
            r.errors.toList.map fun (offset, cause) => (offset, .depth cause))

/-! ### The first pass -/

variable {f : Function} {c : Chunk} {op : Opcode} {i : Nat}

/-- The operand of an instruction that fits into the code can be read. -/
theorem operandComplaint_eq (hfits : i + op.size ≤ c.size) :
    operandComplaint f c op i = .ok (operandComplaint? f c op i) := by
  have word (hsize : op.size = 3) : ∃ n, c.u16? ((i : Int) + 1) = some n := by
    exact_mod_cast Chunk.u16?_of_lt (c := c) (i := i + 1) (by omega)
  unfold operandComplaint operandComplaint?
  cases hop : op.operand with
  | const =>
    obtain ⟨n, hn⟩ := word (by simp [Opcode.size, hop])
    simp only [hn, found_some, Option.getD_some]
    rfl
  | slot =>
    obtain ⟨n, hn⟩ := word (by simp [Opcode.size, hop])
    simp only [hn, found_some, Option.getD_some]
    rfl
  | byte =>
    have hsize : op.size = 2 := by simp [Opcode.size, hop]
    obtain ⟨b, hb⟩ : ∃ b, c.byte? ((i : Int) + 1) = some b := by
      exact_mod_cast Chunk.byte?_of_lt (c := c) (i := i + 1) (by omega)
    simp only [hb, found_some, Option.getD_some]
    rfl
  | none => rfl
  | jump => rfl
  | loop => rfl

/-- The pass stays inside the code and reaches its end: an instruction has at least one byte. -/
theorem scanFrom_eq (fuel offset : Nat) (s : Scan) (hfuel : c.size ≤ offset + fuel) :
    scanFrom f c fuel offset s = .ok (Bytecode.scanFrom f c fuel offset s) := by
  induction fuel generalizing offset s with
  | zero =>
    rw [scanFrom, Bytecode.scanFrom, if_pos (by omega)]
  | succ fuel ih =>
    rw [scanFrom, Bytecode.scanFrom]
    by_cases hend : c.size ≤ offset
    · have hb : c.code[offset]? = none := getElem?_neg c.code offset (Nat.not_lt.mpr hend)
      rw [if_pos hend, hb]
    · obtain ⟨b, hb⟩ : ∃ b, c.code[offset]? = some b :=
        ⟨_, getElem?_pos c.code offset (Nat.not_le.mp hend)⟩
      rw [if_neg hend, hb, found_some, ok_bind]
      simp only
      cases Opcode.ofByte? b with
      | none => rfl
      | some op =>
        have hpos := op.size_pos
        simp only
        split
        · rfl
        · rw [operandComplaint_eq (by omega), ok_bind]
          cases operandComplaint? f c op offset with
          | none => exact ih _ _ (by omega)
          | some e => exact ih _ _ (by omega)

/-! ### What the first pass has marked -/

/-- One instruction of the first pass: the code is at its end, a complaint breaks the pass off, or
it goes past an instruction that fits into the code. -/
theorem scanFrom_split (f : Function) (c : Chunk) (fuel offset : Nat) (s : Scan) :
    Bytecode.scanFrom f c (fuel + 1) offset s = s ∨
      (∃ e, Bytecode.scanFrom f c (fuel + 1) offset s =
        { s with complaints := s.complaints.push (offset, e), broken := true }) ∨
      ∃ op, c.opcode? offset = some op ∧ offset + op.size ≤ c.size ∧
        Bytecode.scanFrom f c (fuel + 1) offset s =
          Bytecode.scanFrom f c fuel (offset + op.size) (s.past f c op offset) := by
  rw [Bytecode.scanFrom]
  cases hb : c.code[offset]? with
  | none => exact .inl rfl
  | some b =>
    cases ho : Opcode.ofByte? b with
    | none => exact .inr (.inl ⟨.unknownOpcode b, by simp [ho]⟩)
    | some op =>
      by_cases hsize : c.size < offset + op.size
      · exact .inr (.inl ⟨.truncated op, by simp [ho, hsize]⟩)
      · refine .inr (.inr ⟨op, Chunk.opcode?_eq_some_iff.mpr ⟨b, hb, ho⟩, by omega, ?_⟩)
        simp only [ho, if_neg hsize]
        rfl

/-- Only instructions that fit into the code get marked, complaints or not. -/
theorem scanFrom_fits (fuel offset : Nat) (s : Scan)
    (h : (Bytecode.scanFrom f c fuel offset s).starts[i]? = some true) :
    s.starts[i]? = some true ∨ ∃ op, c.opcode? i = some op ∧ i + op.size ≤ c.size := by
  induction fuel generalizing offset s with
  | zero => exact .inl h
  | succ fuel ih =>
    rcases scanFrom_split f c fuel offset s with he | ⟨e, he⟩ | ⟨op, hop, hfits, he⟩
    · rw [he] at h
      exact .inl h
    · rw [he] at h
      exact .inl h
    · rw [he] at h
      rcases ih _ _ h with hmark | hin
      · rw [Scan.past_starts, Array.set!_eq_setIfInBounds, Array.getElem?_setIfInBounds] at hmark
        by_cases hi : offset = i
        · subst hi
          exact .inr ⟨op, hop, hfits⟩
        · exact .inl (by simpa [hi] using hmark)
      · exact .inr hin

theorem scanFrom_last_lt (fuel offset : Nat) (s : Scan) (hs : s.last < c.size) :
    (Bytecode.scanFrom f c fuel offset s).last < c.size := by
  induction fuel generalizing offset s with
  | zero => exact hs
  | succ fuel ih =>
    rcases scanFrom_split f c fuel offset s with he | ⟨e, he⟩ | ⟨op, hop, hfits, he⟩
    · rwa [he]
    · rwa [he]
    · rw [he]
      apply ih
      rw [Scan.past_last]
      exact Chunk.lt_size_of_opcode? hop

/-- A place that counts as an instruction start holds an instruction that fits into the code. -/
theorem isStart_fits (h : (scan f c).isStart i = true) :
    ∃ op, c.opcode? i = some op ∧ i + op.size ≤ c.size := by
  have hmark : (scan f c).starts[i]? = some true := by
    unfold Scan.isStart at h
    cases hm : (scan f c).starts[i]? with
    | none => simp [hm] at h
    | some b => simpa [hm] using h
  rcases scanFrom_fits _ _ _ hmark with hnone | hfits
  · simp [Array.getElem?_replicate] at hnone
  · exact hfits

/-! ### Jumps, the end and the depths -/

theorem jumpComplaints_eq (h : (scan f c).isStart i = true) :
    jumpComplaints c (scan f c) i = .ok (Bytecode.jumpComplaints c (scan f c) i) := by
  obtain ⟨op, hop, hfits⟩ := isStart_fits h
  obtain ⟨b, hb, ho⟩ := Chunk.opcode?_eq_some_iff.mp hop
  have hbyte : c.byte? (i : Int) = some b := by
    rw [Chunk.byte?, if_pos (by omega), Int.toNat_natCast, hb]
  obtain ⟨target, htarget⟩ : ∃ t, c.target? i = some t := by
    unfold Chunk.target?
    rw [hbyte, Option.bind_eq_bind, Option.bind_some, byteOperand_of_opcode ho]
    have word (hsize : op.size = 3) : ∃ n, c.u16? ((i : Int) + 1) = some n := by
      exact_mod_cast Chunk.u16?_of_lt (c := c) (i := i + 1) (by omega)
    split
    · next hj =>
      obtain ⟨n, hn⟩ := word (by simp [Opcode.size, hj])
      exact ⟨_, by rw [Chunk.i16?, hn]; rfl⟩
    · next hj =>
      obtain ⟨n, hn⟩ := word (by simp [Opcode.size, hj])
      exact ⟨_, by rw [hn]; rfl⟩
    · exact ⟨-1, rfl⟩
  unfold jumpComplaints Bytecode.jumpComplaints
  simp only [hbyte, htarget, found_some, ok_bind, Option.bind_some, ho]
  split <;> rfl

theorem endComplaint_eq (h : 0 < c.size) :
    endComplaint c (scan f c) = .ok (endComplaint? c (scan f c)) := by
  have hlast : (scan f c).last < c.code.size := scanFrom_last_lt _ _ _ h
  unfold endComplaint endComplaint?
  rw [getElem?_pos c.code _ hlast]
  rfl

/-- The analysis of sound code comes to its end, errors or not: the room for further visits
shrinks with every one. -/
theorem explore_finishes {limit : Nat} (h : Sound f c) (fuel : Nat) (s : State) (hs : Inside c s)
    (hroom : s.room ≤ fuel) : ∃ s', explore c limit fuel s = .ok s' ∧ s'.pending = [] := by
  induction fuel generalizing s with
  | zero =>
    refine ⟨s, rfl, List.eq_nil_of_length_eq_zero ?_⟩
    unfold State.room at hroom
    omega
  | succ fuel ih =>
    cases hp : s.pending with
    | nil => exact ⟨s, by simp only [explore, hp], hp⟩
    | cons p rest =>
      obtain ⟨place, d⟩ := p
      obtain ⟨i, rfl, hi⟩ := hs.pending (place, d) (by simp [hp])
      obtain ⟨op, hw⟩ := h.whole hi
      have hrest : Inside c { s with pending := rest } :=
        ⟨hs.size, fun q hq => hs.pending q (by simp [hp, hq])⟩
      obtain ⟨s₁, hvisit, hv⟩ := @visit_visited f c limit i d op { s with pending := rest } hw hrest
      have hless : s₁.room ≤ 2 * s.depths.count none + rest.length := hv.room_le
      rw [State.room, hp, List.length_cons] at hroom
      obtain ⟨s₂, hexplore, hdone⟩ := ih s₁ (hv.inside h hi hw hrest) (by omega)
      refine ⟨s₂, ?_, hdone⟩
      simp only [explore, hp]
      rw [hvisit]
      exact hexplore

theorem depths_eq (h : Sound f c) :
    ∃ r, depths c = .ok r ∧ StackDepth.check c defaultLimit = .ok r := by
  let start : State := { depths := Array.replicate c.size none, pending := [(0, 0)] }
  have hinside : Inside c start := by
    refine ⟨by simp [start], fun p hp => ⟨0, ?_, h.starts_zero⟩⟩
    obtain rfl := List.mem_singleton.mp hp
    rfl
  have hroom : start.room ≤ 2 * c.size + 2 := by
    simp only [State.room, start, List.length_singleton]
    have hcount : (Array.replicate c.size (none : Option Nat)).count none ≤ _ := Array.count_le_size
    rw [Array.size_replicate] at hcount
    omega
  obtain ⟨s, hexplore, hdone⟩ :
      ∃ s, explore c defaultLimit (2 * c.size + 2) start = .ok s ∧ s.pending = [] :=
    explore_finishes h _ start hinside hroom
  refine ⟨⟨s.maxDepth, s.depths, s.errors⟩, ?_, ?_⟩
  · show ((explore c defaultLimit (2 * c.size + 2) start).mapError _).bind _ = _
    rw [hexplore]
    show (if s.pending.isEmpty then _ else _) = _
    rw [hdone]
    rfl
  · show (explore c defaultLimit (2 * c.size + 2) start).bind _ = _
    rw [hexplore]
    rfl

/-! ### The whole verification -/

theorem mapM_jumpComplaints (l : List Nat) (hl : ∀ i ∈ l, (scan f c).isStart i = true) :
    l.mapM (jumpComplaints c (scan f c)) = .ok (l.map (Bytecode.jumpComplaints c (scan f c))) := by
  induction l with
  | nil => rfl
  | cons i rest ih =>
    rw [List.mapM_cons, jumpComplaints_eq (hl i (by simp)), ih fun j hj => hl j (by simp [hj])]
    rfl

/-- Verification never looks outside the code of a function and always comes to an end. -/
theorem verify_eq (f : Function) : verify f = .ok f.verify := by
  unfold verify Function.verify
  cases hc : f.chunk with
  | none => rfl
  | some c =>
    by_cases hsize : (c.size == 0) = true
    · simp only [hsize, if_true]
    · have hpos : 0 < c.size := by simpa [Nat.pos_iff_ne_zero] using hsize
      have hscan : scanFrom f c c.size 0 { starts := Array.replicate c.size false } =
          .ok (scan f c) :=
        scanFrom_eq _ _ _ (by omega)
      simp only [hsize, Bool.false_eq_true, if_false, hscan, ok_bind]
      by_cases hbroken : (scan f c).broken = true
      · rw [if_pos hbroken, if_pos hbroken]
        rfl
      · rw [if_neg hbroken, if_neg hbroken,
          mapM_jumpComplaints _ fun i hi => (List.mem_filter.mp hi).2, ok_bind,
          endComplaint_eq hpos,
          ok_bind, ← List.flatMap_def]
        generalize hseen : (if f.locals < f.arity
          then [(0, Complaint.arity f.arity f.locals)] else [])
          ++ (scan f c).complaints.toList
          ++ ((List.range c.size).filter fun (i : Nat) => (scan f c).isStart i).flatMap
            (Bytecode.jumpComplaints c (scan f c)) ++ (endComplaint? c (scan f c)).toList = seen
        cases seen with
        | cons e rest => rfl
        | nil =>
          obtain ⟨r, hdepths, hcheck⟩ := depths_eq (Sound.of_unremarked hpos hseen)
          simp only [List.isEmpty_nil, Bool.not_true, Bool.false_eq_true,
            if_false, hdepths, ok_bind,
            hcheck]
          rfl

end LoopTracer.Bytecode.Strict
