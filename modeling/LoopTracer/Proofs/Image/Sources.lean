import LoopTracer.Bytecode.Source
import LoopTracer.Proofs.Image.Storable

/-! Programs from source text.

Every line of a text adds a code byte only together with its source line, writes numbers only within
the bounds that the directives allow, and leaves null where a function constant will stand. So the
program of a text has a compiled form (`parse_storable`). -/
namespace LoopTracer.Bytecode.Source

/-- Code under construction: a line for each byte, and constants whose functions are not known. -/
structure Sketched (c : Chunk) : Prop where
  lines : c.lines.size = c.size
  line : ∀ n ∈ c.lines, 0 ≤ n
  constants : ∀ v ∈ c.constants, Image.Plain v

namespace Sketched

variable {c : Chunk}

theorem empty : Sketched {} := ⟨rfl, nofun, nofun⟩

theorem write (h : Sketched c) (b : UInt8) (line : Nat) : Sketched (c.write b line) := by
  refine ⟨?_, fun n hn => ?_, h.constants⟩
  · show (c.lines.push line).size = (c.code.push b).size
    rw [Array.size_push, ByteArray.size_push, h.lines]
    rfl
  · rcases Array.mem_push.mp hn with hn | rfl
    · exact h.line n hn
    · exact Int.natCast_nonneg line

theorem writeU16 (h : Sketched c) (n : UInt16) (line : Nat) : Sketched (c.writeU16 n line) :=
  (h.write _ line).write _ line

theorem push (h : Sketched c) {v : Value} (hv : Image.Plain v) :
    Sketched { c with constants := c.constants.push v } := by
  refine ⟨h.lines, h.line, fun w hw => ?_⟩
  rcases Array.mem_push.mp hw with hw | rfl
  · exact h.constants w hw
  · exact hv

theorem addConstant (h : Sketched c) {v : Value} (hv : Image.Plain v) :
    Sketched (c.addConstant v).1 := by
  unfold Chunk.addConstant
  split
  · exact h
  · exact h.push hv

/-- Overwriting code leaves its size. -/
theorem putU16 (h : Sketched c) (offset : Int) (n : UInt16) :
    Sketched ((c.putU16? offset n).getD c) := by
  unfold Chunk.putU16?
  split
  · refine ⟨?_, h.line, h.constants⟩
    have hset (bytes : ByteArray) (i : Nat) (b : UInt8) : (bytes.set! i b).size = bytes.size :=
      Array.size_setIfInBounds
    show c.lines.size = ((c.code.set! _ _).set! _ _).size
    rw [hset, hset]
    exact h.lines
  · exact h

end Sketched

/-- What the name of a function must not be. -/
abbrev Named (t : Text) : Prop := t.isEmpty = false

/-! ### Lines -/

/-- A constant that is written out is no function, and a function has a name. -/
theorem literal_answers (t : Text) : Answers (fun _ => True) (literal t) fun l =>
    match l with
    | .value v => Image.Plain v
    | .function name => Named name := by
  unfold literal
  split
  · trivial
  · split
    · trivial
    · split
      · trivial
      · split
        · next name _ =>
          split
          · trivial
          · next hname =>
            cases name with
            | nil => exact absurd rfl hname
            | cons b rest => rfl
        · split <;> trivial
        · split
          · next n _ =>
            show Image.Plain (.ofInt n)
            unfold Value.ofInt
            split <;> trivial
          · split <;> trivial

/-- A function being read. -/
structure Drafted (d : Draft) : Prop where
  arity : d.arity ≤ 65535
  locals : d.locals ≤ 65535
  chunk : Sketched d.chunk

/-- What a line leaves of the function that it belongs to. -/
def Extended (x : Draft × Option Pending) : Prop := Drafted x.1 ∧ ∀ p ∈ x.2, Named p.name

theorem operand_answers (line function : Nat) {d : Draft} (h : Drafted d)
    (op : Opcode) (place : Nat)
    (t : Text) : Answers (fun _ => True) (operand line function d op place t) Extended := by
  have extended {c : Chunk} (hc : Sketched c) : Extended ({ d with chunk := c }, none) :=
    ⟨⟨h.arity, h.locals, hc⟩, nofun⟩
  unfold operand
  cases op.operand with
  | none => exact ⟨h, nofun⟩
  | const =>
    have hliteral := literal_answers t
    cases hl : literal t with
    | error e => trivial
    | ok l =>
      rw [hl] at hliteral
      cases l with
      | value v =>
        dsimp only
        split
        · trivial
        · exact extended ((h.chunk.addConstant hliteral).writeU16 _ line)
      | function name =>
        dsimp only
        split
        · trivial
        · refine ⟨⟨h.arity, h.locals, (h.chunk.push (v := .null) trivial).writeU16 _ line⟩,
            fun p hp => ?_⟩
          obtain rfl := Option.mem_some.mp hp
          exact hliteral
  | slot =>
    cases bounded? t 65535 with
    | none => trivial
    | some n => exact extended (h.chunk.writeU16 _ line)
  | jump => exact ⟨⟨h.arity, h.locals, h.chunk.writeU16 _ line⟩, nofun⟩
  | loop => exact ⟨⟨h.arity, h.locals, h.chunk.writeU16 _ line⟩, nofun⟩
  | byte =>
    dsimp only
    split
    · cases Builtin.ofName? t with
      | none => trivial
      | some b => exact extended (h.chunk.write _ line)
    · cases bounded? t 255 with
      | none => trivial
      | some n => exact extended (h.chunk.write _ line)

theorem instruction_answers (line function : Nat) {d : Draft} (h : Drafted d) (t : Text) :
    Answers (fun _ => True) (instruction line function d t) Extended := by
  unfold instruction
  dsimp only
  split
  · trivial
  · split
    · trivial
    · split
      · trivial
      · apply operand_answers
        exact ⟨h.arity, h.locals, h.chunk.write _ line⟩

theorem statement_answers (line function : Nat) {d : Draft} (h : Drafted d) (t : Text) :
    Answers (fun _ => True) (statement line function d t) Extended := by
  unfold statement
  split
  · exact instruction_answers line function h t
  · split
    · trivial
    · dsimp only
      split
      · exact ⟨⟨h.arity, h.locals, h.chunk⟩, nofun⟩
      · apply instruction_answers
        exact ⟨h.arity, h.locals, h.chunk⟩

/-! ### The whole text -/

/-- A function whose constants are still to be linked. -/
structure Finished (f : Function) : Prop where
  arity : 0 ≤ f.arity ∧ f.arity ≤ 65535
  locals : 0 ≤ f.locals ∧ f.locals ≤ 65535
  maxStack : f.maxStack = 0
  chunk : ∃ c, f.chunk = some c ∧ Sketched c

structure Reading (s : State) : Prop where
  functions : ∀ f ∈ s.functions, Finished f
  draft : ∀ d ∈ s.draft, Drafted d
  pending : ∀ p ∈ s.pending, Named p.name

theorem Drafted.finish {d : Draft} (h : Drafted d) (id : Nat) :
    Answers (fun _ => True) (d.finish id) Finished := by
  have hfixups : Answers (fun _ => True) (d.fixups.foldlM (resolve d.labels) d.chunk) Sketched := by
    rw [← Array.foldlM_toList]
    refine Answers.foldlM h.chunk fun fixup _ c hc => ?_
    unfold resolve
    dsimp only
    repeat' split
    all_goals first | trivial | exact hc.putU16 _ _
  refine hfixups.bind fun c hc => ?_
  have harity := h.arity
  have hlocals := h.locals
  exact ⟨by dsimp only; omega, by dsimp only; omega, rfl, c, rfl, hc⟩

theorem Reading.finish {s : State} (h : Reading s) :
    Answers (fun _ => True) s.finish fun s => Reading s ∧ s.draft = none := by
  unfold State.finish
  cases hd : s.draft with
  | none => exact ⟨h, hd⟩
  | some d =>
    refine ((h.draft d hd).finish _).bind fun f hf => ⟨⟨fun g hg => ?_, nofun, h.pending⟩, rfl⟩
    rcases Array.mem_push.mp hg with hg | rfl
    · exact h.functions g hg
    · exact hf

theorem bounded?_le {t : Text} {limit n : Nat} (h : bounded? t limit = some n) : n ≤ limit := by
  obtain ⟨k, -, hk⟩ := Option.bind_eq_some_iff.mp h
  split at hk
  · next hbounds =>
    simp only [Bool.and_eq_true, decide_eq_true_eq] at hbounds
    obtain rfl := Option.some.inj hk
    omega
  · cases hk

theorem Reading.declare {s : State} (h : Reading s) (name : Text) {n k : Nat} (hn : n ≤ 65535)
    (hk : k ≤ 255) : Reading { s with draft := some { name, arity := k, locals := n } } := by
  refine ⟨h.functions, fun d hd => ?_, h.pending⟩
  obtain rfl := Option.mem_some.mp hd
  exact ⟨by dsimp only; omega, hn, .empty⟩

theorem Reading.directive {s : State} (h : Reading s) (line : Nat) (t : Text) :
    Answers (fun _ => True) (s.directive line t) Reading := by
  unfold State.directive
  dsimp only
  split
  · trivial
  · split
    case h_3 => trivial
    all_goals
      show Answers _ (s.finish >>= _) _
      refine h.finish.bind fun s hs => ?_
      dsimp only
      split
      · trivial
      · split
        · next n hn =>
          have hlocals := bounded?_le hn
          first
          | exact hs.1.declare _ hlocals (Nat.zero_le _)
          | split
            · next k hk => exact hs.1.declare _ hlocals (bounded?_le hk)
            · trivial
        · trivial

theorem Reading.line {s : State} (h : Reading s) (line : Nat) (raw : Text) :
    Answers (fun _ => True) (s.line line raw) Reading := by
  unfold State.line
  dsimp only
  split
  · exact h
  · split
    · exact h.directive line _
    · cases hd : s.draft with
      | none => trivial
      | some d =>
        have hstatement := statement_answers line s.functions.size (h.draft d hd)
          (Text.ofList (stripComment raw.toList)).trim
        dsimp only
        split
        · trivial
        · next d' pending hx =>
          rw [hx] at hstatement
          refine ⟨h.functions, fun e he => ?_, fun p hp => ?_⟩
          · obtain rfl := Option.mem_some.mp he
            exact hstatement.1
          · rcases Array.mem_append.mp hp with hp | hp
            · exact h.pending p hp
            · exact hstatement.2 p (by simpa using hp)

theorem Finished.storable {f : Function} (h : Finished f)
    (names : Array Text) : f.Storable names := by
  obtain ⟨c, hchunk, hc⟩ := h.chunk
  exact ⟨h.arity, h.locals, h.maxStack, c, hchunk, hc.lines, hc.line,
    fun v hv => (hc.constants v hv).storable names⟩

/-- Linking one constant keeps the functions storable among their names. -/
theorem link_answers {functions : Array Function} {names : Array Text} {p : Pending}
    (hnames : functions.map (·.name) = names) (h : ∀ f ∈ functions, f.Storable names)
    (hp : Named p.name) :
    Answers (fun _ => True) (link functions p) fun out =>
      out.map (·.name) = names ∧ ∀ f ∈ out, f.Storable names := by
  unfold link
  cases hi : functions.findIdx? (·.name == p.name) with
  | none => trivial
  | some i =>
    have href : (Value.func (some ⟨0, i, p.name⟩)).Storable names :=
      ⟨rfl, hp, by rw [← hnames, Array.findIdx?_map]; exact hi⟩
    refine ⟨?_, fun f hf => ?_⟩
    · rw [← hnames]
      apply Array.ext
      · simp
      · intro k hk hk'
        simp only [Array.getElem_map, Array.getElem_modify]
        split <;> rfl
    · obtain ⟨k, hk, rfl⟩ := Array.mem_iff_getElem.mp hf
      rw [Array.getElem_modify]
      split
      · exact (h _ (Array.getElem_mem _)).setConstant _ href
      · exact h _ (Array.getElem_mem _)

/-- The program of a text has a compiled form. -/
theorem parse_answers (text : Text) : Answers (fun _ => True) (parse text) Program.Storable := by
  have hlines : Answers (fun _ => True) ((text.split 10).foldlM (fun (x : State × Nat) raw => do
      return (← x.1.line x.2 raw, x.2 + 1)) ({}, 1)) fun x => Reading x.1 := by
    refine Answers.foldlM ⟨fun _ h => by simp at h, fun _ h => by simp at h,
      fun _ h => by simp at h⟩ fun raw _ x hx => ?_
    exact (Reading.line hx x.2 raw).bind fun s hs => hs
  refine hlines.bind fun x hx => (Reading.finish hx).bind fun s hs => ?_
  dsimp only
  split
  · trivial
  · next hsome =>
    have hlink : Answers (fun _ => True) (s.pending.foldlM link s.functions) fun out =>
        out.map (·.name) = s.functions.map (·.name) ∧
          ∀ f ∈ out, f.Storable (s.functions.map (·.name)) := by
      rw [← Array.foldlM_toList]
      refine Answers.foldlM ⟨rfl, fun f hf => (hs.1.functions f hf).storable _⟩ fun p hp out hout =>
        ?_
      exact link_answers hout.1 hout.2 (hs.1.pending p (by simpa using hp))
    refine hlink.bind fun functions hout => ?_
    have hpos : 0 < functions.size := by
      have hsize := congrArg Array.size hout.1
      rw [Array.size_map, Array.size_map] at hsize
      rw [hsize]
      exact Nat.pos_of_ne_zero fun hzero => hsome (by simpa [Array.isEmpty] using hzero)
    refine ⟨⟨_, rfl, ?_⟩, ?_⟩
    · -- The function `main`, or the first one.
      show (Program.lookup? _ _).getD 0 < functions.size
      cases hmain : Program.lookup? { functions } "main" with
      | none => exact hpos
      | some i => exact (Array.findIdx?_eq_some_iff_getElem.mp hmain).1
    · intro f hf
      rw [Program.names]
      dsimp only
      rw [hout.1]
      exact hout.2 f hf

end LoopTracer.Bytecode.Source
