import LoopTracer.Proofs.Machine.Branches
import LoopTracer.Trace.Helper

/-! Requests that are carried out.

What the machine does at a word depends on where the word lies only for branches. So requests can be
carried out without any code (`performAll`): one after the other until one leads away. Where memory
holds the word of a request, the machine does the same (`Leads`), and it can count on having a step
for each word. -/
namespace LoopTracer.Machine

variable {η : Type} {host : Host η} {m m' : State} {env env' : η}

/-! ### Words in memory -/

namespace Virtual

theorem Opcode.ofByte_toByte (op : Opcode) (h : ∀ n, op ≠ .other n) :
    Opcode.ofByte op.toByte = op := by
  cases op with
  | other n => exact absurd rfl (h n)
  | _ => rfl

theorem Word.length_bytes (w : Word) : w.bytes.length = wordSize := by
  simp [Word.bytes, wordSize]

/-- A word is read back from its bytes. -/
theorem Word.read_shows {mem : Memory} {place : Nat} {w : Word} (hop : ∀ n, w.op ≠ .other n)
    (h : mem.Shows place w.bytes) : Word.read mem place = w := by
  have hbyte : ∀ (i : Nat) (b : UInt8), w.bytes[i]? = some b →
      ((mem.window place wordSize).1[(mem.window place wordSize).2 + i]?).getD 0 = b := by
    intro i b hi
    have hlt : i < wordSize := by
      have := (List.getElem?_eq_some_iff.mp hi).1
      simpa [Word.bytes, wordSize] using this
    rw [Memory.window_getElem? mem hlt, h i b hi]
    rfl
  have hx : readLittle (mem.window place wordSize).1 ((mem.window place wordSize).2 + 4) 4 =
      w.x.toUInt32.toNat % 256 ^ 4 := readLittle_of_bytes fun i b hi => by
      have hlt := (List.getElem?_eq_some_iff.mp hi).1
      rw [Nat.add_assoc, Nat.add_comm 4]
      refine hbyte (i + 4) b ?_
      show ((([w.op.toByte, w.a, w.b, w.c] ++ littleEndian 4 _) ++
        littleEndian 8 _ : List UInt8))[i + 4]? = _
      rw [List.getElem?_append_left (by simp at hlt ⊢; omega), List.getElem?_append_right (by simp)]
      exact hi
  have hy : readLittle (mem.window place wordSize).1 ((mem.window place wordSize).2 + 8) 8 =
      w.y.toNat % 256 ^ 8 := readLittle_of_bytes fun i b hi => by
      rw [Nat.add_assoc, Nat.add_comm 8]
      refine hbyte (i + 8) b ?_
      show ((([w.op.toByte, w.a, w.b, w.c] ++ littleEndian 4 _) ++
        littleEndian 8 _ : List UInt8))[i + 8]? = _
      rw [List.getElem?_append_right (by simp)]
      simpa using hi
  have hx32 : w.x.toUInt32.toNat % 256 ^ 4 = w.x.toUInt32.toNat :=
    Nat.mod_eq_of_lt w.x.toUInt32.toNat_lt
  have hy64 : w.y.toNat % 256 ^ 8 = w.y.toNat := Nat.mod_eq_of_lt w.y.toNat_lt
  obtain ⟨op, a, b, c, x, y⟩ := w
  have h₀ := hbyte 0 op.toByte rfl
  have h₁ := hbyte 1 a rfl
  have h₂ := hbyte 2 b rfl
  have h₃ := hbyte 3 c rfl
  rw [Nat.add_zero] at h₀
  unfold Word.read
  dsimp only
  dsimp only at hx hy hx32 hy64
  rw [h₀, h₁, h₂, h₃, hx, hy, hx32, hy64, Opcode.ofByte_toByte op hop]
  simp

end Virtual

/-! ### Carrying out requests -/

/-- Whether a guard leaves, if its condition is known and its register there. -/
def State.leaves? (m : State) (r : Reg) : GuardCond → Option Bool
  | .zero => m.regs[r.byte.toNat]?.map (· == 0)
  | .nonZero => m.regs[r.byte.toNat]?.map (· != 0)
  | .overflow => some m.overflow
  | .other _ => none

/-- Where a request leads. -/
inductive Course (η : Type) where
  /-- To the next one. -/
  | on (m : State) (env : η)
  | away (target : CodeAddr) (m : State) (env : η)
  /-- The machine stops, as code of a trace never makes it. -/
  | stuck

/-- Carries out a request; the shared end of all exits is none. -/
def Instr.perform (host : Host η) (i : Instr) (m : State) (env : η) : Course η :=
  match i with
  | .jump target => .away target m env
  | .guard cond r target =>
    match m.leaves? r cond with
    | some true => .away target m env
    | some false => .on m env
    | none => .stuck
  | i =>
    match Virtual.word? 0 i with
    | none => .on m env
    | some w =>
      match execute host w 0 m env with
      | (m, env, .at _) => .on m env
      | _ => .stuck

namespace Instr

/-- Not a branch. -/
def Straight : Instr → Prop
  | .jump _ | .guard .. => False
  | _ => True

theorem perform_straight {i : Instr} (hi : i.Straight) : i.perform host m env =
    match Virtual.word? 0 i with
    | none => .on m env
    | some w =>
      match execute host w 0 m env with
      | (m, env, .at _) => .on m env
      | _ => .stuck := by
  cases i <;> first | rfl | exact hi.elim

theorem perform_word {i : Instr} {w : Virtual.Word} {p : Int} (hi : i.Straight)
    (hword : Virtual.word? 0 i = some w)
    (h : execute host w 0 m env = (m', env', .at p)) : i.perform host m env = .on m' env' := by
  rw [perform_straight hi, hword]
  dsimp only
  rw [h]

theorem perform_guard {r : Reg} {cond : GuardCond} {target : CodeAddr} {b : Bool}
    (h : m.leaves? r cond = some b) :
    perform host (.guard cond r target) m env = if b then .away target m env else .on m env := by
  unfold perform
  dsimp only
  rw [h]
  cases b <;> rfl

/-- Its word is the same everywhere. -/
theorem straight_word? {i : Instr} (hi : i.Straight) (pos : CodeAddr) :
    Virtual.word? pos i = Virtual.word? 0 i := by
  cases i <;> first | rfl | exact hi.elim

theorem straight_op {i : Instr} {w : Virtual.Word} (hi : i.Straight)
    (hword : Virtual.word? 0 i = some w) :
    w.op ≠ .guard ∧ w.op ≠ .jump ∧ ∀ n, w.op ≠ .other n := by
  cases i with
  | mov dst src =>
    unfold Virtual.word? at hword
    dsimp only at hword
    split at hword
    · cases hword
    · cases hword
      exact ⟨nofun, nofun, nofun⟩
  | jump => exact hi.elim
  | guard => exact hi.elim
  | _ =>
    cases hword
    exact ⟨nofun, nofun, nofun⟩

/-- A request other than a branch goes on as its word does. -/
theorem perform_straight_on {i : Instr} (hi : i.Straight) (h : i.perform host m env = .on m' env') :
    Virtual.word? 0 i = none ∧ m' = m ∧ env' = env ∨
      ∃ w p, Virtual.word? 0 i = some w ∧ execute host w 0 m env = (m', env', .at p) := by
  rw [perform_straight hi] at h
  split at h
  · next hword =>
    cases h
    exact .inl ⟨hword, rfl, rfl⟩
  · next w hword =>
    split at h
    · next hstep =>
      cases h
      exact .inr ⟨w, _, hword, hstep⟩
    · cases h

theorem perform_straight_away {i : Instr} (hi : i.Straight) (target : CodeAddr) :
    i.perform host m env ≠ .away target m' env' := by
  intro h
  rw [perform_straight hi] at h
  split at h
  · cases h
  · split at h <;> cases h

end Instr

/-- Carries out requests until one leads away. -/
def performAll (host : Host η) : List Instr → State → η → Course η
  | [], m, env => .on m env
  | i :: rest, m, env =>
    match i.perform host m env with
    | .on m env => performAll host rest m env
    | stopped => stopped

theorem performAll_append (is js : List Instr) (m : State) (env : η) :
    performAll host (is ++ js) m env =
      match performAll host is m env with
      | .on m env => performAll host js m env
      | stopped => stopped := by
  induction is generalizing m env with
  | nil => rfl
  | cons i is ih =>
    simp only [List.cons_append, performAll]
    cases i.perform host m env with
    | on m' env' => exact ih m' env'
    | away target m' env' => rfl
    | stuck => rfl

/-- The first request decides whether the others are carried out. -/
theorem performAll_head (i : Instr) (is : List Instr) (m : State) (env : η) :
    performAll host (i :: is) m env =
      match i.perform host m env with
      | .on m env => performAll host is m env
      | stopped => stopped := rfl

theorem performAll_on {is js : List Instr} (h : performAll host is m env = .on m' env') :
    performAll host (is ++ js) m env = performAll host js m' env' := by
  rw [performAll_append, h]

theorem performAll_away {is js : List Instr} {target : CodeAddr}
    (h : performAll host is m env = .away target m' env') :
    performAll host (is ++ js) m env = .away target m' env' := by
  rw [performAll_append, h]

theorem performAll_cons {i : Instr} {is : List Instr} (h : i.perform host m env = .on m' env') :
    performAll host (i :: is) m env = performAll host is m' env' := by
  rw [performAll_head, h]

theorem performAll_single (i : Instr) (m : State) (env : η) :
    performAll host [i] m env = i.perform host m env := by
  rw [performAll]
  cases i.perform host m env <;> rfl

/-! ### Words at any place -/

section Elsewhere

variable {p : Int} (steps : Nat)

theorem reading_elsewhere {r : UInt8} {k k' : UInt64 → Step η} {out : Step η}
    (h : reading m env r k = (m', env', .at p)) (hk : ∀ v, k v = (m', env', .at p) → k' v = out) :
    reading { m with steps } env r k' = out := by
  unfold reading at h ⊢
  dsimp only
  split at h
  · exact hk _ h
  · cases h

theorem writing_elsewhere {r : UInt8} {v : UInt64} {next : Int}
    (h : writing m env r v next = (m', env', .at p))
    (next' : Int) :
    writing { m with steps } env r v next' = ({ m' with steps }, env', .at next') := by
  unfold writing at h ⊢
  dsimp only
  split at h
  · next hr =>
    cases h
    exact if_pos hr
  · cases h

theorem result_elsewhere {r : UInt8} {v : UInt64} {flag : Option Bool} {next : Int}
    (h : result m env r v flag next = (m', env', .at p)) (next' : Int) :
    result { m with steps } env r v flag next' = ({ m' with steps }, env', .at next') := by
  unfold result at h ⊢
  cases flag with
  | none => exact writing_elsewhere steps h next'
  | some o => exact writing_elsewhere steps h next'

theorem callHelper_elsewhere {n : Nat} {ret : SizeClass} {onStack : Nat} {index : Int32}
    {classes : UInt64} {next : Int}
    (h : callHelper host m env n ret onStack index classes next = (m', env', .at p)) (next' : Int) :
    callHelper host { m with steps } env n ret onStack index classes next' =
      ({ m' with steps }, env', .at next') := by
  unfold callHelper at h ⊢
  cases host with
  | none => cases h
  | some call =>
    dsimp only at h ⊢
    have hargument : ∀ regArgs i, State.argument? { m with steps } regArgs i =
      m.argument? regArgs i := fun _ _ => rfl
    simp only [hargument]
    split at h
    · cases h
    · next hfew =>
      rw [if_neg hfew]
      split at h
      · cases h
      · split at h
        · cases h
        · obtain ⟨hm, hrest⟩ := Prod.mk.inj h
          simp only [← hm, ← (Prod.mk.inj hrest).1]

/-- What a word other than a branch does is the same everywhere and at any time, and it leads to the
word behind it. -/
theorem execute_elsewhere {w : Virtual.Word} (hguard : w.op ≠ .guard) (hjump : w.op ≠ .jump)
    (h : execute host w 0 m env = (m', env', .at p)) (pc : Int) :
    execute host w pc { m with steps } env =
      ({ m' with steps }, env', .at (pc + Virtual.wordSize)) := by
  have hcell : ∀ base disp, State.cell { m with steps } base disp = m.cell base disp :=
    fun _ _ => rfl
  unfold execute at h ⊢
  dsimp only at h ⊢
  cases hop : w.op with
  | nop =>
    rw [hop] at h
    cases h
    rfl
  | mov =>
    rw [hop] at h
    exact reading_elsewhere steps h fun v h => writing_elsewhere steps h _
  | movImm =>
    rw [hop] at h
    exact writing_elsewhere steps h _
  | load =>
    rw [hop] at h
    simp only [hcell] at h ⊢
    split at h
    · cases h
    · exact writing_elsewhere steps h _
    · exact writing_elsewhere steps h _
  | store =>
    rw [hop] at h
    simp only [hcell] at h ⊢
    split at h
    · cases h
    · next block i _ =>
      refine reading_elsewhere steps h fun v h => ?_
      cases block <;> cases h <;> rfl
  | binary =>
    rw [hop] at h
    refine reading_elsewhere steps h fun a h => reading_elsewhere steps h fun b h => ?_
    split at h
    · cases h
    · exact result_elsewhere steps h _
  | unary =>
    rw [hop] at h
    refine reading_elsewhere steps h fun a h => ?_
    split at h
    · cases h
    · exact result_elsewhere steps h _
  | compare =>
    rw [hop] at h
    exact reading_elsewhere steps h fun a h => reading_elsewhere steps h fun b h =>
      writing_elsewhere steps h _
  | guard => exact absurd hop hguard
  | jump => exact absurd hop hjump
  | push =>
    rw [hop] at h
    refine reading_elsewhere steps h fun v h => ?_
    cases h
    rfl
  | call =>
    rw [hop] at h
    exact callHelper_elsewhere steps h _
  | prologue =>
    rw [hop] at h
    dsimp only at h ⊢
    split at h
    · cases h
    · next hneg =>
      rw [if_neg hneg]
      cases h
      rfl
  | bailout =>
    rw [hop] at h
    change reading m env _ _ = _ at h
    unfold reading at h
    split at h <;> cases h
  | other op =>
    rw [hop] at h
    cases h

end Elsewhere

/-! ### Runs -/

/-- A place that a run can be at. -/
structure Spot (η : Type) where
  place : Nat
  state : State
  env : η

/-- In `n` steps the machine gets from one place to another, whatever number of steps it has made,
if there is no limit to them. -/
def Leads (host : Host η) (mem : Memory) (n : Nat) (x y : Spot η) : Prop :=
  ∀ fuel steps, ∃ steps', runFrom host mem 0 (fuel + n) x.place { x.state with steps } x.env =
    runFrom host mem 0 fuel y.place { y.state with steps := steps' } y.env

variable {mem : Memory} {n n' : Nat} {x y z : Spot η}

theorem Leads.refl (host : Host η) (mem : Memory) (x : Spot η) : Leads host mem 0 x x :=
  fun _ steps => ⟨steps, rfl⟩

theorem Leads.trans (h : Leads host mem n x y) (h' : Leads host mem n' y z) :
    Leads host mem (n + n') x z := by
  intro fuel steps
  obtain ⟨steps₁, h₁⟩ := h (fuel + n') steps
  obtain ⟨steps₂, h₂⟩ := h' fuel steps₁
  refine ⟨steps₂, ?_⟩
  rw [Nat.add_comm n n', ← Nat.add_assoc, h₁, h₂]

section

attribute [local irreducible] execute

/-- One more unit of fuel is one more step. -/
theorem runFrom_succ (maxSteps fuel : Nat) (pc : Int) (m : State) (env : η) :
    runFrom host mem maxSteps (fuel + 1) pc m env =
      if pc < 0 || (mem.size : Int) < pc + Virtual.wordSize then (m, env, .error (.badPc pc))
      else if maxSteps != 0 && maxSteps ≤ m.steps then (m, env, .error (.stepLimit m.steps))
      else
        match execute host (Virtual.Word.read mem pc.toNat) pc { m with steps := m.steps + 1 } env
        with
        | (m, env, .at pc) => runFrom host mem maxSteps fuel pc m env
        | (m, env, .done id) => (m, env, .done id)
        | (m, env, .error e) => (m, env, .error e)
        | (m, env, .fault f) => (m, env, .fault f) := rfl

end

/-- A word that the machine steps over. -/
theorem leads_execute {place : Nat} {w : Virtual.Word} {place' : Nat} (hop : ∀ n, w.op ≠ .other n)
    (hfit : place + Virtual.wordSize ≤ mem.size) (hshows : mem.Shows place w.bytes)
    (h : ∀ steps, ∃ steps', execute host w place { m with steps } env =
      ({ m' with steps := steps' }, env', .at place')) :
    Leads host mem 1 ⟨place, m, env⟩ ⟨place', m', env'⟩ := by
  intro fuel steps
  obtain ⟨steps', hexecute⟩ := h (steps + 1)
  refine ⟨steps', ?_⟩
  have hpc : (decide ((place : Int) < 0) || decide ((mem.size : Int) < place + Virtual.wordSize)) =
      false := by
    simp only [Bool.or_eq_false_iff, decide_eq_false_iff_not]
    omega
  rw [runFrom_succ]
  dsimp only
  simp only [hpc, Bool.false_eq_true, if_false, Int.toNat_natCast,
    Virtual.Word.read_shows hop hshows, hexecute,
    bne_self_eq_false, Bool.false_and]

end LoopTracer.Machine
