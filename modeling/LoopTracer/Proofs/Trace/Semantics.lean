import LoopTracer.Proofs.Trace.StringHeap
import LoopTracer.Trace.Buffer

/-! What a trace means.

The instructions of a trace are carried out one after the other. Each adds the word that it makes
to those made before; one that makes none adds zero, so that the number of an instruction is always
the number of its word. A guard that fails leaves the trace, and a helper may be called in a way
that it has no answer for. -/
namespace LoopTracer.Trace

namespace TraceOp

/-- What an operation makes of its operands, and the flag where it sets one. -/
def compute? (op : TraceOp) (a b : UInt64) : Option (UInt64 × Option Bool) :=
  match op.compare?, op.binary?, op.unary? with
  | some (c, float), _, _ => some (if c.holds float a b then 1 else 0, none)
  | _, some m, _ => m.binary? a b
  | _, _, some m => m.unary? a
  | _, _, _ => none

/-- Whether an operation only computes. -/
def computes (op : TraceOp) : Bool := op.compare?.isSome || op.binary?.isSome || op.unary?.isSome

end TraceOp

/-- What a trace works on. -/
structure Env where
  /-- The words of the instructions so far. -/
  values : Array UInt64 := #[]
  /-- Whether the last operation that tells so did not fit. -/
  overflow : Bool := false
  slots : Array UInt64
  heap : StringHeap

/-- How carrying out instructions ends. -/
inductive Pass where
  | on (e : Env)
  /-- A guard failed; `e` has the words of the instructions before it. -/
  | left (exit : SideExit) (e : Env)
  | fault (f : Fault)

namespace Pass

def on? : Pass → Option Env
  | .on e => some e
  | _ => none

def left? : Pass → Option (SideExit × Env)
  | .left x e => some (x, e)
  | _ => none

theorem on?_eq_some {p : Pass} {e : Env} : p.on? = some e ↔ p = .on e := by
  cases p <;> simp [on?]

theorem left?_eq_some {p : Pass} {x : SideExit} {e : Env} :
    p.left? = some (x, e) ↔ p = .left x e := by
  cases p <;> simp [left?]

end Pass

namespace Env

/-- The word of a value. -/
def word (e : Env) (r : Int) : UInt64 := if r < 0 then 0 else e.values[r.toNat]?.getD 0

def push (e : Env) (w : UInt64) : Env := { e with values := e.values.push w }

/-- The result of an operation and the flag that it sets. -/
def compute (e : Env) : Option (UInt64 × Option Bool) → Pass
  | some (w, flag) => .on ({ e with overflow := flag.getD e.overflow }.push w)
  | none => .fault .bounds

/-- A guard that leaves when it fails. -/
def guard (e : Env) (i : Inst) (fails : Bool) : Pass :=
  match i.exit with
  | none => .fault .bounds
  | some x => if fails then .left x e else .on (e.push 0)

/-- Carries out one instruction. -/
def exec (helpers : HelperTable) (i : Inst) (e : Env) : Pass :=
  match i.op with
  | .param => .on (e.push (e.slots[i.slot.slot.toNat]?.getD 0))
  | .imm => .on (e.push i.imm.bits)
  | .store => .on ({ e with slots := e.slots.set! i.slot.slot.toNat (e.word i.a) }.push 0)
  | .call =>
    match helpers.invoke e.heap i.helper (i.args.map e.word) with
    | .error f => .fault f
    | .ok (w, heap) => .on ({ e with heap }.push w)
  | .exitUnless => e.guard i (e.word i.a == 0)
  | .exitIf => e.guard i (e.word i.a != 0)
  | .exitOv => e.guard i e.overflow
  | .loop | .jumpTree => .on (e.push 0)
  | op => e.compute (op.compute? (e.word i.a) (e.word i.b))

theorem exec_compute {helpers : HelperTable} {i : Inst} {e : Env} (h : i.op.computes = true) :
    e.exec helpers i = e.compute (i.op.compute? (e.word i.a) (e.word i.b)) := by
  unfold exec
  cases hop : i.op <;> first | rfl | (rw [hop] at h; cases h)

/-- Carries out instructions until a guard fails. -/
def run (helpers : HelperTable) : List Inst → Env → Pass
  | [], e => .on e
  | i :: rest, e =>
    match e.exec helpers i with
    | .on e => run helpers rest e
    | stopped => stopped

theorem run_append (helpers : HelperTable) (is js : List Inst) (e : Env) :
    run helpers (is ++ js) e =
      match run helpers is e with
      | .on e => run helpers js e
      | stopped => stopped := by
  induction is generalizing e with
  | nil => rfl
  | cons i is ih =>
    simp only [List.cons_append, run]
    cases e.exec helpers i with
    | on e' => exact ih e'
    | left x e' => rfl
    | fault f => rfl

/-! ### Words -/

section Words

variable {e : Env} {r : Int}

@[simp] theorem push_slots (e : Env) (w : UInt64) : (e.push w).slots = e.slots := rfl

@[simp] theorem push_heap (e : Env) (w : UInt64) : (e.push w).heap = e.heap := rfl

@[simp] theorem push_overflow (e : Env) (w : UInt64) : (e.push w).overflow = e.overflow := rfl

@[simp] theorem push_size (e : Env) (w : UInt64) : (e.push w).values.size = e.values.size + 1 :=
  Array.size_push w

/-- The word that was added last. -/
theorem word_push (e : Env) (w : UInt64) : (e.push w).word e.values.size = w := by
  rw [word, if_neg (by omega), Int.toNat_natCast, push, Array.getElem?_push_size]
  rfl

/-- A value that there already is. -/
structure Has (e : Env) (r : Int) : Prop where
  nonneg : 0 ≤ r
  lt : r < e.values.size

/-- A later point of the same pass. -/
structure Later (e e' : Env) : Prop where
  size : e.values.size ≤ e'.values.size
  words : ∀ r : Int, e.Has r → e'.word r = e.word r
  heap : e'.heap.Extends e.heap

theorem Has.later {e' : Env} (h : e.Has r) (hl : Later e e') : e'.Has r :=
  ⟨h.nonneg, by have := h.lt; have := hl.size; omega⟩

theorem Later.refl (e : Env) : Later e e := ⟨Nat.le_refl _, fun _ _ => rfl, .refl _⟩

theorem Later.trans {e e' e'' : Env} (h : Later e e') (h' : Later e' e'') : Later e e'' :=
  ⟨Nat.le_trans h.size h'.size, fun r hr => (h'.words r (hr.later h)).trans (h.words r hr),
    h'.heap.trans h.heap⟩

/-- Adding a word keeps the others. -/
theorem later_push {e₁ : Env} (hvalues : e₁.values = e.values) (hheap : e₁.heap.Extends e.heap)
    (w : UInt64) : Later e (e₁.push w) := by
  refine ⟨?_, fun r hr => ?_, hheap⟩
  · rw [push_size, hvalues]
    omega
  · have hlt := hr.lt
    have hnonneg := hr.nonneg
    rw [word, word, push, hvalues, Array.getElem?_push,
      if_neg (show ¬r.toNat = e.values.size by omega)]

end Words

end Env

end LoopTracer.Trace
