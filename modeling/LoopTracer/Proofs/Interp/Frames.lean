import LoopTracer.Proofs.Interp.LocalStep
import LoopTracer.Proofs.Number.Narrowing
import LoopTracer.Proofs.Verification.Depths

/-! Frames on the stack.

The frames of a run lie on one stack, each with its operands below the locals of the next. In a
`Sound` run every frame stands at an instruction of a verified function, and what lies between a
frame's locals and the next frame is exactly the operand stack that the depth analysis found for
that instruction (`Standing`). Making a frame keeps this up, or refuses with one of two errors. It
misses one case: where the sum that it compares with the size of the stack does not fit in 64
bits, it runs off the stack (`pushFrame_cases`). -/
namespace LoopTracer.Interp

open Bytecode Trace

/-! ### Clearing -/

theorem write_ok {s : State} {i : Nat} (h : i < s.stack.size) (v : Value) :
    write i v s = .ok () { s with stack := s.stack.set! i v } := by
  have hin : (decide ((i : Int) < 0) || decide ((s.stack.size : Int) ≤ i)) = false := by
    simp only [Bool.or_eq_false_iff, decide_eq_false_iff_not]
    omega
  rw [write, hin]
  rfl

/-- Clearing inside the stack sets these places to null and no others. -/
theorem clear_ok {s : State} (n : Nat) {i : Nat} (h : i + n ≤ s.stack.size) :
    ∃ stack, clear i n s = .ok () { s with stack } ∧ stack.size = s.stack.size ∧
      ∀ j, stack[j]? = if i ≤ j ∧ j < i + n then some .null else s.stack[j]? := by
  induction n generalizing i s with
  | zero =>
    refine ⟨s.stack, rfl, rfl, fun j => ?_⟩
    rw [if_neg (by omega)]
  | succ n ih =>
    obtain ⟨stack, hclear, hsize, hget⟩ :=
      ih (s := { s with stack := s.stack.set! i .null }) (i := i + 1) (by simp; omega)
    refine ⟨stack, ?_, by simpa using hsize, fun j => ?_⟩
    · unfold clear
      rw [bind_ok (write_ok (by omega) .null)]
      exact_mod_cast hclear
    · rw [hget j]
      by_cases hj : i + 1 ≤ j ∧ j < i + 1 + n
      · rw [if_pos hj, if_pos (by omega)]
      · rw [if_neg hj]
        show (s.stack.set! i .null)[j]? = _
        rw [Array.set!_eq_setIfInBounds, Array.getElem?_setIfInBounds]
        by_cases hij : i = j
        · subst hij
          rw [if_pos rfl, if_pos (by omega), if_pos (by omega)]
        · rw [if_neg hij, if_neg (by omega)]

/-- Clearing beyond the stack is a fault. -/
theorem clear_fault {s : State} (n : Nat) {i : Nat} (hi : i ≤ s.stack.size)
    (h : s.stack.size < i + n) :
    ∃ stack, clear i n s = .error (.fault .bounds) { s with stack } ∧
    stack.size = s.stack.size := by
  induction n generalizing i s with
  | zero => omega
  | succ n ih =>
    unfold clear
    by_cases hlt : i < s.stack.size
    · obtain ⟨stack, hclear, hsize⟩ :=
        ih (s := { s with stack := s.stack.set! i .null }) (i := i + 1)
        (by simp; omega) (by simp; omega)
      refine ⟨stack, ?_, by simpa using hsize⟩
      rw [bind_ok (write_ok hlt .null)]
      exact_mod_cast hclear
    · refine ⟨s.stack, bind_error ?_, rfl⟩
      have hout : (decide ((i : Int) < 0) || decide ((s.stack.size : Int) ≤ i)) = true := by
        simp only [Bool.or_eq_true, decide_eq_true_eq]
        omega
      rw [write, hout]
      rfl

/-! ### Making a frame -/

/-- How far the stack reaches when a function runs in a frame at `bp`. -/
def reach (fn : Function) (bp : Int) : Int := bp + fn.locals + fn.maxStack

/-- The frame does not fit on the stack, but the sum that is compared with the stack's size wraps
around and does. -/
def Wraps (fn : Function) (bp : Int) : Prop :=
  (stackSize : Int) < reach fn bp ∧ signed64 (reach fn bp) ≤ stackSize

instance (fn : Function) (bp : Int) : Decidable (Wraps fn bp) :=
  inferInstanceAs (Decidable (_ ∧ _))

/-- What making a frame at `bp` for a function comes to. -/
inductive Framed (fn : Function) (bp : Int) (s : State) : EStateM.Result Stop State Unit → Prop
  | tooMany : maxFrames ≤ s.frames.length →
      Framed fn bp s (.error (.error (s.errorHere "call stack overflow")) s)
  | tooLarge : s.frames.length < maxFrames → (stackSize : Int) < signed64 (reach fn bp) →
      Framed fn bp s (.error (.error (s.errorHere "value stack overflow")) s)
  | made (stack : Array Value) : s.frames.length < maxFrames → reach fn bp ≤ stackSize →
      stack.size = s.stack.size →
      (∀ j : Nat, stack[j]? =
        if s.sp ≤ j ∧ (j : Int) < bp + fn.locals then some .null else s.stack[j]?) →
      Framed fn bp s (.ok () { s with
        stack, sp := bp + fn.locals, frames := { fn, ip := 0, bp } :: s.frames
        counters := { s.counters with calls := s.counters.calls + 1 } })
  | wrapped (stack : Array Value) : s.frames.length < maxFrames → Wraps fn bp →
      stack.size = s.stack.size → Framed fn bp s (.error (.fault .bounds) { s with stack })

/-- Making a frame for a call with `argc` arguments. -/
theorem pushFrame_cases {s : State} {fn : Function} {argc : Nat} (hsize : s.stack.size = stackSize)
    (hbp : 0 ≤ s.sp - argc) (hsp : s.sp ≤ stackSize) (hargc : (argc : Int) ≤ fn.locals)
    (hmax : 0 ≤ fn.maxStack) (hmax' : fn.maxStack ≤ StackDepth.defaultLimit) :
    Framed fn (s.sp - argc) s (pushFrame fn argc s) := by
  have hstack : stackSize = 65536 := rfl
  have hlimit : StackDepth.defaultLimit = 256 := rfl
  have hget : (get : Interpreting State) s = .ok s s := rfl
  have hplace : s.sp - argc + (argc : Int) = (s.sp.toNat : Int) := by omega
  have hreach : s.sp - argc + fn.locals + fn.maxStack = reach fn (s.sp - argc) := rfl
  simp only [pushFrame]
  rw [bind_ok hget, hplace, hsize, hreach]
  by_cases hmany : maxFrames ≤ s.frames.length
  · rw [if_pos hmany, bind_error (failing_eq _ s)]
    exact .tooMany hmany
  · rw [if_neg hmany]
    have hfew : s.frames.length < maxFrames := by omega
    by_cases hlarge : (stackSize : Int) < signed64 (reach fn (s.sp - argc))
    · rw [if_pos hlarge, bind_error (failing_eq _ s)]
      exact .tooLarge hfew hlarge
    · rw [if_neg hlarge]
      by_cases hfits : reach fn (s.sp - argc) ≤ stackSize
      · unfold reach at hfits
        obtain ⟨stack, hclear, hstack', hget'⟩ :=
          clear_ok (s := s) (fn.locals - argc).toNat (i := s.sp.toNat) (by omega)
        rw [bind_ok hclear]
        refine .made stack hfew hfits hstack' fun j => ?_
        rw [hget' j]
        by_cases hj : s.sp ≤ j ∧ (j : Int) < s.sp - argc + fn.locals
        · rw [if_pos hj, if_pos (by omega)]
        · rw [if_neg hj, if_neg (by omega)]
      · -- The sum is beyond 64 bits: the locals alone do not fit.
        have hwraps : Wraps fn (s.sp - argc) := ⟨by omega, by omega⟩
        have hhuge : 2 ^ 63 ≤ reach fn (s.sp - argc) := by
          refine Int.not_lt.mp fun hlt => ?_
          rw [signed64_eq (by omega) hlt] at hlarge
          omega
        unfold reach at hhuge
        obtain ⟨stack, hclear, hstack'⟩ :=
          clear_fault (s := s) (fn.locals - argc).toNat (i := s.sp.toNat) (by omega) (by omega)
        rw [bind_error hclear]
        exact .wrapped stack hfew hwraps hstack'

/-! ### The frames of a run -/

/-- A frame stands at an instruction of a verified function, and its operands reach up to `top`, as
many as the analysis found there. -/
structure Standing (f : Frame) (top : Int) : Prop where
  code : ∃ c r i d, Verified f.fn c r ∧ f.ip = (i : Nat) ∧ r.depths[i]?.join = some d ∧
    top = f.base + (d : Nat) ∧ d ≤ r.maxDepth
  bp : 1 ≤ f.bp
  locals : 0 ≤ f.fn.locals
  fits : reach f.fn f.bp ≤ stackSize

/-- Frames that lie one above the other, the first one's operands reaching up to `top`. -/
def Chained : List Frame → (top : Int) → Prop
  | [], _ => True
  | f :: rest, top => Standing f top ∧ Chained rest f.bp

/-- A state that a call can start in. -/
structure Idle (s : State) : Prop where
  size : s.stack.size = stackSize
  valid : s.heap.Valid
  handles : s.heap.size < 2 ^ 32

/-- A state in the middle of a run of verified functions. -/
structure Orderly (s : State) : Prop extends Idle s where
  running : s.frames ≠ []
  chained : Chained s.frames s.sp

theorem Idle.congr {s s' : State} (h : Idle s) (hsize : s'.stack.size = s.stack.size)
    (hheap : s'.heap = s.heap) : Idle s' :=
  ⟨hsize.trans h.size, hheap ▸ h.valid, hheap ▸ h.handles⟩

theorem Idle.of_kept {s s' : State} {bp : Int} (h : Idle s) (hkept : Kept bp s s') : Idle s' := by
  refine ⟨hkept.size.trans h.size, hkept.valid h.valid, ?_⟩
  have := h.handles
  unfold StringHeap.size at this ⊢
  rwa [hkept.strings]

/-- The default state is one that a call can start in. -/
theorem idle_default : Idle {} := ⟨by simp, StringHeap.valid_default, by decide⟩

/-- A piece of the stack below its top as a list. -/
theorem exists_holds {s : State} {bp : Int} (hbp : 0 ≤ bp) (hle : bp ≤ s.sp)
    (hfits : s.sp ≤ s.stack.size) : ∃ l : List Value, Holds s bp l := by
  refine ⟨(s.stack.toList.drop bp.toNat).take (s.sp - bp).toNat, hbp, ?_, hfits, fun k v hk => ?_⟩
  · rw [List.length_take, List.length_drop, Array.length_toList]
    omega
  · rw [List.getElem?_take] at hk
    split at hk
    · rwa [List.getElem?_drop, Array.getElem?_toList] at hk
    · cases hk

/-- What an orderly state is about to do, and on which values. -/
structure Next (s : State) (f : Frame) (rest : List Frame) (c : Chunk) (r : StackDepth.Result)
    (i : Nat) (op : Opcode) (l ops : List Value) : Prop where
  poised : Poised s f rest c i op
  verified : Verified f.fn c r
  starts : Starts c i
  label : r.depths[i]?.join = some ops.length
  shows : Shows s f l ops
  below : Chained rest f.bp

theorem Orderly.next {s : State} (h : Orderly s) :
    ∃ f rest c r i op l ops, Next s f rest c r i op l ops := by
  cases hframes : s.frames with
  | nil => exact absurd hframes h.running
  | cons f rest =>
    have hchained := h.chained
    rw [hframes] at hchained
    obtain ⟨⟨⟨c, r, i, d, hverified, hip, hlabel, htop, hmax⟩, hbp, hlocals, hfits⟩, hbelow⟩ :=
      hchained
    have hstarts := hverified.labelled.starts hlabel
    obtain ⟨op, hwhole⟩ := hverified.sound.whole hstarts
    have hmaxStack := hverified.maxStack
    have hsize := h.size
    unfold Frame.base at htop
    unfold reach at hfits
    obtain ⟨all, hholds⟩ : ∃ l, Holds s f.bp l := exists_holds (by omega) (by omega) (by omega)
    have hlen := hholds.sp
    refine ⟨f, rest, c, r, i, op, all.take f.fn.locals.toNat, (all.drop f.fn.locals.toNat).reverse,
      ⟨hframes, hverified.chunk, hip, hwhole⟩, hverified, hstarts, ?_, ⟨?_, ?_⟩, hbelow⟩
    · rw [hlabel, List.length_reverse, List.length_drop]
      congr 1
      omega
    · rw [List.reverse_reverse, List.take_append_drop]
      exact hholds
    · rw [List.length_take]
      omega

end LoopTracer.Interp
