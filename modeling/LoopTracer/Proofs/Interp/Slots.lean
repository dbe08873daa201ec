import LoopTracer.Proofs.Interp.Builtins

/-! The stack as lists.

A frame's piece of the stack is a list of values (`Holds`): its locals, and behind them its
operands. `Shows` keeps the two apart, the top of the operand stack first. The operations of the
interpreter on the stack do to the lists what their names say, and leave everything below the
frame as it is (`Kept`). -/
namespace LoopTracer.Interp

open Bytecode Trace

/-! ### A piece of the stack as a list -/

/-- The stack from `bp` up to its top holds the values `l`. -/
structure Holds (s : State) (bp : Int) (l : List Value) : Prop where
  nonneg : 0 ≤ bp
  sp : s.sp = bp + l.length
  fits : s.sp ≤ s.stack.size
  get : ∀ (k : Nat) (v : Value), l[k]? = some v → s.stack[bp.toNat + k]? = some v

namespace Holds

variable {s : State} {bp : Int} {l : List Value} {v : Value} {k : Nat}

/-- Only the stack and its top matter. -/
theorem congr {s' : State} (h : Holds s bp l) (hstack : s'.stack = s.stack) (hsp : s'.sp = s.sp) :
    Holds s' bp l :=
  ⟨h.nonneg, hsp.trans h.sp, by rw [hsp, hstack]; exact h.fits, by rw [hstack]; exact h.get⟩

/-- The stack holds one list. -/
theorem unique {l' : List Value} (h : Holds s bp l) (h' : Holds s bp l') : l = l' := by
  have hlength : l.length = l'.length := by
    have := h.sp
    have := h'.sp
    omega
  refine List.ext_getElem hlength fun k hk hk' => ?_
  have hget := h.get k _ (List.getElem?_eq_getElem hk)
  rw [h'.get k _ (List.getElem?_eq_getElem hk')] at hget
  exact (Option.some.inj hget).symm

theorem read (h : Holds s bp l) (hk : l[k]? = some v) : read (bp + k) s = .ok v s := by
  have hget := h.get k v hk
  have hbp := h.nonneg
  have hplace : (bp + k).toNat = bp.toNat + k := by omega
  rw [Interp.read, if_neg (by omega), hplace, hget]

theorem write (h : Holds s bp l) (hk : k < l.length) (v : Value) :
    Interp.write (bp + k) v s = .ok () { s with stack := s.stack.set! (bp.toNat + k) v } ∧
      Holds { s with stack := s.stack.set! (bp.toNat + k) v } bp (l.set k v) := by
  have hbp := h.nonneg
  have hsp := h.sp
  have hfits := h.fits
  have hplace : (bp + k).toNat = bp.toNat + k := by omega
  constructor
  · have hin : (decide (bp + k < 0) || decide ((s.stack.size : Int) ≤ bp + k)) = false := by
      simp only [Bool.or_eq_false_iff, decide_eq_false_iff_not]
      omega
    rw [Interp.write, hin, hplace]
    rfl
  · refine ⟨hbp, by simpa using hsp, by simpa using hfits, fun j w hj => ?_⟩
    show (s.stack.set! (bp.toNat + k) v)[bp.toNat + j]? = some w
    rw [Array.set!_eq_setIfInBounds, Array.getElem?_setIfInBounds]
    rw [List.getElem?_set] at hj
    by_cases hkj : k = j
    · subst hkj
      rw [if_pos rfl, if_pos hk] at hj
      rw [if_pos rfl, if_pos (by omega)]
      exact hj
    · rw [if_neg hkj] at hj
      rw [if_neg (by omega)]
      exact h.get j w hj

/-- Dropping values moves the top down. -/
theorem take (h : Holds s bp l) {m : Nat} (hm : m ≤ l.length) :
    Holds { s with sp := bp + m } bp (l.take m) := by
  have hsp := h.sp
  have hfits := h.fits
  refine ⟨h.nonneg, by simp [hm], ?_, fun k v hk => ?_⟩
  · show bp + m ≤ s.stack.size
    omega
  · rw [List.getElem?_take] at hk
    split at hk
    · exact h.get k v hk
    · cases hk

theorem push (h : Holds s bp l) (hroom : s.sp < s.stack.size) (v : Value) :
    Interp.push v s = .ok () { s with stack := s.stack.set! s.sp.toNat v, sp := s.sp + 1 } ∧
      Holds { s with stack := s.stack.set! s.sp.toNat v, sp := s.sp + 1 } bp (l ++ [v]) := by
  have hbp := h.nonneg
  have hsp := h.sp
  have hplace : s.sp.toNat = bp.toNat + l.length := by omega
  constructor
  · have hin : (decide (s.sp < 0) || decide ((s.stack.size : Int) ≤ s.sp)) = false := by
      simp only [Bool.or_eq_false_iff, decide_eq_false_iff_not]
      omega
    rw [Interp.push, hin]
    rfl
  · refine ⟨hbp, ?_, ?_, fun k w hk => ?_⟩
    · show s.sp + 1 = _
      rw [List.length_append, List.length_singleton]
      omega
    · show s.sp + 1 ≤ (s.stack.set! s.sp.toNat v).size
      rw [Array.set!_eq_setIfInBounds, Array.size_setIfInBounds]
      omega
    · show (s.stack.set! s.sp.toNat v)[bp.toNat + k]? = some w
      rw [hplace, Array.set!_eq_setIfInBounds, Array.getElem?_setIfInBounds]
      rw [List.getElem?_append] at hk
      by_cases hlt : k < l.length
      · rw [if_pos hlt] at hk
        rw [if_neg (by omega)]
        exact h.get k w hk
      · rw [if_neg hlt] at hk
        have hlast := (List.getElem?_eq_some_iff.mp hk).1
        rw [List.length_singleton] at hlast
        have hkl : k = l.length := by omega
        subst hkl
        rw [if_pos rfl, if_pos (by omega)]
        simpa using hk

end Holds

/-! ### Locals and operands -/

/-- The stack shows the locals and operands of a frame. -/
structure Shows (s : State) (f : Frame) (locals operands : List Value) : Prop where
  holds : Holds s f.bp (locals ++ operands.reverse)
  locals : (locals.length : Int) = f.fn.locals

/-- What an instruction that stays in its frame leaves alone. -/
structure Kept (bp : Int) (s s' : State) : Prop where
  size : s'.stack.size = s.stack.size
  below : ∀ j : Nat, (j : Int) < bp → s'.stack[j]? = s.stack[j]?
  frames : s'.frames.tail = s.frames.tail
  out : s'.out = s.out
  sink : s'.sinkClosed = s.sinkClosed
  words : s'.words = s.words
  strings : s'.heap.strings = s.heap.strings
  valid : s.heap.Valid → s'.heap.Valid

namespace Kept

variable {bp : Int} {s s' s'' : State}

theorem refl (bp : Int) (s : State) : Kept bp s s :=
  ⟨rfl, fun _ _ => rfl, rfl, rfl, rfl, rfl, rfl, id⟩

theorem trans (h : Kept bp s s') (h' : Kept bp s' s'') : Kept bp s s'' where
  size := h'.size.trans h.size
  below j hj := (h'.below j hj).trans (h.below j hj)
  frames := h'.frames.trans h.frames
  out := h'.out.trans h.out
  sink := h'.sink.trans h.sink
  words := h'.words.trans h.words
  strings := h'.strings.trans h.strings
  valid hv := h'.valid (h.valid hv)

theorem setSp (bp : Int) (s : State) (sp : Int) : Kept bp s { s with sp } :=
  ⟨rfl, fun _ _ => rfl, rfl, rfl, rfl, rfl, rfl, id⟩

/-- Writing at or above `bp` keeps what is below. -/
theorem write (s : State) {i : Nat} (hi : bp ≤ i) (v : Value) :
    Kept bp s { s with stack := s.stack.set! i v } := by
  refine ⟨by simp, fun j hj => ?_, rfl, rfl, rfl, rfl, rfl, id⟩
  show (s.stack.set! i v)[j]? = _
  rw [Array.set!_eq_setIfInBounds, Array.getElem?_setIfInBounds, if_neg (by omega)]

end Kept

namespace Shows

variable {s : State} {f : Frame} {l ops rest : List Value} {v : Value}

theorem congr {s' : State} (h : Shows s f l ops) (hstack : s'.stack = s.stack)
    (hsp : s'.sp = s.sp) : Shows s' f l ops := ⟨h.holds.congr hstack hsp, h.locals⟩

theorem sp_eq (h : Shows s f l ops) : s.sp = f.bp + l.length + ops.length := by
  rw [h.holds.sp, List.length_append, List.length_reverse]
  omega

theorem depth_eq (h : Shows s f l ops) : s.sp - f.base = ops.length := by
  rw [Frame.base, ← h.locals, h.sp_eq]
  omega

theorem unique {l' ops' : List Value} (h : Shows s f l ops) (h' : Shows s f l' ops') :
    l = l' ∧ ops = ops' := by
  have hlength : l.length = l'.length := by
    have := h.locals
    have := h'.locals
    omega
  obtain ⟨hl, hops⟩ := List.append_inj (h.holds.unique h'.holds) hlength
  exact ⟨hl, List.reverse_inj.mp hops⟩

theorem push (h : Shows s f l ops) (hroom : s.sp < s.stack.size) (v : Value) :
    ∃ s', Interp.push v s = .ok () s' ∧ Shows s' f l (v :: ops) ∧ Kept f.bp s s' ∧
      s'.frames = s.frames := by
  obtain ⟨hpush, hholds⟩ := h.holds.push hroom v
  refine ⟨_, hpush, ⟨?_, h.locals⟩, ?_, rfl⟩
  · rwa [List.append_assoc, ← List.reverse_cons] at hholds
  · have hnonneg := h.holds.nonneg
    have hsp := h.sp_eq
    exact (Kept.write s (by omega) v).trans (Kept.setSp _ _ _)

theorem pop (h : Shows s f l (v :: ops)) :
    Interp.pop s = .ok v { s with sp := s.sp - 1 } ∧ Shows { s with sp := s.sp - 1 } f l ops := by
  have hnonneg := h.holds.nonneg
  have hsp := h.sp_eq
  rw [List.length_cons] at hsp
  constructor
  · have hget := h.holds.get (l.length + ops.length) v (by simp)
    have hplace : (s.sp - 1).toNat = f.bp.toNat + (l.length + ops.length) := by omega
    simp only [Interp.pop]
    rw [if_neg (by omega), hplace, hget]
  · refine ⟨?_, h.locals⟩
    have htake := h.holds.take (m := (l ++ ops.reverse).length) (by simp)
    rw [List.reverse_cons, ← List.append_assoc, List.take_left] at htake
    refine htake.congr rfl ?_
    show s.sp - 1 = f.bp + ((l ++ ops.reverse).length : Nat)
    rw [List.length_append, List.length_reverse]
    omega

/-- Where an operand lies. -/
theorem stack_get (h : Shows s f l ops) {k : Nat} (hk : ops[k]? = some v) :
    s.stack[(s.sp - 1 - k).toNat]? = some v := by
  have hlt := (List.getElem?_eq_some_iff.mp hk).1
  have hsp := h.sp_eq
  have hnonneg := h.holds.nonneg
  have hget : (l ++ ops.reverse)[l.length + (ops.length - 1 - k)]? = some v := by
    rw [List.getElem?_append_right (by omega), Nat.add_sub_cancel_left,
      List.getElem?_reverse (by omega)]
    rw [show ops.length - 1 - (ops.length - 1 - k) = k by omega]
    exact hk
  have hplace : (s.sp - 1 - (k : Int)).toNat = f.bp.toNat + (l.length + (ops.length - 1 - k)) := by
    omega
  rw [hplace]
  exact h.holds.get _ v hget

theorem peek (h : Shows s f l ops) {k : Nat} (hk : ops[k]? = some v) :
    Interp.peek k s = .ok v s := by
  have hlt := (List.getElem?_eq_some_iff.mp hk).1
  have hsp := h.sp_eq
  have hnonneg := h.holds.nonneg
  rw [Interp.peek, Interp.read, if_neg (by omega), h.stack_get hk]

theorem peek_top (h : Shows s f l (v :: ops)) : Interp.peek 0 s = .ok v s := h.peek (k := 0) rfl

theorem peek_next {w : Value} (h : Shows s f l (w :: v :: ops)) : Interp.peek 1 s = .ok v s :=
  h.peek (k := 1) rfl

theorem load (h : Shows s f l ops) {k : Nat} (hk : l[k]? = some v) :
    Interp.read (f.bp + k) s = .ok v s := by
  refine h.holds.read ?_
  rw [List.getElem?_append_left (List.getElem?_eq_some_iff.mp hk).1]
  exact hk

theorem store (h : Shows s f l ops) {k : Nat} (hk : k < l.length) (v : Value) :
    ∃ s', Interp.write (f.bp + k) v s = .ok () s' ∧ Shows s' f (l.set k v) ops ∧ Kept f.bp s s' ∧
      s'.frames = s.frames := by
  obtain ⟨hwrite, hholds⟩ := h.holds.write (k := k) (by simp; omega) v
  refine ⟨_, hwrite, ⟨?_, by simpa using h.locals⟩, ?_, rfl⟩
  · rwa [List.set_append_left _ _ hk] at hholds
  · have hnonneg := h.holds.nonneg
    exact Kept.write s (by omega) v

/-- Dropping operands moves the top down. -/
theorem drop (h : Shows s f l ops) {n : Nat} (hn : n ≤ ops.length) :
    Shows { s with sp := s.sp - n } f l (ops.drop n) := by
  refine ⟨?_, h.locals⟩
  have hsp := h.sp_eq
  have htake := h.holds.take (m := l.length + (ops.length - n)) (by simp)
  rw [List.take_length_add_append, List.take_reverse, Nat.sub_sub_self hn] at htake
  refine htake.congr rfl ?_
  show s.sp - n = f.bp + ((l.length + (ops.length - n) : Nat) : Int)
  omega

theorem replace (h : Shows s f l ops) {n : Nat} {x : Value} (hn : ops.drop n = x :: rest)
    (v : Value) :
    ∃ s', executeOp.replace v n s = .ok () s' ∧ Shows s' f l (v :: rest) ∧ Kept f.bp s s' ∧
      s'.frames = s.frames := by
  have hlen : n < ops.length := by
    have := congrArg List.length hn
    rw [List.length_drop, List.length_cons] at this
    omega
  have hdrop := h.drop (n := n) (by omega)
  rw [hn] at hdrop
  have hsp := hdrop.sp_eq
  rw [List.length_cons] at hsp
  -- The value that is replaced is the last one of the piece.
  obtain ⟨hwrite, hholds⟩ := hdrop.holds.write (k := l.length + rest.length) (by simp) v
  refine ⟨_, Eq.trans ?_ hwrite, ⟨?_, h.locals⟩, ?_, rfl⟩
  · show Interp.write (s.sp - n - 1) v { s with sp := s.sp - n } = _
    have hplace : s.sp - n - 1 = f.bp + ((l.length + rest.length : Nat) : Int) := by
      have : s.sp - n = f.bp + l.length + (rest.length + 1 : Nat) := hsp
      omega
    rw [hplace]
  · rw [List.set_append_right _ _ (by omega), Nat.add_sub_cancel_left, List.reverse_cons,
      List.set_append_right _ _ (by simp), List.length_reverse, Nat.sub_self] at hholds
    rw [List.reverse_cons]
    exact hholds
  · have hnonneg := h.holds.nonneg
    exact (Kept.setSp _ s _).trans (Kept.write _ (by omega) v)

theorem readMany (h : Shows s f l ops) {n : Nat} (hn : n ≤ ops.length) :
    Interp.readMany (s.sp - n) n s = .ok (ops.take n).reverse s := by
  have hsp := h.sp_eq
  -- Reading from the `m`-th operand below the top on gives these `m` operands.
  suffices hall : ∀ m, m ≤ n → Interp.readMany (s.sp - m) m s = .ok (ops.take m).reverse s from
    hall n (Nat.le_refl n)
  intro m hm
  induction m with
  | zero => simp only [Interp.readMany, List.take_zero, List.reverse_nil]; rfl
  | succ m ih =>
    have hget : ops[m]? = some ops[m] := List.getElem?_eq_getElem (by omega)
    have hpeek := h.peek hget
    have hread : Interp.read (s.sp - (m + 1 : Nat)) s = .ok ops[m] s := by
      unfold Interp.peek at hpeek
      rwa [show s.sp - ((m + 1 : Nat) : Int) = s.sp - 1 - (m : Int) by omega]
    unfold Interp.readMany
    rw [bind_ok hread, show s.sp - ((m + 1 : Nat) : Int) + 1 = s.sp - (m : Int) by omega,
      bind_ok (ih (by omega)), List.take_succ_eq_append_getElem (by omega), List.reverse_append]
    rfl

end Shows

end LoopTracer.Interp
