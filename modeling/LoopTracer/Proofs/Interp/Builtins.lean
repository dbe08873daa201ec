import LoopTracer.Interp.Vm
import LoopTracer.Proofs.Computation
import LoopTracer.Proofs.Trace.StringHeap

/-! Builtins as functions of values.

The interpreter calls a builtin through its helper: the arguments become words, strings go through
the heap, and the result word becomes a value again. `applyBuiltin` is the same builtin without
words and heap. On a valid heap the two agree, and the heap keeps its strings
(`callBuiltin_eq`). -/
namespace LoopTracer.Interp

open Bytecode Trace

/-! ### Running the interpreter's operations one after the other -/

theorem failing_eq {α : Type} (detail : Text) (s : State) :
    (failing detail : Interpreting α) s = .error (.error (s.errorHere detail)) s := rfl

theorem ofOption_some {α : Type} (a : α) (s : State) : ofOption (some a) s = .ok a s := rfl

/-! ### What builtins compute -/

/-- The complaint about argument `i` of a builtin. -/
def refusal (name : Text) (i : Nat) (wanted : Text) (a : Value) : Text :=
  name ++ ": argument " ++ .ofNat (i + 1) ++ " must be " ++ wanted ++ ", got " ++ a.typeName

/-- A function of one number. -/
def onNumber (name : Text) (f : Binary64 → Binary64) (x : Value) : Except Text Value :=
  if x.isNumber then .ok (.float (f x.asFloat)) else .error (refusal name 0 "a number" x)

/-- A function of one string. -/
def onString (name : Text) (f : Text → Value) (x : Value) : Except Text Value :=
  if x.isString then .ok (f x.asString) else .error (refusal name 0 "a string" x)

/-- A builtin on values: its result, or what is wrong with an argument. -/
def applyBuiltin : Builtin → List Value → Except Text Value
  | .sqrt, [x] => onNumber "sqrt" .sqrt x
  | .floor, [x] => onNumber "floor" .floor x
  | .abs, [x] => onNumber "fabs" .abs x
  | .fmod, [x, y] =>
    if !x.isNumber then .error (refusal "fmod" 0 "a number" x)
    else if !y.isNumber then .error (refusal "fmod" 1 "a number" y)
    else .ok (.float (x.asFloat.rem y.asFloat))
  | .len, [x] => onString "str_len" (fun s => .int (Int32.ofNat s.size)) x
  | .number, [x] => onString "str_to_number" (fun s => .float (Helper.toNumber s)) x
  | _, _ => .error ∅

/-- A helper from float to float. -/
def floatHelper (id : Nat) (name : Text) (f : Binary64 → Binary64) : Helper :=
  { id, name, args := [.float], ret := .float, pure := true, run := Helper.onFloat f }

/-- The helper that a builtin calls. -/
def builtinHelper : Builtin → Helper
  | .sqrt => floatHelper 6 "sqrt" .sqrt
  | .floor => floatHelper 7 "floor" .floor
  | .abs => floatHelper 8 "fabs" .abs
  | .fmod => { id := 1, name := "fmod", args := [.float, .float], ret := .float, pure := true,
               run := Helper.floatRem }
  | .len => { id := 4, name := "str_len", args := [.ptr], ret := .int, pure := true,
              run := Helper.length }
  | .number => { id := 5, name := "str_to_number", args := [.ptr], ret := .float, pure := true,
                 run := Helper.number }

theorem standard_get (b : Builtin) :
    HelperTable.standard.get (helperOf b) = .ok (builtinHelper b) := by
  cases b <;> rfl

/-! ### Words of ints -/

/-- An int survives being a word. -/
theorem int_of_word (n : Int32) : n.toInt64.toUInt64.toUInt32.toInt32 = n := by
  apply Int32.toBitVec_inj.mp
  show ((n.toBitVec.signExtend 64).truncate 32) = n.toBitVec
  ext i hi
  rw [BitVec.truncate_eq_setWidth, BitVec.getElem_setWidth, BitVec.getLsbD_signExtend]
  simp [hi, show i < 64 by omega]

theorem handle_of_word (a : Handle) : a.toUInt64.toUInt32 = a := UInt32.toUInt32_toUInt64 a

/-! ### Calling -/

/-- A number argument becomes its float. -/
theorem builtinArgs_float {d : Helper} {i : Nat} {a : Value} {rest : List Value} {s : State}
    (hd : d.args[i]? = some .float) :
    builtinArgs d i (a :: rest) s =
      if a.isNumber then (builtinArgs d (i + 1) rest >>= fun l => pure (a.asFloat.bits :: l)) s
      else .error (.error (s.errorHere (refusal d.name i "a number" a))) s := by
  simp only [builtinArgs, hd]
  cases a.isNumber <;> rfl

/-- A string argument becomes its handle. -/
theorem builtinArgs_ptr {d : Helper} {i : Nat} {a : Value} {rest : List Value} {s : State}
    (hd : d.args[i]? = some .ptr) :
    builtinArgs d i (a :: rest) s =
      if a.isString then
        (builtinArgs d (i + 1) rest >>= fun l => pure ((s.heap.intern a.asString).2.toUInt64 :: l))
          { s with heap := (s.heap.intern a.asString).1 }
      else .error (.error (s.errorHere (refusal d.name i "a string" a))) s := by
  simp only [builtinArgs, hd]
  cases a.isString <;> rfl

theorem callBuiltin_error {d : Helper} {args : List Value} {s : State} {e : Stop}
    (h : builtinArgs d 0 args s = .error e s) : callBuiltin d args s = .error e s := by
  show (builtinArgs d 0 args >>= _) s = _
  exact bind_error h

/-- A builtin that does not touch the heap. -/
theorem callBuiltin_pure {d : Helper} {args : List Value} {words : List UInt64} {s : State}
    {h : StringHeap} {w : UInt64} {v : Value}
    (hargs : builtinArgs d 0 args s = .ok words { s with heap := h })
    (hrun : d.run h words = .ok (w, h)) (hv : rebox h w d.resultType = .ok v) :
    callBuiltin d args s = .ok v { s with heap := h.truncate s.heap.size } := by
  show (builtinArgs d 0 args >>= _) s = _
  refine (bind_ok hargs).trans ((bind_ok rfl).trans ?_)
  rw [hrun]
  refine (bind_ok rfl).trans ?_
  rw [hv]
  rfl

/-- The heap after a builtin has the strings it had before. -/
theorem truncate_intern {h : StringHeap} (hv : h.Valid) (hroom : h.size < 2 ^ 32) (t : Text) :
    ((h.intern t).1.truncate h.size).Valid ∧
      ((h.intern t).1.truncate h.size).strings = h.strings := by
  obtain ⟨hvalid, -, hstrings⟩ := StringHeap.intern_spec hv hroom t
  have hpos : 0 < h.size := (Array.getElem?_eq_some_iff.mp hv.empty).1
  obtain ⟨hvalid', htake⟩ := StringHeap.truncate_spec hvalid h.size hpos
  refine ⟨hvalid', htake.trans ?_⟩
  rcases hstrings with heq | heq
  · rw [heq, StringHeap.size]
    simp
  · rw [heq, StringHeap.size]
    simp

theorem truncate_self {h : StringHeap} : h.truncate h.size = h := by
  simp [StringHeap.truncate, StringHeap.size]

theorem callBuiltin_floatHelper {id : Nat} (hid : id ≠ 3) (name : Text) (f : Binary64 → Binary64)
    (x : Value) (s : State) :
    callBuiltin (floatHelper id name f) [x] s =
      match onNumber name f x with
      | .ok v => .ok v s
      | .error detail => .error (.error (s.errorHere detail)) s := by
  have hargs : builtinArgs (floatHelper id name f) 0 [x] s = _ := builtinArgs_float rfl
  unfold onNumber
  by_cases hx : x.isNumber = true
  · rw [if_pos hx] at hargs ⊢
    have hcall :=
      callBuiltin_pure hargs (w := (f x.asFloat).bits) (v := .float (f x.asFloat)) rfl ?_
    · rw [hcall]
      show EStateM.Result.ok _ { s with heap := s.heap.truncate s.heap.size } = _
      rw [truncate_self]
    · simp [Helper.resultType, floatHelper, HelperId.equal, hid, rebox]
  · rw [if_neg hx] at hargs ⊢
    exact callBuiltin_error hargs

/-- A helper that looks at one string. -/
theorem callBuiltin_onString {d : Helper} {name : Text} (hname : d.name = name)
    (hptr : d.args[0]? = some .ptr) (g : Text → Value) (w : Text → UInt64)
    (hrun : ∀ (h : StringHeap) (a : UInt64) (t : Text), h.lookup a.toUInt32 = .ok t →
      d.run h [a] = .ok (w t, h))
    (hg : ∀ (h : StringHeap) (t : Text), rebox h (w t) d.resultType = .ok (g t)) {s : State}
    (hv : s.heap.Valid) (hroom : s.heap.size < 2 ^ 32) (x : Value) :
    match onString name g x with
    | .ok v => ∃ h, callBuiltin d [x] s = .ok v { s with heap := h } ∧ h.Valid ∧
        h.strings = s.heap.strings
    | .error detail => callBuiltin d [x] s = .error (.error (s.errorHere detail)) s := by
  subst hname
  have hargs : builtinArgs d 0 [x] s = _ := builtinArgs_ptr hptr
  unfold onString
  by_cases hx : x.isString = true
  · rw [if_pos hx] at hargs ⊢
    obtain ⟨-, hget, -⟩ := StringHeap.intern_spec hv hroom x.asString
    have hword : d.run (s.heap.intern x.asString).1 [(s.heap.intern x.asString).2.toUInt64] =
        .ok (w x.asString, (s.heap.intern x.asString).1) := by
      apply hrun
      rw [handle_of_word]
      exact StringHeap.lookup_of_strings hget
    exact ⟨_, callBuiltin_pure hargs hword (hg _ _), truncate_intern hv hroom _⟩
  · rw [if_neg hx] at hargs ⊢
    exact callBuiltin_error hargs

/-- Calling a builtin computes what `applyBuiltin` says; the heap keeps its strings. -/
theorem callBuiltin_eq {s : State} (hv : s.heap.Valid) (hroom : s.heap.size < 2 ^ 32) (b : Builtin)
    (args : List Value) (hlen : args.length = b.arity) :
    match applyBuiltin b args with
    | .ok v => ∃ h, callBuiltin (builtinHelper b) args s = .ok v { s with heap := h } ∧ h.Valid ∧
        h.strings = s.heap.strings
    | .error detail =>
      callBuiltin (builtinHelper b) args s = .error (.error (s.errorHere detail)) s := by
  have float : ∀ {id name f x}, id ≠ 3 → match onNumber name f x with
      | .ok v => ∃ h, callBuiltin (floatHelper id name f) [x] s = .ok v { s with heap := h } ∧
          h.Valid ∧ h.strings = s.heap.strings
      | .error detail =>
        callBuiltin (floatHelper id name f) [x] s = .error (.error (s.errorHere detail)) s := by
    intro id name f x hid
    rw [callBuiltin_floatHelper hid]
    cases onNumber name f x with
    | ok v => exact ⟨s.heap, rfl, hv, rfl⟩
    | error detail => rfl
  cases b with
  | sqrt =>
    obtain ⟨x, rfl⟩ := List.length_eq_one_iff.mp hlen
    exact float (by decide)
  | floor =>
    obtain ⟨x, rfl⟩ := List.length_eq_one_iff.mp hlen
    exact float (by decide)
  | abs =>
    obtain ⟨x, rfl⟩ := List.length_eq_one_iff.mp hlen
    exact float (by decide)
  | fmod =>
    match args, hlen with
    | [x, y], _ =>
      have hfirst : builtinArgs (builtinHelper .fmod) 0 [x, y] s = _ := builtinArgs_float rfl
      have hsecond : builtinArgs (builtinHelper .fmod) 1 [y] s = _ := builtinArgs_float rfl
      cases hx : x.isNumber with
      | false =>
        rw [hx] at hfirst
        simp only [applyBuiltin, hx, Bool.not_false, if_true]
        exact callBuiltin_error hfirst
      | true =>
        rw [hx, if_pos rfl] at hfirst
        cases hy : y.isNumber with
        | false =>
          rw [hy] at hsecond
          simp only [applyBuiltin, hx, hy, Bool.not_true, Bool.not_false,
            Bool.false_eq_true, if_true,
            if_false]
          exact callBuiltin_error (hfirst.trans (bind_error hsecond))
        | true =>
          rw [hy, if_pos rfl] at hsecond
          simp only [applyBuiltin, hx, hy, Bool.not_true, Bool.false_eq_true, if_false]
          refine ⟨_, callBuiltin_pure (hfirst.trans (bind_ok hsecond)) rfl rfl, ?_⟩
          show (s.heap.truncate s.heap.size).Valid ∧ (s.heap.truncate s.heap.size).strings = _
          rw [truncate_self]
          exact ⟨hv, rfl⟩
  | len =>
    obtain ⟨x, rfl⟩ := List.length_eq_one_iff.mp hlen
    have hrun : ∀ (h : StringHeap) (a : UInt64) (t : Text), h.lookup a.toUInt32 = .ok t →
        (builtinHelper .len).run h [a] = .ok ((Int32.ofNat t.size).toInt64.toUInt64, h) := by
      intro h a t ht
      simp only [builtinHelper, Helper.length, Helper.unary, Helper.stringOf, ht]
      rfl
    have hword : ∀ (h : StringHeap) (t : Text),
        rebox h (Int32.ofNat t.size).toInt64.toUInt64 (builtinHelper .len).resultType =
          .ok (.int (Int32.ofNat t.size)) := by
      intro h t
      show Except.ok (Value.int _) = _
      rw [int_of_word]
    exact callBuiltin_onString rfl rfl _ _ hrun hword hv hroom x
  | number =>
    obtain ⟨x, rfl⟩ := List.length_eq_one_iff.mp hlen
    have hrun : ∀ (h : StringHeap) (a : UInt64) (t : Text), h.lookup a.toUInt32 = .ok t →
        (builtinHelper .number).run h [a] = .ok ((Helper.toNumber t).bits, h) := by
      intro h a t ht
      simp only [builtinHelper, Helper.number, Helper.unary, Helper.stringOf, ht]
      rfl
    exact callBuiltin_onString rfl rfl _ _ hrun (fun _ _ => rfl) hv hroom x

end LoopTracer.Interp
