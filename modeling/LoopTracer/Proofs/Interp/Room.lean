import LoopTracer.Interp.Traced
import LoopTracer.Proofs.Computation

/-! More room on the stack.

What succeeds on a stack succeeds on a longer one, with the same answer, and what the stack was
lengthened by is neither read nor written. For the interpreter alone that is `execute_above`, with a
monitor `tracedStep_above`. So an execution can be followed on a stack that is just long enough. The
converse does not hold: a call that finds no room may find it on a longer stack. -/
namespace LoopTracer.Interp

open Bytecode Trace

/-- From the image of a state under `up`, a computation does what it does from the state, and ends in
the image of where it ends, if it succeeds or is stopped as `E` says. -/
structure Lifts {ε σ α : Type} (up : σ → σ) (E : ε → Prop) (x : EStateM ε σ α) : Prop where
  ok : ∀ s a s', x s = .ok a s' → x (up s) = .ok a (up s')
  error : ∀ s e s', E e → x s = .error e s' → x (up s) = .error e (up s')

namespace Lifts

variable {ε σ α β : Type} {up : σ → σ} {E : ε → Prop} {x : EStateM ε σ α} {f : α → EStateM ε σ β}

theorem of_ok (h : ∀ s a s', x s = .ok a s' → x (up s) = .ok a (up s')) :
    Lifts up (fun _ => False) x :=
  ⟨h, fun _ _ _ he => he.elim⟩

theorem pure (a : α) : Lifts up E (Pure.pure a : EStateM ε σ α) where
  ok _ _ _ h := by
    cases h
    rfl
  error _ _ _ _ h := by cases h

theorem throw (e : ε) : Lifts up E (throw e : EStateM ε σ α) where
  ok _ _ _ h := by cases h
  error _ _ _ _ h := by
    cases h
    rfl

theorem bind (hx : Lifts up E x) (hf : ∀ a, Lifts up E (f a)) : Lifts up E (x >>= f) where
  ok s b s' h := by
    obtain ⟨a, s₁, hfirst, hrest⟩ := bind_eq_ok h
    exact (bind_ok (hx.ok s a s₁ hfirst)).trans ((hf a).ok s₁ b s' hrest)
  error s e s' he h := by
    rcases bind_eq_error h with h | ⟨a, s₁, hfirst, hrest⟩
    · exact bind_error (hx.error s e s' he h)
    · exact (bind_ok (hx.ok s a s₁ hfirst)).trans ((hf a).error s₁ e s' he hrest)

/-- A look at a part of the state that `up` leaves as it is. -/
theorem get_bind {f : σ → EStateM ε σ β} (hsame : ∀ s, f (up s) = f s)
    (hf : ∀ s, Lifts up E (f s)) : Lifts up E (get >>= f) where
  ok s b s' h := (congrFun (hsame s) (up s)).trans ((hf s).ok s b s' h)
  error s e s' he h := (congrFun (hsame s) (up s)).trans ((hf s).error s e s' he h)

theorem modifyGet {g : σ → α × σ} (h : ∀ s, g (up s) = ((g s).1, up (g s).2)) :
    Lifts up E (modifyGet g : EStateM ε σ α) where
  ok s a s' hx := by
    change EStateM.Result.ok (g s).1 (g s).2 = _ at hx
    cases hx
    show EStateM.Result.ok (g (up s)).1 (g (up s)).2 = _
    rw [h]
  error _ _ _ _ hx := by cases hx

theorem modify {g : σ → σ} (h : ∀ s, g (up s) = up (g s)) :
    Lifts up E (modify g : EStateM ε σ PUnit) :=
  .modifyGet fun s => congrArg (PUnit.unit, ·) (h s)

theorem forM {ι : Type} {g : ι → EStateM ε σ PUnit} (hg : ∀ i, Lifts up E (g i)) (l : List ι) :
    Lifts up E (l.forM g) := by
  induction l with
  | nil => exact .pure _
  | cons i l ih => exact .bind (hg i) fun _ => ih

end Lifts

/-- A state with more values above its stack. -/
def State.above (more : Array Value) (s : State) : State := { s with stack := s.stack ++ more }

/-- What succeeds does so on a longer stack. -/
abbrev Roomy {α : Type} (x : Interpreting α) : Prop :=
  ∀ more, Lifts (State.above more) (fun _ => False) x

/-! ### The stack -/

section Roomy

variable {α : Type} {more : Array Value} {s : State}

theorem getElem?_above {k : Nat} {v : Value} (h : s.stack[k]? = some v) :
    (s.above more).stack[k]? = some v := by
  show (s.stack ++ more)[k]? = some v
  rw [Array.getElem?_append_left (Array.getElem?_eq_some_iff.mp h).1, h]

theorem set_above {k : Nat} (h : k < s.stack.size) (v : Value) :
    (s.above more).stack.set! k v = s.stack.set! k v ++ more :=
  Array.setIfInBounds_append_left h

theorem size_above (s : State) (more : Array Value) :
    s.stack.size ≤ (s.above more).stack.size := by
  show s.stack.size ≤ (s.stack ++ more).size
  rw [Array.size_append]
  exact Nat.le_add_right _ _

theorem faulty_roomy : Roomy (faulty : Interpreting α) := fun _ => .throw _

theorem failing_roomy (detail : Text) : Roomy (failing detail : Interpreting α) :=
  fun _ => .of_ok fun _ _ _ h => by cases h

theorem ofOption_roomy (o : Option α) : Roomy (ofOption o) := by
  cases o with
  | none => exact faulty_roomy
  | some a => exact fun _ => .pure a

theorem read_roomy (i : Int) : Roomy (read i) := by
  refine fun more => .of_ok fun s v s' h => ?_
  unfold read at h ⊢
  split_ifs at h ⊢
  split at h
  · next hv =>
    cases h
    rw [getElem?_above hv]
  · cases h

theorem write_roomy (i : Int) (v : Value) : Roomy (write i v) := by
  refine fun more => .of_ok fun s a s' h => ?_
  unfold write at h ⊢
  split_ifs at h with hout
  cases h
  have hsize := size_above s more
  simp only [Bool.or_eq_true, decide_eq_true_eq, not_or, Int.not_lt, Int.not_le] at hout
  rw [if_neg (by simp only [Bool.or_eq_true, decide_eq_true_eq]; omega),
    set_above (by omega)]
  rfl

theorem setSp_roomy (sp : Int) : Roomy (setSp sp) :=
  fun _ => .of_ok fun _ _ _ h => by cases h; rfl

theorem push_roomy (v : Value) : Roomy (push v) := by
  refine fun more => .of_ok fun s a s' h => ?_
  unfold push at h ⊢
  split_ifs at h with hout
  cases h
  have hsize := size_above s more
  simp only [Bool.or_eq_true, decide_eq_true_eq, not_or, Int.not_lt, Int.not_le] at hout
  have hsp : (s.above more).sp = s.sp := rfl
  rw [hsp, if_neg (by simp only [Bool.or_eq_true, decide_eq_true_eq]; omega),
    set_above (by omega)]
  rfl

theorem pop_roomy : Roomy pop := by
  refine fun more => .of_ok fun s v s' h => ?_
  unfold pop at h ⊢
  dsimp only at h ⊢
  have hsp : (s.above more).sp = s.sp := rfl
  rw [hsp]
  split_ifs at h ⊢
  split at h
  · next hv =>
    cases h
    rw [getElem?_above hv]
    rfl
  · cases h

theorem peek_roomy (distance : Int) : Roomy (peek distance) :=
  fun more => .of_ok fun _ _ _ h => (read_roomy _ more).ok _ _ _ h

theorem jumpTo_roomy (ip : Int) : Roomy (jumpTo ip) := by
  refine fun more => .of_ok fun s a s' h => ?_
  unfold jumpTo at h ⊢
  rw [show (s.above more).frames = s.frames from rfl]
  cases hframes : s.frames with
  | nil =>
    rw [hframes] at h
    cases h
  | cons f rest =>
    rw [hframes] at h
    cases h
    rfl

theorem clear_roomy (i : Int) (n : Nat) : Roomy (clear i n) := by
  intro more
  induction n generalizing i with
  | zero => exact .pure _
  | succ n ih => exact .bind (write_roomy i .null more) fun _ => ih (i + 1)

theorem readMany_roomy (i : Int) (n : Nat) : Roomy (readMany i n) := by
  intro more
  induction n generalizing i with
  | zero => exact .pure _
  | succ n ih => exact .bind (read_roomy i more) fun _ => .bind (ih (i + 1)) fun _ => .pure _

/-! ### Frames -/

theorem fetch_roomy : Roomy fetch := by
  refine fun more => .of_ok fun s i s' h => ?_
  unfold fetch at h ⊢
  rw [show (s.above more).frames = s.frames from rfl]
  cases hframes : s.frames with
  | nil =>
    rw [hframes] at h
    cases h
  | cons f rest =>
    rw [hframes] at h
    dsimp only at h ⊢
    cases hchunk : f.fn.chunk with
    | none =>
      rw [hchunk] at h
      cases h
    | some c =>
      rw [hchunk] at h
      dsimp only at h ⊢
      split_ifs at h ⊢
      cases hbyte : c.byte? f.ip with
      | none =>
        rw [hbyte] at h
        cases h
      | some byte =>
        rw [hbyte] at h
        cases h
        rfl

/-- A call that finds room finds it on a longer stack. -/
theorem pushFrame_roomy (fn : Function) (argc : Nat) : Roomy (pushFrame fn argc) := by
  refine fun more => .of_ok fun s a s' h => ?_
  have hmade : Lifts (State.above more) (fun _ => False) (do
      clear (s.sp - argc + argc) (fn.locals - argc).toNat
      modify fun s' => { s' with
        sp := s.sp - argc + fn.locals
        frames := { fn, ip := 0, bp := s.sp - argc } :: s'.frames
        counters := { s'.counters with calls := s'.counters.calls + 1 } } : Interpreting Unit) :=
    .bind (clear_roomy _ _ more) fun _ => .modify fun _ => rfl
  have hsize := size_above s more
  have hframes : (s.above more).frames = s.frames := rfl
  have hsp : (s.above more).sp = s.sp := rfl
  unfold pushFrame at h ⊢
  rw [bind_ok (show (get : Interpreting State) s = .ok s s from rfl)] at h
  rw [bind_ok (show (get : Interpreting State) (s.above more) = .ok _ _ from rfl)]
  dsimp only at h ⊢
  rw [hframes, hsp]
  split_ifs at h with hfull hover hover
  · cases h
  · cases h
  · cases h
  · rw [if_neg hfull, if_neg (by omega)]
    exact hmade.ok _ _ _ h

theorem leave_roomy (frame : Frame) (result : Value) : Roomy (leave frame result) := by
  intro more
  unfold leave
  refine .bind (.modify fun _ => rfl) fun _ => .get_bind (fun _ => rfl) fun s => ?_
  split_ifs
  · exact .bind (.throw _) fun _ => .bind (push_roomy _ more) fun _ => .pure _
  · exact .bind (push_roomy _ more) fun _ => .pure _

/-! ### Builtins -/

theorem builtinArgs_roomy (d : Helper) (n : Nat) (args : List Value) :
    Roomy (builtinArgs d n args) := by
  intro more
  induction args generalizing n with
  | nil => exact .pure _
  | cons a rest ih =>
    have hrest : ∀ word : UInt64, Lifts (State.above more) (fun _ => False) (do
        return word :: (← builtinArgs d (n + 1) rest) : Interpreting (List UInt64)) :=
      fun _ => .bind (ih _) fun _ => .pure _
    unfold builtinArgs
    dsimp only
    split
    · exact .bind (faulty_roomy more) fun _ => hrest _
    · split_ifs
      · exact .bind (failing_roomy _ more) fun _ => hrest _
      · exact hrest _
    · split_ifs
      · exact .bind (failing_roomy _ more) fun _ => .bind (.modifyGet fun _ => rfl) fun _ =>
          hrest _
      · exact .bind (.modifyGet fun _ => rfl) fun _ => hrest _
    · split_ifs
      · exact .bind (failing_roomy _ more) fun _ => hrest _
      · exact hrest _

theorem callBuiltin_roomy (d : Helper) (args : List Value) : Roomy (callBuiltin d args) := by
  refine fun more => .get_bind (fun _ => rfl) fun _ =>
    .bind (builtinArgs_roomy d 0 args more) fun words => .get_bind (fun _ => rfl) fun s => ?_
  cases d.run s.heap words with
  | error f => exact .throw _
  | ok r =>
    refine .bind (.modify fun _ => rfl) fun _ => ?_
    cases rebox r.2 r.1 d.resultType with
    | error f => exact .throw _
    | ok v => exact .bind (.modify fun _ => rfl) fun _ => .pure _

theorem builtin_roomy {units : Units} {helpers : HelperTable} (i : Fetched) :
    Roomy (executeOp units helpers i .builtin) := by
  refine fun more => .bind (ofOption_roomy _ more) fun n => .bind (ofOption_roomy _ more) fun b => ?_
  extract_lets callIt
  have hcall : ∀ d, Lifts (State.above more) (fun _ => False) (callIt d) :=
    fun d => .get_bind (fun _ => rfl) fun _ => .bind (readMany_roomy _ _ more) fun args =>
      .bind (callBuiltin_roomy d args more) fun v => .bind (setSp_roomy _ more) fun _ =>
      .bind (push_roomy _ more) fun _ => .pure _
  clear_value callIt
  cases helpers.get (helperOf b) with
  | error f => exact .bind (.throw _) hcall
  | ok d => exact .bind (.pure d) hcall

/-! ### Instructions -/

theorem replace_roomy (v : Value) (n : Int) : Roomy (executeOp.replace v n) :=
  fun more => .get_bind (fun _ => rfl) fun _ => .bind (setSp_roomy _ more) fun _ =>
    write_roomy _ _ more

/-- An operation on values that takes its operands from the stack. -/
theorem operate_roomy (o : Option Value) (complaint : Text) (drop : Int) (event : Value → Event) :
    Roomy (match o with
      | none => failing complaint
      | some v => do
        executeOp.replace v drop
        return event v : Interpreting Event) := by
  cases o with
  | none => exact failing_roomy _
  | some v => exact fun more => .bind (replace_roomy _ _ more) fun _ => .pure _

theorem call_roomy {units : Units} {helpers : HelperTable} (i : Fetched) :
    Roomy (executeOp units helpers i .call) := by
  refine fun more => .bind (ofOption_roomy _ more) fun argc => .bind (peek_roomy _ more) fun v => ?_
  dsimp only
  split
  · exact failing_roomy _ more
  · split_ifs
    · exact .bind (failing_roomy _ more) fun _ => .bind (pushFrame_roomy _ _ more) fun _ => .pure _
    · exact .bind (pushFrame_roomy _ _ more) fun _ => .pure _

theorem executeOp_roomy {units : Units} {helpers : HelperTable} (i : Fetched) (op : Opcode) :
    Roomy (executeOp units helpers i op) := by
  intro more
  have hbranch : ∀ (taken want : Bool), Lifts (State.above more) (fun _ => False) (do
      if taken == want then jumpTo (← ofOption (i.chunk.target? i.pc))
      return .branched taken (i.chunk.target? i.pc) : Interpreting Event) := by
    intro taken want
    dsimp only
    split_ifs
    · exact .bind (ofOption_roomy _ more) fun _ => .bind (jumpTo_roomy _ more) fun _ => .pure _
    · exact .pure _
  cases op with
  | call => exact call_roomy i more
  | ret => exact .bind (pop_roomy more) fun _ => leave_roomy _ _ more
  | builtin => exact builtin_roomy i more
  | const =>
    exact .bind (ofOption_roomy _ more) fun _ => .bind (ofOption_roomy _ more) fun _ =>
      .bind (push_roomy _ more) fun _ => .pure _
  | null => exact .bind (push_roomy _ more) fun _ => .pure _
  | true => exact .bind (push_roomy _ more) fun _ => .pure _
  | false => exact .bind (push_roomy _ more) fun _ => .pure _
  | pop => exact .bind (pop_roomy more) fun _ => .pure _
  | dup => exact .bind (peek_roomy _ more) fun _ => .bind (push_roomy _ more) fun _ => .pure _
  | load =>
    exact .bind (ofOption_roomy _ more) fun _ => .bind (read_roomy _ more) fun _ =>
      .bind (push_roomy _ more) fun _ => .pure _
  | store =>
    exact .bind (ofOption_roomy _ more) fun _ => .bind (pop_roomy more) fun _ =>
      .bind (write_roomy _ _ more) fun _ => .pure _
  | jump =>
    exact .bind (ofOption_roomy _ more) fun _ => .bind (jumpTo_roomy _ more) fun _ => .pure _
  | jumpIfFalse => exact .bind (pop_roomy more) fun v => hbranch _ _
  | jumpIfTrue => exact .bind (pop_roomy more) fun v => hbranch _ _
  | loop =>
    exact .bind (ofOption_roomy _ more) fun _ => .bind (jumpTo_roomy _ more) fun _ =>
      .bind (.modify fun _ => rfl) fun _ => .pure _
  | print =>
    refine .bind (pop_roomy more) fun v => .get_bind (fun _ => rfl) fun s => ?_
    have hprint : Lifts (State.above more) (fun _ => False) (do
        modify fun s =>
          let out := s.out
          { { s with out := ∅ } with out := out ++ v.render ++ "\n" }
        return .quiet : Interpreting Event) :=
      .bind (.modify fun _ => rfl) fun _ => .pure _
    split_ifs
    · exact .bind (.throw _) fun _ => hprint
    · exact hprint
  | halt => exact .throw _
  | eq | ne =>
    exact .bind (peek_roomy _ more) fun _ => .bind (peek_roomy _ more) fun _ =>
      .bind (replace_roomy _ _ more) fun _ => .pure _
  | not =>
    exact .bind (peek_roomy _ more) fun _ => .bind (replace_roomy _ _ more) fun _ => .pure _
  | neg | bitNot => exact .bind (peek_roomy _ more) fun _ => operate_roomy _ _ _ _ more
  | _ =>
    exact .bind (peek_roomy _ more) fun _ => .bind (peek_roomy _ more) fun _ =>
      operate_roomy _ _ _ _ more

/-- An instruction that succeeds does so on a longer stack. -/
theorem execute_above {units : Units} {helpers : HelperTable} (i : Fetched) :
    Roomy (execute units helpers i) := by
  unfold execute
  split
  · exact executeOp_roomy i _
  · exact failing_roomy _

/-- A call on an empty stack that finds room finds it on a longer stack. -/
theorem prepare_above (more : Array Value) {fn : Function} {ref : FuncRef} {args : List Value}
    {s' : State} (hsp : s.sp = 0) (h : prepare fn ref args s = .ok () s') :
    prepare fn ref args (s.above more) = .ok () (s'.above more) := by
  have hstart : Lifts (State.above more) (fun _ => False) (do
      push (.func (some ref))
      args.forM push
      pushFrame fn args.length : Interpreting Unit) :=
    .bind (push_roomy _ more) fun _ => .bind (.forM (push_roomy · more) args) fun _ =>
      pushFrame_roomy fn _ more
  have hreset : (s.above more).reset = s.reset.above more := by
    unfold State.reset State.above
    dsimp only
    rw [hsp]
    rfl
  refine Eq.trans ?_ (hstart.ok s.reset () s' h)
  rw [← hreset]
  rfl

/-! ### Loops -/

theorem localTypes_roomy (i : Int) (n : Nat) : Roomy (localTypes i n) := by
  intro more
  induction n generalizing i with
  | zero => exact .pure _
  | succ n ih =>
    refine .bind (read_roomy i more) fun v => ?_
    cases traceType? v with
    | none => exact .pure _
    | some ty => exact .bind (ih (i + 1)) fun _ => .pure _

theorem entryTypes_roomy (frame : Frame) : Roomy (entryTypes frame) := by
  refine fun more => .get_bind (fun _ => rfl) fun s => ?_
  split_ifs
  · exact .pure _
  · exact .bind (faulty_roomy more) fun _ => localTypes_roomy _ _ more
  · exact localTypes_roomy _ _ more

theorem reboxSlots_roomy (bp : Int) (words : Array UInt64) (k : Nat) (types : TypeMap) :
    Roomy (reboxSlots bp words k types) := by
  intro more
  induction types generalizing k with
  | nil => exact .pure _
  | cons ty rest ih =>
    refine .bind (ofOption_roomy _ more) fun w => .get_bind (fun _ => rfl) fun s => ?_
    cases rebox s.heap w ty with
    | error f => exact .bind (.throw _) fun _ => ih (k + 1)
    | ok v => exact .bind (write_roomy _ v more) fun _ => ih (k + 1)

end Roomy

/-! ### With a monitor -/

/-- The same with a monitor. -/
def Traced.above (more : Array Value) (t : Traced) : Traced :=
  { t with state := t.state.above more }

/-- Compiled code has gone wrong. -/
def Derails (stop : TracedStop) : Prop := ∃ function pc e, stop = .trace function pc e

/-- What succeeds, or is stopped because compiled code goes wrong, ends so on a longer stack. -/
abbrev RoomyTraced {α : Type} (x : Tracing α) : Prop :=
  ∀ more, Lifts (Traced.above more) Derails x

section Traced

variable {α : Type}

theorem Lifts.of_plain {x : Tracing α} {more : Array Value}
    (hok : ∀ t a t', x t = .ok a t' → x (t.above more) = .ok a (t'.above more))
    (herror : ∀ t e t', x t = .error e t' → ∃ stop, e = .plain stop) :
    Lifts (Traced.above more) Derails x := by
  refine ⟨hok, fun t e t' he h => ?_⟩
  obtain ⟨stop, rfl⟩ := herror t e t' h
  obtain ⟨_, _, _, he⟩ := he
  cases he

theorem interp_roomy {x : Interpreting α} (hx : Roomy x) : RoomyTraced (interp x) := by
  refine fun more => .of_plain (fun t a t' h => ?_) fun t e t' h => ?_
  · unfold interp at h ⊢
    rw [show (t.above more).state = t.state.above more from rfl]
    split at h
    · next hstate =>
      cases h
      rw [(hx more).ok _ _ _ hstate]
      rfl
    · cases h
  · unfold interp at h
    split at h
    · cases h
    · cases h
      exact ⟨_, rfl⟩

theorem monitoring_roomy (x : Monitoring α) : RoomyTraced (monitoring x) := by
  refine fun more => .of_plain (fun t a t' h => ?_) fun t e t' h => ?_
  · unfold monitoring at h ⊢
    rw [show (t.above more).monitor = t.monitor from rfl]
    split at h
    · cases h
      rfl
    · cases h
  · unfold monitoring at h
    split at h
    · cases h
    · cases h
      exact ⟨_, rfl⟩

theorem report_roomy (i : Fetched) (action : Action) : RoomyTraced (report i action) :=
  fun more => .bind (monitoring_roomy _ more) fun _ => .pure _

theorem unboxed_roomy (v : Value) : RoomyTraced (unboxed v) := fun _ => .modifyGet fun _ => rfl

theorem announce_roomy (i : Fetched) : RoomyTraced (announce i) := by
  intro more
  unfold announce
  split
  · exact report_roomy i _ more
  · exact report_roomy i _ more
  · exact report_roomy i _ more
  · exact report_roomy i _ more
  · exact .pure _
  · exact monitoring_roomy _ more

theorem reportEvent_roomy (i : Fetched) (event : Event) : RoomyTraced (reportEvent i event) := by
  intro more
  cases event with
  | quiet | looped => exact .pure _
  | pushed v =>
    unfold reportEvent
    dsimp only
    split
    · exact report_roomy i _ more
    · exact .bind (unboxed_roomy v more) fun w => report_roomy i _ more
  | copied source target v =>
    unfold reportEvent
    dsimp only
    split
    · exact report_roomy i _ more
    · exact report_roomy i _ more
  | branched taken target =>
    cases target with
    | none => exact .throw _
    | some target => exact report_roomy i _ more
  | computed | converted | called => exact report_roomy i _ more

theorem unboxLocals_roomy (bp : Int) (k n : Nat) : RoomyTraced (unboxLocals bp k n) := by
  intro more
  induction n generalizing k with
  | zero => exact .pure _
  | succ n ih =>
    refine .bind (interp_roomy (read_roomy _) more) fun v => .bind (unboxed_roomy v more) fun w =>
      .get_bind (fun _ => rfl) fun t => ?_
    have hrest : Lifts (Traced.above more) Derails (do
        modify fun t =>
          let words := t.state.words
          let state := { t.state with words := #[] }
          { t with state := { state with words := words.set! k w } }
        unboxLocals bp (k + 1) n : Tracing Unit) :=
      .bind (.modify fun _ => rfl) fun _ => ih (k + 1)
    split_ifs
    · exact .bind (.throw _) fun _ => hrest
    · exact hrest

theorem runFragment_roomy (fuel : Nat) (id : FragmentId) : RoomyTraced (runFragment fuel id) := by
  refine fun more => .of_plain (fun t a t' h => ?_) fun t e t' h => ?_
  · unfold runFragment at h ⊢
    dsimp only at h ⊢
    rw [show (t.above more).monitor = t.monitor from rfl,
      show (t.above more).state.heap = t.state.heap from rfl,
      show (t.above more).state.words = t.state.words from rfl]
    split at h
    · cases h
      rfl
    · cases h
  · unfold runFragment at h
    dsimp only at h
    split at h
    · cases h
    · cases h
      exact ⟨_, rfl⟩

theorem enter_roomy (fuel : Nat) (frame : Frame) (f : Fragment) :
    RoomyTraced (enter fuel frame f) := by
  intro more
  unfold enter
  refine .get_bind (fun _ => rfl) fun t => ?_
  extract_lets mark n visit grown
  have hvisit : Lifts (Traced.above more) Derails (visit ()) := by
    refine .bind (unboxLocals_roomy _ _ _ more) fun _ =>
      .bind (interp_roomy (fun _ => .modify fun _ => rfl) more) fun _ =>
      .bind (runFragment_roomy fuel f.id more) fun answer => ?_
    cases answer with
    | error e => exact .throw _
    | ok g =>
      refine .get_bind (fun _ => rfl) fun t' => .bind (interp_roomy (fun more => ?_) more) fun _ =>
        .bind (monitoring_roomy _ more) fun _ => .pure _
      exact .get_bind (fun _ => rfl) fun _ => .bind (reboxSlots_roomy _ _ _ _ more) fun _ =>
        .bind (.modify fun _ => rfl) fun _ => .bind (jumpTo_roomy _ more) fun _ =>
        .modify fun _ => rfl
  clear_value visit
  refine .get_bind (fun _ => rfl) fun t' => ?_
  split_ifs
  · exact .bind (.throw _) fun _ => .bind (.modify fun _ => rfl) fun _ => hvisit
  · exact .bind (.modify fun _ => rfl) fun _ => hvisit
  · exact hvisit

theorem loopEdge_roomy (fuel : Nat) (i : Fetched) (header : Int) :
    RoomyTraced (loopEdge fuel i header) := by
  intro more
  unfold loopEdge
  refine .get_bind (fun _ => rfl) fun t => .bind (interp_roomy (entryTypes_roomy _) more)
    fun types => .get_bind (fun _ => rfl) fun t' => ?_
  extract_lets goOn
  have hgoOn : Lifts (Traced.above more) Derails (goOn ()) := by
    cases types with
    | none => exact .pure _
    | some types =>
      refine .get_bind (fun _ => rfl) fun t => ?_
      split
      · exact enter_roomy fuel _ _ more
      · exact .bind (monitoring_roomy _ more) fun _ => .pure _
  clear_value goOn
  split_ifs
  · refine .get_bind (fun _ => rfl) fun t => ?_
    split_ifs
    · cases types with
      | none => exact .bind (monitoring_roomy _ more) fun _ => hgoOn
      | some types => exact .bind (monitoring_roomy _ more) fun _ => hgoOn
    · exact .get_bind (fun _ => rfl) fun t => .bind (report_roomy _ _ more) fun _ => hgoOn
  · exact hgoOn

/-- An instruction that succeeds, with a monitor, does so on a longer stack. -/
theorem tracedStep_above {units : Units} {helpers : HelperTable} (fuel : Nat) :
    RoomyTraced (tracedStep units helpers fuel) := by
  intro more
  refine .bind (interp_roomy fetch_roomy more) fun i => .get_bind (fun _ => rfl) fun t => ?_
  extract_lets tracing goOn
  have hgoOn : Lifts (Traced.above more) Derails (goOn ()) := by
    refine .bind (interp_roomy (execute_above i) more) fun event => ?_
    cases event with
    | looped header => exact loopEdge_roomy fuel i header more
    | _ =>
      split_ifs
      · exact reportEvent_roomy i _ more
      · exact .pure _
  clear_value goOn
  split_ifs
  · exact .bind (announce_roomy i more) fun _ => hgoOn
  · exact hgoOn

end Traced

/-! ### A short stack -/

/-- A stack that is long enough for the examples. -/
def shortStack : Array Value := Array.replicate 8 .null

/-- What it lacks to be a whole stack. -/
def Spare (more : Array Value) : Prop := shortStack ++ more = Array.replicate stackSize .null

theorem exists_spare : ∃ more, Spare more :=
  ⟨Array.replicate (stackSize - 8) .null, Array.replicate_append_replicate⟩

theorem Spare.size {more : Array Value} (h : Spare more) :
    shortStack.size + more.size = stackSize := by
  rw [← Array.size_append, h, Array.size_replicate]

end LoopTracer.Interp
