import LoopTracer.Proofs.Interp.Safety

/-! Everything a call of a verified function reaches.

A call puts the function and its arguments on the empty stack, makes a frame and then takes step
after step (`Reached`). All states on the way are orderly (`Reached.orderly`), so a call can only
go wrong in two ways: more arguments than the stack has places, and a frame whose size wraps
around. -/
namespace LoopTracer.Interp

open Bytecode Trace StackDepth

/-! ### The start of a call -/

theorem reset_size (s : State) : s.reset.stack.size = s.stack.size := by
  have hfold : ∀ (n : Nat) (stack : Array Value),
      (n.fold (fun i _ stack => stack.set! i .null) stack).size = stack.size := by
    intro n stack
    induction n with
    | zero => rfl
    | succ n ih =>
      rw [Nat.fold_succ, Array.set!_eq_setIfInBounds, Array.size_setIfInBounds, ih]
  exact hfold ..

/-- What pushing arguments leaves alone. -/
structure SameBut (s s' : State) : Prop where
  size : s'.stack.size = s.stack.size
  frames : s'.frames = s.frames
  heap : s'.heap = s.heap
  out : s'.out = s.out
  sink : s'.sinkClosed = s.sinkClosed
  words : s'.words = s.words

/-- Arguments are put on the stack one after the other as long as there is room. -/
theorem pushAll_ok {s : State} {l : List Value} (h : Holds s 0 l) (args : List Value)
    (hroom : l.length + args.length ≤ s.stack.size) :
    ∃ s', args.forM push s = .ok ⟨⟩ s' ∧ Holds s' 0 (l ++ args) ∧ SameBut s s' := by
  induction args generalizing s l with
  | nil =>
    refine ⟨s, rfl, by rwa [List.append_nil], rfl, rfl, rfl, rfl, rfl, rfl⟩
  | cons a args ih =>
    have hsp := h.sp
    rw [List.length_cons] at hroom
    obtain ⟨hpush, hholds⟩ := h.push (by omega) a
    obtain ⟨s', hrest, hholds', hsame⟩ := ih hholds (by simp; omega)
    refine ⟨s', ?_, ?_, ?_⟩
    · show (push a >>= fun _ => args.forM push) s = _
      rw [bind_ok hpush]
      exact hrest
    · rwa [List.append_assoc] at hholds'
    · exact ⟨by simpa using hsame.size, hsame.frames, hsame.heap, hsame.out,
        hsame.sink, hsame.words⟩

theorem pushAll_fault {s : State} {l : List Value} (h : Holds s 0 l) (args : List Value)
    (hroom : s.stack.size < l.length + args.length) :
    ∃ s', args.forM push s = .error (.fault .bounds) s' ∧ SameBut s s' := by
  induction args generalizing s l with
  | nil =>
    have hsp := h.sp
    have hfits := h.fits
    rw [List.length_nil] at hroom
    omega
  | cons a args ih =>
    have hsp := h.sp
    rw [List.length_cons] at hroom
    by_cases hlt : s.sp < s.stack.size
    · obtain ⟨hpush, hholds⟩ := h.push hlt a
      obtain ⟨s', hrest, hsame⟩ := ih hholds (by simp; omega)
      refine ⟨s', ?_, ?_⟩
      · show (push a >>= fun _ => args.forM push) s = _
        rw [bind_ok hpush]
        exact hrest
      · exact ⟨by simpa using hsame.size, hsame.frames, hsame.heap, hsame.out,
          hsame.sink, hsame.words⟩
    · have hout : (decide (s.sp < 0) || decide ((s.stack.size : Int) ≤ s.sp)) = true := by
        simp only [Bool.or_eq_true, decide_eq_true_eq]
        omega
      have hpush : push a s = .error (.fault .bounds) s := by
        rw [push, hout]
        rfl
      refine ⟨s, ?_, rfl, rfl, rfl, rfl, rfl, rfl⟩
      show (push a >>= fun _ => args.forM push) s = _
      exact bind_error hpush

/-- The values below the operands of the outermost frame when it starts. -/
def startValues (fn : Function) (ref : FuncRef) (args : List Value) : List Value :=
  .func (some ref) :: (args ++ List.replicate (fn.locals - args.length).toNat .null)

/-- What the start of a call comes to. -/
inductive Prepared (fn : Function) (ref : FuncRef) (args : List Value) (s : State) :
    EStateM.Result Stop State Unit → Prop
  | tooLarge {s' : State} : args.length < stackSize → (stackSize : Int) < signed64 (reach fn 1) →
      SameBut { s with frames := [] } s' →
      Prepared fn ref args s (.error (.error (s'.errorHere "value stack overflow")) s')
  | started {s' : State} : args.length < stackSize → reach fn 1 ≤ stackSize →
      SameBut { s with frames := [{ fn, ip := 0, bp := 1 }] } s' →
      Holds s' 0 (startValues fn ref args) →
      Prepared fn ref args s (.ok () s')
  | overrun {s' : State} : (stackSize ≤ args.length ∨ Wraps fn 1) →
      SameBut { s with frames := [] } s' →
      Prepared fn ref args s (.error (.fault .bounds) s')

theorem SameBut.trans {s s' s'' : State} (h : SameBut s s') (h' : SameBut s' s'') : SameBut s s'' :=
  ⟨h'.size.trans h.size, h'.frames.trans h.frames, h'.heap.trans h.heap, h'.out.trans h.out,
    h'.sink.trans h.sink, h'.words.trans h.words⟩

theorem prepare_cases {s : State} {fn : Function} {c : Chunk} {r : Result} (hs : Idle s)
    (hfn : Verified fn c r) (ref : FuncRef) (args : List Value)
    (harity : (args.length : Int) = fn.arity) :
    Prepared fn ref args s (prepare fn ref args s) := by
  have hstack : stackSize = 65536 := rfl
  have hsize := (reset_size s).trans hs.size
  have hmodify : (modify State.reset : Interpreting PUnit) s = .ok ⟨⟩ s.reset := rfl
  have hempty : Holds s.reset 0 [] := ⟨Int.le_refl 0, rfl, by show (0 : Int) ≤ _; omega, by simp⟩
  obtain ⟨hpush, hholds⟩ := hempty.push (by show (0 : Int) < _; omega) (.func (some ref))
  have hreset : SameBut { s with frames := [] }
      { s.reset with stack := s.reset.stack.set! s.reset.sp.toNat (.func (some ref)),
                     sp := s.reset.sp + 1 } :=
    ⟨by simpa using reset_size s, rfl, rfl, rfl, rfl, rfl⟩
  have hroom := hreset.size.trans hs.size
  unfold prepare
  rw [bind_ok hmodify, bind_ok hpush]
  by_cases hmany : stackSize ≤ args.length
  · obtain ⟨s', hall, hsame⟩ := pushAll_fault hholds args (by
      rw [hroom]
      simp
      omega)
    rw [bind_error hall]
    exact .overrun (.inl hmany) (hreset.trans hsame)
  · obtain ⟨s', hall, hholds', hsame⟩ := pushAll_ok hholds args (by
      rw [hroom]
      simp
      omega)
    rw [bind_ok hall]
    have hsame' := hreset.trans hsame
    have hsp : s'.sp - args.length = 1 := by
      have := hholds'.sp
      simp only [List.nil_append, List.length_append, List.length_singleton] at this
      omega
    have hmax := hfn.maxStack
    have hhighest := hfn.labelled.highest
    have harity' := hfn.arity
    have hframed := pushFrame_cases (s := s') (hsame'.size.trans hs.size) (by omega) (by omega)
      (show (args.length : Int) ≤ fn.locals by omega) (by omega) (by omega)
    have hframes : s'.frames = [] := hsame'.frames
    rw [hsp] at hframed
    generalize pushFrame fn args.length s' = answer at hframed
    cases hframed with
    | tooMany h =>
      rw [hframes] at h
      cases h
    | tooLarge _ h => exact .tooLarge (by omega) h hsame'
    | wrapped stack _ h hstack' =>
      refine .overrun (.inr h) (hsame'.trans ⟨hstack', rfl, rfl, rfl, rfl, rfl⟩)
    | made stack _ h hstack' hget =>
      refine .started (by omega) h ?_ ⟨Int.le_refl 0, ?_, ?_, fun k v hk => ?_⟩
      · refine ⟨hstack'.trans hsame'.size, ?_, hsame'.heap, hsame'.out, hsame'.sink, hsame'.words⟩
        simp [hframes]
      · show 1 + fn.locals = _
        simp only [startValues, List.length_cons, List.length_append, List.length_replicate]
        omega
      · show 1 + fn.locals ≤ (stack.size : Int)
        have := hsame'.size.trans hs.size
        unfold reach at h
        omega
      · show stack[(0 : Int).toNat + k]? = some v
        rw [hget]
        unfold startValues at hk
        rw [← List.cons_append] at hk
        by_cases hlt : k < (Value.func (some ref) :: args).length
        · rw [List.getElem?_append_left hlt] at hk
          rw [List.length_cons] at hlt
          rw [if_neg (by simp; omega)]
          exact hholds'.get k v hk
        · rw [List.getElem?_append_right (by omega), List.getElem?_replicate] at hk
          rw [List.length_cons] at hlt hk
          split at hk
          · next hin =>
            rw [if_pos (by simp; omega)]
            exact hk
          · cases hk

/-! ### The states of a call -/

/-- The states that a call passes through, started in the state `s₀`. -/
inductive Reached (units : Units) (fn : Function) (ref : FuncRef) (args : List Value) (s₀ : State) :
    State → Prop
  | started {s : State} : prepare fn ref args s₀ = .ok () s → Reached units fn ref args s₀ s
  | step {s s' : State} {e : Event} : Reached units fn ref args s₀ s →
      Interp.step units .standard s = .ok e s' → Reached units fn ref args s₀ s'

variable {units : Units} {fn : Function} {c : Chunk} {r : Result} {ref : FuncRef}
variable {args : List Value} {s₀ s : State}

theorem SameBut.idle {s s' : State} (h : SameBut s s') (hs : Idle s) : Idle s' :=
  hs.congr h.size h.heap

theorem Prepared.orderly (h : Prepared fn ref args s₀ (.ok () s)) (hs₀ : Idle s₀)
    (hfn : Verified fn c r) (harity : (args.length : Int) = fn.arity) : Orderly s := by
  cases h with
  | started _ hreach hsame hholds =>
    have hsp := hholds.sp
    have harity' := hfn.arity
    simp only [startValues, List.length_cons, List.length_append, List.length_replicate] at hsp
    refine ⟨hsame.idle (hs₀.congr rfl rfl), ?_, ?_⟩
    · rw [hsame.frames]
      exact List.cons_ne_nil _ _
    · rw [hsame.frames]
      refine ⟨⟨⟨c, r, 0, 0, hfn, rfl, hfn.labelled.first, ?_, Nat.zero_le _⟩,
        Int.le_refl 1, ?_, hreach⟩,
        trivial⟩
      · show s.sp = 1 + fn.locals + (0 : Nat)
        omega
      · show 0 ≤ fn.locals
        omega

/-- Every state that a call of a verified function reaches is orderly. -/
theorem Reached.orderly (hu : Trusted units) (hs₀ : Idle s₀) (hfn : Verified fn c r)
    (harity : (args.length : Int) = fn.arity) (h : Reached units fn ref args s₀ s) : Orderly s := by
  induction h with
  | started hprepare =>
    have hcases := prepare_cases hs₀ hfn ref args harity
    rw [hprepare] at hcases
    exact hcases.orderly hs₀ hfn harity
  | step _ hstep ih =>
    have hbehaves := ih.step hu
    rw [hstep] at hbehaves
    exact hbehaves.2

/-- A run of orderly states ends in one that a call can start in. -/
theorem run_idle (hu : Trusted units) (fuel : Nat) (h : Orderly s) :
    Idle (run units .standard fuel s).1 := by
  induction fuel generalizing s with
  | zero => exact h.toIdle
  | succ fuel ih =>
    have hbehaves := h.step hu
    unfold run
    cases hstep : Interp.step units .standard s with
    | ok e s' =>
      rw [hstep] at hbehaves
      exact ih hbehaves.2
    | error stop s' =>
      rw [hstep] at hbehaves
      exact hbehaves.1

/-- The states in which earlier calls without a monitor leave a machine. -/
inductive Left (units : Units) : State → Prop
  | fresh (out : Text) (sinkClosed : Bool) : Left units { out, sinkClosed }
  | called {s : State} (fuel : Nat) (ref : FuncRef) (args : List Value) : Left units s →
      Left units (Vm.invoke units fuel ref args { state := s }).1.state

theorem Left.idle (hu : Trusted units) (h : Left units s) : Idle s := by
  induction h with
  | fresh out sinkClosed => exact idle_default.congr rfl rfl
  | @called s fuel ref args _ ih =>
    unfold Vm.invoke
    cases hfn : units.function? ref with
    | none => exact ih
    | some fn =>
      obtain ⟨c, r, hverified⟩ := hu ref fn hfn
      by_cases harity : (args.length : Int) = fn.arity
      · have hcases := prepare_cases ih hverified ref args harity
        simp only [harity, ne_eq, not_true_eq_false, if_false]
        cases hprepare : prepare fn ref args s with
        | ok u s' =>
          rw [hprepare] at hcases
          exact run_idle hu fuel (hcases.orderly ih hverified harity)
        | error stop s' =>
          rw [hprepare] at hcases
          cases hcases with
          | tooLarge _ _ hsame => exact hsame.idle (ih.congr rfl rfl)
          | overrun _ hsame => exact hsame.idle (ih.congr rfl rfl)
      · simp only [ne_eq, harity, not_false_eq_true, if_true]
        exact ih

/-- All functions that a value can refer to in an accepted program are verified. -/
theorem trusted_of_accepted (p : Program) (hp : p.verify.2 = []) {main : Nat}
    (hmain : p.main = .listed main) : Trusted #[p.verify.1] := by
  intro ref fn hfn
  refine p.verified_of_accepted hp fn ?_
  unfold Units.function? at hfn
  cases hunit : (#[p.verify.1] : Units)[ref.unit]? with
  | none => simp [hunit] at hfn
  | some q =>
    have hq : q = p.verify.1 := by
      have := Array.mem_of_getElem? hunit
      simpa using this
    subst hq
    simp only [hunit, Option.bind_eq_bind, Option.bind_some] at hfn
    split at hfn
    · obtain rfl := Option.some.inj hfn
      exact Array.getElem_mem _
    · have hlisted : p.verify.1.main = .listed main := hmain
      rw [hlisted] at hfn
      cases hfn

/-! ### Safety -/

/-- A frame that stands at an instruction and fits on the stack. -/
structure FrameSafe (f : Frame) : Prop where
  starts : ∃ c i, f.fn.chunk = some c ∧ f.ip = (i : Nat) ∧ Starts c i
  fits : f.bp + f.fn.locals + f.fn.maxStack ≤ stackSize

/-- The running frame has the operands that the analysis found for its instruction. -/
def DepthAgrees (s : State) : Prop :=
  ∃ f rest i d, s.frames = f :: rest ∧ f.ip = (i : Nat) ∧ f.fn.depthAt i = some d ∧
    s.sp - (f.bp + f.fn.locals) = d ∧ (d : Int) ≤ f.fn.maxStack

/-- The next instruction is a known one, and it takes no more operands than its frame has. -/
def InstructionSafe (units : Units) (s : State) : Prop :=
  ∃ i s₁ op, fetch s = .ok i s₁ ∧ Opcode.ofByte? i.byte = some op ∧
    ((effect op ((i.chunk.byte? (i.pc + 1)).getD 0)).pops : Int) ≤ i.depth ∧
    Interp.step units .standard s = executeOp units .standard i op s₁

theorem Chained.mem {frames : List Frame} {top : Int} (h : Chained frames top) {f : Frame}
    (hf : f ∈ frames) : ∃ top, Standing f top := by
  induction frames generalizing top with
  | nil => cases hf
  | cons g rest ih =>
    rcases List.mem_cons.mp hf with rfl | hf
    · exact ⟨top, h.1⟩
    · exact ih h.2 hf

theorem Orderly.frameSafe (h : Orderly s) {f : Frame} (hf : f ∈ s.frames) : FrameSafe f := by
  obtain ⟨top, hstanding⟩ := h.chained.mem hf
  obtain ⟨c, r, i, d, hverified, hip, hlabel, -, -⟩ := hstanding.code
  exact ⟨⟨c, i, hverified.chunk, hip, hverified.labelled.starts hlabel⟩, hstanding.fits⟩

theorem Orderly.depthAgrees (h : Orderly s) : DepthAgrees s := by
  cases hframes : s.frames with
  | nil => exact absurd hframes h.running
  | cons f rest =>
    have hchained := h.chained
    rw [hframes] at hchained
    obtain ⟨c, r, i, d, hverified, hip, hlabel, htop, hmax⟩ := hchained.1.code
    refine ⟨f, rest, i, d, hframes, hip, (hverified.depthAt_eq i).trans hlabel, ?_, ?_⟩
    · rw [htop, Frame.base]
      omega
    · rw [hverified.maxStack]
      omega

theorem Orderly.instructionSafe (h : Orderly s) : InstructionSafe units s := by
  obtain ⟨f, rest, c, r, i, op, l, ops, hn⟩ := h.next
  obtain ⟨b, ho, hfetch, hstep⟩ := hn.poised.step_eq units .standard
  refine ⟨_, _, op, hfetch, ho, ?_, hstep⟩
  show ((effectOf c op i).pops : Int) ≤ s.sp - f.base
  rw [hn.shows.depth_eq]
  exact_mod_cast hn.pops_le

/-- Calls of the functions of an accepted program are safe. In every state on the way all frames
stand at instructions and fit on the stack, the operands are those of the analysis, and the next
instruction is known and has its operands. A call faults only where the size of a frame, or of the
arguments, is more than the check against it can take. -/
theorem accepted_call_safe (p : Program) (hp : p.verify.2 = []) {main : Nat}
    (hmain : p.main = .listed main) {s₀ : State} (hs₀ : Left #[p.verify.1] s₀) (ref : FuncRef)
    {fn : Function} (hfn : Units.function? #[p.verify.1] ref = some fn) (args : List Value)
    (harity : (args.length : Int) = fn.arity) :
    ((∃ e s, prepare fn ref args s₀ = .error (.fault e) s) ↔
      stackSize ≤ args.length ∨ Wraps fn 1) ∧
    ∀ s, Reached #[p.verify.1] fn ref args s₀ s →
      (∀ f ∈ s.frames, FrameSafe f) ∧ DepthAgrees s ∧ InstructionSafe #[p.verify.1] s ∧
      ((∃ e s', Interp.step #[p.verify.1] .standard s = .error (.fault e) s') ↔
        Overruns #[p.verify.1] s) := by
  have hu := trusted_of_accepted p hp hmain
  have hidle := hs₀.idle hu
  obtain ⟨c, r, hverified⟩ := hu ref fn hfn
  constructor
  · have hcases := prepare_cases hidle hverified ref args harity
    generalize prepare fn ref args s₀ = answer at hcases
    cases hcases with
    | tooLarge hfew hlarge _ =>
      refine ⟨fun ⟨_, _, he⟩ => (nomatch he), ?_⟩
      rintro (hmany | hwraps)
      · omega
      · have := hwraps.2
        omega
    | started hfew hreach _ _ =>
      refine ⟨fun ⟨_, _, he⟩ => (nomatch he), ?_⟩
      rintro (hmany | hwraps)
      · omega
      · have := hwraps.1
        omega
    | overrun h _ => exact ⟨fun _ => h, fun _ => ⟨_, _, rfl⟩⟩
  · intro s hs
    have horderly := hs.orderly hu hidle hverified harity
    have hbehaves := horderly.step hu
    refine ⟨fun f hf => horderly.frameSafe hf, horderly.depthAgrees, horderly.instructionSafe, ?_⟩
    cases hstep : Interp.step #[p.verify.1] .standard s with
    | ok e s' =>
      rw [hstep] at hbehaves
      exact ⟨fun ⟨_, _, he⟩ => (nomatch he), fun h => absurd h hbehaves.1⟩
    | error stop s' =>
      rw [hstep] at hbehaves
      constructor
      · rintro ⟨e, s'', he⟩
        obtain ⟨rfl, rfl⟩ := EStateM.Result.error.inj he
        exact hbehaves.2.mp ⟨e, rfl⟩
      · intro h
        obtain ⟨e, rfl⟩ := hbehaves.2.mpr h
        exact ⟨e, s', rfl⟩

/-- A function that halts at once, in a frame with a number of locals. -/
def halting (locals : Int) : Function :=
  { id := 1, name := "main", arity := 0, locals, chunk := some { code := ⟨#[35]⟩ } }

def haltingProgram (locals : Int) : Program where
  functions := #[halting locals]
  main := .listed 0

/-- With one local the call starts; with as many as a signed number can count it faults, though the
program is accepted. -/
theorem haltingProgram_calls :
    ((haltingProgram 1).verify.2 = [] ∧
      ¬∃ e s, prepare (halting 1).verify.1 ⟨0, 0, "main"⟩ [] {} = .error (.fault e) s) ∧
    ((haltingProgram (2 ^ 63 - 1)).verify.2 = [] ∧
      ∃ e s, prepare (halting (2 ^ 63 - 1)).verify.1 ⟨0, 0, "main"⟩ [] {} =
        .error (.fault e) s) := by
  have main : ∀ n, Units.function? #[(haltingProgram n).verify.1] ⟨0, 0, "main"⟩ =
      some (halting n).verify.1 := by
    intro n
    simp [Units.function?, Program.verify, haltingProgram]
  constructor
  · have hp : (haltingProgram 1).verify.2 = [] := by decide +kernel
    have hsafe := accepted_call_safe _ hp rfl (.fresh ∅ false) _ (main 1) [] (by decide +kernel)
    exact ⟨hp, fun h => absurd (hsafe.1.mp h) (by decide +kernel)⟩
  · have hp : (haltingProgram (2 ^ 63 - 1)).verify.2 = [] := by decide +kernel
    have hsafe := accepted_call_safe _ hp rfl (.fresh ∅ false) _ (main _) [] (by decide +kernel)
    exact ⟨hp, hsafe.1.mpr (.inr (by decide +kernel))⟩

end LoopTracer.Interp
