import LoopTracer.Proofs.Interp.Frames

/-! Verified programs do not go wrong.

Orderly states are closed under steps (`Orderly.step`): verification has done its work when no run
of accepted functions leaves the code, takes an operand that is not its own, or touches the stack
outside its bounds. A step of an orderly state stops with a result, with an error of the program or
because nothing can be printed, and with a fault exactly where making a frame overruns the stack
(`Overruns`). -/
namespace LoopTracer.Interp

open Bytecode Trace StackDepth

/-- The function that a value calls. -/
def calleeOf (units : Units) : Value → Option Function
  | .func (some r) => units.function? r
  | _ => none

/-- What a call does with the function that it finds. -/
def calling (argc : Nat) (callee : Value) : Option Function → Interpreting Event
  | none => failing ("cannot call " ++ callee.typeName)
  | some fn => do
    if fn.arity ≠ argc then
      failing (fn.signature ++ " expects " ++ .ofInt fn.arity ++ " arguments, got " ++ .ofNat argc)
    pushFrame fn argc
    return .quiet

namespace Next

variable {s : State} {f : Frame} {rest : List Frame} {c : Chunk} {r : Result}
  {i : Nat} {op : Opcode}
variable {l ops : List Value}

theorem pops_le (h : Next s f rest c r i op l ops) : (effectOf c op i).pops ≤ ops.length :=
  h.verified.labelled.pops h.label h.poised.whole.opcode

theorem after_le (h : Next s f rest c r i op l ops) : after c op i ops.length ≤ r.maxDepth :=
  h.verified.labelled.greatest h.label h.poised.whole.opcode

/-- Leaving an instruction with the depth of the analysis, where control may go from it. -/
theorem standing (h : Next s f rest c r i op l ops) {ip : Int} (hip : ip ∈ flow c op i)
    (hstanding : Standing f s.sp) :
    Standing { f with ip } (f.base + (after c op i ops.length : Nat)) := by
  obtain ⟨j, rfl, -⟩ := h.verified.sound.flow_starts h.starts h.poised.whole hip
  refine ⟨⟨c, r, j, after c op i ops.length, ?_, rfl, ?_, rfl, h.after_le⟩, hstanding.bp,
    hstanding.locals, hstanding.fits⟩
  · exact h.verified
  · exact h.verified.labelled.flows h.label h.poised.whole.opcode j hip

/-! ### The instructions that leave their frame -/

/-- The answer of a call before a frame is made. -/
theorem step_call (h : Next s f rest c r i .call l ops) (units : Units) :
    ∃ argc callee, c.byte? ((i : Int) + 1) = some argc ∧ ops[argc.toNat]? = some callee ∧
      step units .standard s =
        match calleeOf units callee with
        | none => .error (.error
          ((s.fetched f rest i 2).errorHere ("cannot call " ++ callee.typeName)))
            (s.fetched f rest i 2)
        | some fn =>
          if fn.arity ≠ argc.toNat then
            .error (.error ((s.fetched f rest i 2).errorHere (fn.signature ++ " expects "
              ++ .ofInt fn.arity ++ " arguments, got " ++ .ofNat argc.toNat)))
                (s.fetched f rest i 2)
          else (pushFrame fn argc.toNat >>= fun _ => pure .quiet) (s.fetched f rest i 2) := by
  obtain ⟨argc, hargc⟩ := h.poised.whole.arg rfl
  obtain ⟨b, -, -, hstep⟩ := h.poised.step_eq units .standard
  have hpops := h.pops_le
  simp only [effectOf, effect, hargc, Option.getD_some] at hpops
  have hget : ops[argc.toNat]? = some ops[argc.toNat] := List.getElem?_eq_getElem (by omega)
  have hshows : Shows (s.fetched f rest i 2) f l ops := h.shows.congr rfl rfl
  have hpeek := hshows.peek hget
  refine ⟨argc, ops[argc.toNat], hargc, hget, hstep.trans ?_⟩
  show executeOp units .standard _ .call (s.fetched f rest i 2) = _
  simp only [executeOp, fetchedAt, hargc]
  rw [bind_ok (ofOption_some _ _), bind_ok hpeek]
  show calling argc.toNat _ (calleeOf units ops[argc.toNat]) _ = _
  unfold calling
  cases calleeOf units ops[argc.toNat] with
  | none => rfl
  | some fn =>
    by_cases harity : fn.arity = argc.toNat
    · simp only [harity, ne_eq, not_true_eq_false, if_false]
    · simp only [ne_eq, harity, not_false_eq_true, if_true]
      exact bind_error (failing_eq _ _)

/-- The answer of a return: the result of the run, or a value for the frame below. -/
theorem step_ret (h : Next s f rest c r i .ret l ops) (units : Units) (hbp : 1 ≤ f.bp) :
    ∃ v ops', ops = v :: ops' ∧
      step units .standard s =
        if rest = [] then
          .error (.returned v) { s.fetched f rest i 1 with sp := f.bp - 1, frames := rest }
        else .ok .quiet { s.fetched f rest i 1 with
          stack := s.stack.set! (f.bp - 1).toNat v, sp := f.bp, frames := rest } := by
  obtain ⟨b, -, -, hstep⟩ := h.poised.step_eq units .standard
  obtain ⟨v, ops', rfl⟩ := List.exists_cons_of_length_pos h.pops_le
  have hshows : Shows (s.fetched f rest i 1) f l (v :: ops') := h.shows.congr rfl rfl
  obtain ⟨hpop, -⟩ := hshows.pop
  refine ⟨v, ops', rfl, hstep.trans ?_⟩
  show executeOp units .standard _ .ret (s.fetched f rest i 1) = _
  simp only [executeOp, fetchedAt]
  rw [bind_ok hpop]
  cases hrest : rest with
  | nil => rfl
  | cons g rest' =>
    have hroom : ¬(f.bp - 1 < 0 || (s.stack.size : Int) ≤ f.bp - 1) = true := by
      have hsp := h.shows.sp_eq
      have hfits := h.shows.holds.fits
      simp only [Bool.or_eq_true, decide_eq_true_eq]
      omega
    have hpush : push v { s.fetched f (g :: rest') i 1 with sp := f.bp - 1, frames := g :: rest' } =
        .ok () { s.fetched f (g :: rest') i 1 with
          stack := s.stack.set! (f.bp - 1).toNat v, sp := f.bp - 1 + 1, frames := g :: rest' } := by
      unfold push
      exact if_neg hroom
    rw [if_neg (List.cons_ne_nil g rest')]
    show (push v >>= fun _ => pure Event.quiet)
      { s.fetched f (g :: rest') i 1 with sp := f.bp - 1, frames := g :: rest' } = _
    rw [bind_ok hpush, Int.sub_add_cancel]
    rfl

/-- The answer of a print. -/
theorem step_print (h : Next s f rest c r i .print l ops) (units : Units) :
    ∃ v ops', ops = v :: ops' ∧
      step units .standard s =
        if s.sinkClosed then .error .printFailed { s.fetched f rest i 1 with sp := s.sp - 1 }
        else .ok .quiet { s.fetched f rest i 1 with
          sp := s.sp - 1, out := s.out ++ v.render ++ "\n" } := by
  obtain ⟨b, -, -, hstep⟩ := h.poised.step_eq units .standard
  obtain ⟨v, ops', rfl⟩ := List.exists_cons_of_length_pos h.pops_le
  have hshows : Shows (s.fetched f rest i 1) f l (v :: ops') := h.shows.congr rfl rfl
  obtain ⟨hpop, -⟩ := hshows.pop
  refine ⟨v, ops', rfl, hstep.trans ?_⟩
  show executeOp units .standard _ .print (s.fetched f rest i 1) = _
  simp only [executeOp]
  rw [bind_ok hpop]
  show (if s.sinkClosed then _ else _ : Interpreting Event) _ = _
  cases s.sinkClosed <;> rfl

theorem step_halt (h : Next s f rest c r i .halt l ops) (units : Units) :
    step units .standard s = .error (.returned .null) (s.fetched f rest i 1) := by
  obtain ⟨b, -, -, hstep⟩ := h.poised.step_eq units .standard
  exact hstep

end Next

/-! ### One step -/

/-- Every function that a value can call is verified. -/
def Trusted (units : Units) : Prop :=
  ∀ ref fn, units.function? ref = some fn → ∃ c r, Verified fn c r

theorem Trusted.callee {units : Units} (h : Trusted units) {v : Value} {fn : Function}
    (hv : calleeOf units v = some fn) : ∃ c r, Verified fn c r := by
  unfold calleeOf at hv
  split at hv
  · exact h _ fn hv
  · cases hv

/-- The next instruction calls a function, and the sum that tells whether its frame fits on the
stack wraps around. -/
def Overruns (units : Units) (s : State) : Prop :=
  ∃ f rest c i argc v fn, s.frames = f :: rest ∧ f.fn.chunk = some c ∧ f.ip = (i : Nat) ∧
    c.opcode? i = some .call ∧ c.byte? ((i : Int) + 1) = some argc ∧
    s.stack[(s.sp - 1 - argc.toNat).toNat]? = some v ∧ calleeOf units v = some fn ∧
    fn.arity = argc.toNat ∧ s.frames.length < maxFrames ∧ Wraps fn (s.sp - argc.toNat)

/-- What a step may come to: an orderly state, or a stop that is a fault only when `overruns`. -/
def Behaves (overruns : Prop) : EStateM.Result Stop State Event → Prop
  | .ok _ s => ¬overruns ∧ Orderly s
  | .error stop s => Idle s ∧ ((∃ e, stop = .fault e) ↔ overruns)

theorem Behaves.stopped {overruns : Prop} {stop : Stop} {s : State} (hidle : Idle s)
    (hstop : ∀ e, stop ≠ .fault e) (hno : ¬overruns) : Behaves overruns (.error stop s) :=
  ⟨hidle, fun ⟨e, he⟩ => absurd he (hstop e), fun h => absurd h hno⟩

section Step

variable {s : State} {f : Frame} {rest : List Frame} {c : Chunk} {r : Result}
  {i : Nat} {op : Opcode}
variable {l ops : List Value} {units : Units}

theorem Next.opcode_of_overruns (h : Next s f rest c r i op l ops) (hover : Overruns units s) :
    op = .call := by
  obtain ⟨f', rest', c', i', argc, v, fn, hframes, hchunk, hip, hop, -⟩ := hover
  obtain ⟨rfl, rfl⟩ := List.cons.inj (h.poised.frames.symm.trans hframes)
  obtain rfl := Option.some.inj (h.poised.chunk.symm.trans hchunk)
  obtain rfl : i = i' := by
    have := h.poised.ip.symm.trans hip
    omega
  exact Option.some.inj (h.poised.whole.opcode.symm.trans hop)

theorem Orderly.standing (h : Orderly s) (hn : Next s f rest c r i op l ops) : Standing f s.sp := by
  have hchained := h.chained
  rw [hn.poised.frames] at hchained
  exact hchained.1

/-- There is room for what an instruction pushes. -/
theorem Orderly.fits (h : Orderly s) (hn : Next s f rest c r i op l ops) :
    s.sp - (effectOf c op i).pops + (effectOf c op i).pushes ≤ s.stack.size := by
  have hpops := hn.pops_le
  have hafter := hn.after_le
  have hfits := (h.standing hn).fits
  have hsp := hn.shows.sp_eq
  have hlocals := hn.shows.locals
  have hmax := hn.verified.maxStack
  unfold after at hafter
  unfold reach at hfits
  rw [h.size]
  omega

/-- An instruction of the frame goes on in an orderly state, with the locals and operands that
`localStep` says. -/
theorem Orderly.goes_on (h : Orderly s) (hn : Next s f rest c r i op l ops)
    (units : Units) {ip : Int}
    {l' ops' : List Value} {event : Event}
    (ho : localStep c op i l ops = some (.next ip l' ops' event)) :
    ∃ s', step units .standard s = .ok event s' ∧ s'.frames = { f with ip } :: rest ∧
      Shows s' f l' ops' ∧ Kept f.bp s s' ∧ Orderly s' := by
  obtain ⟨s', hok, hframes, hshows, hkept⟩ :=
    hn.poised.step_local units hn.shows h.valid h.handles (h.fits hn) ho
  obtain ⟨-, hops, hflow⟩ := localStep_next hn.poised.whole ho
  refine ⟨s', hok, hframes, hshows, hkept, h.toIdle.of_kept hkept, ?_, ?_⟩
  · rw [hframes]
    exact List.cons_ne_nil _ _
  · have hsp : s'.sp = f.base + (after c op i ops.length : Nat) := by
      have := hshows.depth_eq
      omega
    rw [hframes, hsp]
    exact ⟨hn.standing hflow (h.standing hn), hn.below⟩

/-- An instruction of the frame goes on in an orderly state or ends in an error of the program. -/
theorem Orderly.step_local (h : Orderly s) (hn : Next s f rest c r i op l ops)
    (hstays : leavesFrame op = false) : Behaves (Overruns units s) (step units .standard s) := by
  have hno : ¬Overruns units s := by
    intro hover
    rw [hn.opcode_of_overruns hover] at hstays
    cases hstays
  obtain ⟨o, ho⟩ := localStep_isSome hn.poised.whole hn.shows.locals hstays hn.pops_le
  cases o with
  | error detail =>
    have hstep := hn.poised.step_local units hn.shows h.valid h.handles (h.fits hn) ho
    rw [hstep]
    exact .stopped (h.toIdle.congr rfl rfl) (fun _ h => by cases h) hno
  | next ip l' ops' event =>
    obtain ⟨s', hok, -, -, -, horderly⟩ := h.goes_on hn units ho
    rw [hok]
    exact ⟨hno, horderly⟩

/-- An overrun is one of the callee that the call finds. -/
theorem Next.overruns_iff {argc : UInt8} {callee : Value} (hn : Next s f rest c r i .call l ops)
    (hargc : c.byte? ((i : Int) + 1) = some argc) (hcallee : ops[argc.toNat]? = some callee) :
    Overruns units s ↔ ∃ fn, calleeOf units callee = some fn ∧ fn.arity = argc.toNat ∧
      s.frames.length < maxFrames ∧ Wraps fn (s.sp - argc.toNat) := by
  have hget := hn.shows.stack_get hcallee
  constructor
  · rintro ⟨f', rest', c', i', argc', v, fn, hframes, hchunk, hip, -, hargc', hv, hfn, harity, hfew,
      hwraps⟩
    obtain ⟨rfl, rfl⟩ := List.cons.inj (hn.poised.frames.symm.trans hframes)
    obtain rfl := Option.some.inj (hn.poised.chunk.symm.trans hchunk)
    obtain rfl : i = i' := by
      have := hn.poised.ip.symm.trans hip
      omega
    obtain rfl := Option.some.inj (hargc.symm.trans hargc')
    obtain rfl := Option.some.inj (hget.symm.trans hv)
    exact ⟨fn, hfn, harity, hfew, hwraps⟩
  · rintro ⟨fn, hfn, harity, hfew, hwraps⟩
    exact ⟨f, rest, c, i, argc, callee, fn, hn.poised.frames, hn.poised.chunk, hn.poised.ip,
      hn.poised.whole.opcode, hargc, hget, hfn, harity, hfew, hwraps⟩

/-- The frame of a verified callee stands above that of its caller. -/
theorem Orderly.pushed {argc : UInt8} {fn : Function} {c' : Chunk} {r' : Result} {s' : State}
    (h : Orderly s) (hn : Next s f rest c r i .call l ops)
    (hargc : c.byte? ((i : Int) + 1) = some argc) (hcallee : argc.toNat < ops.length)
    (hverified : Verified fn c' r') (hargs : (argc.toNat : Int) ≤ fn.locals)
    (hreach : reach fn (s.sp - argc.toNat) ≤ stackSize) (hidle : Idle s')
    (hsp : s'.sp = s.sp - argc.toNat + fn.locals)
    (hframes : s'.frames = { fn, ip := 0, bp := s.sp - argc.toNat } ::
      { f with ip := (i : Int) + 2 } :: rest) : Orderly s' := by
  have hstanding := h.standing hn
  have hbp := hstanding.bp
  have hsp₀ := hn.shows.sp_eq
  have hlocals := hn.shows.locals
  refine ⟨hidle, hframes ▸ List.cons_ne_nil _ _, ?_⟩
  rw [hframes, hsp]
  refine ⟨⟨⟨c', r', 0, 0, hverified, rfl, hverified.labelled.first, ?_, Nat.zero_le _⟩, ?_, ?_,
    hreach⟩, ?_⟩
  · show s.sp - argc.toNat + fn.locals = s.sp - argc.toNat + fn.locals + (0 : Nat)
    omega
  · show 1 ≤ s.sp - argc.toNat
    omega
  · show 0 ≤ fn.locals
    omega
  · have hreturn := hn.standing (List.mem_singleton.mpr rfl) hstanding
    have htop : f.base + (after c .call i ops.length : Nat) = s.sp - argc.toNat := by
      simp only [after, effectOf, effect, hargc, Option.getD_some]
      unfold Frame.base
      omega
    rw [htop] at hreturn
    exact ⟨hreturn, hn.below⟩

/-- Making the frame of a callee that takes the arguments given. -/
theorem Orderly.pushFrame_behaves {argc : UInt8} {callee : Value} {fn : Function}
    (hu : Trusted units) (h : Orderly s) (hn : Next s f rest c r i .call l ops)
    (hargc : c.byte? ((i : Int) + 1) = some argc) (hcallee : ops[argc.toNat]? = some callee)
    (hfn : calleeOf units callee = some fn) (harity : fn.arity = argc.toNat) :
    Behaves (Overruns units s)
      ((do pushFrame fn argc.toNat; return .quiet : Interpreting Event) (s.fetched f rest i 2)) := by
  have hover : Overruns units s ↔ _ := hn.overruns_iff hargc hcallee
  obtain ⟨c', r', hverified⟩ := hu.callee hfn
  have hlt := (List.getElem?_eq_some_iff.mp hcallee).1
  have hsp := hn.shows.sp_eq
  have hlocals := hn.shows.locals
  have hmax := hverified.maxStack
  have hhighest := hverified.labelled.highest
  have harity' := hverified.arity
  have hfits := hn.shows.holds.fits
  have hsize := h.size
  have hbp := (h.standing hn).bp
  have hargs : (argc.toNat : Int) ≤ fn.locals := by omega
  have hframed : Framed fn (s.sp - argc.toNat) (s.fetched f rest i 2)
      (pushFrame fn argc.toNat (s.fetched f rest i 2)) :=
    pushFrame_cases (s := s.fetched f rest i 2) hsize (show 0 ≤ s.sp - (argc.toNat : Int) by omega)
      (show s.sp ≤ (stackSize : Int) by omega) hargs (by omega) (by omega)
  have hframes : (s.fetched f rest i 2).frames.length = s.frames.length := by
    rw [hn.poised.frames]
    rfl
  have hidle : Idle (s.fetched f rest i 2) := h.toIdle.congr rfl rfl
  -- only a frame whose size wraps around is an overrun
  have hwraps : Overruns units s → s.frames.length < maxFrames ∧
      Wraps fn (s.sp - argc.toNat) := by
    intro ho
    obtain ⟨fn', hfn', -, hfew, hw⟩ := hover.mp ho
    obtain rfl := Option.some.inj (hfn.symm.trans hfn')
    exact ⟨hfew, hw⟩
  cases hp : pushFrame fn argc.toNat (s.fetched f rest i 2) with
  | ok u s' =>
    rw [bind_ok hp]
    rw [hp] at hframed
    cases hframed with
    | made stack hfew hreach hstack hget =>
      refine ⟨fun ho => ?_, h.pushed hn hargc hlt hverified hargs hreach
        ⟨hstack.trans hidle.size, hidle.valid, hidle.handles⟩ rfl rfl⟩
      have := (hwraps ho).2.1
      omega
  | error stop s' =>
    rw [bind_error hp]
    rw [hp] at hframed
    cases hframed with
    | tooMany hmany =>
      refine .stopped hidle (fun _ h => by cases h) fun ho => ?_
      have := (hwraps ho).1
      omega
    | tooLarge hfew hlarge =>
      refine .stopped hidle (fun _ h => by cases h) fun ho => ?_
      have := (hwraps ho).2.2
      omega
    | wrapped stack hfew hw hstack =>
      exact ⟨hidle.congr hstack rfl,
        fun _ => hover.mpr ⟨fn, hfn, harity, by omega, hw⟩, fun _ => ⟨_, rfl⟩⟩

/-- A call goes on in the new frame, or ends in an error of the program, or overruns the stack. -/
theorem Orderly.step_call (hu : Trusted units) (h : Orderly s)
    (hn : Next s f rest c r i .call l ops) :
    Behaves (Overruns units s) (step units .standard s) := by
  obtain ⟨argc, callee, hargc, hcallee, hstep⟩ := hn.step_call units
  have hover : Overruns units s ↔ _ := hn.overruns_iff hargc hcallee
  have hidle : Idle (s.fetched f rest i 2) := h.toIdle.congr rfl rfl
  rw [hstep]
  cases hfn : calleeOf units callee with
  | none =>
    refine .stopped hidle (fun _ h => by cases h) fun ho => ?_
    obtain ⟨fn, hfn', -⟩ := hover.mp ho
    rw [hfn] at hfn'
    cases hfn'
  | some fn =>
    by_cases harity : fn.arity = argc.toNat
    · simp only [harity, ne_eq, not_true_eq_false, if_false]
      exact h.pushFrame_behaves hu hn hargc hcallee hfn harity
    · simp only [ne_eq, harity, not_false_eq_true, if_true]
      refine .stopped hidle (fun _ h => by cases h) fun ho => ?_
      obtain ⟨fn', hfn', harity', -⟩ := hover.mp ho
      obtain rfl := Option.some.inj (hfn.symm.trans hfn')
      exact absurd harity' harity

/-- Every step of an orderly state. -/
theorem Orderly.step (hu : Trusted units) (h : Orderly s) :
    Behaves (Overruns units s) (step units .standard s) := by
  obtain ⟨f, rest, c, r, i, op, l, ops, hn⟩ := h.next
  have hstanding := h.standing hn
  cases op with
  | call => exact h.step_call hu hn
  | ret =>
    have hno : ¬Overruns units s := fun hover => by cases hn.opcode_of_overruns hover
    obtain ⟨v, ops', -, hstep⟩ := hn.step_ret units hstanding.bp
    rw [hstep]
    split
    · exact .stopped (h.toIdle.congr rfl rfl) (fun _ h => by cases h) hno
    · next hrest =>
      refine ⟨hno, h.toIdle.congr ?_ rfl, hrest, hn.below⟩
      show (s.stack.set! _ v).size = _
      simp
  | print =>
    have hno : ¬Overruns units s := fun hover => by cases hn.opcode_of_overruns hover
    obtain ⟨v, ops', rfl, hstep⟩ := hn.step_print units
    rw [hstep]
    split
    · exact .stopped (h.toIdle.congr rfl rfl) (fun _ h => by cases h) hno
    · refine ⟨hno, h.toIdle.congr rfl rfl, List.cons_ne_nil _ _, ?_, hn.below⟩
      have hgoes := hn.standing (List.mem_singleton.mpr rfl) hstanding
      have htop : f.base + (after c .print i (v :: ops').length : Nat) = s.sp - 1 := by
        have := hn.shows.depth_eq
        simp only [List.length_cons] at this
        simp only [after, effectOf, effect, List.length_cons]
        omega
      rw [htop] at hgoes
      exact hgoes
  | halt =>
    rw [hn.step_halt units]
    exact .stopped (h.toIdle.congr rfl rfl) (fun _ h => by cases h) fun hover => by
      cases hn.opcode_of_overruns hover
  | _ => exact h.step_local hn rfl

end Step

end LoopTracer.Interp
