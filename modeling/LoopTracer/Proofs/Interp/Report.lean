import LoopTracer.Interp.Traced
import LoopTracer.Proofs.Interp.Lockstep
import LoopTracer.Proofs.Interp.Safety
import LoopTracer.Proofs.Trace.Sessions

/-! Steps that are recorded.

While a trace is recorded, the interpreter reports what it does. If the recording is still under way
behind a step, then the step was an instruction of the running frame, the interpreter did what it
does without a monitor, and the recorder took the primitive (`tracedStep_recorded`). -/
namespace LoopTracer.Interp

open Bytecode Trace

/-! ### The recorder of a monitor -/

/-- An operation of the monitor that leaves the recorder alone. -/
def SparesRecorder {α : Type} (x : Monitoring α) : Prop :=
  ∀ m a m', x m = .ok a m' → m'.recorder = m.recorder

section Monitor

variable {α β : Type} {x : Monitoring α} {f : α → Monitoring β}

theorem SparesRecorder.bind (hx : SparesRecorder x) (hf : ∀ a, SparesRecorder (f a)) :
    SparesRecorder (x >>= f) := by
  intro m b m' h
  obtain ⟨a, m₁, hx₁, hf₁⟩ := bind_eq_ok h
  exact (hf a m₁ b m' hf₁).trans (hx m a m₁ hx₁)

theorem SparesRecorder.pure (a : α) : SparesRecorder (Pure.pure a) := by
  intro m b m' h
  cases h
  rfl

theorem SparesRecorder.get : SparesRecorder (get : Monitoring Monitor) := by
  intro m b m' h
  cases h
  rfl

theorem SparesRecorder.throw (e : Fault) : SparesRecorder (throw e : Monitoring α) := by
  intro m b m' h
  cases h

theorem SparesRecorder.count (g : Stats → Stats) : SparesRecorder (Monitor.count g) := by
  intro m b m' h
  cases h
  rfl

theorem SparesRecorder.caching (y : Caching α) : SparesRecorder (Monitor.caching y) := by
  intro m b m' h
  unfold Monitor.caching at h
  dsimp only at h
  split at h <;> cases h
  rfl

theorem SparesRecorder.fragment (id : FragmentId) : SparesRecorder (Monitor.fragment id) := by
  unfold Monitor.fragment
  refine .bind .get fun m => ?_
  split
  · exact .pure _
  · exact .throw _

theorem SparesRecorder.guard (id : GuardId) : SparesRecorder (Monitor.guard id) := by
  unfold Monitor.guard
  refine .bind .get fun m => ?_
  split
  · exact .pure _
  · exact .throw _

/-- Dealing with a recording that was given up does not touch the recorder. -/
theorem SparesRecorder.recordingFailed (id : FragmentId) (anchor : Option GuardId) (a : Abort) :
    SparesRecorder (Monitor.recordingFailed id anchor a) := by
  unfold Monitor.recordingFailed Monitor.updateFragment Monitor.updateCache
  repeat' with_reducible first
    | exact .count _ | exact .throw _ | exact .get | exact .fragment _ | exact .guard _
    | exact .caching _
    | exact .pure _ | refine .bind ?_ fun _ => ?_ | dsimp only | split

theorem reset_isRecording (r : Recorder) : r.reset.isRecording = false := rfl

/-- A recorder takes a primitive, or is no longer recording. -/
theorem record_cases {helpers : HelperTable} (maxLength : Int) {p : Primitive} {r : Recorder}
    {Q : Recorder → Prop}
    (hyields : r.isRecording = true →
      Yields (Recorder.primitive helpers p) { r with pc := p.pc } fun _ r' => Q r') :
    match Recorder.record helpers maxLength p r with
    | .ok _ r' => r.isRecording = true ∧ Q r'
    | .error e r' => r'.isRecording = false ∧ ∀ f, e ≠ .fault f := by
  unfold Recorder.record
  rw [bind_ok (show (get : Recording Recorder) r = .ok r r from rfl)]
  dsimp only
  by_cases hrecording : r.isRecording = true
  · rw [if_neg (by simp [hrecording]),
      bind_ok (show (modify _ : Recording PUnit) r = .ok () { r with pc := p.pc } from rfl)]
    have hp := hyields hrecording
    unfold Yields at hp
    unfold Recorder.orReset
    cases hprimitive : Recorder.primitive helpers p { r with pc := p.pc } with
    | ok a r' =>
      rw [hprimitive] at hp
      rw [bind_ok hprimitive, bind_ok (show (get : Recording Recorder) r' = .ok r' r' from rfl)]
      by_cases hlong : maxLength < r'.buffer.size
      · rw [if_pos hlong]
        exact ⟨reset_isRecording _, nofun⟩
      · rw [if_neg hlong]
        exact ⟨hrecording, hp⟩
    | error e r' =>
      rw [hprimitive] at hp
      rw [bind_error hprimitive]
      cases e with
      | abort a => exact ⟨reset_isRecording _, nofun⟩
      | notRecording => exact hp.elim
      | fault f => exact hp.elim
  · rw [if_pos (by simp [hrecording]),
      bind_error (show (throw .notRecording : Recording PUnit) r = .error .notRecording r from rfl)]
    exact ⟨Bool.eq_false_iff.mpr hrecording, nofun⟩

/-- A recording that is under way behind a report was so before, and took the primitive. -/
theorem monitor_record_ok {p : Primitive} {m m' : Monitor} {result : Except MonitorError Unit}
    {Q : Recorder → Prop}
    (hyields : m.recording = true →
      Yields (Recorder.primitive m.helpers p) { m.recorder with pc := p.pc } fun _ r' => Q r')
    (h : Monitor.record p m = .ok result m') (hrecording : m'.recording = true) :
    m.recording = true ∧ m' = { m with recorder := m'.recorder } ∧ Q m'.recorder := by
  unfold Monitor.record at h
  obtain ⟨_, _, hget, h⟩ := bind_eq_ok h
  cases hget
  unfold Monitor.onRecorder at h
  obtain ⟨_, _, hget, h⟩ := bind_eq_ok h
  cases hget
  obtain ⟨_, _, hget, h⟩ := bind_eq_ok h
  cases hget
  obtain ⟨answer, m₁, hanswer, h⟩ := bind_eq_ok h
  dsimp only at hanswer
  have hcases := record_cases m.config.maxTraceLength hyields
  cases hr : Recorder.record m.helpers m.config.maxTraceLength p m.recorder with
  | ok a r' =>
    rw [hr] at hanswer hcases
    cases hanswer
    cases h
    exact ⟨hcases.1, rfl, hcases.2⟩
  | error e r' =>
    rw [hr] at hanswer hcases
    cases hanswer
    have hspares : m'.recorder = r' := by
      cases e with
      | fault f => exact absurd rfl (hcases.2 f)
      | notRecording =>
        cases h
        rfl
      | abort a =>
        cases hid : m.recorder.fragment with
        | none =>
          rw [hid] at h
          cases h
          rfl
        | some id =>
          rw [hid] at h
          obtain ⟨_, m₂, hfailed, h⟩ := bind_eq_ok h
          cases h
          exact SparesRecorder.recordingFailed _ _ _ _ _ _ hfailed
    rw [Monitor.recording, hspares, hcases.1] at hrecording
    cases hrecording

end Monitor

/-! ### Reports -/

/-- The heap and the word when the value of an event is reported: a value that was pushed gets a
word. -/
def wordOf (h : StringHeap) : Event → StringHeap × UInt64
  | .pushed v => if (traceType? v).isSome then unbox h v else (h, 0)
  | _ => (h, 0)

section Reports

variable {t t' : Traced} {i : Fetched} {action : Action} {event : Event}

theorem report_ok (h : report i action t = .ok () t') : t'.state = t.state ∧
    ∃ result, Monitor.record ⟨i.pc, i.depth, action⟩ t.monitor = .ok result t'.monitor := by
  unfold report at h
  obtain ⟨result, t₁, hrecord, h⟩ := bind_eq_ok h
  cases h
  unfold monitoring at hrecord
  split at hrecord
  · next hm =>
    cases hrecord
    exact ⟨rfl, result, hm⟩
  · cases hrecord

/-- An event is reported as its action, if it has one. -/
theorem reportEvent_ok (h : reportEvent i event t = .ok () t') :
    t'.state = { t.state with heap := (wordOf t.state.heap event).1 } ∧
      match actionOf i.frame.fn.locals i.depth (wordOf t.state.heap event).2 event with
      | none => t'.monitor = t.monitor
      | some action =>
        ∃ result, Monitor.record ⟨i.pc, i.depth, action⟩ t.monitor = .ok result t'.monitor := by
  cases event with
  | quiet | looped =>
    cases h
    exact ⟨rfl, rfl⟩
  | pushed v =>
    unfold reportEvent at h
    cases ht : traceType? v with
    | none =>
      simp only [ht] at h
      simp only [wordOf, actionOf, ht]
      exact report_ok h
    | some ty =>
      simp only [ht] at h
      obtain ⟨w, t₁, hword, h⟩ := bind_eq_ok h
      cases hword
      simp only [wordOf, actionOf, ht]
      exact report_ok h
  | copied source target v =>
    unfold reportEvent at h
    cases ht : traceType? v with
    | none =>
      simp only [ht] at h
      simp only [wordOf, actionOf, ht]
      exact report_ok h
    | some ty =>
      simp only [ht] at h
      simp only [wordOf, actionOf, ht]
      exact report_ok h
  | computed op v => exact report_ok h
  | converted op v => exact report_ok h
  | branched taken target =>
    cases target with
    | none => cases h
    | some target => exact report_ok h
  | called d arity v => exact report_ok h

/-- Instructions that leave the frame end the recording before they are carried out. -/
theorem announce_leaves {op : Opcode} (hop : Opcode.ofByte? i.byte = some op)
    (hleaves : leavesFrame op = true) (hvalid : t.monitor.recorder.slots.Valid)
    (h : announce i t = .ok () t') : t'.monitor.recording = false := by
  have hreport : report i .unrecordable t = .ok () t' := by
    unfold announce at h
    rw [hop] at h
    cases op <;> first | (cases hleaves; done) | exact h
  obtain ⟨-, result, hrecord⟩ := report_ok hreport
  have hyields : Yields
      (Recorder.primitive t.monitor.helpers { pc := i.pc, depth := i.depth,
                                              action := .unrecordable })
      { t.monitor.recorder with pc := i.pc } fun _ _ => False := hvalid
  exact Bool.eq_false_iff.mpr fun hrecording =>
    (monitor_record_ok (fun _ => hyields) hrecord hrecording).2.2

end Reports

/-! ### Recorded steps -/

section Steps

variable {t t' : Traced} {f : Frame} {rest : List Frame} {c : Chunk}
  {res : StackDepth.Result} {i : Nat}
variable {op : Opcode} {l ops : List Value} {units : Units} {fuel : Nat}

theorem interp_ok {α : Type} {x : Interpreting α} {a : α} (h : interp x t = .ok a t') :
    x t.state = .ok a t'.state ∧ t'.monitor = t.monitor := by
  unfold interp at h
  split at h
  · next hx =>
    cases h
    exact ⟨hx, rfl⟩
  · cases h

/-- There is nothing to tell of an instruction that leaves the frame. -/
theorem executeOp_leaves {fetched : Fetched} {s s' : State} {event : Event}
    (hleaves : leavesFrame op = true)
    (h : executeOp units .standard fetched op s = .ok event s') : event = .quiet := by
  unfold executeOp at h
  cases op with
  | call =>
    obtain ⟨argc, _, -, h⟩ := bind_eq_ok h
    obtain ⟨callee, _, -, h⟩ := bind_eq_ok h
    dsimp only at h
    change calling argc.toNat callee (calleeOf units callee) _ = _ at h
    unfold calling at h
    cases hfn : calleeOf units callee with
    | none =>
      rw [hfn] at h
      cases h
    | some fn =>
      rw [hfn] at h
      dsimp only at h
      split at h
      · obtain ⟨_, _, hfails, h⟩ := bind_eq_ok h
        cases hfails
      · obtain ⟨_, _, -, h⟩ := bind_eq_ok h
        cases h
        rfl
  | ret =>
    obtain ⟨v, _, -, h⟩ := bind_eq_ok h
    unfold leave at h
    obtain ⟨_, _, -, h⟩ := bind_eq_ok h
    obtain ⟨_, _, -, h⟩ := bind_eq_ok h
    dsimp only at h
    split at h
    · obtain ⟨_, _, hstops, h⟩ := bind_eq_ok h
      cases hstops
    · obtain ⟨_, _, -, h⟩ := bind_eq_ok h
      cases h
      rfl
  | print =>
    obtain ⟨v, _, -, h⟩ := bind_eq_ok h
    obtain ⟨_, _, -, h⟩ := bind_eq_ok h
    dsimp only at h
    split at h
    · obtain ⟨_, _, hstops, h⟩ := bind_eq_ok h
      cases hstops
    · obtain ⟨_, _, -, h⟩ := bind_eq_ok h
      cases h
      rfl
  | halt => cases h
  | _ => cases hleaves

/-- An event that is reported while nothing is recorded starts no recording. -/
theorem reportEvent_idle {fetched : Fetched} {event : Event}
    (h : reportEvent fetched event t = .ok () t') (hidle : t.monitor.recording = false) :
    t'.monitor.recording = false := by
  obtain ⟨-, hreported⟩ := reportEvent_ok h
  split at hreported
  · rw [hreported]
    exact hidle
  · obtain ⟨result, hrecord⟩ := hreported
    refine Bool.eq_false_iff.mpr fun hrecording => ?_
    obtain ⟨hbefore, -, -⟩ := monitor_record_ok (Q := fun _ => True)
      (fun hbefore => absurd hbefore (by simp [hidle])) hrecord hrecording
    rw [hidle] at hbefore
    cases hbefore

/-- A step of the interpreter with a monitor that records, as a step without one and a report. -/
theorem tracedStep_ok (hn : Next t.state f rest c res i op l ops)
    (hloop : ∀ header s', step units .standard t.state ≠ .ok (.looped header) s')
    (hrecording : t.monitor.recording = true) (hvalid : t.monitor.recorder.slots.Valid)
    (h : tracedStep units .standard fuel t = .ok () t')
    (hrecording' : t'.monitor.recording = true) :
    leavesFrame op = false ∧ ∃ event s' b, step units .standard t.state = .ok event s' ∧
      reportEvent (fetchedAt t.state f c i b) event { t with state := s' } = .ok () t' := by
  obtain ⟨b, hb, hfetch, hstep⟩ := hn.poised.step_eq units .standard
  unfold tracedStep at h
  obtain ⟨fetched, t₁, h₁, h⟩ := bind_eq_ok h
  obtain ⟨hfetch', hmonitor₁⟩ := interp_ok h₁
  rw [hfetch] at hfetch'
  obtain ⟨rfl, hstate₁⟩ := EStateM.Result.ok.inj hfetch'
  obtain ⟨_, _, hget, h⟩ := bind_eq_ok h
  cases hget
  dsimp only at h
  rw [hmonitor₁, hrecording, if_pos rfl] at h
  obtain ⟨_, t₂, hannounce, h⟩ := bind_eq_ok h
  obtain ⟨event, t₃, hexecute, h⟩ := bind_eq_ok h
  obtain ⟨hexecute, hmonitor₃⟩ := interp_ok hexecute
  have hop : execute units .standard (fetchedAt t.state f c i b) =
      executeOp units .standard (fetchedAt t.state f c i b) op := by
    unfold execute
    simp only [fetchedAt, hb]
  rw [hop] at hexecute
  by_cases hleaves : leavesFrame op = true
  · -- The recording was ended by the announcement.
    exfalso
    have hidle := announce_leaves hb hleaves (by rw [hmonitor₁]; exact hvalid) hannounce
    obtain rfl := executeOp_leaves hleaves hexecute
    change reportEvent (fetchedAt t.state f c i b) .quiet t₃ = _ at h
    have := reportEvent_idle h (by rw [hmonitor₃]; exact hidle)
    rw [hrecording'] at this
    cases this
  · have hstays := Bool.eq_false_iff.mpr hleaves
    have hquiet : announce (fetchedAt t.state f c i b) t₁ = .ok () t₁ := by
      unfold announce
      simp only [fetchedAt, hb]
      cases op <;> first | (cases hstays; done) | rfl
    rw [hquiet] at hannounce
    obtain rfl : t₁ = t₂ := (EStateM.Result.ok.inj hannounce).2
    rw [← hstate₁, ← hstep] at hexecute
    refine ⟨hstays, event, t₃.state, b, hexecute, ?_⟩
    have ht₃ : t₃ = { t with state := t₃.state } := by
      rw [← hmonitor₁, ← hmonitor₃]
    rw [← ht₃]
    cases event with
    | looped header => exact absurd hexecute (hloop header _)
    | _ => exact h

/-- The word of an event, where there is room in the heap. -/
theorem wordOf_spec {h : StringHeap} (hvalid : h.Valid) (hroom : h.size < 2 ^ 32) (event : Event) :
    (wordOf h event).1.Valid ∧ (wordOf h event).1.Extends h ∧
      Pushes (wordOf h event).1 (wordOf h event).2 event := by
  cases event with
  | pushed v =>
    cases ht : traceType? v with
    | none =>
      simp only [wordOf, Pushes, ht]
      exact ⟨hvalid, .refl h, fun _ h => by cases h⟩
    | some ty =>
      simp only [wordOf, Pushes, ht]
      obtain ⟨hvalid', hextends, -, hrepresents⟩ := unbox_represents hvalid hroom ht
      exact ⟨hvalid', hextends, fun _ _ => hrepresents⟩
  | _ => exact ⟨hvalid, .refl h, trivial⟩

theorem Follows.of_pc {r r' : Recorder} {pc ip : Int} {p : Primitive}
    {heap : StringHeap} {m d : Nat}
    (h : Follows c op i ip heap p m d { r with pc } r') : Follows c op i ip heap p m d r r' := by
  intro e₀ e l ops hat hheap hroom hl hops hstands
  have hat' : At e₀ { r with pc } e :=
    ⟨hat.pass, hat.size, hat.imm, hat.slots, hat.valid, hat.later, hat.few⟩
  have hstands' : StandsAll { r with pc } e (live l ops) := by
    intro k v hk
    obtain ⟨ref, t, hs, ht, hv⟩ := hstands k v hk
    exact ⟨ref, t, ⟨hs.value, hs.type, hs.makes⟩, ht, hv⟩
  rcases h e₀ e l ops hat' hheap hroom hl hops hstands' with hgoes | ⟨x, e', hgone, hlater, hx⟩
  · exact .inl hgoes
  · refine .inr ⟨x, e', hgone, hlater, hx.pc, hx.depth, hx.snapshot.length, fun k hk => ?_⟩
    obtain ⟨ref, t, hentry, hs⟩ := hx.snapshot.entry k hk
    exact ⟨ref, t, hentry, hs.value, hs.type, hs.makes⟩

theorem TypedAs.at_pc {r : Recorder} {vals : List Value} (h : TypedAs r vals) (pc : Int) :
    TypedAs { r with pc } vals := by
  intro k v hk
  obtain ⟨ref, t, hs, ht⟩ := h k v hk
  exact ⟨ref, t, ⟨hs.value, hs.type, hs.makes⟩, ht⟩

/-- A step that was recorded: the frame went on as `localStep` says, and the recorder took it. -/
structure Logged (t t' : Traced) (f : Frame) (rest : List Frame) (c : Chunk) (i : Nat) (op : Opcode)
    (l ops : List Value) (ip : Int) (l' ops' : List Value) : Prop where
  stays : ∃ event, localStep c op i l ops = some (.next ip l' ops' event)
  orderly : Orderly t'.state
  frames : t'.state.frames = { f with ip } :: rest
  shows : Shows t'.state f l' ops'
  heap : t'.state.heap.Extends t.state.heap
  monitor : t'.monitor = { t.monitor with recorder := t'.monitor.recorder }
  advanced : Advanced t.monitor.recorder t'.monitor.recorder
  live : t'.monitor.recorder.Live (l'.length + ops'.length)
  typed : TypedAs t.monitor.recorder (Interp.live l ops) →
    TypedAs t'.monitor.recorder (Interp.live l' ops')
  follows : ∃ p : Primitive, p.pc = i ∧ p.depth = ops.length ∧
    Follows c op i ip t'.state.heap p l.length ops.length t.monitor.recorder t'.monitor.recorder

/-- A step behind which the recording is still under way was recorded. -/
theorem tracedStep_logged (h : Orderly t.state) (hn : Next t.state f rest c res i op l ops)
    (hloop : ∀ header s', step units .standard t.state ≠ .ok (.looped header) s')
    (hhelpers : t.monitor.helpers = .standard) (hrecording : t.monitor.recording = true)
    (hwf : t.monitor.recorder.Wf) (hlocals : t.monitor.recorder.locals = l.length)
    (hlive : t.monitor.recorder.Live (l.length + ops.length))
    (hstep : tracedStep units .standard fuel t = .ok () t')
    (hrecording' : t'.monitor.recording = true) (hroom : t'.state.heap.size < 2 ^ 32) :
    ∃ ip l' ops', Logged t t' f rest c i op l ops ip l' ops' := by
  obtain ⟨hstays, event, s', b, hplain, hreport⟩ :=
    tracedStep_ok hn hloop hrecording hwf.slots hstep hrecording'
  obtain ⟨hstate, hreported⟩ := reportEvent_ok hreport
  have hstanding := h.standing hn
  -- What the step did to the lists.
  obtain ⟨o, ho⟩ := localStep_isSome hn.poised.whole hn.shows.locals hstays hn.pops_le
  cases o with
  | error detail =>
    have herror := hn.poised.step_local units hn.shows h.valid h.handles (h.fits hn) ho
    rw [hplain] at herror
    cases herror
  | next ip l' ops' event' =>
    obtain ⟨s'', hok, hframes, hshows, hkept, horderly⟩ := h.goes_on hn units ho
    rw [hplain] at hok
    obtain ⟨rfl, rfl⟩ := EStateM.Result.ok.inj hok
    obtain ⟨hvalid, hextends, hpushes⟩ := wordOf_spec horderly.valid horderly.handles event
    have hold : s'.heap.Extends t.state.heap := fun k v hk => by rw [hkept.strings]; exact hk
    have hmonitor : ∃ p : Primitive, p.pc = i ∧ p.depth = ops.length ∧
        t'.monitor = { t.monitor with recorder := t'.monitor.recorder } ∧
        Advanced t.monitor.recorder t'.monitor.recorder ∧
        t'.monitor.recorder.Live (l'.length + ops'.length) ∧
        (TypedAs t.monitor.recorder (Interp.live l ops) →
          TypedAs t'.monitor.recorder (Interp.live l' ops')) ∧
        Follows c op i ip t'.state.heap p l.length ops.length t.monitor.recorder
            t'.monitor.recorder := by
      have hsmall : l.length + ops.length + 1 < 2 ^ 28 := by
        have hfits := hstanding.fits
        have hbp := hstanding.bp
        have hsp := hn.shows.sp_eq
        have hdepth := hn.shows.holds.fits
        rw [h.size, stackSize] at hdepth
        omega
      have hheard : ∀ pc, Heard f.fn c op i l ops ip l' ops' event { t.monitor.recorder with pc } :=
        fun pc => ⟨hn.poised.whole, hn.shows.locals, ho,
          ⟨hwf.slots, hwf.unsealed, hwf.shared⟩, hlocals,
          fun k hk => by
            obtain ⟨ref, ty, hs⟩ := hlive k hk
            exact ⟨ref, ty, hs.value, hs.type, hs.makes⟩, hsmall⟩
      have hdepth : t.state.sp - f.base = ops.length := hn.shows.depth_eq
      have hnotLoop : op ≠ .loop := by
        rintro rfl
        cases ho
        exact hloop _ _ hplain
      simp only [fetchedAt, hdepth, ← hn.shows.locals] at hreported
      have hheap : t'.state.heap = (wordOf s'.heap event).1 := by rw [hstate]
      cases hact : actionOf l.length ops.length (wordOf s'.heap event).2 event with
      | none =>
        rw [hact] at hreported
        have hsame : t'.monitor = t.monitor := hreported
        obtain ⟨hlive', hfollows, htyped⟩ :=
          quiet_follows (hheard t.monitor.recorder.pc) hact hnotLoop
          t'.state.heap ⟨i, ops.length, .unrecordable⟩
        rw [hsame]
        exact ⟨⟨i, ops.length, .unrecordable⟩, rfl, rfl, rfl, .refl hwf, hlive', htyped, hfollows⟩
      | some action =>
        rw [hact] at hreported
        obtain ⟨result, hrecord⟩ := hreported
        obtain ⟨-, hframe, hadvanced, hlive', hfollows, htyped⟩ := monitor_record_ok
          (fun _ => by
            rw [hhelpers]
            exact primitive_follows (hheard i) hact (hheap ▸ hpushes)) hrecord hrecording'
        refine ⟨⟨i, ops.length, action⟩, rfl, rfl, hframe, ?_, hlive',
          fun h => htyped (h.at_pc i), hfollows.of_pc⟩
        exact ⟨hadvanced.wf, hadvanced.insts, hadvanced.state, hadvanced.locals, hadvanced.params⟩
    obtain ⟨p, hpc, hdepth, hframe, hadvanced, hlive', htyped, hfollows⟩ := hmonitor
    have horderly' : Orderly t'.state := by
      refine ⟨⟨?_, ?_, hroom⟩, ?_, ?_⟩
      · rw [hstate]
        exact horderly.size
      · rw [hstate]
        exact hvalid
      · rw [hstate]
        exact horderly.running
      · rw [hstate]
        exact horderly.chained
    refine ⟨ip, l', ops', ⟨event, ho⟩, horderly', ?_, ?_, ?_, hframe, hadvanced, hlive', htyped, p,
      hpc, hdepth, hfollows⟩
    · rw [hstate]
      exact hframes
    · rw [hstate]
      exact hshows.congr rfl rfl
    · rw [hstate]
      exact hextends.trans hold

end Steps

end LoopTracer.Interp
