import LoopTracer.Proofs.Interp.Instructions
import LoopTracer.Proofs.Monitor.Accounts

/-! What an instruction can do under a monitor.

`tracedStep_steps` says once how an instruction of the interpreter with a monitor can end: it was
carried out, with or without a report to the recorder (`Stepped`), or it stopped the call
(`Halted`). At a loop edge the recording is settled first, and compiled code may be run. Faults are
left aside: no call goes on after one. -/
namespace LoopTracer.Interp

open Bytecode Trace

variable {units : Units} {t t' : Traced} {fuel : Nat} {α β : Type}

/-- What stops a computation is a fault, or it is as `H` says. -/
def Apart (H : TracedStop → Traced → Prop) (stop : TracedStop) (t : Traced) : Prop :=
  (∀ f, stop ≠ .plain (.fault f)) → H stop t

theorem apart_fault {H : TracedStop → Traced → Prop} (f : Fault) (t : Traced) :
    Apart H (.plain (.fault f)) t :=
  fun h => absurd rfl (h f)

section Binds

variable {H : TracedStop → Traced → Prop} {Q : β → Traced → Prop}

theorem interp_bind {x : Interpreting α} {k : α → Tracing β}
    (herror : ∀ e s, x t.state = .error e s → Apart H (.plain e) { t with state := s })
    (h : ∀ a s, x t.state = .ok a s → Ensures (Apart H) (k a) { t with state := s } Q) :
    Ensures (Apart H) (interp x >>= k) t Q := by
  refine .bind (Q := fun a t' => Ensures (Apart H) (k a) t' Q) ?_ fun _ _ h => h
  unfold Ensures interp
  cases hx : x t.state with
  | ok a s => exact h a s hx
  | error e s => exact herror e s hx

theorem monitoring_ensures {x : Monitoring β}
    (h : ∀ a m, x t.monitor = .ok a m → Q a { t with monitor := m }) :
    Ensures (Apart H) (monitoring x) t Q := by
  unfold Ensures monitoring
  cases hx : x t.monitor with
  | ok a m => exact h a m hx
  | error f m => exact apart_fault f _

theorem monitoring_bind {x : Monitoring α} {k : α → Tracing β}
    (h : ∀ a m, x t.monitor = .ok a m → Ensures (Apart H) (k a) { t with monitor := m } Q) :
    Ensures (Apart H) (monitoring x >>= k) t Q :=
  .bind (Q := fun a t' => Ensures (Apart H) (k a) t' Q) (monitoring_ensures h) fun _ _ h => h

theorem report_ensures {i : Fetched} {action : Action} {Q : Unit → Traced → Prop}
    (h : ∀ result m, Monitor.record ⟨i.pc, i.depth, action⟩ t.monitor = .ok result m →
      Q () { t with monitor := m }) :
    Ensures (Apart H) (report i action) t Q :=
  monitoring_bind fun result m hrecord => .pure (h result m hrecord)

end Binds

/-! ### Reports -/

/-- What the recorder is told before the instruction with a given first byte: calls, returns and the
like end a recording. -/
inductive Announced (byte : UInt8) (m : Monitor) : Monitor → Prop
  | silent {op : Opcode} (hop : Opcode.ofByte? byte = some op)
      (hlocal : op ≠ .call ∧ op ≠ .ret ∧ op ≠ .print ∧ op ≠ .halt) : Announced byte m m
  | refused {p : Primitive} {result : Except MonitorError Unit} {m' : Monitor}
      (hp : p.action = .unrecordable)
      (hrecord : Monitor.record p m = .ok result m') : Announced byte m m'
  | aborted {a : Abort} {m' : Monitor} (habort : Monitor.abortRecording a m = .ok () m') :
      Announced byte m m'

theorem announce_announces (i : Fetched) {H : TracedStop → Traced → Prop} :
    Ensures (Apart H) (announce i) t fun _ t' =>
    t'.state = t.state ∧ Announced i.byte t.monitor t'.monitor := by
  unfold announce
  split
  · exact report_ensures fun _ m hrecord => ⟨rfl, .refused rfl hrecord⟩
  · exact report_ensures fun _ m hrecord => ⟨rfl, .refused rfl hrecord⟩
  · exact report_ensures fun _ m hrecord => ⟨rfl, .refused rfl hrecord⟩
  · exact report_ensures fun _ m hrecord => ⟨rfl, .refused rfl hrecord⟩
  · next op hcall hret hprint hhalt hop =>
    exact .pure ⟨rfl, .silent hop ⟨hcall, hret, hprint, hhalt⟩⟩
  · exact monitoring_ensures fun _ m habort => ⟨rfl, .aborted habort⟩

/-- What the recorder is told of an instruction after it was carried out. -/
inductive Reported (i : Fetched) (event : Event) (t : Traced) : Traced → Prop
  | silent (hquiet : event = .quiet ∨ ∃ header, event = .looped header) : Reported i event t t
  | told {v : Value} {ty : Ty} {result : Except MonitorError Unit} {m : Monitor}
      (hevent : event = .pushed v)
      (hty : traceType? v = some ty) (hrecord : Monitor.record ⟨i.pc, i.depth,
        .const (.ofWord ty (unbox t.state.heap v).2) ⟨operandSlot i i.depth, ty⟩⟩ t.monitor =
          .ok result m) :
      Reported i event t ⟨{ t.state with heap := (unbox t.state.heap v).1 }, m⟩
  | noted {p : Primitive} {result : Except MonitorError Unit} {m : Monitor}
      (hpushed : ∀ v, event = .pushed v → traceType? v = none)
      (hp : ∀ v dest, p.action ≠ .const v dest)
      (hrecord : Monitor.record p t.monitor = .ok result m) :
      Reported i event t { t with monitor := m }

theorem reportEvent_reports (i : Fetched) (event : Event) {H : TracedStop → Traced → Prop} :
    Ensures (Apart H) (reportEvent i event) t fun _ t' => Reported i event t t' := by
  have noted : ∀ action : Action, (∀ v, event = .pushed v → traceType? v = none) →
    (∀ v dest, action ≠ .const v dest) →
      Ensures (Apart H) (report i action) t fun _ t' => Reported i event t t' :=
    fun action hpushed haction => report_ensures fun _ m hrecord => .noted hpushed haction hrecord
  cases event with
  | quiet => exact .pure (.silent (.inl rfl))
  | looped header => exact .pure (.silent (.inr ⟨header, rfl⟩))
  | pushed v =>
    unfold reportEvent
    cases hty : traceType? v with
    | none =>
      simp only [hty]
      refine noted _ (fun v' heq => ?_) nofun
      cases heq
      exact hty
    | some ty =>
      simp only [hty]
      show Ensures (Apart H)
        (report i (.const (.ofWord ty (unbox t.state.heap v).2) ⟨operandSlot i i.depth, ty⟩))
        ⟨{ t.state with heap := (unbox t.state.heap v).1 }, t.monitor⟩ _
      exact report_ensures fun _ m hrecord => .told rfl hty hrecord
  | copied source target v =>
    unfold reportEvent
    cases hty : traceType? v with
    | none =>
      simp only [hty]
      exact noted _ nofun nofun
    | some ty =>
      simp only [hty]
      exact noted _ nofun nofun
  | branched taken target =>
    cases target with
    | none => exact apart_fault _ _
    | some target => exact noted _ nofun nofun
  | computed | converted | called => exact noted _ nofun nofun

/-! ### Compiled code -/

theorem reboxSlots_aside (bp : Int) (words : Array UInt64) (k : Nat) (types : TypeMap) :
    Keeps Aside Faulty (reboxSlots bp words k types) := by
  induction types generalizing k with
  | nil => exact .pure _
  | cons ty rest ih =>
    refine .bind ?_ fun w => .bind .get fun s => ?_
    · cases words[k]? with
      | none => exact .throw ⟨_, rfl⟩
      | some w => exact .pure w
    · cases rebox s.heap w ty with
      | error f => exact .bind (.throw ⟨_, rfl⟩) fun _ => ih (k + 1)
      | ok v => exact .bind (keeps_write _ v) fun _ => ih (k + 1)

theorem localTypes_aside (i : Int) (n : Nat) : Keeps Aside Faulty (localTypes i n) := by
  induction n generalizing i with
  | zero => exact .pure _
  | succ n ih =>
    refine .bind (keeps_read i) fun v => ?_
    cases traceType? v with
    | none => exact .pure _
    | some ty => exact .bind (ih (i + 1)) fun _ => .pure _

theorem entryTypes_aside (frame : Frame) : Keeps Aside Faulty (entryTypes frame) := by
  refine .bind .get fun s => ?_
  split_ifs
  · exact .pure _
  · exact .bind (.throw ⟨_, rfl⟩) fun _ => localTypes_aside _ _
  · exact localTypes_aside _ _

/-- A fragment was run on the words of the locals, which had put strings into the heap. -/
structure Visited (fuel : Nat) (f : Fragment) (t : Traced) (answer : Except MonitorError Guard)
    (m : Monitor) : Prop where
  executed : ∃ heap words words', t.state.heap.Grows heap ∧
    Monitor.execute fuel f.id words { t.monitor with heap } = .ok (answer, words') m

/-- Compiled code was entered and left through a guard. -/
structure Crossed (fuel : Nat) (f : Fragment) (t t' : Traced) : Prop where
  left : ∃ g m b, Visited fuel f t (.ok g) m ∧ Monitor.handleExit g.id { m with heap := default } =
    .ok b t'.monitor ∧
    t'.state.heap = m.heap.truncate t.state.heap.size
  frames : t'.state.frames.map (·.fn) = t.state.frames.map (·.fn)

/-- Compiled code was entered and went wrong. -/
structure WentWrong (fuel : Nat) (f : Fragment) (t : Traced) (stop : TracedStop)
    (t' : Traced) : Prop where
  trace : ∃ function e m, stop = .trace function f.key.pc e ∧ Visited fuel f t (.error e) m ∧
    t'.monitor = { m with heap := default } ∧ t'.state.heap = m.heap
  frames : t'.state.frames.map (·.fn) = t.state.frames.map (·.fn)

/-- The locals were turned into words. -/
structure Unboxed (t t' : Traced) : Prop where
  heap : t.state.heap.Grows t'.state.heap
  frames : t'.state.frames.map (·.fn) = t.state.frames.map (·.fn)
  monitor : t'.monitor = t.monitor

theorem Unboxed.trans {t'' : Traced} (h : Unboxed t t') (h' : Unboxed t' t'') : Unboxed t t'' :=
  ⟨trans_of StringHeap.Grows h.heap h'.heap, h'.frames.trans h.frames, h'.monitor.trans h.monitor⟩

theorem grows_unbox (h : StringHeap) (v : Value) : h.Grows (unbox h v).1 := by
  cases v with
  | str s => exact StringHeap.grows_intern h s
  | _ => exact refl_of StringHeap.Grows h

theorem unboxLocals_unboxes (bp : Int) (k n : Nat) {H : TracedStop → Traced → Prop} :
    Ensures (Apart H) (unboxLocals bp k n) t fun _ t' => Unboxed t t' := by
  induction n generalizing k t with
  | zero => exact .pure ⟨refl_of StringHeap.Grows _, rfl, rfl⟩
  | succ n ih =>
    refine interp_bind (fun e s he => ?_) fun v s hread => ?_
    · obtain ⟨-, f, rfl⟩ := Keeps.error (R := Aside) (E := Faulty) (keeps_read _) he
      exact apart_fault f _
    · obtain ⟨hheap, hframes⟩ := Keeps.ok (R := Aside) (E := Faulty) (keeps_read _) hread
      have hunboxed : ∀ words,
          Unboxed t { t with state := { s with heap := (unbox s.heap v).1, words } } := fun words =>
        ⟨by rw [← hheap]; exact grows_unbox s.heap v, hframes, rfl⟩
      show Ensures (Apart H) (do
        if (← get).state.words.size ≤ k then faultyTrace .bounds
        modify fun t =>
          let words := t.state.words
          let state := { t.state with words := #[] }
          { t with state := { state with words := words.set! k (unbox s.heap v).2 } }
        unboxLocals bp (k + 1) n) { t with state := { s with heap := (unbox s.heap v).1 } } _
      refine .get ?_
      dsimp only
      split_ifs
      · exact apart_fault _ _
      · exact .modify_bind ((ih (k + 1)).mono fun _ t' h' => (hunboxed _).trans h')

/-- What happens in compiled code and behind it. -/
theorem runFragment_visits (f : Fragment) {k : Except MonitorError Guard → Tracing β}
    {H : TracedStop → Traced → Prop}
    {Q : β → Traced → Prop} {t₀ : Traced} (ht : Unboxed t₀ t)
    (h : ∀ answer m words, Visited fuel f t₀ answer m →
      Ensures (Apart H) (k answer) ⟨{ t.state with words, heap := m.heap },
        { m with heap := default }⟩ Q) :
    Ensures (Apart H) (runFragment fuel f.id >>= k) t Q := by
  refine .bind (Q := fun answer t' => Ensures (Apart H) (k answer) t' Q) ?_ fun _ _ h => h
  unfold Ensures runFragment
  dsimp only
  cases hexecute : Monitor.execute fuel f.id t.state.words { t.monitor with heap := t.state.heap }
      with
  | error e m => exact apart_fault e _
  | ok result m =>
    obtain ⟨answer, words⟩ := result
    rw [ht.monitor] at hexecute
    exact h answer m words ⟨_, _, _, ht.heap, hexecute⟩

/-- Behind a guard: the slots are boxed again, and the strings of the run are dropped. -/
theorem restore_ends (frame : Frame) (words : Array UInt64) (exit : SideExit)
    (mark : Nat) (s : State) :
    Ensures (fun e _ => Faulty e) (do
      reboxSlots frame.bp words 0 exit.types
      modify fun s => { s with heap := s.heap.truncate mark, sp := frame.base + exit.depth }
      jumpTo exit.pc
      modify fun s =>
      { s with counters := { s.counters with sideExits := s.counters.sideExits + 1 } } :
        Interpreting Unit) s fun _ s' =>
      s'.heap = s.heap.truncate mark ∧ s'.frames.map (·.fn) = s.frames.map (·.fn) := by
  refine .bind ((reboxSlots_aside _ _ _ _).ends s) fun _ s₁ h₁ => .modify_bind ?_
  refine .bind (Keeps.ends (R := Aside) (keeps_jumpTo _) _) fun _ s₂ h₂ => .modify ?_
  exact ⟨by rw [h₂.heap, h₁.heap], h₂.frames.trans h₁.frames⟩

/-- Entering compiled code. -/
theorem enter_enters (frame : Frame) (f : Fragment) :
    Ensures (Apart (WentWrong fuel f t)) (enter fuel frame f) t fun _ t' =>
    Crossed fuel f t t' := by
  unfold enter
  refine .get ?_
  extract_lets mark n visit grown
  have hvisit : ∀ words, Ensures (Apart (WentWrong fuel f t)) (visit ())
    { t with state := { t.state with words } }
      fun _ t' => Crossed fuel f t t' := by
    intro words
    refine .bind (unboxLocals_unboxes _ _ _) fun _ t₁ h₁ =>
      interp_bind (fun e s he => by cases he) fun _ s₁ hs₁ => ?_
    have h₀ : Unboxed t { t₁ with state := s₁ } := by
      cases hs₁
      exact ⟨h₁.heap, h₁.frames, h₁.monitor⟩
    refine runFragment_visits f h₀ fun answer m words' hvisited => ?_
    cases answer with
    | error e => exact fun _ => ⟨⟨_, e, m, rfl, hvisited, rfl, rfl⟩, h₀.frames⟩
    | ok g =>
      refine .get (interp_bind (fun e s he => ?_) fun _ s₂ hs₂ => ?_)
      · obtain ⟨fault, rfl⟩ := (ensures_error he).mp (restore_ends frame words' _ mark _)
        exact apart_fault fault _
      · obtain ⟨hheap, hframes⟩ := (ensures_ok hs₂).mp (restore_ends frame words' _ mark _)
        exact monitoring_bind fun b m₂ hexit =>
          .pure ⟨⟨g, m, b, hvisited, hexit, hheap⟩, hframes.trans h₀.frames⟩
  clear_value visit
  refine .get ?_
  split_ifs
  · exact apart_fault _ _
  · exact hvisit _
  · exact hvisit _

/-! ### Loop edges -/

/-- The loop that a fetched instruction closes. -/
def edgeKey (i : Fetched) (header : Int) (t : Traced) : LoopKey :=
  { code := i.frame.fn.id, pc := header, depth := t.state.frames.length }

/-- What becomes of a recording at the edge of a loop: one of this loop is closed, another one
is given up. -/
inductive Settled (key : LoopKey) (m : Monitor) : Monitor → Prop
  | idle (hrests : m.recording = false) : Settled key m m
  | aborted {a : Abort} {m' : Monitor} (habort : Monitor.abortRecording a m = .ok () m') :
      Settled key m m'
  | closed {types : TypeMap} {result : Except MonitorError Unit} {m' : Monitor}
      (hrecording : m.recording = true)
      (hkey : m.recordingKey? = some key) (hclose : Monitor.endRecording types m = .ok result m') :
      Settled key m m'
  | passed {p : Primitive} {header : Int} {result : Except MonitorError Unit} {m' : Monitor}
      (hp : p.action = .loopEdge header) (hrecord : Monitor.record p m = .ok result m') :
      Settled key m m'

/-- At a loop edge compiled code is entered that the monitor has for it. -/
structure Enters (key : LoopKey) (t : Traced) (f : Fragment) (t' : Traced) : Prop where
  state : Aside t.state t'.state
  settled : Settled key t.monitor t'.monitor
  found : ∃ types, t'.monitor.enter? key types = some f

/-- A loop edge was passed. -/
inductive Rounded (fuel : Nat) (key : LoopKey) (t : Traced) : Traced → Prop
  | plain {t' : Traced} (hstate : Aside t.state t'.state)
      (hsettled : Settled key t.monitor t'.monitor) :
      Rounded fuel key t t'
  | counted {m : Monitor} {types : TypeMap} {b : Bool} {t' : Traced}
      (hstate : Aside t.state t'.state)
      (hsettled : Settled key t.monitor m)
      (hcount : Monitor.loopEdge key types m = .ok b t'.monitor) : Rounded fuel key t t'
  | entered {f : Fragment} {t₁ t' : Traced} (henters : Enters key t f t₁)
      (hcrossed : Crossed fuel f t₁ t') :
      Rounded fuel key t t'

/-- Compiled code went wrong at a loop edge. -/
def Derailed (fuel : Nat) (key : LoopKey) (t : Traced) (stop : TracedStop) (t' : Traced) : Prop :=
  ∃ f t₁, Enters key t f t₁ ∧ WentWrong fuel f t₁ stop t'

theorem loopEdge_rounds (i : Fetched) (header : Int) :
    Ensures (Apart (Derailed fuel (edgeKey i header t) t)) (loopEdge fuel i header) t
      fun _ t' => Rounded fuel (edgeKey i header t) t t' := by
  unfold loopEdge
  refine .get (interp_bind (fun e s he => ?_) fun types s hs => .get ?_)
  · obtain ⟨-, f, rfl⟩ := (entryTypes_aside _).error he
    exact apart_fault f _
  have hstate := (entryTypes_aside _).ok hs
  extract_lets goOn
  -- what follows once the recording is settled
  have hgoOn : ∀ m : Monitor, Settled (edgeKey i header t) t.monitor m →
    Ensures (Apart (Derailed fuel (edgeKey i header t) t)) (goOn ())
      { state := s, monitor := m } fun _ t' => Rounded fuel (edgeKey i header t) t t' := by
    intro m hsettled
    cases types with
    | none => exact .pure (.plain hstate hsettled)
    | some types =>
      refine .get ?_
      cases hfound : m.enter? (edgeKey i header t) types with
      | none =>
        unfold edgeKey at hfound
        rw [hfound]
        exact monitoring_bind fun b m' hcount => .pure (.counted hstate hsettled hcount)
      | some f =>
        have henters : Enters (edgeKey i header t) t f ⟨s, m⟩ := ⟨hstate, hsettled, types, hfound⟩
        unfold edgeKey at hfound
        rw [hfound]
        refine ((enter_enters i.frame f).mono fun _ t' hcrossed =>
          .entered henters hcrossed).stops ?_
        exact fun stop t' h hplain => ⟨f, _, henters, h hplain⟩
  clear_value goOn
  split_ifs with hrecording
  · refine .get ?_
    split_ifs with hkey
    · cases types with
      | none => exact monitoring_bind fun _ m habort => hgoOn m (.aborted habort)
      | some types =>
        exact monitoring_bind fun _ m hclose => hgoOn m (.closed hrecording hkey hclose)
    · refine .get ?_
      exact .bind (Q := fun _ t' => Ensures _ (goOn ()) t' _)
        (report_ensures fun _ m hrecord => hgoOn m (.passed rfl hrecord))
        fun _ _ h => h
  · exact hgoOn _ (.idle (by simpa using hrecording))

/-! ### Instructions -/

/-- An instruction was carried out, after it was announced to a recorder. -/
structure Carried (units : Units) (t : Traced) (i : Fetched) (e : Event) (t' : Traced) : Prop where
  executed : ∃ s, fetch t.state = .ok i s ∧ execute units t.monitor.helpers i s = .ok e t'.state
  announced : t.monitor.recording = true → Announced i.byte t.monitor t'.monitor
  quiet : t.monitor.recording = false → t'.monitor = t.monitor

/-- An instruction was carried out under a monitor. -/
inductive Stepped (units : Units) (fuel : Nat) (t : Traced) : Traced → Prop
  | looped {i : Fetched} {header : Int} {t₁ t' : Traced}
      (hcarried : Carried units t i (.looped header) t₁)
      (hrounded : Rounded fuel (edgeKey i header t₁) t₁ t') : Stepped units fuel t t'
  | reported {i : Fetched} {e : Event} {t₁ t' : Traced} (hcarried : Carried units t i e t₁)
      (he : ∀ header, e ≠ .looped header) (hrecording : t.monitor.recording = true)
      (hreported : Reported i e t₁ t') :
      Stepped units fuel t t'
  | plain {i : Fetched} {e : Event} {t' : Traced} (hcarried : Carried units t i e t')
      (he : ∀ header, e ≠ .looped header) (hrests : t.monitor.recording = false) :
      Stepped units fuel t t'

/-- An instruction has stopped the call. -/
inductive Halted (units : Units) (fuel : Nat) (t : Traced) : TracedStop → Traced → Prop
  | unfetched {e : Stop} {s : State} (hfetch : fetch t.state = .error e s) :
      Halted units fuel t (.plain e) { t with state := s }
  | failed {i : Fetched} {e : Stop} {s s' : State} {m : Monitor} (hfetch : fetch t.state = .ok i s)
      (hannounced : t.monitor.recording = true → Announced i.byte t.monitor m)
      (hquiet : t.monitor.recording = false → m = t.monitor)
      (hexecute : execute units t.monitor.helpers i s = .error e s') :
      Halted units fuel t (.plain e) ⟨s', m⟩
  | derailed {i : Fetched} {header : Int} {t₁ t' : Traced} {stop : TracedStop}
      (hcarried : Carried units t i (.looped header) t₁)
      (hderailed : Derailed fuel (edgeKey i header t₁) t₁ stop t')
      (hedge : loopEdge fuel i header t₁ = .error stop t') : Halted units fuel t stop t'

/-- One instruction of the interpreter with a monitor. -/
theorem tracedStep_steps (t : Traced) : Ensures (Apart (Halted units fuel t))
    (tracedStep units t.monitor.helpers fuel) t fun _ t' => Stepped units fuel t t' := by
  unfold tracedStep
  refine interp_bind (fun e s hfetch _ => .unfetched hfetch) fun i s hfetch => .get ?_
  extract_lets tracing carryOut
  -- what follows once the instruction is announced
  have hcarryOut : ∀ m : Monitor, (t.monitor.recording = true → Announced i.byte t.monitor m) →
      (t.monitor.recording = false → m = t.monitor) →
      Ensures (Apart (Halted units fuel t)) (carryOut ()) ⟨s, m⟩ fun _ t' =>
          Stepped units fuel t t' := by
    intro m hannounced hquiet
    refine interp_bind (fun e s' hexecute _ => .failed hfetch hannounced hquiet hexecute)
      fun e s' hexecute => ?_
    have hcarried : Carried units t i e ⟨s', m⟩ := ⟨⟨s, hfetch, hexecute⟩, hannounced, hquiet⟩
    cases e with
    | looped header =>
      have hrounds : Ensures (Apart (Derailed fuel (edgeKey i header ⟨s', m⟩) ⟨s', m⟩))
          (loopEdge fuel i header) ⟨s', m⟩
          fun _ t' => Rounded fuel (edgeKey i header ⟨s', m⟩) ⟨s', m⟩ t' := loopEdge_rounds i header
      cases hedge : loopEdge fuel i header ⟨s', m⟩ with
      | ok _ t' => exact (ensures_ok hedge).mpr (.looped hcarried ((ensures_ok hedge).mp hrounds))
      | error stop t' =>
        exact (ensures_error hedge).mpr fun hplain =>
          .derailed hcarried ((ensures_error hedge).mp hrounds hplain) hedge
    | _ =>
      dsimp only
      split_ifs with hrecording
      · exact (reportEvent_reports i _).mono fun _ t' hreported =>
          .reported hcarried nofun hrecording hreported
      · exact .pure (.plain hcarried nofun (by simpa using hrecording))
  clear_value carryOut
  split_ifs with hrecording
  · refine .bind (announce_announces i) fun _ t₁ h₁ => ?_
    obtain ⟨s₁, m⟩ := t₁
    obtain ⟨rfl, hannounced⟩ := h₁
    exact hcarryOut m (fun _ => hannounced) fun hrests =>
      absurd (hrests.symm.trans hrecording) nofun
  · exact hcarryOut _ (fun h => absurd h hrecording) fun _ => rfl

end LoopTracer.Interp
