import LoopTracer.Proofs.Interp.Outcomes
import LoopTracer.Proofs.Interp.Reached
import LoopTracer.Proofs.Interp.SealedTrace
import LoopTracer.Proofs.Monitor.Operations
import LoopTracer.Proofs.Monitor.Sessions

/-! Everything that calls on one machine with a monitor pass through.

A machine is made with a new monitor, and then functions are called on it, one call after the other.
Every instruction of a call is a move. `Watched` is every state between two moves, with the moves that
led to it. What the monitor has been told on the way is read off the moves: the string constants
(`Told`), and the function whose loop a fragment was recorded from (`Made`). `Watched.upheld` says
that the monitor can account for every constant and every fragment that it has. -/
namespace LoopTracer.Interp

open Bytecode Trace Monitor

/-- What an instruction has done, from one state to the next. -/
structure Move where
  before : Traced
  after : Traced

/-- What a call leaves of the monitor: a recording is given up if the call has failed. -/
def Parted (answer : Except Failure Value) (m m' : Monitor) : Prop :=
  match answer with
  | .ok _ => m' = m
  | .error e => Vm.abandon m e = (m', none)

/-- The states that calls on one machine with a monitor pass through, and the moves so far, the last
one first. No call goes on after a fault, but a computation may run out of fuel. -/
inductive Watched (units : Units) (config : Config) : List Move → (running : Bool) → Traced → Prop
  | fresh {m : Monitor} (hcreate : Monitor.create config = .ok m) (maxSteps : Nat) (out : Text)
      (sinkClosed : Bool) :
      Watched units config [] false ⟨{ heap := m.heap, out, sinkClosed },
        { m with heap := default, maxSteps }⟩
  | called {moves : List Move} {t : Traced} {ref : FuncRef} {fn : Function}
      {args : List Value} {s : State}
      (h : Watched units config moves false t) (hfn : units.function? ref = some fn)
      (harity : (args.length : Int) = fn.arity)
      (hprepare : prepare fn ref args t.state = .ok () s) :
      Watched units config moves true { t with state := s }
  | refused {moves : List Move} {t : Traced} {ref : FuncRef} {fn : Function} {args : List Value}
      {s : State} {stop : Stop}
      (h : Watched units config moves false t) (hfn : units.function? ref = some fn)
      (harity : (args.length : Int) = fn.arity)
      (hprepare : prepare fn ref args t.state = .error stop s)
      (hstop : ∀ f, stop ≠ .fault f) :
      Watched units config moves false { t with state := s }
  | moved {moves : List Move} {t t' : Traced} {fuel : Nat} (h : Watched units config moves true t)
      (hstep : tracedStep units t.monitor.helpers fuel t = .ok () t') :
      Watched units config (⟨t, t'⟩ :: moves) true t'
  | stopped {moves : List Move} {t t' : Traced} {fuel : Nat} {stop : TracedStop} {m : Monitor}
      (h : Watched units config moves true t)
      (hstep : tracedStep units t.monitor.helpers fuel t = .error stop t')
      (hstop : ∀ f, stop ≠ .plain (.fault f)) (hparted : Parted stop.answer t'.monitor m) :
      Watched units config (⟨t, t'⟩ :: moves) false { t' with monitor := m }
  | exhausted {moves : List Move} {t : Traced} {m : Monitor} (h : Watched units config moves true t)
      (hparted : Parted (.error .outOfFuel) t.monitor m) :
      Watched units config moves false { t with monitor := m }

/-! ### What the moves tell -/

/-- The running function. -/
def Runs (s : State) (fn : Function) : Prop := ∃ f rest, s.frames = f :: rest ∧ f.fn = fn

/-- A move that puts a string constant on the stack while something is being recorded: the recorder is
told the handle that the heap has for it. -/
def Tells (units : Units) (move : Move) (handle : Handle) (text : Text) : Prop :=
  move.before.monitor.recording = true ∧ ∃ i s s', fetch move.before.state = .ok i s ∧
    execute units move.before.monitor.helpers i s = .ok (.pushed (.str text)) s' ∧
      handle = (s'.heap.intern text).2

/-- A string constant was told. -/
def Told (units : Units) (moves : List Move) (handle : Handle) (text : Text) : Prop :=
  ∃ move ∈ moves, Tells units move handle text

/-- A move that closes a loop of a function. -/
def Completes (units : Units) (move : Move) (fn : Function) (key : LoopKey) : Prop :=
  ∃ i s header s', fetch move.before.state = .ok i s ∧
    execute units move.before.monitor.helpers i s = .ok (.looped header) s' ∧ i.frame.fn = fn ∧
    key = { code := fn.id, pc := header, depth := move.before.state.frames.length }

/-- After a move a fragment is being recorded. -/
def Records (move : Move) (id : FragmentId) : Prop :=
  move.after.monitor.recording = true ∧ move.after.monitor.recorder.fragment = some id

/-- The last moves are a recording of a fragment: it has begun where the function closed the loop,
and all since then is that function's doing. -/
inductive Underway (units : Units) (id : FragmentId) (fn : Function)
    (key : LoopKey) : List Move → Prop
  | begun {move : Move} {moves : List Move} (hcloses : Completes units move fn key)
      (hrecords : Records move id) :
      Underway units id fn key (move :: moves)
  | goesOn {move : Move} {moves : List Move} (h : Underway units id fn key moves)
      (hruns : Runs move.before.state fn)
      (hrecords : Records move id) : Underway units id fn key (move :: moves)

/-- A fragment was recorded from the loop of a function: from one edge of the loop to the next. -/
def Made (units : Units) (moves : List Move) (id : FragmentId) (fn : Function)
    (key : LoopKey) : Prop :=
  ∃ later move earlier, moves = later ++ move :: earlier ∧ Underway units id fn key earlier ∧
    Completes units move fn key

variable {units : Units} {config : Config} {moves : List Move} {t t' : Traced}

theorem Told.later {handle : Handle} {text : Text}
    (h : Told units moves handle text) (move : Move) :
    Told units (move :: moves) handle text :=
  let ⟨m, hm, htells⟩ := h
  ⟨m, List.mem_cons_of_mem move hm, htells⟩

theorem Made.later {id : FragmentId} {fn : Function} {key : LoopKey}
    (h : Made units moves id fn key) (move : Move) :
    Made units (move :: moves) id fn key :=
  let ⟨later, m, earlier, hmoves, hmade⟩ := h
  ⟨move :: later, m, earlier, by rw [hmoves]; rfl, hmade⟩

/-! ### What holds in all these states -/

/-- The constant that an immediate stands for was told. -/
def Known (units : Units) (moves : List Move) (v : Immediate) : Prop :=
  ∃ text, Told units moves v.handle text

/-- The loop of a fragment was recorded from a loaded function. -/
def Sourced (units : Units) (moves : List Move) (id : FragmentId) (key : LoopKey) : Prop :=
  ∃ fn ref, units.function? ref = some fn ∧ Made units moves id fn key

/-- What the machine and its monitor have in order. -/
structure Upheld (units : Units) (moves : List Move) (running : Bool) (t : Traced) : Prop where
  heap : t.state.heap.Indexed
  told : ∀ handle text, Told units moves handle text →
    ∃ k : Nat, t.state.heap.strings[k]? = some text ∧ handle = k.toUInt32
  loaded : ∀ f ∈ t.state.frames, ∃ ref, units.function? ref = some f.fn
  accounted : Accounted (Known units moves) (Sourced units moves) t.monitor
  session : ∀ id f, Engaged t.monitor id f → f.kind ≠ .branch →
    ∃ fn, Runs t.state fn ∧ f.key.code = fn.id ∧
    f.key.depth = t.state.frames.length ∧ Underway units id fn f.key moves
  rests : running = false → t.monitor.recording = false

theorem Known.later {v : Immediate} (h : Known units moves v) (move : Move) :
    Known units (move :: moves) v :=
  h.imp fun _ h => h.later move

theorem Sourced.later {id : FragmentId} {key : LoopKey}
    (h : Sourced units moves id key) (move : Move) :
    Sourced units (move :: moves) id key :=
  let ⟨fn, ref, hfn, hmade⟩ := h
  ⟨fn, ref, hfn, hmade.later move⟩

section Parts

variable {V : Immediate → Prop} {B : FragmentId → LoopKey → Prop} {i : Fetched} {e : Event}
  {m m' : Monitor} {s : State}

theorem fetch_frame (h : fetch t.state = .ok i s) : ∃ rest, t.state.frames = i.frame :: rest := by
  unfold fetch at h
  cases hframes : t.state.frames with
  | nil =>
    rw [hframes] at h
    cases h
  | cons f rest =>
    rw [hframes] at h
    dsimp only at h
    split at h
    · cases h
    · split at h
      · cases h
      · split at h
        · cases h
        · cases h
          exact ⟨rest, rfl⟩

theorem fetch_runs (h : fetch t.state = .ok i s) : Runs t.state i.frame.fn :=
  let ⟨rest, hframes⟩ := fetch_frame h
  ⟨i.frame, rest, hframes, rfl⟩

theorem Runs.unique {fn fn' : Function} (h : Runs s fn) (h' : Runs s fn') : fn = fn' := by
  obtain ⟨f, rest, hframes, rfl⟩ := h
  obtain ⟨f', rest', hframes', rfl⟩ := h'
  rw [hframes] at hframes'
  cases hframes'
  rfl

theorem Runs.same {fn : Function} {s' : State} (h : Runs s fn)
    (hframes : s'.frames.map (·.fn) = s.frames.map (·.fn)) :
    Runs s' fn := by
  obtain ⟨f, rest, hs, rfl⟩ := h
  rw [hs] at hframes
  cases hs' : s'.frames with
  | nil =>
    rw [hs'] at hframes
    cases hframes
  | cons f' rest' =>
    rw [hs'] at hframes
    exact ⟨f', rest', hs', (List.cons.inj hframes).1⟩

theorem length_same {s' : State} (hframes : s'.frames.map (·.fn) = s.frames.map (·.fn)) :
    s'.frames.length = s.frames.length := by
  simpa using congrArg List.length hframes

/-! #### Announcements -/

theorem Announced.accounted (h : Announced i.byte m m')
    (ha : Accounted V B m) : Accounted V B m' := by
  cases h with
  | silent => exact ha
  | refused hp hrecord =>
    refine (ensures_ok hrecord).mp (record_accounted ha fun v dest haction => ?_)
    rw [hp] at haction
    cases haction
  | aborted habort => exact (ensures_ok habort).mp (abortRecording_accounted ha _)

/-- A recording that goes on after an announcement is not touched by it. -/
theorem Announced.goes_on (h : Announced i.byte m m') (ha : Accounted V B m)
    (hrecording : m'.recording = true) :
    m' = m ∧ ∃ op, Opcode.ofByte? i.byte = some op ∧ op ≠ .call ∧ op ≠ .ret ∧
    op ≠ .print ∧ op ≠ .halt := by
  cases h with
  | silent hop hlocal => exact ⟨rfl, _, hop, hlocal⟩
  | refused hp hrecord =>
    rw [(ensures_ok hrecord).mp (record_rests (.inl hp))] at hrecording
    cases hrecording
  | aborted habort =>
    rw [(ensures_ok habort).mp (abortRecording_rests ha _)] at hrecording
    cases hrecording

theorem Carried.accounted (h : Carried units t i e t') (ha : Accounted V B t.monitor) :
    Accounted V B t'.monitor := by
  cases hrecording : t.monitor.recording with
  | true => exact (h.announced hrecording).accounted ha
  | false => exact h.quiet hrecording ▸ ha

theorem Carried.goes_on (h : Carried units t i e t') (ha : Accounted V B t.monitor)
    (hrecording : t'.monitor.recording = true) :
    t'.monitor = t.monitor ∧ ∃ op, Opcode.ofByte? i.byte = some op ∧ op ≠ .call ∧ op ≠ .ret := by
  cases hbefore : t.monitor.recording with
  | true =>
    obtain ⟨hsame, op, hop, hcall, hret, -⟩ := (h.announced hbefore).goes_on ha hrecording
    exact ⟨hsame, op, hop, hcall, hret⟩
  | false =>
    rw [h.quiet hbefore, hbefore] at hrecording
    cases hrecording

theorem Carried.regular (h : Carried units t i e t') (hh : t.monitor.helpers = .standard) :
    Regular units t.state t'.state := by
  obtain ⟨s, hfetch, hexecute⟩ := h.executed
  rw [hh] at hexecute
  have hfetched : Keeps (Regular units) (fun _ => True) fetch := keeps_fetch
  exact trans_of (Regular units) (hfetched.ok hfetch) ((execute_regular i).ok hexecute)

theorem Carried.steady (h : Carried units t i e t')
    (hh : t.monitor.helpers = .standard) {op : Opcode}
    (hop : Opcode.ofByte? i.byte = some op) (hcall : op ≠ .call)
    (hret : op ≠ .ret) : Steady t.state t'.state := by
  obtain ⟨s, hfetch, hexecute⟩ := h.executed
  rw [hh] at hexecute
  have hfetched : Keeps Steady (fun _ => True) fetch := keeps_fetch
  unfold execute at hexecute
  rw [hop] at hexecute
  exact trans_of Steady (hfetched.ok hfetch) ((executeOp_steady i hcall hret).ok hexecute)

/-! #### Reports -/

theorem Reported.accounted (h : Reported i e t t') (ha : Accounted V B t.monitor)
    (hV : ∀ text, e = .pushed (.str text) →
      ∀ v : Immediate, v.handle = (t.state.heap.intern text).2 → V v) :
    Accounted V B t'.monitor := by
  cases h with
  | silent => exact ha
  | @told v ty _ _ hevent hty hrecord =>
    refine (ensures_ok hrecord).mp (record_accounted ha fun v' dest haction hptr => ?_)
    cases haction
    cases v with
    | str text =>
      cases hty
      exact hV text hevent _ (handle_of_word _)
    | null | bool | int | float =>
      cases hty
      cases hptr
    | func | reserved => cases hty
  | noted _ hp hrecord =>
    exact (ensures_ok hrecord).mp (record_accounted ha fun v dest haction =>
      absurd haction (hp v dest))

theorem Reported.engaged {id : FragmentId} {f : Fragment} (h : Reported i e t t')
    (ht' : Engaged t'.monitor id f) :
    Engaged t.monitor id f := by
  cases h with
  | silent => exact ht'
  | told _ _ hrecord => exact ((ensures_ok hrecord).mp (record_goes_on _) ht'.recording).engaged ht'
  | noted _ _ hrecord =>
    exact ((ensures_ok hrecord).mp (record_goes_on _) ht'.recording).engaged ht'

/-- A report adds a string constant to the heap, and nothing else. -/
theorem Reported.heap (h : Reported i e t t') :
    (∀ text, e ≠ .pushed (.str text)) ∧ t'.state.heap = t.state.heap ∨
    ∃ text, e = .pushed (.str text) ∧ t'.state.heap = (t.state.heap.intern text).1 := by
  cases h with
  | silent hquiet => exact .inl ⟨by rcases hquiet with rfl | ⟨_, rfl⟩ <;> nofun, rfl⟩
  | @told v ty _ _ hevent hty hrecord =>
    cases v with
    | str text => exact .inr ⟨text, hevent, rfl⟩
    | _ => exact .inl ⟨by rw [hevent]; nofun, rfl⟩
  | noted hpushed => exact .inl ⟨fun text he => absurd (hpushed _ he) nofun, rfl⟩

theorem Reported.frames (h : Reported i e t t') : t'.state.frames = t.state.frames := by
  cases h <;> rfl

/-! #### Loop edges -/

theorem Settled.rests {key : LoopKey} (h : Settled key m m')
    (ha : Accounted V B m) : m'.recording = false := by
  cases h with
  | idle hrests => exact hrests
  | aborted habort => exact (ensures_ok habort).mp (abortRecording_rests ha _)
  | closed _ _ hclose => exact (ensures_ok hclose).mp (endRecording_rests _)
  | passed hp hrecord => exact (ensures_ok hrecord).mp (record_rests (.inr ⟨_, hp⟩))

theorem Settled.accounted {key : LoopKey} (h : Settled key m m') (ha : Accounted V B m)
    (hB : ∀ id f, Engaged m id f → f.key = key →
      f.kind ≠ .branch → B id key) : Accounted V B m' := by
  cases h with
  | idle => exact ha
  | aborted habort => exact (ensures_ok habort).mp (abortRecording_accounted ha _)
  | closed hrecording hkey hclose =>
    refine (ensures_ok hclose).mp (endRecording_accounted ha _ fun id f hid hf hkind => ?_)
    have hengaged : Engaged m id f := ⟨hrecording, hid, hf⟩
    have hsame : f.key = key := Option.some.inj (hengaged.key.symm.trans hkey)
    exact hsame ▸ hB id f hengaged hsame hkind
  | passed hp hrecord =>
    refine (ensures_ok hrecord).mp (record_accounted ha fun v dest haction => ?_)
    rw [hp] at haction
    cases haction

/-- Compiled code has nothing to do with the accounts. -/
theorem Visited.accounted {fuel : Nat} {f : Fragment} {answer : Except MonitorError Guard}
    (h : Visited fuel f t answer m)
    (ha : Accounted V B t.monitor) : Accounted V B { m with heap := default } := by
  obtain ⟨heap, words, words', -, hexecute⟩ := h.executed
  have hbegins : Accounted V B { t.monitor with heap } := ha.still ⟨rfl, rfl, rfl, rfl⟩
  exact ((ensures_ok hexecute).mp (execute_accounted hbegins _ _ _)).still ⟨rfl, rfl, rfl, rfl⟩

theorem Visited.ran {fuel : Nat} {f : Fragment} {answer : Except MonitorError Guard}
    (h : Visited fuel f t answer m)
    (hh : t.monitor.helpers = .standard) :
    m.recorder = t.monitor.recorder ∧ t.state.heap.Grows m.heap := by
  obtain ⟨heap, words, words', hgrows, hexecute⟩ := h.executed
  have hran :=
    (keepsAt_ok hexecute).mp (execute_ran (m := { t.monitor with heap }) hh fuel f.id words)
  exact ⟨hran.recorder, trans_of StringHeap.Grows hgrows (hran.heap hh)⟩

end Parts

/-! ### Moves -/

section Moves

variable {fuel : Nat} {handle : Handle} {text : Text}

/-- What a move tells is read off the instruction. -/
theorem Carried.tells {i : Fetched} {e : Event} {t₁ : Traced} (h : Carried units t i e t₁)
    (htells : Tells units ⟨t, t'⟩ handle text) :
    e = .pushed (.str text) ∧ handle = (t₁.state.heap.intern text).2 := by
  obtain ⟨s, hfetch, hexecute⟩ := h.executed
  obtain ⟨-, i', s', s'', hfetch', hexecute', hhandle⟩ := htells
  rw [show fetch t.state = _ from hfetch] at hfetch'
  cases hfetch'
  rw [show execute units t.monitor.helpers i s = _ from hexecute] at hexecute'
  cases hexecute'
  exact ⟨rfl, hhandle⟩

theorem Tells.unique {move : Move} {handle' : Handle} {text' : Text}
    (h : Tells units move handle text)
    (h' : Tells units move handle' text') : handle = handle' ∧ text = text' := by
  obtain ⟨-, i, s, s₁, hfetch, hexecute, rfl⟩ := h
  obtain ⟨-, i', s', s₁', hfetch', hexecute', rfl⟩ := h'
  rw [hfetch] at hfetch'
  cases hfetch'
  rw [hexecute] at hexecute'
  cases hexecute'
  exact ⟨rfl, rfl⟩

theorem Rounded.heap {key : LoopKey} (h : Rounded fuel key t t')
    (ha : Accounted (fun _ => True) (fun _ _ => True) t.monitor) : t.state.heap.Same t'.state.heap ∧
      t'.state.frames.map (·.fn) = t.state.frames.map (·.fn) := by
  cases h with
  | plain hstate => exact ⟨hstate.heap ▸ refl_of StringHeap.Same _, hstate.frames⟩
  | counted hstate => exact ⟨hstate.heap ▸ refl_of StringHeap.Same _, hstate.frames⟩
  | @entered f t₁ _ henters hcrossed =>
    obtain ⟨g, m, b, hvisited, -, hheap⟩ := hcrossed.left
    have ha₁ := henters.settled.accounted ha fun _ _ _ _ _ => trivial
    obtain ⟨-, hgrows⟩ := hvisited.ran ha₁.helpers
    rw [hheap, ← henters.state.heap]
    exact ⟨StringHeap.truncate_grown hgrows, hcrossed.frames.trans henters.state.frames⟩

/-- A move tells a string constant, which the heap then has under its handle, or the heap has the
strings that it had. -/
theorem Stepped.heap (h : Stepped units fuel t t')
    (ha : Accounted (fun _ => True) (fun _ _ => True) t.monitor)
    (hi : t.state.heap.Indexed) : t'.state.heap.Indexed ∧
      ((∀ handle text, ¬ Tells units ⟨t, t'⟩ handle text) ∧
        t'.state.heap.strings = t.state.heap.strings ∨
        ∃ handle text, Tells units ⟨t, t'⟩ handle text ∧
          (t'.state.heap.strings = t.state.heap.strings ∨
            t'.state.heap.strings = t.state.heap.strings.push text) ∧
          ∃ k : Nat, t'.state.heap.strings[k]? = some text ∧ handle = k.toUInt32) := by
  cases h with
  | looped hcarried hrounded =>
    obtain ⟨hi₁, hstrings₁, -⟩ := hcarried.regular ha.helpers hi
    have ha₁ := hcarried.accounted ha
    obtain ⟨hi', hstrings'⟩ := (hrounded.heap ha₁).1 hi₁
    exact ⟨hi', .inl ⟨fun _ _ htells => (nomatch (hcarried.tells htells).1),
      hstrings'.trans hstrings₁⟩⟩
  | plain hcarried _ hrests =>
    obtain ⟨hi₁, hstrings₁, -⟩ := hcarried.regular ha.helpers hi
    exact ⟨hi₁, .inl ⟨fun _ _ htells => absurd (hrests.symm.trans htells.1) nofun, hstrings₁⟩⟩
  | @reported i e t₁ _ hcarried _ hrecording hreported =>
    obtain ⟨hi₁, hstrings₁, -⟩ := hcarried.regular ha.helpers hi
    rcases hreported.heap with ⟨hnone, hheap⟩ | ⟨text, hevent, hheap⟩
    · rw [hheap]
      exact ⟨hi₁, .inl ⟨fun _ _ htells => hnone _ (hcarried.tells htells).1, hstrings₁⟩⟩
    · obtain ⟨s, hfetch, hexecute⟩ := hcarried.executed
      rw [hheap, ← hstrings₁]
      refine ⟨hi₁.intern text,
        .inr ⟨_, text, ⟨hrecording, i, s, t₁.state, hfetch, hevent ▸ hexecute, rfl⟩,
        StringHeap.intern_strings _ _, hi₁.intern_place text⟩⟩

theorem Stepped.frames (h : Stepped units fuel t t')
    (ha : Accounted (fun _ => True) (fun _ _ => True) t.monitor)
    (hi : t.state.heap.Indexed)
    (hloaded : ∀ f ∈ t.state.frames, ∃ ref, units.function? ref = some f.fn) :
    ∀ f ∈ t'.state.frames, ∃ ref, units.function? ref = some f.fn := by
  have hcarried : ∀ {i e t₁}, Carried units t i e t₁ →
      ∀ f ∈ t₁.state.frames, ∃ ref, units.function? ref = some f.fn := by
    intro i e t₁ hcarried f hf
    obtain ⟨-, -, hframes⟩ := hcarried.regular ha.helpers hi
    rcases hframes f hf with ⟨f₀, hf₀, heq⟩ | hnew
    · exact heq ▸ hloaded f₀ hf₀
    · exact hnew
  cases h with
  | looped h hrounded =>
    have ha₁ := h.accounted ha
    obtain ⟨-, hframes⟩ := hrounded.heap ha₁
    intro f hf
    have hfn : f.fn ∈ _ := hframes ▸ List.mem_map_of_mem hf
    obtain ⟨f₁, hf₁, heq⟩ := List.mem_map.mp hfn
    exact heq ▸ hcarried h f₁ hf₁
  | plain h => exact hcarried h
  | reported h _ _ hreported => exact hreported.frames ▸ hcarried h

/-- A loop instruction stays in its frame. -/
theorem Carried.looped {i : Fetched} {header : Int} {t₁ : Traced}
    (h : Carried units t i (.looped header) t₁)
    (hh : t.monitor.helpers = .standard) (hi : t.state.heap.Indexed) (after : Traced) :
    t₁.state.frames.map (·.fn) = t.state.frames.map (·.fn) ∧
    Completes units ⟨t, after⟩ i.frame.fn (edgeKey i header t₁) := by
  obtain ⟨s, hfetch, hexecute⟩ := h.executed
  obtain ⟨op, hop, hfits⟩ := execute_fits hexecute
  obtain rfl : op = .loop := hfits
  obtain ⟨-, -, hframes⟩ := h.steady hh hop nofun nofun hi
  refine ⟨hframes, i, s, header, t₁.state, hfetch, hexecute, rfl, ?_⟩
  unfold edgeKey
  rw [length_same hframes]

theorem Completes.runs {move : Move} {fn : Function} {key : LoopKey}
    (h : Completes units move fn key) :
    Runs move.before.state fn := by
  obtain ⟨i, s, header, s', hfetch, -, rfl, -⟩ := h
  exact fetch_runs hfetch

theorem Upheld.anyhow {running : Bool} (h : Upheld units moves running t) :
    Accounted (fun _ => True) (fun _ _ => True) t.monitor :=
      h.accounted.mono (fun _ _ => trivial) fun _ _ _ => trivial

/-- What is recorded when a loop is closed has been recorded from that loop. -/
theorem Upheld.sourced {running : Bool} (h : Upheld units moves running t) {i : Fetched}
    {header : Int} {t₁ : Traced}
    (hcarried : Carried units t i (.looped header) t₁) (id : FragmentId) (f : Fragment)
    (hf : Engaged t₁.monitor id f)
    (hkey : f.key = edgeKey i header t₁) (hkind : f.kind ≠ .branch) :
    Sourced units (⟨t, t'⟩ :: moves) id (edgeKey i header t₁) := by
  obtain ⟨hsame, -⟩ := hcarried.goes_on h.accounted hf.recording
  rw [hsame] at hf
  obtain ⟨fn, hruns, -, -, hunderway⟩ := h.session id f hf hkind
  obtain ⟨-, hcloses⟩ := hcarried.looped h.accounted.helpers h.heap t'
  obtain rfl : fn = i.frame.fn := hruns.unique hcloses.runs
  obtain ⟨f₀, rest, hframes, hfn⟩ := hruns
  obtain ⟨ref, href⟩ := h.loaded f₀ (hframes ▸ List.mem_cons_self)
  exact ⟨i.frame.fn, ref, hfn ▸ href, [], ⟨t, t'⟩, moves, rfl, hkey ▸ hunderway, hcloses⟩

theorem Upheld.step_accounted {running : Bool} (h : Upheld units moves running t)
    (hstep : Stepped units fuel t t') :
    Accounted (Known units (⟨t, t'⟩ :: moves)) (Sourced units (⟨t, t'⟩ :: moves)) t'.monitor := by
  have ha : Accounted (Known units (⟨t, t'⟩ :: moves))
      (Sourced units (⟨t, t'⟩ :: moves)) t.monitor :=
    h.accounted.mono (fun _ hv => hv.later _) fun _ _ hb => hb.later _
  cases hstep with
  | plain hcarried => exact hcarried.accounted ha
  | @reported i e t₁ _ hcarried _ hrecording hreported =>
    refine hreported.accounted (hcarried.accounted ha) fun text hevent v hv => ?_
    obtain ⟨s, hfetch, hexecute⟩ := hcarried.executed
    exact ⟨text, ⟨t, t'⟩, List.mem_cons_self, hrecording, i, s, t₁.state, hfetch,
      hevent ▸ hexecute, hv⟩
  | @looped i header t₁ _ hcarried hrounded =>
    have ha₁ := hcarried.accounted ha
    have hsettled : ∀ {m}, Settled (edgeKey i header t₁) t₁.monitor m →
        Accounted (Known units (⟨t, t'⟩ :: moves)) (Sourced units (⟨t, t'⟩ :: moves)) m :=
      fun hs => hs.accounted ha₁ (h.sourced hcarried)
    cases hrounded with
    | plain _ hs => exact hsettled hs
    | counted _ hs hcount => exact (ensures_ok hcount).mp (loopEdge_accounted (hsettled hs) _ _)
    | entered henters hcrossed =>
      obtain ⟨g, m, b, hvisited, hexit, -⟩ := hcrossed.left
      exact (ensures_ok hexit).mp
        (handleExit_accounted (hvisited.accounted (hsettled henters.settled)) _)

theorem Upheld.step_session {running : Bool} (h : Upheld units moves running t)
    (hstep : Stepped units fuel t t')
    (id : FragmentId) (f : Fragment) (hf : Engaged t'.monitor id f) (hkind : f.kind ≠ .branch) :
    ∃ fn, Runs t'.state fn ∧ f.key.code = fn.id ∧ f.key.depth = t'.state.frames.length ∧
      Underway units id fn f.key (⟨t, t'⟩ :: moves) := by
  have hrecords : Records ⟨t, t'⟩ id := ⟨hf.recording, hf.fragment⟩
  cases hstep with
  | plain hcarried _ hrests => exact absurd (hcarried.quiet hrests ▸ hrests) hf.not_rests
  | reported hcarried _ _ hreported =>
    have hf₁ := hreported.engaged hf
    obtain ⟨hsame, op, hop, hcall, hret⟩ := hcarried.goes_on h.accounted hf₁.recording
    rw [hsame] at hf₁
    obtain ⟨fn, hruns, hcode, hdepth, hunderway⟩ := h.session id f hf₁ hkind
    obtain ⟨-, -, hframes⟩ := hcarried.steady h.accounted.helpers hop hcall hret h.heap
    rw [← hreported.frames] at hframes
    exact ⟨fn, hruns.same hframes, hcode, by rw [hdepth, length_same hframes],
      .goesOn hunderway hruns hrecords⟩
  | @looped i header t₁ _ hcarried hrounded =>
    have ha₁ := hcarried.accounted h.anyhow
    obtain ⟨hframes₁, hcloses⟩ := hcarried.looped h.accounted.helpers h.heap t'
    have hframes := ((hrounded.heap ha₁).2).trans hframes₁
    have hsettled : ∀ {m}, Settled (edgeKey i header t₁) t₁.monitor m →
        Accounted (fun _ => True) (fun _ _ => True) m :=
      fun hs => hs.accounted ha₁ fun _ _ _ _ _ => trivial
    cases hrounded with
    | plain _ hs => exact absurd (hs.rests ha₁) hf.not_rests
    | counted _ hs hcount =>
      obtain ⟨id', f', hf', -, hkey, -⟩ :=
        (ensures_ok hcount).mp (loopEdge_begins (hsettled hs) (hs.rests ha₁) _ _) hf.recording
      obtain rfl : id = id' := Option.some.inj (hf.fragment.symm.trans hf'.fragment)
      obtain rfl : f = f' := Option.some.inj (hf.found.symm.trans hf'.found)
      rw [hkey]
      refine ⟨i.frame.fn, hcloses.runs.same hframes, rfl, ?_, .begun hcloses hrecords⟩
      show (t₁.state.frames.length : Int) = _
      rw [length_same hframes, length_same hframes₁]
    | entered henters hcrossed =>
      obtain ⟨g, m, b, hvisited, hexit, -⟩ := hcrossed.left
      have hrests : (m.recorder).isRecording = false := by
        rw [(hvisited.ran (hsettled henters.settled).helpers).1]
        exact henters.settled.rests ha₁
      obtain ⟨id', f', hf', hbranch⟩ := (ensures_ok hexit).mp
        (handleExit_begins (hvisited.accounted (hsettled henters.settled)) hrests _) hf.recording
      obtain rfl : id = id' := Option.some.inj (hf.fragment.symm.trans hf'.fragment)
      obtain rfl : f = f' := Option.some.inj (hf.found.symm.trans hf'.found)
      exact absurd hbranch hkind

/-- A move keeps everything in order. -/
theorem Upheld.moved (h : Upheld units moves true t) (hstep : Stepped units fuel t t') :
    Upheld units (⟨t, t'⟩ :: moves) true t' := by
  obtain ⟨hindexed, hheap⟩ := hstep.heap h.anyhow h.heap
  refine ⟨hindexed, fun handle text htold => ?_, hstep.frames h.anyhow h.heap h.loaded,
    h.step_accounted hstep,
    h.step_session hstep, nofun⟩
  have hold : Told units moves handle text → ∃ k : Nat, t'.state.heap.strings[k]? = some text ∧
      handle = k.toUInt32 := by
    intro htold
    obtain ⟨k, hk, rfl⟩ := h.told handle text htold
    refine ⟨k, ?_, rfl⟩
    rcases hheap with ⟨-, hsame⟩ | ⟨_, _, -, hsame | hpush, -⟩
    · rwa [hsame]
    · rwa [hsame]
    · have hlt := (Array.getElem?_eq_some_iff.mp hk).1
      rw [hpush, Array.getElem?_push, if_neg (by omega)]
      exact hk
  obtain ⟨move, hmove, htells⟩ := htold
  rcases List.mem_cons.mp hmove with rfl | hmove
  · rcases hheap with ⟨hnone, -⟩ | ⟨handle', text', htells', -, k, hk⟩
    · exact absurd htells (hnone _ _)
    · obtain ⟨rfl, rfl⟩ := htells.unique htells'
      exact ⟨k, hk⟩
  · exact hold ⟨move, hmove, htells⟩

end Moves

/-! ### Calls -/

/-- The start of a call uses no string, and frames are made for the called function only. -/
theorem prepare_loaded {ref : FuncRef} {fn : Function} (hfn : units.function? ref = some fn)
    (args : List Value) (s : State) :
    Ensures (fun _ s' => Regular units { s with frames := [] } s') (prepare fn ref args) s
      fun _ s' => Regular units { s with frames := [] } s' := by
  have hrest : Keeps (Regular units) (fun _ => True) (do
      push (.func (some ref))
      args.forM push
      pushFrame fn args.length : Interpreting Unit) :=
    .bind (keeps_push _) fun _ => .bind (.forM (fun v => keeps_push v) args) fun _ =>
      pushFrame_regular hfn _
  have hreset : Regular units { s with frames := [] } s.reset := Lax.aside ⟨rfl, rfl⟩
  refine .modify_bind (((hrest.ensures s.reset).mono fun _ s' h => ?_).stops fun e s' h => ?_)
  · exact trans_of (Regular units) hreset h
  · exact trans_of (Regular units) hreset h.1

theorem Upheld.called {running : Bool} (h : Upheld units moves false t) {s : State}
    (hs : Regular units { t.state with frames := [] } s) :
    Upheld units moves running { t with state := s } := by
  obtain ⟨hi, hstrings, hframes⟩ := hs h.heap
  refine ⟨hi, fun handle text htold => ?_, fun f hf => ?_, h.accounted,
    fun id f hf _ => absurd (h.rests rfl) hf.not_rests,
    fun _ => h.rests rfl⟩
  · obtain ⟨k, hk⟩ := h.told handle text htold
    exact ⟨k, hstrings ▸ hk⟩
  · rcases hframes f hf with ⟨f', hf', -⟩ | hloaded
    · cases hf'
    · exact hloaded

/-- A call that has failed leaves no recording. -/
theorem abandon_upheld {V : Immediate → Prop} {B : FragmentId → LoopKey → Prop}
    {m m' : Monitor} {e : Failure}
    (h : Accounted V B m) (habandon : Vm.abandon m e = (m', none)) :
    Accounted V B m' ∧ m'.recording = false := by
  unfold Vm.abandon at habandon
  split at habandon
  · next habort =>
    cases habandon
    exact ⟨(ensures_ok habort).mp (abortRecording_accounted h _),
      (ensures_ok habort).mp (abortRecording_rests h _)⟩
  · cases habandon

section Stops

variable {fuel : Nat} {stop : TracedStop}

theorem Halted.heap (h : Halted units fuel t stop t')
    (ha : Accounted (fun _ => True) (fun _ _ => True) t.monitor) :
    t.state.heap.Grows t'.state.heap := by
  intro hi
  have hregular : ∀ {s : State}, Regular units t.state s →
      s.heap.Indexed ∧ s.heap.Extends t.state.heap := fun hr =>
    ⟨(hr hi).1, fun k text hk => (hr hi).2.1 ▸ hk⟩
  have hfetches : Keeps (Regular units) (fun _ => True) fetch := keeps_fetch
  cases h with
  | unfetched hfetch => exact hregular (hfetches.error hfetch).1
  | failed hfetch _ _ hexecute =>
    rw [ha.helpers] at hexecute
    exact hregular (trans_of (Regular units) (hfetches.ok hfetch)
      ((execute_regular _).error hexecute).1)
  | derailed hcarried hderailed =>
    obtain ⟨f, t₂, henters, hwrong⟩ := hderailed
    obtain ⟨_, e, m, -, hvisited, -, hheap⟩ := hwrong.trace
    have ha₁ := hcarried.accounted ha
    have ha₂ := henters.settled.accounted ha₁ fun _ _ _ _ _ => trivial
    obtain ⟨hi₁, hextends₁⟩ := hregular (hcarried.regular ha.helpers)
    obtain ⟨hi₂, hextends₂⟩ := (hvisited.ran ha₂.helpers).2 (henters.state.heap ▸ hi₁)
    rw [henters.state.heap] at hextends₂
    rw [hheap]
    exact ⟨hi₂, hextends₂.trans hextends₁⟩

theorem Halted.silent (h : Halted units fuel t stop t') {handle : Handle} {text : Text} :
    ¬ Tells units ⟨t, t'⟩ handle text := by
  intro htells
  cases h with
  | unfetched hfetch =>
    obtain ⟨-, i, s, s', hfetch', -⟩ := htells
    rw [show fetch t.state = _ from hfetch] at hfetch'
    cases hfetch'
  | failed hfetch _ _ hexecute =>
    obtain ⟨-, i, s, s', hfetch', hexecute', -⟩ := htells
    rw [show fetch t.state = _ from hfetch] at hfetch'
    cases hfetch'
    rw [show execute units t.monitor.helpers _ _ = _ from hexecute] at hexecute'
    cases hexecute'
  | derailed hcarried => exact nomatch (hcarried.tells htells).1

theorem Halted.loaded (h : Halted units fuel t stop t')
    (ha : Accounted (fun _ => True) (fun _ _ => True) t.monitor)
    (hi : t.state.heap.Indexed)
    (hloaded : ∀ f ∈ t.state.frames, ∃ ref, units.function? ref = some f.fn) :
    ∀ f ∈ t'.state.frames, ∃ ref, units.function? ref = some f.fn := by
  have hregular : ∀ {s : State}, Regular units t.state s →
      ∀ f ∈ s.frames, ∃ ref, units.function? ref = some f.fn := by
    intro s hr f hf
    rcases (hr hi).2.2 f hf with ⟨f₀, hf₀, heq⟩ | hnew
    · exact heq ▸ hloaded f₀ hf₀
    · exact hnew
  have hfetches : Keeps (Regular units) (fun _ => True) fetch := keeps_fetch
  cases h with
  | unfetched hfetch => exact hregular (hfetches.error hfetch).1
  | failed hfetch _ _ hexecute =>
    rw [ha.helpers] at hexecute
    exact hregular (trans_of (Regular units) (hfetches.ok hfetch)
      ((execute_regular _).error hexecute).1)
  | derailed hcarried hderailed =>
    obtain ⟨f, t₂, henters, hwrong⟩ := hderailed
    intro f' hf'
    have hfn : f'.fn ∈ _ := (hwrong.frames.trans henters.state.frames) ▸ List.mem_map_of_mem hf'
    obtain ⟨f₁, hf₁, heq⟩ := List.mem_map.mp hfn
    exact heq ▸ hregular (hcarried.regular ha.helpers) f₁ hf₁

theorem Upheld.halt_accounted (h : Upheld units moves true t)
    (hstop : Halted units fuel t stop t') :
    Accounted (Known units (⟨t, t'⟩ :: moves)) (Sourced units (⟨t, t'⟩ :: moves)) t'.monitor := by
  have ha : Accounted (Known units (⟨t, t'⟩ :: moves))
      (Sourced units (⟨t, t'⟩ :: moves)) t.monitor :=
    h.accounted.mono (fun _ hv => hv.later _) fun _ _ hb => hb.later _
  cases hstop with
  | unfetched => exact ha
  | failed hfetch hannounced hquiet hexecute =>
    cases hrecording : t.monitor.recording with
    | true => exact (hannounced hrecording).accounted ha
    | false => exact hquiet hrecording ▸ ha
  | derailed hcarried hderailed =>
    obtain ⟨f, t₂, henters, hwrong⟩ := hderailed
    obtain ⟨_, e, m, -, hvisited, hmonitor, -⟩ := hwrong.trace
    rw [hmonitor]
    exact hvisited.accounted
      (henters.settled.accounted (hcarried.accounted ha) (h.sourced hcarried))

/-- A call that returns has ended its recording. -/
theorem Halted.rests (h : Halted units fuel t stop t')
    (ha : Accounted (fun _ => True) (fun _ _ => True) t.monitor) {v : Value}
    (hanswer : stop.answer = .ok v) : t'.monitor.recording = false := by
  cases h with
  | @unfetched e s hfetch =>
    have hunreturned : Keeps Whatever Unreturned fetch := keeps_fetch
    cases e with
    | returned v => exact absurd rfl ((hunreturned.error hfetch).2 v)
    | error | printFailed | fault => cases hanswer
  | @failed i e s s' m hfetch hannounced hquiet hexecute =>
    cases e with
    | returned v =>
      by_contra hrecording
      replace hrecording : m.recording = true := by simpa using hrecording
      have hbefore : t.monitor.recording = true := by
        by_contra hrests
        rw [hquiet (by simpa using hrests)] at hrecording
        exact hrests hrecording
      obtain ⟨-, op, hop, -, hret, -, hhalt⟩ := (hannounced hbefore).goes_on ha hrecording
      rcases execute_returned hexecute with hop' | hop'
      · rw [hop] at hop'
        exact hret (Option.some.inj hop')
      · rw [hop] at hop'
        exact hhalt (Option.some.inj hop')
    | error | printFailed | fault => cases hanswer
  | derailed hcarried hderailed =>
    obtain ⟨f, t₂, -, hwrong⟩ := hderailed
    obtain ⟨_, e, m, rfl, -⟩ := hwrong.trace
    cases hanswer

theorem Upheld.stopped (h : Upheld units moves true t)
    (hstop : Halted units fuel t stop t') {m : Monitor}
    (hparted : Parted stop.answer t'.monitor m) :
    Upheld units (⟨t, t'⟩ :: moves) false { t' with monitor := m } := by
  obtain ⟨hi, hextends⟩ := hstop.heap h.anyhow h.heap
  have hended : Accounted (Known units (⟨t, t'⟩ :: moves)) (Sourced units (⟨t, t'⟩ :: moves)) m ∧
      m.recording = false := by
    have ha := h.halt_accounted hstop
    unfold Parted at hparted
    cases hanswer : stop.answer with
    | ok v =>
      rw [hanswer] at hparted
      obtain rfl : m = t'.monitor := hparted
      exact ⟨ha, hstop.rests h.anyhow hanswer⟩
    | error e =>
      rw [hanswer] at hparted
      exact abandon_upheld ha hparted
  refine ⟨hi, fun handle text htold => ?_, hstop.loaded h.anyhow h.heap h.loaded, hended.1,
    fun id f hf _ => absurd hended.2 hf.not_rests, fun _ => hended.2⟩
  obtain ⟨move, hmove, htells⟩ := htold
  rcases List.mem_cons.mp hmove with rfl | hmove
  · exact absurd htells hstop.silent
  · obtain ⟨k, hk, hhandle⟩ := h.told handle text ⟨move, hmove, htells⟩
    exact ⟨k, hextends k text hk, hhandle⟩

end Stops

/-- Everything stays in order, whatever is called. -/
theorem Watched.upheld {running : Bool} (h : Watched units config moves running t) :
    Upheld units moves running t := by
  induction h with
  | @fresh m hcreate maxSteps out sinkClosed =>
    have ha : Accounted (Known units []) (Sourced units []) m := create_accounted hcreate
    obtain ⟨-, r, r', -, -, rfl⟩ := create_eq hcreate
    exact ⟨StringHeap.valid_default.indexed, fun _ _ ⟨_, hmove, _⟩ => (nomatch hmove), nofun,
      ha.still ⟨rfl, rfl, rfl, rfl⟩,
      fun id f hf _ => absurd rfl hf.not_rests, fun _ => rfl⟩
  | called _ hfn _ hprepare ih =>
    exact ih.called ((ensures_ok hprepare).mp (prepare_loaded hfn _ _))
  | refused _ hfn _ hprepare _ ih =>
    exact ih.called ((ensures_error hprepare).mp (prepare_loaded hfn _ _))
  | moved _ hstep ih => exact ih.moved ((ensures_ok hstep).mp (tracedStep_steps _))
  | stopped _ hstep hstop hparted ih =>
    exact ih.stopped ((ensures_error hstep).mp (tracedStep_steps _) hstop) hparted
  | exhausted _ hparted ih =>
    obtain ⟨ha, hrests⟩ := abandon_upheld ih.accounted hparted
    exact ⟨ih.heap, ih.told, ih.loaded, ha,
      fun id f hf _ => absurd hrests hf.not_rests, fun _ => hrests⟩

/-! ### Calls that are run

On a short stack a call can be run, and it goes the same way on a whole one. -/

section Runs

variable {more : Array Value} {fuel n maxSteps : Nat} {ref : FuncRef} {args : List Value}

/-- The first call on a new machine with a short stack. -/
def called? (units : Units) (config : Config) (maxSteps : Nat) (ref : FuncRef) (args : List Value) :
    Option Traced :=
  match Monitor.create config, units.function? ref with
  | .ok m, some fn =>
    match prepare fn ref args { stack := shortStack, heap := m.heap } with
    | .ok () s =>
      if (args.length : Int) = fn.arity then some ⟨s, { m with heap := default, maxSteps }⟩
      else none
    | .error _ _ => none
  | _, _ => none

/-- Instructions are carried out, as many as `n`. -/
def advance (units : Units) (fuel : Nat) : (n : Nat) → Traced → Option Traced
  | 0, t => some t
  | n + 1, t => (advance units fuel n t).bind fun t =>
    match tracedStep units t.monitor.helpers fuel t with
    | .ok () t' => some t'
    | .error _ _ => none

theorem Watched.of_called (hmore : Spare more)
    (h : called? units config maxSteps ref args = some t) :
    Watched units config [] true (t.above more) := by
  unfold called? at h
  split at h
  · next m fn hcreate hfn =>
    split at h
    · next s hprepare =>
      split_ifs at h with harity
      cases h
      have hfresh :
          State.above more { stack := shortStack, heap := m.heap } = { heap := m.heap } := by
        unfold State.above
        rw [show shortStack ++ more = _ from hmore]
      have hprepared := prepare_above more rfl hprepare
      rw [hfresh] at hprepared
      exact Watched.called (t := ⟨{ heap := m.heap }, { m with heap := default, maxSteps }⟩)
        (.fresh hcreate maxSteps ∅ false) hfn harity hprepared
    · cases h
  · cases h

theorem Watched.advance (h : Watched units config moves true (t.above more))
    (hrun : advance units fuel n t = some t') :
    ∃ moves', Watched units config moves' true (t'.above more) := by
  induction n generalizing t' with
  | zero =>
    cases hrun
    exact ⟨moves, h⟩
  | succ n ih =>
    obtain ⟨t₁, hfirst, hlast⟩ := Option.bind_eq_some_iff.mp hrun
    obtain ⟨moves', hwatched⟩ := ih hfirst
    split at hlast
    · next hstep =>
      cases hlast
      exact ⟨_, hwatched.moved ((tracedStep_above fuel more).ok _ _ _ hstep)⟩
    · cases hlast

end Runs

/-- A program whose one function counts its parameter up. -/
def countingUnits : Units := #[{ functions := #[counting], main := .listed 0 }]

/-- The function is called, and then instructions are carried out, as many as `n`. -/
def countingRun (maxSteps : Nat) (i : Int32) (n : Nat) : Option Traced :=
  (called? countingUnits eager maxSteps ⟨0, 0, "count"⟩ [.int i]).bind (advance countingUnits 100 n)

theorem countingRun_watched {more : Array Value} (hmore : Spare more) {maxSteps n : Nat} {i : Int32}
    {t : Traced} (h : countingRun maxSteps i n = some t) :
    ∃ moves, Watched countingUnits eager moves true (t.above more) := by
  obtain ⟨t₀, hcalled, hrun⟩ := Option.bind_eq_some_iff.mp h
  exact (Watched.of_called hmore hcalled).advance hrun

end LoopTracer.Interp
