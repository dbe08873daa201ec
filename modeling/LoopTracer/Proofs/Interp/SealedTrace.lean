import LoopTracer.Proofs.Interp.Recordings
import LoopTracer.Proofs.Interp.Room

/-! Sealed traces.

At the back edge of its loop a recording is sealed: the slots that changed are written back, and the
trace jumps. `recorded_trace_correct` says what a pass over the whole trace is worth on any state of
the recorded types: it ends where the interpreter gets from that state, at the back edge or at the
exit through which the pass has left. -/
namespace LoopTracer.Interp

open Bytecode Trace

/-- The next step of the interpreter is the back edge of the loop that `g` is recorded for, and there
the recording is sealed into the trace `T`, the locals having the types `stop`. -/
structure Closes (units : Units) (t : Traced) (g : Fragment) (stop : TypeMap)
    (T : Buffer) : Prop where
  edge : ∃ f rest s', step units .standard t.state = .ok (.looped g.key.pc) s' ∧
    s'.frames = f :: rest ∧ entryTypes f s' = .ok (some stop) s'
  sealed : ∃ (g' : Fragment) (target : Option Fragment) (r : Recorder), g'.key = g.key ∧
    Recorder.finish g' stop target t.monitor.recorder = .ok T r

/-- The words of values, one after the other. -/
def unboxAll (h : StringHeap) : List Value → StringHeap × List UInt64
  | [] => (h, [])
  | v :: rest =>
    let (h, w) := unbox h v
    let (h, words) := unboxAll h rest
    (h, w :: words)

/-- A pass that ran to the end leads to the back edge: there are no operands, and the locals are what
the slots box to at the types `stop`. -/
structure Loops (units : Units) (s : State) (f : Frame) (rest : List Frame) (header : Int)
    (stop : TypeMap) (e : Env) : Prop where
  edge : ∃ s' s'' l, Within units s s' ∧ step units .standard s' = .ok (.looped header) s'' ∧
    s''.frames = { f with ip := header } :: rest ∧ s''.out = s'.out ∧ Shows s'' f l [] ∧
    l.map traceType? = stop.map some ∧
    ∀ (k : Nat) v ty, l[k]? = some v → stop[k]? = some ty →
      ∃ w, e.slots[k]? = some w ∧ rebox e.heap w ty = .ok v

/-- A pass that left through an exit leads to its offset, with as many operands as it says and with
the values that the snapshot boxes to. -/
structure Exited (units : Units) (s : State) (f : Frame) (rest : List Frame)
    (x : SideExit) (e : Env) :
    Prop where
  reached : ∃ s' l ops, Within units s s' ∧ s'.frames = { f with ip := x.pc } :: rest ∧
    Shows s' f l ops ∧ (ops.length : Int) = x.depth ∧ Restores x e (live l ops)

section Whole

variable {units : Units} {t₀ t : Traced} {f₀ : Frame} {g : Fragment}
  {entry stop : TypeMap} {T : Buffer}

theorem unbox_size (h : StringHeap) (v : Value) : h.size ≤ (unbox h v).1.size := by
  cases v with
  | str s =>
    show h.strings.size ≤ (h.intern s).1.strings.size
    unfold StringHeap.intern
    split
    · exact Nat.le_refl _
    · rw [Array.size_push]
      exact Nat.le_succ _
  | _ => exact Nat.le_refl _

theorem unboxAll_size (h : StringHeap) (vals : List Value) : h.size ≤ (unboxAll h vals).1.size := by
  induction vals generalizing h with
  | nil => exact Nat.le_refl _
  | cons v rest ih => exact Nat.le_trans (unbox_size h v) (ih _)

/-- Every value is represented by its word, once all are in the heap. -/
theorem unboxAll_represents (vals : List Value) {h : StringHeap} (hh : h.Valid)
    (hroom : (unboxAll h vals).1.size < 2 ^ 32)
    (htypes : ∀ v ∈ vals, ∃ ty, traceType? v = some ty) :
    (unboxAll h vals).1.Valid ∧ (unboxAll h vals).1.Extends h ∧
      ∀ (k : Nat) v, vals[k]? = some v → ∃ w, (unboxAll h vals).2[k]? = some w ∧
        Represents (unboxAll h vals).1 v w := by
  induction vals generalizing h with
  | nil => exact ⟨hh, .refl h, nofun⟩
  | cons v rest ih =>
    obtain ⟨ty, hty⟩ := htypes v List.mem_cons_self
    have hsize : h.size ≤ (unboxAll h (v :: rest)).1.size := unboxAll_size h (v :: rest)
    obtain ⟨hvalid, hextends, -, hv⟩ := unbox_represents hh (by omega) hty
    obtain ⟨hvalid', hextends', hrest⟩ := ih hvalid hroom fun u hu =>
      htypes u (List.mem_cons_of_mem v hu)
    refine ⟨hvalid', hextends'.trans hextends, fun k u hk => ?_⟩
    cases k with
    | zero =>
      cases hk
      exact ⟨_, rfl, hv.mono hextends'⟩
    | succ k => exact hrest k u hk

/-- The instruction of a back edge. -/
theorem looped_step {s s' : State} {f : Frame} {rest : List Frame} {c : Chunk}
    {res : StackDepth.Result}
    {i : Nat} {op : Opcode} {l ops : List Value} {header : Int} (h : Orderly s)
    (hn : Next s f rest c res i op l ops)
    (hstep : step units .standard s = .ok (.looped header) s') :
    op = .loop ∧ c.jumpTarget i = header ∧ s'.frames = { f with ip := header } :: rest ∧
      Shows s' f l ops := by
  have hstays : leavesFrame op = false := by
    refine Bool.eq_false_iff.mpr fun hleaves => ?_
    obtain ⟨b, -, -, hop⟩ := hn.poised.step_eq units .standard
    rw [hstep] at hop
    cases executeOp_leaves hleaves hop.symm
  obtain ⟨o, ho⟩ := localStep_isSome hn.poised.whole hn.shows.locals hstays hn.pops_le
  cases o with
  | error detail =>
    have herror := hn.poised.step_local units hn.shows h.valid h.handles (h.fits hn) ho
    rw [hstep] at herror
    cases herror
  | next ip l' ops' event =>
    obtain ⟨s'', hok, hframes, hshows, -, -⟩ := h.goes_on hn units ho
    rw [hstep] at hok
    obtain ⟨rfl, rfl⟩ := EStateM.Result.ok.inj hok
    rcases localStep_quiet ho (.inr ⟨header, rfl⟩) with rfl | rfl | rfl
    · cases ops <;> cases ho
    · cases ho
    · cases ho
      exact ⟨rfl, rfl, hframes, hshows⟩

theorem Begins.chunk (h : Begins t₀ f₀ g entry) : ∃ c, f₀.fn.chunk = some c := by
  obtain ⟨rest, hframes⟩ := h.frame
  obtain ⟨c, res, i, op, l, ops, hn⟩ := h.orderly.next_in hframes
  exact ⟨c, hn.poised.chunk⟩

/-- A pass starts on the words of a state's values. -/
theorem Entered.of_words {fn : Function} {l ops : List Value} {h heap : StringHeap}
    {words : List UInt64} {slots : Array UInt64} (hlocals : (l.length : Int) = fn.locals)
    (htypes : HasTypes l ops entry) (hh : h.Valid)
    (hwords : unboxAll h (live l ops) = (heap, words)) (hroom : heap.size < 2 ^ 32)
    (hslots : words <+: slots.toList) (overflow : Bool) :
    Entered fn entry { overflow, slots, heap } l ops ∧ heap.Extends h := by
  have hspec := unboxAll_represents (live l ops) hh (by rwa [hwords]) fun v hv => by
    obtain ⟨k, hk⟩ := List.mem_iff_getElem?.mp hv
    obtain ⟨ty, -, hty⟩ := htypes.get hk
    exact ⟨ty, hty⟩
  rw [hwords] at hspec
  obtain ⟨hvalid, hextends, hrepresents⟩ := hspec
  refine ⟨⟨rfl, hvalid, hlocals, htypes, fun k v hk => ?_⟩, hextends⟩
  obtain ⟨w, hw, hv⟩ := hrepresents k v hk
  refine ⟨w, ?_, hv⟩
  obtain ⟨more, hmore⟩ := hslots
  rw [← Array.getElem?_toList, ← hmore,
    List.getElem?_append_left (List.getElem?_eq_some_iff.mp hw).1]
  exact hw

/-- Every slot of the entry types has a word. -/
theorem Entered.word {fn : Function} {e : Env} {l ops : List Value} (h : Entered fn entry e l ops)
    {k : Nat} (hk : k < entry.length) : ∃ w, e.slots[k]? = some w := by
  rw [h.types.length, ← length_live] at hk
  obtain ⟨w, hw, -⟩ := h.words k _ (List.getElem?_eq_getElem hk)
  exact ⟨w, hw⟩

/-- The locals are what the slots box to at the types `stop`. -/
structure Boxed (stop : TypeMap) (e : Env) (l : List Value) : Prop where
  length : l.length = stop.length
  slots : ∀ (k : Nat) v, l[k]? = some v → ∃ ty w, stop[k]? = some ty ∧ traceType? v = some ty ∧
    e.slots[k]? = some w ∧ rebox e.heap w ty = .ok v

theorem Boxed.types {e : Env} {l : List Value} (h : Boxed stop e l) :
    l.map traceType? = stop.map some := by
  have hlength := h.length
  refine List.ext_getElem? fun k => ?_
  rw [List.getElem?_map, List.getElem?_map]
  cases hk : l[k]? with
  | none =>
    rw [List.getElem?_eq_none (by have := List.getElem?_eq_none_iff.mp hk; omega)]
    rfl
  | some v =>
    obtain ⟨ty, w, hty, hv, -, -⟩ := h.slots k v hk
    rw [hty, Option.map_some, Option.map_some, hv]

/-- The slots that changed are written back behind a pass that stands beside its recording. -/
theorem Beside.writes {fn : Function} {c : Chunk} {ip₀ ip : Int} {e₀ e : Env}
    {l₀ ops₀ l : List Value} {r : Recorder} {more : List Inst}
    (h : Beside fn c ip₀ e₀ l₀ ops₀ r ip 0 e l []) (hentered : Entered fn entry e₀ l₀ ops₀)
    (hreads : r.params = entry.length) (hlength : stop.length = l₀.length)
    (htypes : ∀ (k : Nat) t, stop[k]? = some t → r.type? k = some t)
    (hmore : ∀ e, e.values.size = r.buffer.size → stop.length ≤ e.slots.size →
      (∀ k : Nat, k < r.params → e.slots[k]? = some (e.word k)) →
      ∃ e', Env.run .standard more e = .on e' ∧ e'.heap = e.heap ∧
        ∀ k ref t, k < stop.length → r.Sees k ref t → e'.slots[k]? = some (e.word ref)) :
    ∃ e', Env.run .standard more e = .on e' ∧ Boxed stop e' l := by
  have hentry := hentered.types.length
  have hroom : stop.length ≤ e.slots.size := by
    rw [h.stays.slots]
    by_cases hempty : stop.length = 0
    · omega
    · obtain ⟨w, hw⟩ := hentered.word (k := stop.length - 1) (by omega)
      have := (Array.getElem?_eq_some_iff.mp hw).1
      omega
  obtain ⟨e', hrun, hheap, hwritten⟩ := hmore e h.stays.size hroom fun k hk => by
    obtain ⟨w, hw⟩ := hentered.word (hreads ▸ hk)
    rw [h.words k hk, h.stays.slots, hw]
    rfl
  have hl := h.locals
  refine ⟨e', hrun, by omega, fun k v hk => ?_⟩
  have hlt := (List.getElem?_eq_some_iff.mp hk).1
  obtain ⟨ref, ty, hsees, hty, hv⟩ := h.stands k v (by
    rwa [live, List.reverse_nil, List.append_nil])
  obtain ⟨ty', hty'⟩ : ∃ ty', stop[k]? = some ty' := ⟨_, List.getElem?_eq_getElem (by omega)⟩
  have htype := hsees.type
  rw [htypes k ty' hty'] at htype
  cases htype
  refine ⟨ty, _, hty', hty, hwritten k ref ty (by omega) hsees, ?_⟩
  rw [hheap]
  exact hv.rebox hty

section

variable {s : State} {f : Frame} {rest : List Frame} {c : Chunk} {l ops : List Value}

/-- The interpreter follows a pass to the back edge. -/
theorem LocalRun.loops {i : Nat} {l' : List Value} {e : Env}
    (h : LocalRun f₀.fn c f₀.ip l ops i l' []) (hs : Orderly s) (hframes : s.frames = f :: rest)
    (hfn : f.fn = f₀.fn) (hip : f.ip = f₀.ip) (hc : f₀.fn.chunk = some c) (hshows : Shows s f l ops)
    (hwhole : Whole f₀.fn c i .loop) (hboxed : Boxed stop e l') :
    Loops units s f rest (c.jumpTarget i) stop e := by
  obtain ⟨s', hwithin, horderly', hframes', hshows'⟩ :=
    h.within units hs hframes hfn hc hip hshows
  have hshown : Shows s' { f with ip := (i : Int) } l' [] := ⟨hshows'.holds, hshows'.locals⟩
  obtain ⟨res, j, op, hn⟩ := horderly'.next_shown hframes' (hfn ▸ hc) hshown
  obtain ⟨s'', hok, hframes'', hshows'', hkept, -⟩ :=
    horderly'.goes_on (hn.of_whole rfl (hfn ▸ hwhole)) units
      (show localStep c .loop i l' [] = some (.next _ l' [] (.looped _)) from rfl)
  refine ⟨s', s'', l', hwithin, hok, hframes'', hkept.out, ⟨hshows''.holds, hshows''.locals⟩,
    hboxed.types, fun k v ty hk hty => ?_⟩
  obtain ⟨ty', w, hty', -, hw, hrebox⟩ := hboxed.slots k v hk
  rw [hty] at hty'
  cases hty'
  exact ⟨w, hw, hrebox⟩

/-- The interpreter follows a pass that has left to the exit. -/
theorem Departed.exited {x : SideExit} {e : Env} {l' ops' : List Value}
    (h : Departed f₀.fn c f₀.ip l ops x e l' ops') (hs : Orderly s)
    (hframes : s.frames = f :: rest) (hfn : f.fn = f₀.fn) (hip : f.ip = f₀.ip)
    (hc : f₀.fn.chunk = some c) (hshows : Shows s f l ops) : Exited units s f rest x e := by
  obtain ⟨s', hwithin, -, hframes', hshows'⟩ := h.run.within units hs hframes hfn hc hip hshows
  exact ⟨s', l', ops', hwithin, hframes', hshows', h.depth, h.restores⟩

end

/-- Recording is right: whatever state of the same types a sealed trace is run on, it ends where the
interpreter gets from that state. -/
theorem recorded_trace_correct (hbegin : Begins t₀ f₀ g entry) (hsession : Session units t₀ t)
    (hclose : Closes units t g stop T) {s : State} {f : Frame} {rest : List Frame}
    {l ops : List Value}
    (hs : Orderly s) (hframes : s.frames = f :: rest) (hfn : f.fn = f₀.fn) (hip : f.ip = f₀.ip)
    (hshows : Shows s f l ops) (htypes : HasTypes l ops entry) (hheap : s.heap.Extends t.state.heap)
    {heap : StringHeap} {words : List UInt64}
    (hwords : unboxAll s.heap (live l ops) = (heap, words))
    {slots : Array UInt64} (hslots : words <+: slots.toList) (hroom : heap.size + T.size < 2 ^ 32)
    (overflow : Bool) :
    match Env.run .standard T.insts.toList { overflow, slots, heap } with
    | .on e => Loops units s f rest g.key.pc stop e
    | .left x e => Exited units s f rest x e
    | .fault _ => False := by
  -- the recording at the back edge
  obtain ⟨c, hc⟩ := hbegin.chunk
  obtain ⟨f₁, l₁, ops₁, habreast⟩ := recording_follows hbegin hsession hc
  obtain ⟨rest₁, hframes₁⟩ := habreast.frame
  obtain ⟨res, i, op, hn⟩ :=
    habreast.orderly.next_shown hframes₁ (habreast.function ▸ hc) habreast.shows
  obtain ⟨f₂, rest₂, s₂, hedge, hframes₂, hstop⟩ := hclose.edge
  obtain ⟨rfl, hheader, hframes₂', hshows₂⟩ := looped_step habreast.orderly hn hedge
  rw [hframes₂] at hframes₂'
  cases hframes₂'
  obtain ⟨rfl, hstop⟩ := entryTypes_ok ⟨hshows₂.holds, hshows₂.locals⟩ hstop
  have hwhole : Whole f₀.fn c i .loop := habreast.function ▸ hn.poised.whole
  have hlength : stop.length = l₁.length := by simpa using (congrArg List.length hstop).symm
  have hlocals₁ : (l₁.length : Int) = f₀.fn.locals := habreast.function ▸ habreast.shows.locals
  have hlocals : (l.length : Int) = f₀.fn.locals := hfn ▸ hshows.locals
  have hsmall : stop.length < 2 ^ 28 := by
    have hsp := hshows.sp_eq
    have hnonneg := hshows.holds.nonneg
    have hfits := hshows.holds.fits
    rw [hs.size, stackSize] at hfits
    omega
  -- the trace: what was recorded, and then the slots that changed
  obtain ⟨g', target, r, -, hfinish⟩ := hclose.sealed
  obtain ⟨hstopTypes, more, hinsts, hfinal⟩ :=
    finish_writes hfinish habreast.wf hsmall habreast.params
    fun k hk => habreast.live k (by rw [List.length_nil]; omega)
  have hTsize : t.monitor.recorder.buffer.size ≤ T.size := by
    have := congrArg List.length hinsts
    rw [List.length_append, Array.length_toList, Array.length_toList] at this
    unfold Buffer.size
    omega
  -- the pass, started on the words of the state
  obtain ⟨hentered, hextends⟩ :=
    Entered.of_words hlocals htypes hs.valid hwords (by omega) hslots overflow
  rw [hinsts, Env.run_append]
  rcases habreast.passes _ l ops hentered (hextends.trans hheap)
      (by show heap.size + _ < _; omega) with
    ⟨e, l', ops', hbeside⟩ | ⟨x, e, l', ops', hgone, hdeparted⟩
  · obtain rfl : ops' = [] := List.eq_nil_of_length_eq_zero hbeside.depth
    obtain ⟨e', hrun, hboxed⟩ :=
      hbeside.writes hentered habreast.reads (by omega) hstopTypes hfinal
    have hrecorded := hbeside.run
    rw [hn.poised.ip] at hrecorded
    rw [hbeside.stays.pass]
    dsimp only
    rw [hrun, ← hheader]
    exact hrecorded.loops hs hframes hfn hip hc hshows hwhole hboxed
  · have hrun := hgone
    unfold Gone at hrun
    rw [hrun]
    exact hdeparted.exited hs hframes hfn hip hc hshows

end Whole

/-! ### Recordings that are run

On a short stack a recording can be run, and it goes the same way on a whole one. -/

section Runs

variable {units : Units} {t₀ t t' : Traced} {g : Fragment} {stop : TypeMap} {T : Buffer}
  {more : Array Value}

/-- One more instruction is recorded, and it does not close a loop. -/
def recordNext (units : Units) (t : Traced) : Option Traced :=
  match step units .standard t.state, tracedStep units .standard 0 t with
  | .ok (.looped _) _, _ => none
  | .ok _ _, .ok () t' =>
    if t.monitor.recording ∧ t'.monitor.recording ∧ t'.state.heap.size < 2 ^ 32 then some t'
    else none
  | _, _ => none

/-- Instructions are recorded, as many as `n`. -/
def recordMany (units : Units) : (n : Nat) → Traced → Option Traced
  | 0, t => some t
  | n + 1, t => (recordMany units n t).bind (recordNext units)

theorem step_above {event : Event} {s s' : State} (h : step units .standard s = .ok event s') :
    step units .standard (s.above more) = .ok event (s'.above more) :=
  (Lifts.bind (fetch_roomy more) fun i => execute_above i more).ok _ _ _ h

theorem Session.next (h : Session units t₀ (t.above more)) (hnext : recordNext units t = some t') :
    Session units t₀ (t'.above more) := by
  unfold recordNext at hnext
  split at hnext
  · cases hnext
  · next event s t₁ hplain hstep htraced =>
    split_ifs at hnext with hrecorded
    cases hnext
    obtain ⟨hbefore, hafter, hroom⟩ := hrecorded
    refine h.step ((tracedStep_above 0 more).ok _ _ _ htraced) (fun header s' hloop => ?_) hbefore
      hafter hroom
    obtain ⟨hevent, -⟩ := EStateM.Result.ok.inj ((step_above hstep).symm.trans hloop)
    exact hplain header hevent
  · cases hnext

theorem Session.many {n : Nat} (h : recordMany units n t = some t') :
    Session units (t.above more) (t'.above more) := by
  induction n generalizing t' with
  | zero =>
    cases h
    exact .refl
  | succ n ih =>
    obtain ⟨t₁, hmany, hnext⟩ := Option.bind_eq_some_iff.mp h
    exact (ih hmany).next hnext

/-- To look at the types of the locals changes nothing. -/
theorem localTypes_same (i : Int) (n : Nat) : Keeps Eq (fun _ => True) (localTypes i n) := by
  induction n generalizing i with
  | zero => exact .pure _
  | succ n ih =>
    refine .bind (fun s => ?_) fun v => ?_
    · unfold KeepsAt read
      split_ifs
      · exact ⟨rfl, trivial⟩
      · cases s.stack[i.toNat]? with
        | none => exact ⟨rfl, trivial⟩
        | some v => rfl
    · cases traceType? v with
      | none => exact .pure _
      | some ty => exact .bind (ih (i + 1)) fun _ => .pure _

theorem entryTypes_same (f : Frame) : Keeps Eq (fun _ => True) (entryTypes f) := by
  refine .bind .get fun s => ?_
  split_ifs
  · exact .pure _
  · exact .bind (.throw trivial) fun _ => localTypes_same _ _
  · exact localTypes_same _ _

/-- The trace that is sealed if the next instruction closes the loop of `g`, the locals having the
types `stop`. -/
def sealAt (units : Units) (g : Fragment) (stop : TypeMap) (t : Traced) : Option Buffer :=
  match step units .standard t.state with
  | .ok (.looped header) s =>
    match s.frames with
    | [] => none
    | f :: _ =>
      match entryTypes f s, Recorder.finish g stop none t.monitor.recorder with
      | .ok types _, .ok T _ => if header = g.key.pc ∧ types = some stop then some T else none
      | _, _ => none
  | _ => none

theorem Closes.of_run (h : sealAt units g stop t = some T) :
    Closes units (t.above more) g stop T := by
  unfold sealAt at h
  split at h
  · next header s hstep =>
    split at h
    · cases h
    · next f rest hframes =>
      split at h
      · next types s' T' r htypes hfinish =>
        split_ifs at h with hedge
        cases h
        obtain ⟨rfl, rfl⟩ := hedge
        obtain rfl := (entryTypes_same f).ok htypes
        exact ⟨⟨f, rest, s.above more, step_above hstep, hframes,
          (entryTypes_roomy f more).ok _ _ _ htypes⟩, g, none, r, rfl, hfinish⟩
      · cases h
  · cases h

end Runs

/-! ### A loop -/

/-- A function with a loop that puts a string on the stack, drops it and adds one to the parameter,
as it is before verification. -/
def countingSource : Function where
  id := 1
  name := "count"
  arity := 1
  locals := 1
  chunk := some
    { code := ⟨#[0, 0, 0, 4, 6, 0, 0, 0, 0, 1, 8, 7, 0, 0, 30, 0, 17]⟩
      constants := #[.str "tick", .int 1] }

def counting : Function := countingSource.verify.1

def countingFrame : Frame := { fn := counting, ip := 0, bp := 1 }

/-- The state at the head of its loop, on a short stack. -/
def countingAt (heap : StringHeap) (n : Int32) : State :=
  { stack := shortStack.set! 1 (.int n), sp := 2, frames := [countingFrame], heap }

def countingLoop : Fragment :=
  { id := 1, key := { code := 1, pc := 0, depth := 1 }, kind := .root, entryTypes := some [.int]
    root := 1 }

theorem counting_verified : ∃ c r, Verified counting c r :=
  Function.verified_of_clean countingSource (by decide +kernel)

section Counting

variable {more : Array Value} (hmore : Spare more)
include hmore

theorem size_countingAt (heap : StringHeap) (n : Int32) :
    ((countingAt heap n).above more).stack.size = stackSize := by
  show (shortStack.set! 1 (.int n) ++ more).size = stackSize
  rw [Array.size_append, Array.size_set!, hmore.size]

theorem counting_orderly {heap : StringHeap} (hheap : heap.Valid) (hsize : heap.size < 2 ^ 32)
    (n : Int32) : Orderly ((countingAt heap n).above more) := by
  obtain ⟨c, r, hv⟩ := counting_verified
  exact ⟨⟨size_countingAt hmore heap n, hheap, hsize⟩, List.cons_ne_nil _ _,
    ⟨⟨c, r, 0, 0, hv, rfl, hv.labelled.first, rfl, Nat.zero_le _⟩, by decide, by decide +kernel,
      by decide +kernel⟩, trivial⟩

theorem counting_shows (heap : StringHeap) (n : Int32) :
    Shows ((countingAt heap n).above more) countingFrame [.int n] [] := by
  have hlocals : countingFrame.fn.locals = 1 := by decide +kernel
  refine ⟨⟨by decide, rfl, ?_, fun k w hk => ?_⟩, hlocals.symm⟩
  · rw [size_countingAt hmore]
    show (2 : Int) ≤ 65536
    decide
  · obtain rfl : k = 0 := by
      have := (List.getElem?_eq_some_iff.mp hk).1
      simp at this
      omega
    cases hk
    exact getElem?_above (s := countingAt heap n) (by rfl)

end Counting

/-- The recorder that has just started on it. -/
def countingRecorder : Recorder :=
  match Recorder.start countingLoop [] [.int] none {} with
  | .ok r => r
  | .error _ => {}

/-- The recording has just begun, the parameter being zero. -/
def countingBegun : Traced where
  state := countingAt {} 0
  monitor := { config := {}, limits := Config.limits {}, cache := default, machine := none
               recorder := countingRecorder }

theorem counting_begins {more : Array Value} (hmore : Spare more) :
    Begins (countingBegun.above more) countingFrame countingLoop [.int] := by
  have htypes : entryTypes countingFrame (countingAt {} 0) = .ok (some [.int]) (countingAt {} 0) :=
    rfl
  exact ⟨counting_orderly hmore StringHeap.valid_default (by decide) 0, ⟨[], rfl⟩, rfl, {}, [], none,
    .new, rfl, .header rfl ((entryTypes_roomy countingFrame more).ok _ _ _ htypes)⟩

/-- How a pass over the trace ends that starts on an int. -/
def countingPass (T : Buffer) (heap : StringHeap) (n : Int32) : Pass :=
  Env.run .standard T.insts.toList { slots := #[n.toInt64.toUInt64], heap }

/-- What comes of recording the loop once. -/
theorem counting_recorded : ∃ t T e x e', recordMany #[] 6 countingBegun = some t ∧
    sealAt #[] countingLoop [.int] t = some T ∧ t.state.heap.size + T.size < 2 ^ 32 ∧
    T.insts.toList.map (·.op) = [.param, .imm, .imm, .addOv, .exitOv, .store, .loop] ∧
    countingPass T t.state.heap 41 = .on e ∧ e.slots.toList = [42] ∧
    countingPass T t.state.heap 2147483647 = .left x e' := by
  have hrun : ((recordMany #[] 6 countingBegun).any fun t =>
      (sealAt #[] countingLoop [.int] t).any fun T =>
        decide (t.state.heap.size + T.size < 2 ^ 32 ∧
          T.insts.toList.map (·.op) = [.param, .imm, .imm, .addOv, .exitOv, .store, .loop]) &&
        ((countingPass T t.state.heap 41).on?.any fun e => decide (e.slots.toList = [42])) &&
        (countingPass T t.state.heap 2147483647).left?.isSome) = true := by
    decide +kernel
  obtain ⟨t, hrecord, hrest⟩ := (Option.any_eq_true _ _).mp hrun
  obtain ⟨T, hseal, hfacts⟩ := (Option.any_eq_true _ _).mp hrest
  rw [Bool.and_eq_true, Bool.and_eq_true, decide_eq_true_eq] at hfacts
  obtain ⟨⟨⟨hroom, hops⟩, hstays⟩, hleaves⟩ := hfacts
  obtain ⟨e, hon, hslots⟩ := (Option.any_eq_true _ _).mp hstays
  obtain ⟨⟨x, e'⟩, hleft⟩ := Option.isSome_iff_exists.mp hleaves
  exact ⟨t, T, e, x, e', hrecord, hseal, hroom, hops, Pass.on?_eq_some.mp hon,
    of_decide_eq_true hslots, Pass.left?_eq_some.mp hleft⟩

/-- Recorded with the parameter zero, the trace is right where it is 41 and where adding one to it
leaves 32 bits. -/
theorem counting_trace_loops : ∃ more t T e x e', Spare more ∧
    Begins (countingBegun.above more) countingFrame countingLoop [.int] ∧
    Session #[] (countingBegun.above more) t ∧ Closes #[] t countingLoop [.int] T ∧
    T.insts.toList.map (·.op) = [.param, .imm, .imm, .addOv, .exitOv, .store, .loop] ∧
    countingPass T t.state.heap 41 = .on e ∧ e.slots.toList = [42] ∧
    Loops #[] ((countingAt t.state.heap 41).above more) countingFrame [] 0 [.int] e ∧
    countingPass T t.state.heap 2147483647 = .left x e' ∧
    Exited #[] ((countingAt t.state.heap 2147483647).above more) countingFrame [] x e' := by
  obtain ⟨more, hmore⟩ := exists_spare
  obtain ⟨t, T, e, x, e', hrecord, hseal, hroom, hops, hon, hslots, hleft⟩ :=
    counting_recorded
  have hsession : Session #[] (countingBegun.above more) (t.above more) := .many hrecord
  have hcloses : Closes #[] (t.above more) countingLoop [.int] T := .of_run hseal
  obtain ⟨c, hc⟩ : ∃ c, countingFrame.fn.chunk = some c := by
    obtain ⟨c, r, hv⟩ := counting_verified
    exact ⟨c, hv.chunk⟩
  obtain ⟨_, _, _, habreast⟩ := recording_follows (counting_begins hmore) hsession hc
  have hpass : ∀ n : Int32, match countingPass T t.state.heap n with
      | .on e => Loops #[] ((countingAt t.state.heap n).above more) countingFrame [] 0 [.int] e
      | .left x e => Exited #[] ((countingAt t.state.heap n).above more) countingFrame [] x e
      | .fault _ => False := by
    intro n
    have hwords : unboxAll t.state.heap (live [.int n] []) =
      (t.state.heap, [n.toInt64.toUInt64]) := rfl
    have hcorrect := recorded_trace_correct (counting_begins hmore) hsession hcloses
      (counting_orderly hmore habreast.orderly.valid habreast.orderly.handles n)
      (show _ = countingFrame :: [] from rfl) rfl rfl (counting_shows hmore t.state.heap n)
      (show HasTypes [.int n] [] [.int] from rfl) (.refl t.state.heap) hwords
      (List.prefix_refl [n.toInt64.toUInt64]) hroom false
    exact hcorrect
  have h₁ := hpass 41
  have h₂ := hpass 2147483647
  rw [hon] at h₁
  rw [hleft] at h₂
  exact ⟨more, t.above more, T, e, x, e', hmore, counting_begins hmore, hsession, hcloses, hops, hon,
    hslots, h₁, hleft, h₂⟩

end LoopTracer.Interp
