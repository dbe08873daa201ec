import LoopTracer.Proofs.Interp.Histories

/-! String constants in compiled code.

A trace holds a string constant by its handle, and so do the exits of compiled code. The heap
forgets strings again, those of builtins and of runs of compiled code, and gives their handles to
others. But what it forgets was added after the constants that a recorder was told, so that their
handles stay theirs (`string_constants_stay`). -/
namespace LoopTracer.Interp

open Bytecode Trace Monitor

/-- The immediates that hold a handle for compiled code or for a recording: those in the trace of
a compiled fragment, those among the places of the values at its exits, and those in the trace
being recorded. -/
inductive Depends (m : Monitor) : Immediate → Prop
  | traced {id : FragmentId} {f : Fragment} {b : Buffer} {i : Inst}
      (hf : m.cache.cached? id = some f)
      (hstate : f.state = .compiled) (hb : f.trace = some b) (hi : i ∈ b.insts)
      (hptr : i.imm.kind = .ptr) :
      Depends m i.imm
  | placed {id : FragmentId} {f : Fragment} {g : GuardId} {r : Guard}
      {l : SlotLocation} {v : Immediate}
      (hf : m.cache.cached? id = some f) (hstate : f.state = .compiled) (hg : g ∈ f.guards)
      (hr : m.cache.guards[g]? = some r) (hl : l ∈ (m.cache.exitOf r).locations)
      (hv : l.place = .immediate v)
      (hptr : v.kind = .ptr) : Depends m v
  | recorded {i : Inst} (hrecording : m.recording = true) (hi : i ∈ m.recorder.buffer.insts)
      (hptr : i.imm.kind = .ptr) :
      Depends m i.imm

variable {units : Units} {config : Config} {moves : List Move} {running : Bool} {t t' : Traced}

/-- Nothing depends on a handle that was not told. -/
theorem Depends.known {V : Immediate → Prop} {B : FragmentId → LoopKey → Prop}
    {m : Monitor} {v : Immediate}
    (h : Depends m v) (ha : Accounted V B m) : V v := by
  cases h with
  | traced hf _ hb hi hptr =>
    exact ((ha.filed.fragments (FragmentCache.fragment?_of_cached hf)).vouched _ hb _ hi).handle
      hptr
  | @placed id f g r l v hf _ _ hr hl hv hptr =>
    unfold FragmentCache.exitOf at hl
    cases he : m.cache.exits[r.exit]? with
    | none =>
      rw [he] at hl
      cases hl
    | some e =>
      rw [he] at hl
      exact ha.filed.exits.places e (Array.mem_of_getElem? he) l hl v hv hptr
  | recorded _ hi hptr => exact (ha.trace _ hi).handle hptr

/-- A constant that was told has its handle as long as there are no more strings than handles. -/
theorem Upheld.lookup (h : Upheld units moves running t) (hsize : t.state.heap.size ≤ 2 ^ 32)
    {handle : Handle} {text : Text}
    (htold : Told units moves handle text) :
    handle.toNat < t.state.heap.size ∧ t.state.heap.lookup handle = .ok text := by
  obtain ⟨k, hk, rfl⟩ := h.told handle text htold
  have hlt : k < t.state.heap.size := (Array.getElem?_eq_some_iff.mp hk).1
  have hplace : k.toUInt32.toNat = k := UInt32.toNat_ofNat_of_lt' (Nat.lt_of_lt_of_le hlt hsize)
  rw [StringHeap.lookup_eq_ok_iff, hplace]
  exact ⟨hlt, hk⟩

/-- Compiled code that was left through a guard leaves the heap with the strings that it had. -/
theorem Crossed.strings {fuel : Nat} {f : Fragment} (h : Crossed fuel f t t')
    (hh : t.monitor.helpers = .standard)
    (hi : t.state.heap.Indexed) : t'.state.heap.strings = t.state.heap.strings := by
  obtain ⟨g, m, b, hvisited, -, hheap⟩ := h.left
  rw [hheap]
  exact (StringHeap.truncate_grown (hvisited.ran hh).2 hi).2

/-- What stops a call, other than compiled code that went wrong, leaves the heap with the strings
that it had. -/
theorem Halted.strings {fuel : Nat} {stop : TracedStop} (h : Halted units fuel t stop t')
    (hplain : ∀ function pc e, stop ≠ .trace function pc e) (hh : t.monitor.helpers = .standard)
    (hi : t.state.heap.Indexed) : t'.state.heap.strings = t.state.heap.strings := by
  have hfetches : Keeps (Regular units) (fun _ => True) fetch := keeps_fetch
  cases h with
  | unfetched hfetch => exact ((hfetches.error hfetch).1 hi).2.1
  | failed hfetch _ _ hexecute =>
    rw [hh] at hexecute
    exact (trans_of (Regular units) (hfetches.ok hfetch)
      ((execute_regular _).error hexecute).1 hi).2.1
  | derailed _ hderailed =>
    obtain ⟨f, t₂, -, hwrong⟩ := hderailed
    obtain ⟨_, _, _, hstop, -⟩ := hwrong.trace
    exact absurd hstop (hplain _ _ _)

/-- Compiled code goes wrong at loop edges only. -/
theorem Halted.not_derailed {fuel : Nat} {stop : TracedStop} (h : Halted units fuel t stop t')
    {i : Fetched} {s : State}
    (hfetch : fetch t.state = .ok i s) (hop : Opcode.ofByte? i.byte = some .builtin)
    {function : Text} {pc : Int}
    {e : MonitorError} (hstop : stop = .trace function pc e) : False := by
  cases h with
  | unfetched => cases hstop
  | failed => cases hstop
  | derailed hcarried =>
    obtain ⟨s', hfetch', hexecute⟩ := hcarried.executed
    rw [show fetch t.state = _ from hfetch] at hfetch'
    cases hfetch'
    obtain ⟨op, hop', hfits⟩ := execute_fits hexecute
    obtain rfl : op = .loop := hfits
    cases hop.symm.trans hop'

/-- A builtin tells no constant. -/
theorem not_tells_builtin {i : Fetched} {s : State} (hfetch : fetch t.state = .ok i s)
    (hop : Opcode.ofByte? i.byte = some .builtin) {handle : Handle} {text : Text} :
    ¬ Tells units ⟨t, t'⟩ handle text := by
  rintro ⟨-, i', s', s'', hfetch', hexecute, -⟩
  rw [show fetch t.state = _ from hfetch] at hfetch'
  cases hfetch'
  obtain ⟨op, hop', hfits⟩ := execute_fits hexecute
  obtain rfl := Option.some.inj (hop.symm.trans hop')
  rcases hfits with ⟨hconst, -⟩ | ⟨hplain, -⟩
  · cases hconst
  · rcases hplain with hplain | hplain | hplain <;> cases hplain

/-- String constants in compiled code stay valid. Between any two instructions of any calls on one
machine with a monitor, whatever compiled code or the recorder holds the handle of was told to the
recorder, and every handle that was ever told still is the handle of that very constant, as long as
the heap has no more strings than there are handles. Builtins, whether they succeed or fail, and
runs of compiled code leave no strings behind: the heap grows only by a string constant that is
reported while something is being recorded. -/
theorem string_constants_stay (h : Watched units config moves running t) :
    (∀ v, Depends t.monitor v → ∃ text, Told units moves v.handle text) ∧
    (t.state.heap.size ≤ 2 ^ 32 → ∀ handle text, Told units moves handle text →
      handle.toNat < t.state.heap.size ∧ t.state.heap.lookup handle = .ok text) ∧
    (∀ i s, fetch t.state = .ok i s → Opcode.ofByte? i.byte = some .builtin → ∀ fuel,
      Ensures (Apart fun _ t' => t'.state.heap.size = t.state.heap.size)
        (tracedStep units t.monitor.helpers fuel) t
        fun _ t' => t'.state.heap.size = t.state.heap.size) ∧
    (∀ fuel frame f t', enter fuel frame f t = .ok () t' → t'.state.heap.size = t.state.heap.size) ∧
    (∀ fuel t', tracedStep units t.monitor.helpers fuel t = .ok () t' →
      t'.state.heap.strings = t.state.heap.strings ∨
      ∃ handle text, Tells units ⟨t, t'⟩ handle text ∧
        t'.state.heap.strings = t.state.heap.strings.push text) ∧
    (∀ fuel stop t', tracedStep units t.monitor.helpers fuel t = .error stop t' →
      (∀ f, stop ≠ .plain (.fault f)) →
      (∀ function pc e, stop ≠ .trace function pc e) →
      t'.state.heap.strings = t.state.heap.strings) := by
  have hup := h.upheld
  have hh := hup.accounted.helpers
  have hlength : ∀ {s' : State}, s'.heap.strings = t.state.heap.strings →
      s'.heap.size = t.state.heap.size := fun hs =>
    congrArg Array.size hs
  refine ⟨fun v hv => hv.known hup.accounted, fun hsize handle text htold => hup.lookup hsize htold,
    fun i s hfetch hop fuel => ?_, fun fuel frame f t' henter => ?_, fun fuel t' hstep => ?_,
    fun fuel stop t' hstep hfault hplain => ?_⟩
  · refine ((tracedStep_steps t).mono fun _ t' hstepped => ?_).stops fun stop t' hhalted hfault =>
      ?_
    · obtain ⟨-, ⟨-, hsame⟩ | ⟨handle, text, htells, -⟩⟩ := hstepped.heap hup.anyhow hup.heap
      · exact hlength hsame
      · exact absurd htells (not_tells_builtin hfetch hop)
    · refine hlength ((hhalted hfault).strings (fun function pc e hstop => ?_) hh hup.heap)
      exact (hhalted hfault).not_derailed hfetch hop hstop
  · exact hlength (((ensures_ok henter).mp (enter_enters frame f)).strings hh hup.heap)
  · obtain ⟨-, ⟨-, hsame⟩ | ⟨handle, text, htells, hsame | hpush, -⟩⟩ :=
      ((ensures_ok hstep).mp (tracedStep_steps t)).heap hup.anyhow hup.heap
    · exact .inl hsame
    · exact .inl hsame
    · exact .inr ⟨handle, text, htells, hpush⟩
  · exact ((ensures_error hstep).mp (tracedStep_steps t) hfault).strings hplain hh hup.heap

/-- The theorem where a loop with a string constant was compiled, entered, and left because its
counter does not fit any more: the trace still has the handle of the constant. -/
theorem counting_handles : ∃ moves t f b i, Watched countingUnits eager moves true t ∧
    t.state.counters.sideExits = 1 ∧ t.monitor.cache.cached? 1 = some f ∧ f.state = .compiled ∧
    f.trace = some b ∧ i ∈ b.insts ∧ i.imm.kind = .ptr ∧
    Told countingUnits moves i.imm.handle "tick" ∧
    t.state.heap.lookup i.imm.handle = .ok "tick" := by
  obtain ⟨more, hmore⟩ := exists_spare
  have hrun : ((countingRun 0 2147483645 14).any fun t =>
      decide (t.state.counters.sideExits = 1 ∧ t.state.heap.size ≤ 2 ^ 32) &&
      (t.monitor.cache.cached? 1).any fun f => decide (f.state = .compiled) &&
      f.trace.any fun b => b.insts.any fun i => decide (i.imm.kind = .ptr ∧
        (t.state.heap.lookup i.imm.handle).toOption = some "tick")) = true := by
    decide +kernel
  obtain ⟨t, hcounting, hfacts⟩ := (Option.any_eq_true _ _).mp hrun
  rw [Bool.and_eq_true, decide_eq_true_eq, Option.any_eq_true] at hfacts
  obtain ⟨⟨hexits, hsize⟩, f, hf, hcompiled⟩ := hfacts
  rw [Bool.and_eq_true, decide_eq_true_eq, Option.any_eq_true] at hcompiled
  obtain ⟨hstate, b, hb, hinsts⟩ := hcompiled
  obtain ⟨i, hi, himm⟩ := Array.any_eq_true'.mp hinsts
  obtain ⟨hptr, htick⟩ := of_decide_eq_true himm
  obtain ⟨moves, hwatched⟩ := countingRun_watched hmore hcounting
  obtain ⟨hdepends, htold, -⟩ := string_constants_stay hwatched
  obtain ⟨text, htext⟩ := hdepends i.imm (.traced hf hstate hb hi hptr)
  have hlookup : t.state.heap.lookup i.imm.handle = .ok text := (htold hsize _ text htext).2
  obtain rfl : text = "tick" := by
    rw [hlookup] at htick
    exact Option.some.inj htick
  exact ⟨moves, t.above more, f, b, i, hwatched, hexits, hf, hstate, hb, hi, hptr, htext, hlookup⟩

end LoopTracer.Interp
