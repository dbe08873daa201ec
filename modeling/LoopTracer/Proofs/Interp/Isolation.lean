import LoopTracer.Proofs.Interp.Histories

/-! Whose code is entered at a loop.

The monitor knows a loop by the number of its function, the place of its head and the depth of
calls. So what is entered at a loop was recorded from a function with the same number, at the same
place and depth (`entered_code_source`). As long as all loaded functions have different numbers, it
is the function's own loop that was recorded. Programs number their functions by themselves, so that
this need not hold when several are loaded. -/
namespace LoopTracer.Interp

open Bytecode Trace Monitor

variable {units : Units} {config : Config} {moves : List Move} {running : Bool} {t t' : Traced}

/-- No two loaded functions have the same number. -/
def Distinct (units : Units) : Prop :=
  ∀ ref ref' fn fn', units.function? ref = some fn → units.function? ref' = some fn' →
    fn.id = fn'.id → fn = fn'

/-- A fragment is one of a loop of `fn`: it was recorded from a loaded function with the number of
`fn`, and from `fn` itself if all loaded functions have different numbers. -/
def Recalls (units : Units) (moves : List Move) (f : Fragment) (fn : Function)
    (key : LoopKey) : Prop :=
  ∃ source ref, units.function? ref = some source ∧ source.id = fn.id ∧
    Made units moves f.id source key ∧
    (Distinct units → source = fn)

/-- A fragment that the monitor has for a loop was recorded from that loop. -/
theorem enter_begun {V : Immediate → Prop} {B : FragmentId → LoopKey → Prop} {m : Monitor}
    (h : Accounted V B m)
    {key : LoopKey} {types : TypeMap} {f : Fragment}
    (hf : m.enter? key types = some f) : B f.id key := by
  unfold Monitor.enter? at hf
  split_ifs at hf
  obtain ⟨id, hid, hf⟩ := Option.bind_eq_some_iff.mp hf
  obtain ⟨root, hroot, hf⟩ := Option.bind_eq_some_iff.mp hf
  obtain ⟨f', hpeer, hf⟩ := Option.bind_eq_some_iff.mp hf
  obtain ⟨hexecutable, rfl⟩ : f'.executable = true ∧ f' = f := by
    split_ifs at hf with hexecutable
    exact ⟨hexecutable, Option.some.inj hf⟩
  obtain ⟨root', hroot', hkind, rfl⟩ := h.filed.roots hid
  rw [hroot] at hroot'
  cases hroot'
  obtain ⟨hfound, hkind', hkey⟩ := findPeer_filed h.filed hroot hkind hpeer
  have hfiled := h.filed.fragments hfound
  rw [← hkey]
  exact hfiled.begun hkind' (hfiled.traced (by simpa [Fragment.executable] using hexecutable))

theorem Completes.code {move : Move} {fn : Function} {key : LoopKey}
    (h : Completes units move fn key) : key.code = fn.id := by
  obtain ⟨_, _, _, _, -, -, -, rfl⟩ := h
  rfl

theorem Made.code {id : FragmentId} {fn : Function} {key : LoopKey}
    (h : Made units moves id fn key) : key.code = fn.id :=
  let ⟨_, _, _, _, _, hcloses⟩ := h
  hcloses.code

/-- What is entered at a loop edge was recorded from a function with the same number. -/
theorem Upheld.recalls (h : Upheld units moves running t) {i : Fetched}
    {header : Int} {t₁ t₂ : Traced}
    (hcarried : Carried units t i (.looped header) t₁) {f : Fragment}
    (henters : Enters (edgeKey i header t₁) t₁ f t₂) :
    Recalls units (⟨t, t'⟩ :: moves) f i.frame.fn (edgeKey i header t₁) := by
  have ha : Accounted (Known units (⟨t, t'⟩ :: moves))
      (Sourced units (⟨t, t'⟩ :: moves)) t.monitor :=
    h.accounted.mono (fun _ hv => hv.later _) fun _ _ hb => hb.later _
  obtain ⟨types, hfound⟩ := henters.found
  obtain ⟨fn, ref, hfn, hmade⟩ :=
    enter_begun (henters.settled.accounted (hcarried.accounted ha) (h.sourced hcarried)) hfound
  have hid : fn.id = i.frame.fn.id := hmade.code.symm
  refine ⟨fn, ref, hfn, hid, hmade, fun hdistinct => ?_⟩
  obtain ⟨-, hedge⟩ := hcarried.looped h.accounted.helpers h.heap t'
  obtain ⟨f₀, rest, hframes, hrunning⟩ := hedge.runs
  obtain ⟨ref', hloaded⟩ := h.loaded f₀ (hframes ▸ List.mem_cons_self)
  exact hdistinct _ _ _ _ hfn (hrunning ▸ hloaded) hid

/-- What happens where an instruction closes a loop, in any calls on one machine with a monitor: the
loop goes on without compiled code, or a fragment is entered that was recorded from one edge of this
loop to the next, all in a function with the number of the running one. That is the running function
itself if all loaded functions have different numbers. -/
theorem entered_code_source (h : Watched units config moves running t) {i : Fetched}
    {header : Int} {t₁ : Traced}
    (hcarried : Carried units t i (.looped header) t₁) (fuel : Nat) :
    Ensures (Apart fun stop t' => ∃ f t₂, Enters (edgeKey i header t₁) t₁ f t₂ ∧
      WentWrong fuel f t₂ stop t' ∧
        Recalls units (⟨t, t'⟩ :: moves) f i.frame.fn (edgeKey i header t₁))
      (loopEdge fuel i header) t₁ fun _ t' =>
        (Aside t₁.state t'.state ∧ ∃ m, Settled (edgeKey i header t₁) t₁.monitor m ∧
          (t'.monitor = m ∨ ∃ types b, Monitor.loopEdge (edgeKey i header t₁) types m =
            .ok b t'.monitor)) ∨
        ∃ f t₂, Enters (edgeKey i header t₁) t₁ f t₂ ∧ Crossed fuel f t₂ t' ∧
          Recalls units (⟨t, t'⟩ :: moves) f i.frame.fn (edgeKey i header t₁) := by
  refine ((loopEdge_rounds i header).mono fun _ t' hrounded => ?_).stops
    fun stop t' hderailed hplain => ?_
  · cases hrounded with
    | plain hstate hsettled => exact .inl ⟨hstate, _, hsettled, .inl rfl⟩
    | counted hstate hsettled hcount => exact .inl ⟨hstate, _, hsettled, .inr ⟨_, _, hcount⟩⟩
    | entered henters hcrossed =>
      exact .inr ⟨_, _, henters, hcrossed, h.upheld.recalls hcarried henters⟩
  · obtain ⟨f, t₂, henters, hwrong⟩ := hderailed hplain
    exact ⟨f, t₂, henters, hwrong, h.upheld.recalls hcarried henters⟩

/-- Compiled code that goes wrong was entered at a loop edge. -/
theorem tracedStep_derails {fuel : Nat} {stop : TracedStop} (hderails : Derails stop)
    (h : tracedStep units t.monitor.helpers fuel t = .error stop t') :
    ∃ i header t₁, Carried units t i (.looped header) t₁ ∧
      loopEdge fuel i header t₁ = .error stop t' := by
  obtain ⟨function, pc, e, rfl⟩ := hderails
  have hhalted := (ensures_error h).mp (tracedStep_steps t) nofun
  cases hhalted with
  | derailed hcarried _ hedge => exact ⟨_, _, _, hcarried, hedge⟩

/-- How the next instruction ends if compiled code goes wrong in it. -/
def derailed? (units : Units) (fuel : Nat) (t : Traced) : Option (TracedStop × Traced) :=
  match tracedStep units t.monitor.helpers fuel t with
  | .error (.trace function pc e) t' => some (.trace function pc e, t')
  | _ => none

theorem derailed?_eq_some {fuel : Nat} {stop : TracedStop}
    (h : derailed? units fuel t = some (stop, t')) :
    Derails stop ∧ tracedStep units t.monitor.helpers fuel t = .error stop t' := by
  unfold derailed? at h
  split at h
  · next function pc e t₁ hstep =>
    cases h
    exact ⟨⟨function, pc, e, rfl⟩, hstep⟩
  · cases h

theorem counting_only {ref : FuncRef} {fn : Function} (h : countingUnits.function? ref = some fn) :
    fn = counting := by
  obtain ⟨p, hp, hfn⟩ := Option.bind_eq_some_iff.mp h
  obtain rfl := Array.mem_singleton.mp (Array.mem_of_getElem? hp)
  dsimp only at hfn
  split at hfn
  · cases hfn
    exact Array.mem_singleton.mp (Array.getElem_mem _)
  · cases hfn

theorem counting_distinct : Distinct countingUnits := fun _ _ _ _ hfn hfn' _ =>
  (counting_only hfn).trans (counting_only hfn').symm

/-- The theorem where a loop was compiled and is entered, and the compiled code is stopped as it takes
too many steps: it was recorded from this loop. -/
theorem counting_enters : ∃ moves t i header t₁ stop t' f t₂,
    Watched countingUnits eager moves true t ∧ Carried countingUnits t i (.looped header) t₁ ∧
    loopEdge 100 i header t₁ = .error stop t' ∧ Enters (edgeKey i header t₁) t₁ f t₂ ∧
    WentWrong 100 f t₂ stop t' ∧ i.frame.fn = counting ∧
    Made countingUnits (⟨t, t'⟩ :: moves) f.id counting (edgeKey i header t₁) := by
  obtain ⟨more, hmore⟩ := exists_spare
  have hrun :
      ((countingRun 10 0 13).any fun t => (derailed? countingUnits 100 t).isSome) = true := by
    decide +kernel
  obtain ⟨t, hcounting, hderails⟩ := (Option.any_eq_true _ _).mp hrun
  obtain ⟨moves, hwatched⟩ := countingRun_watched hmore hcounting
  obtain ⟨⟨stop, t'⟩, hderailed⟩ := Option.isSome_iff_exists.mp hderails
  obtain ⟨hwrong, hstep⟩ := derailed?_eq_some hderailed
  obtain ⟨i, header, t₁, hcarried, hedge⟩ :=
    tracedStep_derails hwrong ((tracedStep_above 100 more).error _ _ _ hwrong hstep)
  have happart : Apart _ stop (t'.above more) :=
    (ensures_error hedge).mp (entered_code_source hwatched hcarried 100)
  obtain ⟨function, pc, e, rfl⟩ := hwrong
  obtain ⟨f, t₂, henters, hwent, source, ref, hfn, -, hmade, hsame⟩ := happart nofun
  obtain rfl := counting_only hfn
  exact ⟨moves, t.above more, i, header, t₁, _, _, f, t₂, hwatched, hcarried, hedge, henters,
    hwent, (hsame counting_distinct).symm, hmade⟩

end LoopTracer.Interp
