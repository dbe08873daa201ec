import LoopTracer.Proofs.Compile.Delivery
import LoopTracer.Proofs.Monitor.CodeRegion

/-! Compiling a recorded trace.

Whatever was recorded and sealed is compiled, or one of the limits is exceeded: then the region and
the cache are as they were before, but for bytes of free pages (`assembly_fails_cleanly`). -/
namespace LoopTracer.Monitor

open Trace Compile Machine

variable {config : Config} {m : Monitor} {c c' : FragmentCache}

/-- A page is free. -/
def IsFree (r : CodePages) (n : Nat) : Prop := ∃ p, r.pages[n]? = some p ∧ p.kind = .free

/-- The bytes of a page are the same. -/
def SameBytes (r r' : CodePages) (n : Nat) : Prop :=
  ∀ a, a / r.bytes = n → r'.mem.get? a = r.mem.get? a

/-- What is free is free again, and nothing else was touched. -/
structure Untouched (c c' : FragmentCache) : Prop where
  free : ∀ n, IsFree c'.region n ↔ IsFree c.region n
  count : c'.region.freeCount = c.region.freeCount
  bytes : ∀ n, ¬ IsFree c.region n → SameBytes c.region c'.region n
  pages : ∀ n, ¬ IsFree c.region n → c'.region.pages[n]? = c.region.pages[n]?
  roots : c'.roots = c.roots
  fragments : c'.fragments = c.fragments
  guards : c'.guards = c.guards
  registered : c'.registered = c.registered

/-- The pages that were taken are those of the compiled trace, and no other page was written to. -/
structure Delivered (a : Assembly) (c c' : FragmentCache) : Prop where
  pages : ∀ n, n ∈ a.mainPages ++ a.exitPages ↔ IsFree c.region n ∧ ¬ IsFree c'.region n
  bytes : ∀ n, n ∉ a.mainPages ++ a.exitPages → SameBytes c.region c'.region n

/-- Compiling the trace of a fragment stops at an error, and this is what it has come to. -/
def StopsAt (c : FragmentCache) (limits : Limits) (f : Fragment) (b : Buffer) (e : CompileError)
    (s : Assembler) : Prop :=
  Assembler.wholeTrace (jobOf limits .standard f (f.treeTarget.bind c.fragment?) b)
    (startOf limits b { region := c.region, guardCount := c.guardCount, exits := c.exits }) =
      .error (.error e) s

theorem isFree_iff {r : CodePages} {l : List Nat} (hf : r.Frees l) (n : Nat) : IsFree r n ↔ n ∈ l :=
  ⟨fun ⟨p, hp, hkind⟩ => hf.all n p hp hkind, fun hn => hf.linked.kind hn⟩

/-- A region that was made for a configuration is laid out, if it is small. -/
theorem laid_of_tended {permitted : Monitor → Operation → Prop} (h : Reached permitted config m)
    (hsmall : Small config)
    (hregion : CodePages.Tended m.cache.region c.region) :
    c.region.Laid ∧ c.region.pageSize = config.pageSize ∧ ∃ l, c.region.Frees l := by
  obtain ⟨haccounted, hspacious⟩ := h.spacious
  have hruled := haccounted.filed.region
  have hruled' := hruled.tended hregion
  have hspacious' := hspacious.tended hruled hregion
  unfold Small at hsmall
  have hsized := hspacious'.sized hruled' (by omega)
  have hsize := hsized.size
  rw [hspacious'.size, hspacious'.pageSize] at hsize
  exact ⟨⟨hsized, by omega⟩, hspacious'.pageSize, hruled'.frees⟩

section assemble

variable {limits : Limits} {helpers : HelperTable} {f : Fragment} {l : List Nat}
  (hf : c.region.Frees l)
  (hlaid : c.region.Laid)
include hf hlaid

/-- Compiling that is given up leaves no trace. -/
theorem untouched_of_error {e : CompileError}
    (h : c.assemble limits helpers f = .error (.compile e) c') : Untouched c c' := by
  rw [FragmentCache.assemble_eq] at h
  split at h
  · cases h
  · next e' shop herror =>
    cases h
    rcases assemble_error hf herror with ⟨fault, hfault, -⟩ | ⟨-, hbeside, ⟨l', hf', hperm⟩, -⟩
    · cases hfault
    have hfree := isFree_iff hf
    refine ⟨fun n => ?_, ?_, fun n hn a ha => ?_, fun n hn => ?_, rfl, rfl, rfl, rfl⟩
    · rw [hfree]
      exact (isFree_iff hf' n).trans hperm.mem_iff
    · exact hf'.count.trans (hperm.length_eq.trans hf.count.symm)
    · exact (hbeside.memory hlaid).2.2 a fun hin => hn ((hfree n).mpr (ha ▸ hin))
    · exact hbeside.others n fun hin => hn ((hfree n).mpr hin)

/-- What is compiled lies on pages that were free, and nowhere else. -/
theorem delivered_of_ok {a : Assembly}
    (h : c.assemble limits helpers f = .ok a c') : Delivered a c c' := by
  rw [FragmentCache.assemble_eq] at h
  split at h
  · next a' shop hok =>
    cases h
    obtain ⟨l', hf', hperm⟩ := (assemble_ok hf hok).frees
    have hnodup := hperm.nodup_iff.mpr hf.nodup
    refine ⟨fun n => ?_, fun n hn adr hadr => ?_⟩
    · rw [isFree_iff hf, show IsFree (c.rebased shop).region n ↔
        n ∈ l' from isFree_iff hf' n, ← hperm.mem_iff,
        List.mem_append (t := l')]
      refine ⟨fun hin => ⟨.inl hin, fun hin' => ?_⟩, fun ⟨hor, hnot⟩ => hor.resolve_right hnot⟩
      exact (List.nodup_append.mp hnodup).2.2 n hin n hin' rfl
    · exact assemble_confined hf hlaid hok adr (hadr ▸ hn)
  · cases h

end assemble

/-- A trace that was recorded and sealed has all that it needs. -/
theorem offers_of_wellFormed {entry stop : TypeMap} {locals : Nat} {last : TraceOp}
    {value : Nat → Option Ref} {b : Buffer}
    (h : b.WellFormed entry stop locals last value) (hsupplied : ∀ i ∈ b.insts, i.Supplied)
    {limits : Limits} {f : Fragment}
    {target : Option Fragment} (k : Nat) (i : Inst) (hi : b.insts[k]? = some i) :
    (jobOf limits .standard f target b).Offers k i :=
  ⟨hi, (h.fits k i hi).known, (h.fits k i hi).uses, hsupplied i (Array.mem_of_getElem? hi)⟩

/-- Whatever was recorded and sealed is compiled, or a limit is exceeded where compiling has come to
and the error says which; no fault stops compiling, and a register is always had. What is compiled
lies on pages that were free, and no other byte has changed. Where a limit is exceeded, the pages
that were free are free again, the bytes of all others are as they were, and so are the fragments,
the loops and the guards that the cache knows. -/
theorem assembly_fails_cleanly {permitted : Monitor → Operation → Prop}
    (hconfig : config.validate = .ok ())
    (hsmall : Small config)
    (htables : Registers.canHave config.maxReservations config.maxSpillSlots = true)
    (hm : Reached permitted config m) (hregion : CodePages.Tended m.cache.region c.region)
    {r r₁ r₂ r₃ : Recorder} (hr : r.Used) {begun : Fragment} {rootTypes entry : TypeMap}
    {anchor : Option (Guard × ExitRecord)}
    (hstart : r.start begun rootTypes entry anchor = .ok r₁) {maxLength : Int}
    {ps : List Primitive} (hnamed : ∀ p ∈ ps, p.Named)
    (hrecord : ps.forM (Recorder.record .standard maxLength) r₁ = .ok () r₂)
    {ended : Fragment} {stop : TypeMap}
    {target : Option Fragment} {b : Buffer}
    (hfinish : Recorder.finish ended stop target r₂ = .ok b r₃)
    {f : Fragment} (htrace : f.trace = some b)
    (htarget : ended.kind = .branch → ∃ t, f.treeTarget.bind c.fragment? = some t ∧
      t.executable = true) :
    (∃ a c', c.assemble config.limits .standard f = .ok a c' ∧ Delivered a c c') ∨
    ∃ e c', c.assemble config.limits .standard f = .error (.compile e) c' ∧ Untouched c c' ∧
      (∃ s, StopsAt c config.limits f b e s ∧
        Exceeded config.limits c.region.pages.size f.render s e) ∧
      ∀ pos, e ≠ noRegister pos := by
  obtain ⟨hlaid, hpageSize, l, hfrees⟩ := laid_of_tended hm hsmall hregion
  have hfew : ∀ d ∈ HelperTable.standard.helpers, d.args.length ≤ maxCallArgs := by decide
  have hready :=
    (ensures_ok hrecord).mp (recordAll_ready (start_ready hr.valid hstart) hfew maxLength hnamed)
  have hwf := finish_wellFormed hready hfinish
  have hsupplied := (sealed_trace_supplied hr hstart hrecord hfinish).insts
  have hexecutable : b.insts.back?.any (·.op == .jumpTree) = true →
      (f.treeTarget.bind c.fragment?).any (·.executable) = true := by
    intro hjump
    obtain ⟨k, i, hsize, hi, hop⟩ := ends_jumpTree hjump
    have hlast := (hwf.ends k i hi).2 hsize.symm
    rw [hop] at hlast
    have hkind : ended.kind = .branch := by
      split at hlast
      · next hkind => exact beq_iff_eq.mp hkind
      · cases hlast
    obtain ⟨t, ht, hexecutable⟩ := htarget hkind
    rw [ht]
    exact hexecutable
  have hcallable : config.limits.target.Callable :=
    (Target.callable_target config.machine).limit config.maxRegisters
  let shop : Workshop := { region := c.region, guardCount := c.guardCount, exits := c.exits }
  have hends :=
    assemble_ends (show shop.region.Frees l from hfrees) htrace hwf.valid hexecutable htables hlaid
    (hpageSize ▸ validate_pageSize hconfig) hcallable (offers_of_wellFormed hwf hsupplied)
  cases hassemble : c.assemble config.limits .standard f with
  | ok a c' => exact .inl ⟨a, c', rfl, delivered_of_ok hfrees hlaid hassemble⟩
  | error e c' =>
    obtain ⟨x, s, rfl, hstops, hx⟩ : ∃ x s, e = .compile x ∧ StopsAt c config.limits f b x s ∧
        Exceeded config.limits c.region.pages.size f.render s x := by
      rw [FragmentCache.assemble_eq] at hassemble
      split at hassemble
      · cases hassemble
      · next e' shop herror =>
        cases hassemble
        exact (ensures_error herror).mp hends
    exact .inr ⟨x, c', rfl, untouched_of_error hfrees hlaid hassemble, ⟨s, hstops, hx⟩,
      fun _ => hx.ne_noRegister⟩

/-- Settings that leave a new region one page for code. -/
def cramped : Config := { eager with maxCodePages := 2 }

/-- Whether there is room for the trace of a loop that doubles its local. -/
def doublingFits (limits : Limits) (m : Monitor) : Option Bool :=
  (loopTrace [doubling .int]).map fun b =>
    match m.cache.assemble limits .standard { doublingLoop with trace := some b } with
    | .ok _ _ => true
    | .error _ _ => false

theorem doublingFits_eq_some {limits : Limits} {fits : Bool}
    (h : doublingFits limits m = some fits) :
    ∃ b, loopTrace [doubling .int] = some b ∧
      ((∃ a c', m.cache.assemble limits .standard { doublingLoop with trace := some b } =
        .ok a c') ↔ fits = true) := by
  obtain ⟨b, htrace, hfits⟩ := Option.map_eq_some_iff.mp h
  refine ⟨b, htrace, ?_⟩
  split at hfits
  · next a c' hok =>
    rw [hok]
    exact ⟨fun _ => hfits.symm, fun _ => ⟨a, c', rfl⟩⟩
  · next herror =>
    rw [herror]
    exact ⟨nofun, fun hroom => nomatch hfits.trans hroom⟩

/-- The theorem at a loop that doubles its local: there is room for it in a region of seven pages, and
none in one of two. -/
theorem doubling_assembles : ∃ m m' r₁ r₂ r₃ b, Config.validate eager = .ok () ∧ Small eager ∧
    Registers.canHave eager.maxReservations eager.maxSpillSlots = true ∧
    Reached (fun _ _ => True) eager m ∧ Reached (fun _ _ => True) cramped m' ∧
    Recorder.start doublingLoop [] [.int] none {} = .ok r₁ ∧
    [doubling .int].forM (Recorder.record .standard 100) r₁ = .ok () r₂ ∧
    Recorder.finish doublingLoop [.int] none r₂ = .ok b r₃ ∧
    (∃ a c', m.cache.assemble eager.limits .standard { doublingLoop with trace := some b } =
      .ok a c' ∧ Delivered a m.cache c') ∧
    ∃ e c' s, m'.cache.assemble eager.limits .standard { doublingLoop with trace := some b } =
      .error (.compile e) c' ∧ Untouched m'.cache c' ∧
      StopsAt m'.cache eager.limits { doublingLoop with trace := some b } b e s ∧
      Exceeded eager.limits m'.cache.region.pages.size doublingLoop.render s e ∧
      ∀ pos, e ≠ noRegister pos := by
  obtain ⟨m, hm, hfacts⟩ := reached_of_run (fun _ _ => True) eager []
    (fun m => doublingFits eager.limits m = some true) (by decide +kernel)
  obtain ⟨m', hm', hfacts'⟩ := reached_of_run (fun _ _ => True) cramped []
    (fun m => doublingFits eager.limits m = some false) (by decide +kernel)
  obtain ⟨b, htrace, hroom⟩ := doublingFits_eq_some (of_decide_eq_true hfacts)
  obtain ⟨b', htrace', hfull⟩ := doublingFits_eq_some (of_decide_eq_true hfacts')
  obtain rfl : b' = b := Option.some.inj (htrace'.symm.trans htrace)
  obtain ⟨r₁, r₂, r₃, hstart, hrecord, hfinish⟩ := loopTrace_eq_some htrace
  have htables : Registers.canHave eager.maxReservations eager.maxSpillSlots = true := by decide
  have hcramped : Config.validate cramped = .ok () := validate_of_isOk (by decide +kernel)
  have hsmall : Small cramped := by
    show (2 : Int) * 1024 < 2 ^ 31
    decide
  refine ⟨m, m', r₁, r₂, r₃, b', eager_valid, eager_small, htables, hm, hm', hstart, hrecord,
    hfinish, ?_, ?_⟩
  · rcases assembly_fails_cleanly eager_valid eager_small htables hm
        (refl_of CodePages.Tended m.cache.region) .new hstart doubling_named hrecord hfinish
        (f := { doublingLoop with trace := some b' }) rfl nofun with hok | ⟨e, c', herror, -⟩
    · exact hok
    · obtain ⟨a, c'', hok⟩ := hroom.mpr rfl
      cases hok.symm.trans herror
  · rcases assembly_fails_cleanly hcramped hsmall htables hm'
        (refl_of CodePages.Tended m'.cache.region) .new hstart doubling_named hrecord hfinish
        (f := { doublingLoop with trace := some b' }) rfl nofun with
      ⟨a, c', hok, -⟩ | ⟨e, c', herror, huntouched, ⟨s, hstops, hexceeded⟩, hregister⟩
    · exact nomatch hfull.mp ⟨a, c', hok⟩
    · exact ⟨e, c', s, herror, huntouched, hstops, hexceeded, hregister⟩

/-- A trace that is found invalid is turned down, and says why. -/
theorem assemble_invalid (c : FragmentCache) (limits : Limits) (helpers : HelperTable)
    {f : Fragment} {b : Buffer}
    (htrace : f.trace = some b) (hsealed : b.isSealed = true) (hinvalid : b.validate ≠ .ok ()) :
    ∃ e, c.assemble limits helpers f = .error (.invalid e) c := by
  cases hvalid : b.validate with
  | ok u => exact absurd hvalid hinvalid
  | error e =>
    refine ⟨e, ?_⟩
    have hassemble : ∀ target shop, Compile.assemble limits helpers f target shop =
        .error (.invalid e) shop := by
      intro target shop
      unfold Compile.assemble
      simp only [htrace, hsealed, hvalid]
      rfl
    rw [FragmentCache.assemble_eq, hassemble]
    rfl

/-- Without names for all the operations, a trace may be sealed that is not compiled although no
limit is exceeded. -/
theorem straying_not_assembled : ∃ m r₁ r₂ r₃ b, Config.validate eager = .ok () ∧ Small eager ∧
    Registers.canHave eager.maxReservations eager.maxSpillSlots = true ∧
    Reached (fun _ _ => True) eager m ∧
    Recorder.start doublingLoop [] [.int] none {} = .ok r₁ ∧
    [straying].forM (Recorder.record .standard 100) r₁ = .ok () r₂ ∧
    Recorder.finish doublingLoop [.int] none r₂ = .ok b r₃ ∧
    (∀ a c', m.cache.assemble eager.limits .standard
      { doublingLoop with trace := some b } ≠ .ok a c') ∧
    ∀ e c', m.cache.assemble eager.limits .standard { doublingLoop with trace := some b } ≠
      .error (.compile e) c' := by
  obtain ⟨m, hm, -⟩ :=
    reached_of_run (fun _ _ => True) eager [] (fun _ => true) (by decide +kernel)
  obtain ⟨b, htrace, -, hinvalid⟩ := straying_records
  obtain ⟨r₁, r₂, r₃, hstart, hrecord, hfinish⟩ := loopTrace_eq_some htrace
  have hsealed : b.isSealed = true := by
    obtain ⟨-, -, -, -, -, _, _, _, -, -, hclose, -⟩ := finish_ok hfinish
    exact close_isSealed hclose
  obtain ⟨e, herror⟩ :=
    assemble_invalid m.cache eager.limits .standard (f := { doublingLoop with trace := some b }) rfl
    hsealed hinvalid
  refine ⟨m, r₁, r₂, r₃, b, eager_valid, eager_small, rfl, hm, hstart, hrecord, hfinish,
    fun a c' hok => ?_, fun x c' hcompile => ?_⟩
  · cases herror.symm.trans hok
  · cases herror.symm.trans hcompile

end LoopTracer.Monitor
