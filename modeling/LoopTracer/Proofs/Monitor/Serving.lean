import LoopTracer.Proofs.Fragment.Running
import LoopTracer.Proofs.Monitor.Assemblies

/-! The code of a monitor's fragments.

Whatever is asked of a monitor leaves compiled code as it is (`Sustains`), but for the end of a
recording, whose trace is compiled and put into use. So after every history of operations the code
of every compiled fragment does what its trace says, and the machine comes out of the code of a root
or a peer where the traces lead out, with the same slots and strings (`compiled_code_exact`). -/
namespace LoopTracer.Monitor

open Trace Compile FragmentCache Machine

variable {p q : Prop} {m m' m₁ m₂ : Monitor} {id : FragmentId} {f : Fragment}
  {config : Config} {r r' : Recorder}

/-! ### Recorders -/

/-- A recorder whose trace can be compiled when the recording ends. -/
structure Sealable (r : Recorder) : Prop where
  used : r.Used
  stocked : r.state = .recording → r.Stocked

theorem Sealable.new : Sealable {} := ⟨.new, nofun⟩

theorem Sealable.reset (h : Sealable r) : Sealable r.reset := ⟨h.used.reset, nofun⟩

theorem Sealable.started (h : Sealable r) {rootTypes entry : TypeMap}
    {anchor : Option (Guard × ExitRecord)}
    (hstart : r.start f rootTypes entry anchor = .ok r') : Sealable r' :=
  ⟨h.used.started hstart, fun _ => start_stocked h.used.valid hstart⟩

theorem Sealable.recorded (h : Sealable r) {x : Primitive} {maxLength : Int}
    (hrun : Recorder.record .standard maxLength x r = .ok () r') : Sealable r' := by
  have hsame :=
    ((ensures_ok hrun).mp
      (Trace.record_ensures (V := fun _ => True) _ _ _ fun _ _ _ _ => trivial)).1
  exact ⟨h.used.recorded (.inl hrun), fun hstate =>
    (ensures_ok hrun).mp (record_stocked (h.stocked (hsame.state.symm.trans hstate)) maxLength x)⟩

theorem Sealable.finished (h : Sealable r) {ended : Fragment} {stop : TypeMap}
    {target : Option Fragment} {b : Buffer}
    (hfinish : Recorder.finish ended stop target r = .ok b r') : Sealable r' := by
  have hstate := ((ensures_ok hfinish).mp (finish_ensures ended stop target r)).state
  refine ⟨h.used.finished (.inl ⟨b, hfinish⟩), fun hrecording => ?_⟩
  rw [hstate] at hrecording
  cases hrecording

/-- A recorder that has given up is idle. -/
theorem sealable_stopped {a : Abort} (h : Stopped r (.abort a) r')
    (hused : r'.Used) : Sealable r' := by
  obtain ⟨-, -, r₁, -, rfl⟩ := h
  exact ⟨hused, nofun⟩

/-! ### What leaves code alone -/

/-- Compiled code stays as it is, and what is being recorded can still be compiled. -/
structure Sustains (m m' : Monitor) : Prop where
  limits : m'.limits = m.limits
  persists : Persists (fun _ => False) m.cache m'.cache
  sealable : Sealable m.recorder → Sealable m'.recorder

theorem Sustains.refl (m : Monitor) : Sustains m m := ⟨rfl, .refl _ _, fun h => h⟩

theorem Sustains.trans (h : Sustains m m₁) (h' : Sustains m₁ m₂) : Sustains m m₂ :=
  ⟨h'.limits.trans h.limits, h.persists.trans h'.persists, fun hs => h'.sealable (h.sealable hs)⟩

theorem Still.sustains (h : Still m m') : Sustains m m' :=
  ⟨h.limits, h.cache ▸ .refl _ _, fun hs => h.recorder ▸ hs⟩

/-- What is recorded is a cached fragment that is marked. -/
theorem Inv.recorded (h : Inv p q m) (hrecording : m.recording = true)
    (hid : m.recorder.fragment = some id) :
    m.cache.Subject (some id) ∧ ∃ f, m.cache.cached? id = some f ∧
    (f.kind = .branch → m.recorder.anchor = f.anchor) := by
  cases h.linked with
  | idle hidle =>
    rw [recording_eq_true, hidle] at hrecording
    cases hrecording
  | recording _ hid' hs hf hanchor =>
    rw [hid] at hid'
    cases hid'
    exact ⟨hs, _, hf, hanchor⟩

theorem Begun.sustains {types : TypeMap} {anchor : Option GuardId}
    (h : Begun id types anchor m m') : Sustains m m' := by
  obtain ⟨f, root, r, stats, hf, -, hstart, rfl⟩ := h.begins
  exact ⟨rfl, persists_open _ _ (fragment?_eq_some.mp hf).1 fun _ _ => nofun,
    fun h => h.started hstart⟩

theorem Failed.sustains {anchor : Option GuardId} (h : Failed id anchor m m')
    (ht : Trees m.cache) : Sustains m m' := by
  cases h with
  | loop hf _ _ hstate =>
    refine ⟨rfl, persists_open _ _ (fragment?_eq_some.mp hf).1 fun _ _ => ?_, fun h => h⟩
    rcases hstate with rfl | rfl <;> nofun
  | branch hf _ _ _ _ _ hdiscard =>
    have hid := (fragment?_eq_some.mp hf).1
    rw [← ht.numbered hf] at hid
    have hdropped :=
      (ensures_ok hdiscard).mp (discard_persists (N := fun _ => False) hid (ht.lineage hf).2)
    exact ⟨rfl, (persists_exits _ _ _).trans hdropped, fun h => h⟩
  | gone => exact ⟨rfl, persists_exits _ _ _, fun h => h⟩

theorem Recorded.sustains {α : Type} {x : Recording α} {result : Except MonitorError α}
    (h : Recorded x m result m')
    (ht : Trees m.cache) (hok : ∀ a r, x m.recorder = .ok a r → Sealable m.recorder → Sealable r)
    (hstops : ∀ e r, x m.recorder = .error e r → Stopped m.recorder e r)
    (hused : ∀ a r, x m.recorder = .error (.abort a) r →
      m.recorder.Used → r.Used) : Sustains m m' := by
  have hgiven : ∀ {a : Abort} {r : Recorder}, x m.recorder = .error (.abort a) r →
      Sustains m { m with recorder := r } :=
    fun hx => ⟨rfl, .refl _ _, fun hs => sealable_stopped (hstops _ _ hx) (hused _ _ hx hs.used)⟩
  cases h with
  | done hx => exact ⟨rfl, .refl _ _, hok _ _ hx⟩
  | idle hx =>
    obtain ⟨rfl, -⟩ := hstops _ _ hx
    exact .refl m
  | failed hx _ hfailed => exact (hgiven hx).trans (hfailed.sustains ht)
  | stray hx => exact hgiven hx

/-- Before a fragment is dropped. -/
theorem Yielded.sustains {on : FragmentId} (h : Yielded on m m₁) (hm : Inv p q m) :
    Sustains m m₁ ∧ Coherent p q m₁ ∧ m₁.cache.guardCount = m.cache.guardCount := by
  cases h with
  | idle | apart => exact ⟨.refl m, hm.toCoherent, rfl⟩
  | branch hrecording hid hf hkind hdiscard =>
    obtain ⟨hs, f, hcached, -⟩ := hm.recorded hrecording hid
    rw [fragment?_of_cached hcached] at hf
    cases hf
    have hfound := fragment?_of_cached hcached
    obtain ⟨hsound, hpruned, -⟩ :=
      (ensures_ok hdiscard).mp (FragmentCache.discard_ensures hm.sound hcached)
    have hne := (fragment?_eq_some.mp hfound).1
    rw [← hm.sound.trees.numbered hfound] at hne
    have hdropped := (ensures_ok hdiscard).mp
      (discard_persists (N := fun _ => False) hne (hm.sound.trees.lineage hfound).2)
    exact ⟨⟨rfl, hdropped, Sealable.reset⟩,
      ⟨hsound, hm.limits.trans hpruned.backend.symm, hm.helpers⟩, hpruned.count⟩
  | loop hrecording hid =>
    obtain ⟨hs, f, hcached, -⟩ := hm.recorded hrecording hid
    have hopen : f.state ≠ .compiled := by
      rw [(Subject.cached hs (fragment?_of_cached hcached)).2]
      nofun
    obtain ⟨hc, -⟩ := hm.toCoherent.closed hs hcached (g := ({ · with state := .failed }))
      (noted_open hopen .failed nofun nofun (fun _ => .inl) _ _ _ _) nofun
    refine ⟨⟨rfl,
      persists_open _ _ (fragment?_eq_some.mp (fragment?_of_cached hcached)).1 fun _ _ => nofun,
      Sealable.reset⟩, ⟨hc.sound, hc.limits, hc.helpers⟩, rfl⟩

section dropping

variable (hq : q) (hlt : m.cache.guardCount < 2 ^ 32)
include hq hlt

theorem Expelled.sustains {on : FragmentId} (h : Expelled on m m')
    (hm : Inv False q m) : Sustains m m' := by
  obtain ⟨hyielded, hdrop⟩ := h
  obtain ⟨hs, hc, hcount⟩ := hyielded.sustains hm
  obtain ⟨-, -, hdropped⟩ := (ensures_ok hdrop).mp
    (invalidate_persists (N := fun _ => False) hc.sound hq (hcount ▸ hlt) on)
  exact hs.trans ⟨rfl, hdropped, fun h => h⟩

theorem Cleared.sustains (h : Cleared m m') (hm : Coherent False q m) : Sustains m m' := by
  obtain ⟨hr, hflush⟩ := h
  refine ⟨rfl, (ensures_ok hflush).mp (flush_persists hm.sound hq hlt), fun h => ?_⟩
  rcases hr with ⟨-, rfl⟩ | ⟨-, rfl⟩
  · exact h.reset
  · exact h

end dropping

/-! ### Loops and exits -/

/-- The root of a loop is known by its number. -/
theorem getOrCreate_numbered {c c' : FragmentCache} {key : LoopKey} {made : Bool} {root : Fragment}
    (hs : Sound p q c)
    (hget : c.getOrCreate key = (c', id, made))
    (hroot : c'.fragment? id = some root) : root.id = id := by
  rcases getOrCreate_cases hs.trees key with ⟨id', f, heq, -⟩ | ⟨c₁, heq⟩ | ⟨c₁, heq, hgrown⟩
  · rw [heq] at hget
    cases hget
    exact hs.trees.numbered hroot
  · rw [heq] at hget
    cases hget
    exact absurd rfl (fragment?_eq_some.mp hroot).1
  · rw [heq] at hget
    cases hget
    exact (hs.grown hgrown).trees.numbered hroot

theorem Chosen.sustains {key : LoopKey} {types : TypeMap} (h : Chosen key types m id m')
    (hs : Sound p q m.cache) :
    Sustains m m' := by
  have hmade : ∀ {c : FragmentCache} {j : FragmentId} {made : Bool},
    m.cache.getOrCreate key = (c, j, made) →
      Persists (fun _ => False) m.cache c := by
    intro c j made hget
    have hcreated := getOrCreate_persists (fun _ => False) m.cache key
    rwa [hget] at hcreated
  cases h with
  | found hget => exact ⟨rfl, hmade hget, fun h => h⟩
  | typed hget hroot huntyped =>
    refine ⟨rfl, (hmade hget).trans
      (persists_update _ _ (fragment?_eq_some.mp hroot).1 fun f hf _ _ => ?_), fun h => h⟩
    rw [hroot] at hf
    cases hf
    exact ⟨⟨_, _, _, _, _, _, rfl⟩, .inr huntyped⟩
  | added hget hroot hadd =>
    have hne := (fragment?_eq_some.mp hroot).1
    rw [← getOrCreate_numbered hs hget hroot] at hne
    exact ⟨rfl, (hmade hget).trans ((ensures_ok hadd).mp (addPeer_persists hne types)), fun h => h⟩

/-- A run of a loop is counted. -/
theorem sustains_hits (hf : m.cache.fragment? id = some f) :
    Sustains m { m with cache := m.cache.update id fun f => { f with hits := f.hits + 1 } } :=
  ⟨rfl, persists_update _ _ (fragment?_eq_some.mp hf).1 fun _ _ _ _ =>
    ⟨⟨_, _, _, _, _, _, rfl⟩, .inl rfl⟩, fun h => h⟩

theorem Looped.sustains {key : LoopKey} {types : TypeMap} {b : Bool} (h : Looped key types m b m')
    (hs : Sound p q m.cache) :
    Sustains m m' := by
  have hchosen : ∀ {id : FragmentId} {stats : Stats} {m₁ : Monitor},
    Chosen key types { m with stats } id m₁ →
      Sustains m m₁ := by
    intro id stats m₁ hc
    have hcounted : Sustains m { m with stats } := Still.sustains ⟨rfl, rfl, rfl, rfl⟩
    exact hcounted.trans (hc.sustains hs)
  cases h with
  | skipped => exact Still.sustains ⟨rfl, rfl, rfl, rfl⟩
  | chosen _ hc => exact hchosen hc
  | counted _ hc hf => exact (hchosen hc).trans (sustains_hits hf)
  | begun _ hc hf _ hbegun => exact ((hchosen hc).trans (sustains_hits hf)).trans hbegun.sustains

section exits

variable {g : Guard} {source : Fragment}

/-- An exit is counted, for itself and for its fragment. -/
theorem passed_persists (ht : Trees m.cache) (hs : m.cache.cached? g.source = some source) :
    Persists (fun _ => False) m.cache (passed m.cache g source) := by
  have hne := (fragment?_eq_some.mp (fragment?_of_cached hs)).1
  rw [← ht.numbered (fragment?_of_cached hs)] at hne
  exact (persists_exits _ _ _).trans
    (persists_update _ _ hne fun _ _ _ _ => ⟨⟨_, _, _, _, _, _, rfl⟩, .inl rfl⟩)

theorem passed_eq (ht : Trees m.cache) (hs : m.cache.cached? g.source = some source) :
    passed m.cache g source = tallied m.cache g := by
  rw [passed, ht.numbered (fragment?_of_cached hs)]
  rfl

end exits

theorem Exited.sustains {j : GuardId} {b : Bool} (hq : q) (hlt : m.cache.guardCount < 2 ^ 32)
    (h : Exited j m b m')
    (hm : Inv False q m) : Sustains m m' := by
  have hattached : ∀ {g : Guard} {source : Fragment} {k : FragmentId} {c : FragmentCache},
    m.cache.cached? g.source = some source →
      FragmentCache.attachChild source g (passed m.cache g source) = .ok k c →
          Persists (fun _ => False) m.cache c := by
    intro g source k c hs hattach
    have hne := (fragment?_eq_some.mp (fragment?_of_cached hs)).1
    rw [← hm.sound.trees.numbered (fragment?_of_cached hs)] at hne
    exact (passed_persists hm.sound.trees hs).trans
      ((ensures_ok hattach).mp (attachChild_persists hne g))
  cases h with
  | stray => exact ⟨rfl, persists_exits _ _ _, fun h => h⟩
  | counted _ hs => exact ⟨rfl, passed_persists hm.sound.trees hs, fun h => h⟩
  | @dropped g source stats gone _ hr hs hdrop =>
    have hcounted : Inv False q { m with stats, cache := passed m.cache g source } := by
      rw [passed_eq hm.sound.trees hs]
      exact (hm.tallied hs).still ⟨rfl, rfl, rfl, rfl⟩
    have hpassed : Sustains m { m with stats, cache := passed m.cache g source } :=
      ⟨rfl, passed_persists hm.sound.trees hs, fun h => h⟩
    have hexpelled : Sustains { m with stats, cache := passed m.cache g source } m' :=
      Expelled.sustains hq hlt ((ensures_ok hdrop).mp (invalidate_expels source.id)) hcounted
    exact hpassed.trans hexpelled
  | @refused g source child k stats c c' hidle hr hs hattach hchild hdiscard =>
    have hfound := fragment?_of_cached hs
    have hid := hm.sound.trees.numbered hfound
    have hsound : Sound False q (passed m.cache g source) :=
      passed_eq hm.sound.trees hs ▸ (hm.tallied hs).sound
    have hcached : (passed m.cache g source).cached? source.id =
        some { source with exits := source.exits + 1 } := by
      rw [passed_eq hm.sound.trees hs, cached?_tallied hs, if_pos hid]
    obtain ⟨rfl, f, hf, -, hcompiled⟩ := hm.sound.trees.records hr
    rw [hfound] at hf
    cases hf
    have hgrown := (ensures_ok hattach).mp (attachChild_ensures hsound.trees hcached
      (hcompiled (cached?_eq_some.mp hs).2) rfl rfl hr)
    rcases hgrown with rfl | ⟨new, hgrown, -⟩
    · exact absurd rfl (fragment?_eq_some.mp hchild).1
    · have ht := (hsound.grown hgrown).trees
      have hne := (fragment?_eq_some.mp hchild).1
      rw [← ht.numbered hchild] at hne
      have hdropped :=
        (ensures_ok hdiscard).mp (discard_persists (N := fun _ => False) hne (ht.lineage hchild).2)
      exact ⟨rfl, (hattached hs hattach).trans hdropped, fun h => h⟩
  | @branched g source child k stats c _ hidle hr hs hattach hchild hbegun =>
    have hadded : Sustains m { m with stats, cache := c } := ⟨rfl, hattached hs hattach, fun h => h⟩
    exact hadded.trans hbegun.sustains

/-! ### The end of a recording -/

theorem attachTrace_persists {c : FragmentCache} (hid : id ≠ 0) (b : Buffer) (t : Option FragmentId)
    (hopen : ∀ f, c.fragment? id = some f → f.state ≠ .compiled) :
    Persists (fun _ => False) c (c.attachTrace id b t) :=
  (persists_exits _ _ _).trans (persists_open _ _ hid hopen)

/-- A trace that could not be compiled has only been written to free pages. -/
theorem assemble_beside {c c' : FragmentCache} {limits : Limits} {helpers : HelperTable}
    {e : AssembleError}
    (hs : Sound p q c) (hfault : ∀ fault, e ≠ .fault fault)
    (h : c.assemble limits helpers f = .error e c') :
    ∃ l shop, c' = c.rebased shop ∧ (c.rebased shop).Sound p q ∧ c.region.Frees l ∧
      CodePages.Beside l c.region shop.region ∧ c.guardCount ≤ shop.guardCount := by
  obtain ⟨l, hfrees⟩ := hs.housed.held.frees
  rw [FragmentCache.assemble_eq] at h
  split at h
  · cases h
  · next e' shop herror =>
    cases h
    rcases assemble_error hfrees herror
      with ⟨fault, rfl, -⟩ | ⟨-, hbeside, ⟨l', hfrees', hperm⟩, hcount⟩
    · exact absurd rfl (hfault fault)
    · exact ⟨l, shop, rfl, hs.rebased hfrees hbeside hfrees' hperm hcount, hfrees, hbeside, hcount⟩

/-- After a recording has failed. -/
theorem Failed.coherent {anchor : Option GuardId} (h : Failed id anchor m m')
    (hm : Halted p q id m) :
    Coherent p q m' := by
  cases h with
  | @loop f attempts state stats hf _ _ hstate =>
    obtain ⟨hcached, hrecording⟩ := Subject.cached hm.subject hf
    have hopen : f.state ≠ .compiled := by
      rw [hrecording]
      nofun
    have hends : state ≠ .compiled ∧ state ≠ .invalidated ∧ state ≠ .recording := by
      rcases hstate with rfl | rfl <;> exact ⟨nofun, nofun, nofun⟩
    obtain ⟨hc, -⟩ :=
      hm.toCoherent.closed hm.subject hcached (g := ({ · with attempts, hits := 0, state }))
      (noted_open hopen state hends.1 hends.2.1 (fun _ => .inl) _ _ _ _) hends.2.2
    exact ⟨hc.sound, hc.limits, hc.helpers⟩
  | @branch f g r exits cache stats hf _ _ _ _ _ hdiscard =>
    obtain ⟨hcached, -⟩ := Subject.cached hm.subject hf
    have hsound := hm.sound.noting ((Noting.refl m.cache).exits exits)
    obtain ⟨hsound', hpruned, -⟩ :=
      (ensures_ok hdiscard).mp (FragmentCache.discard_ensures hsound hcached)
    exact ⟨hsound', hm.limits.trans hpruned.backend.symm, hm.helpers⟩
  | gone hf hgone =>
    obtain ⟨-, hrecording⟩ := Subject.cached hm.subject hf
    rw [hrecording] at hgone
    cases hgone

/-- A trace that could not be compiled is taken away again. -/
theorem Closing.detached (hm : Closing p q id f m) (hq : q) {e : AssembleError} {c : FragmentCache}
    (hfault : ∀ fault, e ≠ .fault fault)
    (hassemble : m.cache.assemble m.limits m.helpers f = .error e c)
    (hr : r.state = .idle) (hsealable : Sealable m.recorder → Sealable r) (stats : Stats)
    (hlt : c.guardCount < 2 ^ 32) :
    m.cache.guardCount < 2 ^ 32 ∧
    Halted p q id { m with stats, recorder := r,
                           cache := c.update id ({ · with trace := none, treeTarget := none }) } ∧
    Sustains m { m with stats, recorder := r,
                        cache := c.update id ({ · with trace := none, treeTarget := none }) } := by
  obtain ⟨l, shop, rfl, hsound, hfrees, hbeside, hle⟩ := assemble_beside hm.sound hfault hassemble
  have hlt₀ : m.cache.guardCount < 2 ^ 32 := Nat.lt_of_le_of_lt hle hlt
  have hclosing : Closing p q id f { m with cache := m.cache.rebased shop } :=
    ⟨hm.toCoherent.recached hsound rfl, hm.subject.congr rfl, hm.committing, hm.cached⟩
  have hwritten := rebased_persists (N := fun _ => False)
    (hm.sound.wired hq hlt₀).laid hm.sound.housed hfrees hbeside hle
  have hopen : ∀ f', (m.cache.rebased shop).fragment? id = some f' →
      f'.state ≠ .compiled := fun f' hf' => by
    rw [(Subject.cached hclosing.subject hf').2]
    nofun
  refine ⟨hlt₀, (hclosing.detach hr).still ⟨rfl, rfl, rfl, rfl⟩, rfl, hwritten.trans ?_, hsealable⟩
  exact persists_open _ _ (fragment?_eq_some.mp (fragment?_of_cached hm.cached)).1 hopen

/-- What holds of a monitor whose compiled code is as it should be. -/
structure Serving (m : Monitor) : Prop where
  portable : m.limits.Portable
  page : 1024 ≤ m.cache.region.pageSize
  sealable : Sealable m.recorder
  standing : Standing m.limits.maxSpillSlots m.cache

theorem Sustains.serving (hs : Sustains m m') (hm : Coherent p q m)
    (hlt : m'.cache.guardCount < 2 ^ 32) :
    m.cache.guardCount < 2 ^ 32 ∧ (Serving m → Serving m') := by
  have hlt₀ : m.cache.guardCount < 2 ^ 32 := Nat.lt_of_le_of_lt hs.persists.count hlt
  refine ⟨hlt₀, fun h => ?_⟩
  have hbackend : m.cache.backend = .virtual := hm.limits.symm.trans h.portable.backend
  refine ⟨hs.limits ▸ h.portable, hs.persists.pageSize ▸ h.page, hs.sealable h.sealable, ?_⟩
  rw [hs.limits]
  exact h.standing.persists hs.persists hbackend (hm.sound.issued hlt₀)

/-- The trace that was finished, once its fragment has it. -/
theorem Inv.attached (hm : Inv False q m) (hrecording : m.recording = true)
    (hid : m.recorder.fragment = some id)
    (hf : m.cache.fragment? id = some f) {stop : TypeMap} {target : Option Fragment} {b : Buffer}
    (hfinish : Recorder.finish f stop target m.recorder = .ok b r)
    (hjoins : ∀ t, target = some t → Joins m.cache f stop t) :
    Closing False q id { f with trace := some b, exitBase := m.cache.exits.size,
                                treeTarget := target.map (·.id) }
      { m with recorder := r, cache := m.cache.attachTrace id b (target.map (·.id)) } ∧
    Sustains m { m with recorder := r, cache := m.cache.attachTrace id b (target.map (·.id)) } := by
  obtain ⟨hs, f', hcached, -⟩ := hm.recorded hrecording hid
  rw [fragment?_of_cached hcached] at hf
  cases hf
  have hfinished := (ensures_ok hfinish).mp (finish_ensures f stop target m.recorder)
  have hopen : ∀ f', m.cache.fragment? id = some f' → f'.state ≠ .compiled := fun f' hf' => by
    rw [(Subject.cached hs hf').2]
    nofun
  have hpersists := attachTrace_persists (fragment?_eq_some.mp (fragment?_of_cached hcached)).1 b
    (target.map (·.id)) hopen
  refine ⟨.attach hm.toCoherent hs hcached hfinished.state b fun t ht => ?_, rfl, hpersists,
    fun hs => hs.finished hfinish⟩
  obtain ⟨t, htarget, rfl⟩ := Option.map_eq_some_iff.mp ht
  obtain ⟨root, hroot, hfound, hexecutable⟩ := hjoins t htarget
  obtain ⟨root', hroot', -⟩ := hm.sound.trees.root hcached
  rw [fragment?_of_cached hroot'] at hroot
  cases hroot
  exact ⟨t, findPeer_cached hm.sound.trees hroot' hfound,
    by simpa [Fragment.executable] using hexecutable⟩

/-- A trace that was compiled is put into use. -/
theorem Closing.standing (hm : Closing False q id f m) (h : Serving m) (hq : q) {b : Buffer}
    (htrace : f.trace = some b)
    (hsupplied : b.Supplied) (hjump : b.insts.back?.any (·.op.isTerminal) = true)
    (hends : f.kind = .branch → (∃ t, f.treeTarget = some t) ∧
      b.insts.back?.any (·.op == .jumpTree) = true)
    {a : Assembly} {c : FragmentCache} (hassemble : m.cache.assemble m.limits m.helpers f = .ok a c)
    {anchor : Option GuardId}
    (hanchor : ∀ j, anchor = some j → f.kind = .branch ∧ f.anchor = some j)
    (hd : Deployed id anchor a { m with cache := c } m') (hlt : m'.cache.guardCount < 2 ^ 32) :
    Standing m.limits.maxSpillSlots m'.cache := by
  have hopen : f.state ≠ .compiled := by
    rw [(Subject.cached hm.subject (fragment?_of_cached hm.cached)).2]
    nofun
  rw [hm.helpers] at hassemble
  have hstands :=
    install_stands h.standing hm.sound hq h.portable hm.limits h.page hm.cached hopen htrace
      hsupplied hjump hassemble
  have hsounds := install_sound hm.sound hm.cached hopen hm.limits
      (fun hkind => (hends hkind).imp_right fun hjump =>
    ⟨b, htrace, hjump⟩) hassemble
  cases hd with
  | loop hinstall => exact (ensures_ok hinstall).mp hstands hlt
  | @branch r c₁ c₂ stats g child hinstall _ hpromote hg =>
    obtain ⟨j, hj, hg⟩ := hg
    obtain ⟨hkind, hstarts⟩ := hanchor j hj
    obtain ⟨hsound, shop, region, hinstalled⟩ := (ensures_ok hinstall).mp hsounds
    have hcount : c₂.guardCount = c₁.guardCount :=
      ((promote_reduces (F := Fragment.Shrunk) g child).ok hpromote).count
    have hlt₁ : c₁.guardCount < 2 ^ 32 := hcount ▸ hlt
    obtain ⟨rfl, -⟩ := hsound.trees.records hg
    -- the guard is one of the parent, which is compiled
    obtain ⟨k, r', hk, -, -, hregistered⟩ :=
      hsound.anchored (.inr hlt₁) (hinstalled.cached_self hm.cached) hkind
    obtain rfl : k = g.id := Option.some.inj (hk.symm.trans hstarts)
    have hpersists :=
      (ensures_ok hpromote).mp
        (promote_persists (N := fun _ => False) hsound hq hlt₁ hg hregistered)
    have hbackend : c₁.backend = .virtual :=
      hinstalled.backend.trans (hm.limits.symm.trans h.portable.backend)
    exact ((ensures_ok hinstall).mp hstands hlt₁).persists hpersists hbackend (hsound.issued hlt₁)

/-! ### How many guards there are -/

theorem Failed.count {anchor : Option GuardId} (h : Failed id anchor m m') :
    m'.cache.guardCount = m.cache.guardCount := by
  cases h with
  | loop | gone => rfl
  | branch _ _ _ _ _ _ hdiscard => exact ((discard_reduces _).ok hdiscard).count

theorem Deployed.count {anchor : Option GuardId} {a : Assembly} (h : Deployed id anchor a m m') :
    m'.cache.guardCount = m.cache.guardCount := by
  have hinstalled : ∀ {c : FragmentCache}, FragmentCache.install id a m.cache = .ok () c →
      c.guardCount = m.cache.guardCount := by
    intro c hinstall
    obtain ⟨c₁, hreduced, rfl⟩ := install_reduces hinstall
    exact hreduced.count
  cases h with
  | loop hinstall => exact hinstalled hinstall
  | branch hinstall _ hpromote =>
    exact ((promote_reduces (F := Fragment.Shrunk) _ _).ok hpromote).count.trans
      (hinstalled hinstall)

theorem Cleared.count (h : Cleared m m') : m'.cache.guardCount = m.cache.guardCount := by
  obtain ⟨-, hflush⟩ := h
  exact (flush_reduces.ok hflush).count

theorem Expelled.count {on : FragmentId} (h : Expelled on m m') :
    m'.cache.guardCount = m.cache.guardCount := by
  obtain ⟨hyielded, hdrop⟩ := h
  have hdropped := ((invalidate_reduces on).ok hdrop).count
  cases hyielded with
  | idle | apart | loop => exact hdropped
  | branch _ _ _ _ hdiscard => exact hdropped.trans ((discard_reduces _).ok hdiscard).count

theorem Exited.count {j : GuardId} {b : Bool} (h : Exited j m b m') :
    m'.cache.guardCount = m.cache.guardCount := by
  have hattached : ∀ {g : Guard} {source : Fragment} {k : FragmentId} {c : FragmentCache},
      FragmentCache.attachChild source g (passed m.cache g source) = .ok k c →
          c.guardCount = m.cache.guardCount := by
    intro g source k c hattach
    unfold attachChild at hattach
    split at hattach <;> cases hattach
    rfl
  cases h with
  | stray | counted => rfl
  | dropped _ _ hdrop => exact ((ensures_ok hdrop).mp (invalidate_expels _)).count
  | refused _ _ _ hattach _ hdiscard =>
    exact ((discard_reduces _).ok hdiscard).count.trans (hattached hattach)
  | branched _ _ _ hattach _ hbegun =>
    have hcount := hattached hattach
    obtain ⟨f, root, r, stats, -, -, -, rfl⟩ := hbegun.begins
    exact hcount

/-- Compiling makes guards. -/
theorem assemble_count {c c' : FragmentCache} {limits : Limits} {helpers : HelperTable}
    {a : Assembly} (hs : Sound p q c)
    (h : c.assemble limits helpers f = .ok a c') : c.guardCount ≤ c'.guardCount := by
  obtain ⟨l, hfrees⟩ := hs.housed.held.frees
  rw [FragmentCache.assemble_eq] at h
  split at h
  · next a' shop hok =>
    cases h
    exact (assemble_ok hfrees hok).count
  · cases h

/-! ### One operation -/

section operations

variable (hm : Inv False q m) (hq : q)
include hm hq

theorem Ended.serving {stop : TypeMap} {result : Except MonitorError Unit}
    (hend : Ended stop m result m')
    (htended : CodePages.Tended m.cache.region m'.cache.region)
    (hlt : m'.cache.guardCount < 2 ^ 32) :
    m.cache.guardCount < 2 ^ 32 ∧ (Serving m → Serving m') := by
  have hpage : m'.cache.region.pageSize = m.cache.region.pageSize :=
    htended.pageSize hm.sound.housed.held.frees
  cases hend with
  | idle => exact ⟨hlt, fun h => h⟩
  | unfinished hrecording hid hf hrecorded =>
    have hs := hrecorded.sustains hm.sound.trees (fun _ _ hx hs => hs.finished hx)
      (fun _ _ hx => (ensures_error hx).mp (finish_ensures _ _ _ _)) fun a _ hx hused =>
        hused.finished (.inr ⟨a, hx⟩)
    exact hs.serving hm.toCoherent hlt
  | @compiled id f f₁ target b r a c _ hrecording hid hf hfinish hf₁ hassemble
      hdeployed hends hjoins =>
    obtain ⟨hclosing, hs⟩ := hm.attached hrecording hid hf hfinish hjoins
    obtain rfl := Option.some.inj (hf₁.symm.trans (fragment?_of_cached hclosing.cached))
    rw [hm.sound.trees.numbered hf] at hdeployed
    have hmade := assemble_count hclosing.sound hassemble
    have hle : m.cache.guardCount ≤ m'.cache.guardCount :=
      Nat.le_trans hmade (Nat.le_of_eq hdeployed.count.symm)
    obtain ⟨hlt₀, hattached⟩ := hs.serving hm.toCoherent (Nat.lt_of_le_of_lt hle hlt)
    refine ⟨hlt₀, fun h => ?_⟩
    have hlimits : m'.limits = m.limits := by cases hdeployed <;> rfl
    refine ⟨hlimits ▸ h.portable, hpage ▸ h.page, ?_, ?_⟩
    · have hcommitted := commit_committing hclosing.committing
      have hsealable := (hs.sealable h.sealable).reset
      cases hdeployed with
      | loop _ hcommit | branch _ hcommit =>
        obtain rfl := Except.ok.inj (hcommitted.symm.trans hcommit)
        exact hsealable
    · rw [hlimits]
      have hstate := ((ensures_ok hfinish).mp (finish_ensures f stop target m.recorder)).recording
      refine hclosing.standing (hattached h) hq rfl
        (finish_supplied (h.sealable.stocked hstate) hfinish) (finish_ends hfinish)
        (fun hkind => ?_)
        hassemble (fun j hj => ?_) hdeployed hlt
      · obtain ⟨hsome, hback⟩ :=
          ((ensures_ok hfinish).mp (finish_ensures f stop target m.recorder)).branch hkind
        obtain ⟨t, rfl⟩ := Option.isSome_iff_exists.mp hsome
        exact ⟨⟨t.id, rfl⟩, hback⟩
      · split at hj
        · next hkind =>
          obtain ⟨-, f', hcached, hanchor⟩ := hm.recorded hrecording hid
          obtain rfl := Option.some.inj (hf.symm.trans (fragment?_of_cached hcached))
          exact ⟨hkind, (hanchor hkind).symm.trans hj⟩
        · cases hj
  | @rejected id f f₁ target b r e c stats m₁ _ hrecording hid hf hfinish hf₁ hassemble hfault
      hfailed hspace _ _ hjoins =>
    obtain ⟨hclosing, hs⟩ := hm.attached hrecording hid hf hfinish hjoins
    obtain rfl := Option.some.inj (hf₁.symm.trans (fragment?_of_cached hclosing.cached))
    have hcount : m'.cache.guardCount = m₁.cache.guardCount := by
      rcases hspace with ⟨-, rfl⟩ | ⟨-, key, hflush⟩
      · rfl
      · obtain ⟨stats, hcleared⟩ := (ensures_ok hflush).mp (outOfSpace_clears key)
        exact hcleared.count
    have hlt₁ : m₁.cache.guardCount < 2 ^ 32 := hcount ▸ hlt
    have hltc : c.guardCount < 2 ^ 32 := Nat.lt_of_le_of_lt (Nat.le_of_eq hfailed.count.symm) hlt₁
    obtain ⟨-, hhalted, hdetached⟩ :=
      hclosing.detached hq hfault hassemble rfl Sealable.reset stats hltc
    have hgiven : Sustains m m₁ := (hs.trans hdetached).trans (hfailed.sustains hhalted.sound.trees)
    rcases hspace with ⟨-, rfl⟩ | ⟨-, key, hflush⟩
    · exact hgiven.serving hm.toCoherent hlt
    · obtain ⟨stats', hcleared⟩ := (ensures_ok hflush).mp (outOfSpace_clears key)
      obtain ⟨hsound, hlimits, hhelpers⟩ := hfailed.coherent hhalted
      have hcounted : Sustains m₁ { m₁ with
          stats := stats', spaceFailures := m₁.spaceFailures.alter key fun n =>
                some (n.getD 0 + 1) } :=
        Still.sustains ⟨rfl, rfl, rfl, rfl⟩
      have hflushed := hcounted.trans (hcleared.sustains hq hlt₁ ⟨hsound, hlimits, hhelpers⟩)
      exact (hgiven.trans hflushed).serving hm.toCoherent hlt

/-- Every operation keeps the code of the compiled fragments. -/
theorem run_serving {op : Operation} (hrun : op.run m = .ok () m')
    (hlt : m'.cache.guardCount < 2 ^ 32) :
    m.cache.guardCount < 2 ^ 32 ∧ (Serving m → Serving m') := by
  cases op with
  | loopEdge key types =>
    obtain ⟨b, hok⟩ := ignored_eq_ok hrun
    exact (((ensures_ok hok).mp (loopEdge_loops key types)).sustains hm.sound).serving hm.toCoherent
      hlt
  | record x =>
    obtain ⟨result, hok⟩ := ignored_eq_ok hrun
    unfold record at hok
    have hrecorded := (ensures_ok hok).mp (.get (onRecorder_records _))
    rw [hm.helpers] at hrecorded
    have hs := hrecorded.sustains hm.sound.trees (fun _ _ hx hs => hs.recorded hx)
      (fun _ _ hx => (ensures_error hx).mp
        (Trace.record_ensures (V := fun _ => True) _ _ _ fun _ _ _ _ => trivial))
      fun a _ hx hused => hused.recorded (.inr ⟨a, hx⟩)
    exact hs.serving hm.toCoherent hlt
  | finish stop =>
    obtain ⟨result, hok⟩ := ignored_eq_ok hrun
    exact ((ensures_ok hok).mp (endRecording_ends stop)).serving hm hq
      ((ensures_ok hok).mp (endRecording_tended stop)) hlt
  | abort a =>
    rcases (ensures_ok hrun).mp (abortRecording_ends a) with ⟨rfl, -⟩ | ⟨id, -, -, hfailed⟩
    · exact ⟨hlt, fun h => h⟩
    · have hreset : Sustains m { m with recorder := m.recorder.reset } :=
        ⟨rfl, .refl _ _, Sealable.reset⟩
      exact (hreset.trans (hfailed.sustains hm.sound.trees)).serving hm.toCoherent hlt
  | execute fuel id slots =>
    obtain ⟨x, hok⟩ := ignored_eq_ok hrun
    exact ((keepsAt_ok hok).mp (execute_ran hm.helpers fuel id slots)).toStill.sustains.serving
      hm.toCoherent hlt
  | exit g =>
    obtain ⟨b, hok⟩ := ignored_eq_ok hrun
    have hexited := (ensures_ok hok).mp (handleExit_exits g)
    exact (hexited.sustains hq (hexited.count ▸ hlt) hm).serving hm.toCoherent hlt
  | invalidate id =>
    obtain ⟨b, hok⟩ := ignored_eq_ok hrun
    have hexpelled := (ensures_ok hok).mp (invalidate_expels id)
    exact (hexpelled.sustains hq (hexpelled.count ▸ hlt) hm).serving hm.toCoherent hlt
  | flush =>
    have hcleared := (ensures_ok hrun).mp flush_clears
    exact (hcleared.sustains hq (hcleared.count ▸ hlt) hm.toCoherent).serving hm.toCoherent hlt

end operations

/-! ### Histories -/

/-- The shared exit code is written to the end of the first page. -/
theorem installBailout_stands {region region' : CodePages} (hr : region.Laid)
    (hsome : 0 < region.pages.size)
    (h : CodePages.installBailout .virtual region = .ok () region') :
    ∃ stop, Stands region' [0] (fun _ => False) region'.bailout.toNat stop [.bailout] := by
  have hone := hr.page_le hsome
  have hbytes := hr.bytes_eq
  have hsmall := hr.small
  unfold CodePages.installBailout at h
  dsimp only at h
  split at h
  · cases h
  · next w mem hemit =>
    cases h
    obtain ⟨bytes, rfl, hroom, rfl, hencode⟩ :=
      emit_cases (Int.le_refl 0) (Int.le_of_lt hr.positive)
      (show region.pageSize ≤ region.mem.size by omega) hr.whole hemit
    dsimp only at hroom hencode ⊢
    obtain ⟨place, hplace⟩ : ∃ place : Nat, region.pageSize - bytes.length = place :=
      ⟨_, (Int.toNat_of_nonneg hroom).symm⟩
    have hstop : place + bytes.length = region.bytes := by omega
    obtain ⟨hpos, -⟩ :=
      Code.pos_eq (w := ⟨0, region.pageSize⟩) (k := region.bytes) hbytes.symm (by omega)
    obtain ⟨-, hfront⟩ := Code.pos_eq (w := ⟨0, region.pageSize - bytes.length⟩) hplace (by omega)
    rw [hfront, hplace, Int.toNat_natCast]
    refine ⟨region.bytes, [⟨place, bytes, some .bailout⟩], rfl,
      ⟨rfl, Memory.shows_write hr.valid (by omega), ?_, hstop⟩, ?_, ?_⟩
    · show Backend.encode .virtual (.ofNat (place + bytes.length)) .bailout = .ok bytes
      rw [hstop, ← hpos]
      exact hencode rfl
    · rw [Memory.size_write]
      omega
    · intro p hp a ha
      obtain rfl := List.mem_singleton.mp hp
      refine ⟨List.mem_singleton.mpr (Nat.div_eq_of_lt (?_ : a < region.bytes)), fun h => h⟩
      exact hstop ▸ ha.2

theorem create_valid (h : Monitor.create config = .ok m) : config.validate = .ok () := by
  cases hvalid : config.validate with
  | error e =>
    unfold Monitor.create at h
    rw [hvalid] at h
    cases h
  | ok u => rfl

section histories

variable (hnative : config.native = false) (hsmall : Small config)
  (hslots : config.maxSpillSlots < 2 ^ 28)
include hnative hsmall hslots

theorem create_serving (h : Monitor.create config = .ok m) : Serving m := by
  have hvalid := create_valid h
  have hpage := validate_pageSize hvalid
  have hspill : 0 < config.maxSpillSlots :=
    validate_positive hvalid (s := ("max_spill_slots", _)) (by simp [Config.positive])
  have hmachine : config.machine = .virtual := by simp [Config.machine, hnative]
  obtain ⟨-, r, r', hr, hb, rfl⟩ := create_eq h
  obtain ⟨hcount, hreset⟩ := CodePages.create_eq hr
  obtain ⟨mem, bailout, hsame, -⟩ := CodePages.installBailout_eq hb
  have hpages : 0 < r.pages.size := by
    rw [hreset]
    show 0 < (CodePages.fresh (CodePages.fresh config.maxCodePages.toNat).size).size
    rw [CodePages.fresh_size, CodePages.fresh_size]
    omega
  have hshared :=
    installBailout_stands (CodePages.laid_create hr (by omega) hsmall) hpages (hmachine ▸ hb)
  have hsize : r'.pageSize = config.pageSize := by
    rw [hsame, hreset]
    rfl
  refine ⟨⟨hmachine, ⟨config.maxRegisters, ?_⟩, Int.le_of_lt hspill, hslots⟩, hsize.symm ▸ hpage,
    .new, hshared, ?_⟩
  · show config.machine.target.limit _ = _
    rw [hmachine]
    rfl
  · intro id f hf
    simp [FragmentCache.cached?, FragmentCache.fragment?] at hf

/-- After every history of operations that overlook no recording, the code of every compiled
fragment does what its trace says. -/
theorem Reached.serving (h : Reached Operation.Seen config m)
    (hlt : m.cache.guardCount < 2 ^ 32) : Serving m := by
  induction h with
  | start h => exact create_serving hnative hsmall hslots h
  | @step m m' op h hop hrun ih =>
    obtain ⟨hlt₀, hserving⟩ := run_serving (h.inv (fun _ _ hop => hop) nofun) hsmall hrun hlt
    exact hserving (ih hlt₀)

end histories

/-! ### Code that is run -/

/-- What the examples ask of the code that they run. -/
structure Runnable (m : Monitor) (f : Fragment) (width : Nat) : Prop where
  few : m.cache.guardCount < 2 ^ 32
  executable : f.executable = true
  loop : f.kind ≠ .branch
  addressed : (m.cache.fragments.all fun f =>
    f.trace.all fun b => b.insts.all fun i => decide (Addresses width i)) = true

instance (m : Monitor) (f : Fragment) (width : Nat) : Decidable (Runnable m f width) :=
  decidable_of_iff (_ ∧ _ ∧ _ ∧ _)
    ⟨fun ⟨h₁, h₂, h₃, h₄⟩ => ⟨h₁, h₂, h₃, h₄⟩, fun ⟨h₁, h₂, h₃, h₄⟩ => ⟨h₁, h₂, h₃, h₄⟩⟩

end LoopTracer.Monitor
