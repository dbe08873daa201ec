import LoopTracer.Proofs.Fragment.Sorting
import LoopTracer.Proofs.Monitor.Conservation
import LoopTracer.Proofs.Monitor.Sessions

/-! Compiled loops are found again.

After every history of operations the directory of the cache is consistent, and a loop that is being
recorded is cached (`Indexed`). So a compiled root or peer is entered for its types, and no other
root or peer of the loop has them. The one exception is a root that is entered with no types: a root
has no types before its first recording either, so it is not found for none (`loops_found`). -/
namespace LoopTracer.Monitor

open Trace Compile FragmentCache

variable {V : Immediate → Prop} {B : FragmentId → LoopKey → Prop} {config : Config}
  {m m' : Monitor} {id : FragmentId}
  {f : Fragment}

/-- The directory is consistent, and compiled code can be run. -/
structure Indexed (config : Config) (m : Monitor) : Prop where
  settings : m.config = config
  opened : m.closed = false
  runs : m.machine.isSome = true
  sorted : m.cache.Sorted
  live : m.recording = true → ∀ id e, m.recorder.fragment = some id →
    m.cache.directory.listing id = some e → e.cached = true

/-- The cache changes, but not the directory. -/
theorem Indexed.calm (h : Indexed config m) (stats : Stats) {c : FragmentCache}
    (hc : Calm m.cache c) :
    Indexed config { m with stats, cache := c } :=
  ⟨h.settings, h.opened, h.runs, h.sorted.calm hc, fun hrecording id e hid he =>
    h.live hrecording id e hid (hc.directory ▸ he)⟩

/-- Nothing is being recorded any more. -/
theorem Indexed.rested (h : Indexed config m) (r : Recorder) (stats : Stats)
    {c : FragmentCache} (hc : c.Sorted)
    (hr : r.isRecording = false) : Indexed config { m with recorder := r, stats, cache := c } :=
  ⟨h.settings, h.opened, h.runs, hc, fun hrecording => absurd (hr.symm.trans hrecording) nofun⟩

/-! ### Recordings that fail -/

theorem Failed.calm {anchor : Option GuardId} (hfailed : Failed id anchor m m')
    (hnumbered : ∀ {j q}, m.cache.fragment? j = some q → q.id = j) : Calm m.cache m'.cache := by
  cases hfailed with
  | loop => exact calm_tacit _ _ fun _ => ⟨rfl, rfl, List.Subset.refl _, .inl⟩
  | @branch f g r exits cache _ hf _ _ _ _ _ hdiscard =>
    have hexits : Calm m.cache { m.cache with exits } := calm_congr rfl rfl
    exact trans_of Calm hexits (discard_calm (by rw [hnumbered hf]; exact hf) hdiscard)
  | gone => exact calm_congr rfl rfl

theorem Indexed.failed (h : Indexed config m)
    (hnumbered : ∀ {j q}, m.cache.fragment? j = some q → q.id = j)
    {anchor : Option GuardId} (hfailed : Failed id anchor m m') : Indexed config m' := by
  obtain ⟨stats, hm'⟩ := hfailed.frame
  rw [hm']
  exact h.calm stats (hfailed.calm hnumbered)

/-- The recorder gave the recording up, or there was none. -/
theorem Recorded.indexed {α : Type} {x : Recording α} {P : α → Recorder → Prop} {e : MonitorError}
    (h : Indexed config m)
    (hnumbered : ∀ {j q}, m.cache.fragment? j = some q → q.id = j)
    (hx : Ensures (Stopped m.recorder) x m.recorder P)
    (hr : Recorded x m (.error e) m') : Indexed config m' := by
  cases hr with
  | idle hidle =>
    obtain ⟨rfl, -⟩ : _ = m.recorder ∧ _ := (ensures_error hidle).mp hx
    exact h
  | failed habort _ hfailed =>
    obtain ⟨-, -, r, -, rfl⟩ := (ensures_error habort).mp hx
    have hgone := h.rested r.reset m.stats h.sorted rfl
    exact hgone.failed hnumbered hfailed
  | stray habort _ =>
    obtain ⟨-, -, r, -, rfl⟩ := (ensures_error habort).mp hx
    exact h.rested r.reset m.stats h.sorted rfl

theorem record_indexed (ha : Accounted V B m) (h : Indexed config m) (p : Primitive) :
    Ensures Anyhow (record p) m fun _ m' => Indexed config m' := by
  unfold record
  have hrecord :=
    Trace.record_ensures (V := fun _ => True) (p := p) m.helpers m.config.maxTraceLength m.recorder
    fun _ _ _ _ => trivial
  refine .get ((onRecorder_records _).mono fun result m' hm' => ?_)
  cases result with
  | error e => exact hm'.indexed h ha.filed.numbered hrecord
  | ok a =>
    cases hm' with
    | done hok =>
      obtain ⟨hsame, hstate⟩ := (ensures_ok hok).mp hrecord
      exact ⟨h.settings, h.opened, h.runs, h.sorted, fun _ id e hid he =>
        h.live (recording_eq_true.mpr hstate) id e (hsame.fragment ▸ hid) he⟩

theorem abortRecording_indexed (ha : Accounted V B m) (h : Indexed config m) (a : Abort) :
    Ensures Anyhow (abortRecording a) m fun _ m' => Indexed config m' := by
  refine (abortRecording_ends a).mono fun _ m' hm' => ?_
  rcases hm' with ⟨rfl, -⟩ | ⟨id, -, -, hfailed⟩
  · exact h
  · have hgone := h.rested m.recorder.reset m.stats h.sorted rfl
    exact hgone.failed ha.filed.numbered hfailed

/-! ### Recordings that begin -/

/-- What is recorded is cached. -/
theorem Begun.indexed {types : TypeMap} {anchor : Option GuardId} (hb : Begun id types anchor m m')
    (hnumbered : ∀ {j q}, m.cache.fragment? j = some q → q.id = j) (h : Indexed config m)
    (hlive : ∀ e, m.cache.directory.listing id = some e → e.cached = true) : Indexed config m' := by
  obtain ⟨f, root, r, stats, hf, -, hstart, rfl⟩ := hb
  have hcalm : Calm m.cache (m.cache.update id ({ · with state := .recording })) :=
    calm_tacit _ _ fun _ => ⟨rfl, rfl, List.Subset.refl _, .inl⟩
  refine ⟨h.settings, h.opened, h.runs, h.sorted.calm hcalm, fun _ j e hj he => ?_⟩
  obtain rfl : id = j := by
    rw [(start_started hstart).fragment, hnumbered hf] at hj
    exact Option.some.inj hj
  exact hlive e (hcalm.directory ▸ he)

/-- The fragment of a loop is found, or it is entered. -/
theorem Chosen.sorted {key : LoopKey} {types : TypeMap} (h : Rested V B m) (hs : m.cache.Sorted)
    (hc : Chosen key types m id m') (hf : m'.cache.fragment? id = some f) :
    ∃ c, m' = { m with cache := c } ∧ c.Sorted ∧
      ∃ e, c.directory.listing id = some e ∧ e.cached = true := by
  have hid := (fragment?_eq_some.mp hf).1
  have hmade : ∀ {c : FragmentCache} {j : FragmentId} {made : Bool} {root : Fragment},
      m.cache.getOrCreate key = (c, j, made) → c.fragment? j = some root →
        c.Sorted ∧ c.Filed V B none ∧
        c.fragments.size < 2 ^ 32 ∧ root.kind = .root ∧ root.cached = true := by
    intro c j made root hget hroot
    have hj := (fragment?_eq_some.mp hroot).1
    obtain ⟨hfiled, hsize, -⟩ := getOrCreate_filed h.filed h.size hget hj
    obtain ⟨hs', e, he, hcached, hkind, -⟩ := getOrCreate_sorted hs h.size hget hj
    obtain ⟨root', hroot', -, rfl⟩ := listing_eq_some.mp he
    rw [hroot] at hroot'
    cases hroot'
    exact ⟨hs', hfiled, hsize, hkind, hcached⟩
  cases hc with
  | found hget hroot hfound =>
    obtain ⟨hs', hfiled, -, hkind, hcached⟩ := hmade hget hroot
    exact ⟨_, rfl, hs', findPeer?_listed hs' hfiled.numbered hroot hkind hcached hfound⟩
  | typed hget hroot huntyped =>
    obtain ⟨hs', -, -, hkind, hcached⟩ := hmade hget hroot
    obtain ⟨htyped, hdirectory⟩ := update_typed_sorted hs' hroot hkind huntyped types
    refine ⟨_, rfl, htyped, ?_⟩
    rw [hdirectory, Directory.listing_amend (listing_of_fragment hroot (by rw [hkind]; nofun)),
      if_pos rfl]
    exact ⟨_, rfl, hcached⟩
  | added hget hroot hadd hnone htyped =>
    obtain ⟨hs', hfiled, hsize, -, hcached⟩ := hmade hget hroot
    rw [← hfiled.numbered hroot] at hroot
    exact ⟨_, rfl, addPeer_sorted hs' hsize hroot hcached htyped hnone hadd hid⟩

theorem loopEdge_indexed (ha : Accounted V B m) (h : Indexed config m) (key : LoopKey)
    (types : TypeMap) :
    Ensures Anyhow (loopEdge key types) m fun _ m' => Indexed config m' := by
  have hrested : m.recorder.state = .idle → ∀ stats, Rested V B { m with stats } :=
    fun hidle stats =>
    ⟨ha.filed, ha.size, ha.helpers, ha.trace, not_recording hidle⟩
  have hcounts : ∀ (c : FragmentCache) (id : FragmentId),
      Calm c (c.update id fun f => { f with hits := f.hits + 1 }) :=
    fun c id => calm_tacit c id fun _ => ⟨rfl, rfl, List.Subset.refl _, .inl⟩
  refine (loopEdge_loops key types).mono fun b m' hlooped => ?_
  cases hlooped with
  | skipped => exact h.calm _ (refl_of Calm m.cache)
  | chosen hidle hchosen hf =>
    obtain ⟨c, rfl, hsorted, -⟩ := hchosen.sorted (hrested hidle _) (by exact h.sorted) hf
    exact h.rested m.recorder _ hsorted (not_recording hidle)
  | counted hidle hchosen hf =>
    obtain ⟨c, rfl, hsorted, -⟩ := hchosen.sorted (hrested hidle _) (by exact h.sorted) hf
    exact h.rested m.recorder _ (hsorted.calm (hcounts c _)) (not_recording hidle)
  | @begun id stats m₁ m' hidle hchosen f hf hstate hbegun =>
    obtain ⟨hrested₁, -⟩ := hchosen.rested (hrested hidle _) hf
    obtain ⟨c, rfl, hsorted, e, he, hcached⟩ :=
      hchosen.sorted (hrested hidle _) (by exact h.sorted) hf
    have hfiled :=
      hrested₁.filed.reduced (reduced_update c id (g := fun f => { f with hits := f.hits + 1 })
      fun f => f.faded_counts _ _ _ _)
    refine hbegun.indexed hfiled.numbered
      (h.rested m.recorder stats (hsorted.calm (hcounts c id)) (not_recording hidle))
      fun e' he' => ?_
    replace he' : (c.update id fun f => { f with hits := f.hits + 1 }).directory.listing id =
      some e' := he'
    rw [(hcounts c id).directory, he] at he'
    exact Option.some.inj he' ▸ hcached

/-! ### Dropping fragments -/

/-- A recording of what depends on the fragment was given up, so what is still recorded stays
cached. -/
theorem Expelled.indexed {on : FragmentId} (he : Expelled on m m') (ha : Accounted V B m)
    (h : Indexed config m)
    (hon : on ≠ 0) : Indexed config m' := by
  obtain ⟨hyielded, hdrop⟩ := he
  have hrested : ∀ {c₁ c : FragmentCache} {gone : List FragmentId} (stats : Stats),
    Calm m.cache c₁ → c₁.Filed V B none →
      c₁.fragments.size < 2 ^ 32 → FragmentCache.invalidate on c₁ = .ok gone c →
      Indexed config { m with recorder := m.recorder.reset, stats, cache := c } :=
        fun stats hcalm hfiled hsize hdrop =>
    h.rested m.recorder.reset stats (invalidate_sorted (h.sorted.calm hcalm) hfiled hsize hdrop) rfl
  cases hyielded with
  | idle hnone =>
    refine ⟨h.settings, h.opened, h.runs, invalidate_sorted h.sorted ha.filed ha.size hdrop,
      fun hrecording id e hid => ?_⟩
    rw [show m.recorder.fragment = some id from hid] at hnone
    cases hnone hrecording
  | @apart rf hrecording hrf hapart =>
    refine ⟨h.settings, h.opened, h.runs, invalidate_sorted h.sorted ha.filed ha.size hdrop,
      fun _ id e hid he => ?_⟩
    obtain rfl : rf = id := Option.some.inj (hrf.symm.trans hid)
    obtain ⟨f', hf', hkind', rfl⟩ := listing_eq_some.mp he
    obtain ⟨f, hf, hshrunk⟩ := ((invalidate_reduces on).ok hdrop).back hf'
    have hkind : f.kind ≠ .branch := hshrunk.kind ▸ hkind'
    have hcached := h.live hrecording rf _ hrf (listing_of_fragment hf hkind)
    unfold dependsOn at hapart
    rw [hf] at hapart
    obtain ⟨⟨hid, hroot⟩, -⟩ : (f.id ≠ on ∧ f.root ≠ on) ∧ _ := by simpa using hapart
    obtain ⟨q, hq⟩ := invalidate_spares h.sorted ha.filed ha.size hon hdrop
      (cached?_eq_some.mpr ⟨hf, hcached⟩) hkind
      (ha.filed.numbered hf ▸ hid) hroot
    obtain ⟨hq, hlive⟩ := cached?_eq_some.mp hq
    rw [show _ = some f' from hf'] at hq
    cases hq
    exact hlive
  | branch hrecording _ hf hkind hdiscard =>
    have hreduced := ((discard_reduces _).ok hdiscard).faded
    exact hrested _ (discard_calm (by rw [ha.filed.numbered hf]; exact hf) hdiscard)
      (ha.filed.reduced hreduced)
      (hreduced.size ▸ ha.size) hdrop
  | @loop id f stats hrecording hid hf hkind =>
    obtain ⟨id', hid', hsubject⟩ := ha.recording hrecording
    rw [hid] at hid'
    cases hid'
    have hfiled := (ha.forsaken hsubject m.stats).filed
    have hcalm : Calm m.cache (m.cache.update id ({ · with state := .failed })) :=
      calm_tacit _ _ fun _ => ⟨rfl, rfl, List.Subset.refl _, .inl⟩
    exact hrested _ hcalm hfiled ((update_size _ _).symm ▸ ha.size) hdrop

theorem Cleared.indexed (hc : Cleared m m') (ha : Accounted V B m)
    (h : Indexed config m) : Indexed config m' := by
  obtain ⟨hr, hflush⟩ := hc
  refine h.rested _ _ (flush_sorted h.sorted ha.filed ha.size hflush) ?_
  rcases hr with ⟨-, rfl⟩ | ⟨hrests, rfl⟩
  · rfl
  · exact hrests

theorem outOfSpace_indexed (ha : Accounted V B m) (h : Indexed config m) (key : LoopKey) :
    Ensures Anyhow (outOfSpace key) m fun _ m' => Indexed config m' := by
  refine (outOfSpace_clears key).mono fun _ m' ⟨stats, hc⟩ => hc.indexed (V := V) (B := B) ?_ ?_
  · exact ha.still ⟨rfl, rfl, rfl, rfl⟩
  · exact ⟨h.settings, h.opened, h.runs, h.sorted, h.live⟩

/-! ### Recordings that end -/

theorem Deployed.calm {anchor : Option GuardId} {a : Assembly}
    (hd : Deployed id anchor a m m') : Calm m.cache m'.cache := by
  cases hd with
  | loop hinstall => exact (install_calm id a).ok hinstall
  | branch hinstall _ hpromote =>
    exact trans_of Calm ((install_calm id a).ok hinstall) ((promote_calm _ _).ok hpromote)

theorem Deployed.indexed {anchor : Option GuardId} {a : Assembly} (hd : Deployed id anchor a m m')
    (h : Indexed config m) : Indexed config m' := by
  have hsorted := h.sorted.calm hd.calm
  have hrests := hd.rests
  cases hd <;> exact h.rested _ _ hsorted hrests

/-- What is put into use is compiled. -/
theorem Deployed.compiled {anchor : Option GuardId} {a : Assembly} (hd : Deployed id anchor a m m')
    (hf : m.cache.fragment? id = some f) :
    m'.cache.compiled id = true := by
  have hinstalled : ∀ {c : FragmentCache}, FragmentCache.install id a m.cache = .ok () c →
      c.compiled id = true := by
    intro c hinstall
    obtain ⟨r, hr⟩ := install_installed (fragment?_eq_some.mp hf).1 hinstall
    rw [FragmentCache.compiled, hr.fragment_self hf]
    rfl
  cases hd with
  | loop hinstall => exact hinstalled hinstall
  | branch hinstall _ hpromote =>
    exact (((promote_akin _ _).ok hpromote).compiled id).trans (hinstalled hinstall)

theorem endRecording_indexed (ha : Accounted V (fun _ _ => True) m) (h : Indexed config m)
    (stop : TypeMap) :
    Ensures Anyhow (endRecording stop) m fun _ m' => Indexed config m' := by
  refine (endRecording_ends stop).mono fun result m' hm' => ?_
  cases hm' with
  | idle => exact h
  | unfinished _ _ _ hrecorded =>
    exact hrecorded.indexed h ha.filed.numbered (finish_ensures _ _ _ m.recorder)
  | @compiled id f f₁ target b r a c m' hrecording hid hf hfinish hf₁ hassemble hdeployed hends =>
    have hcalm : Calm m.cache c :=
      trans_of Calm (attachTrace_calm hf b fun hkind => by rw [hends hkind]; rfl)
        ((assemble_calm _ _ _).ok hassemble)
    have hcommitting : r.isRecording = false := by
      rw [Recorder.isRecording, (finish_finished hfinish).state]
      rfl
    exact hdeployed.indexed (h.rested r m.stats (h.sorted.calm hcalm) hcommitting)
  | @rejected id f f₁ target b r e c stats m₁ m' hrecording hid hf hfinish hf₁ hassemble _
      hfailed hspace _ hends =>
    have hcalm : Calm m.cache (c.update id ({ · with trace := none, treeTarget := none })) := by
      refine trans_of Calm (attachTrace_calm hf b fun hkind => by rw [hends hkind]; rfl)
        (trans_of Calm ((assemble_calm _ _ _).error hassemble).1 (calm_tacit _ _ fun _ => ?_))
      exact ⟨rfl, rfl, List.Subset.refl _, fun h => by cases h⟩
    obtain ⟨hrested, hsubject⟩ :=
      ha.detached hrecording hid hf (fun _ => trivial) hfinish hf₁ hassemble stats
    have h₁ : Indexed config { m with
        stats, recorder := r.reset, cache :=
          c.update id ({ · with trace := none, treeTarget := none }) } :=
      h.rested r.reset stats (h.sorted.calm hcalm) rfl
    replace h₁ := h₁.failed hrested.filed.numbered hfailed
    rcases hspace with ⟨-, rfl⟩ | ⟨-, key, hflush⟩
    · exact h₁
    · exact (ensures_ok hflush).mp
        (outOfSpace_indexed (hfailed.rested hrested hsubject).accounted h₁ key)

/-- A loop that was recorded is cached and compiled, and the types at its end are those that it is
entered with. -/
theorem endRecording_deploys (ha : Accounted V B m) (h : Indexed config m) (hm : Engaged m id f)
    (hkind : f.kind ≠ .branch)
    {stop : TypeMap} (hend : endRecording stop m = .ok (.ok ()) m') :
    ∃ f', m'.cache.cached? id = some f' ∧
      f'.state = .compiled ∧ f'.kind = f.kind ∧ f'.key = f.key ∧ f'.types = stop := by
  cases (ensures_ok hend).mp (endRecording_ends stop) with
  | @compiled id' f' f₁ target b r a c m' hrecording hid hf hfinish hf₁ hassemble hdeployed hends =>
    rw [hm.fragment] at hid
    cases hid
    rw [hm.found] at hf
    cases hf
    obtain ⟨-, -, -, -, htypes, -⟩ := finish_ok hfinish
    have hcached := h.live hm.recording id _ hm.fragment (listing_of_fragment hm.found hkind)
    have hcalm : Calm m.cache m'.cache :=
      trans_of Calm (attachTrace_calm hm.found b fun hkind => by rw [hends hkind]; rfl)
        (trans_of Calm ((assemble_calm _ _ _).ok hassemble) hdeployed.calm)
    have hlisting := (congrFun (congrArg Directory.listing hcalm.directory) id).trans
      (listing_of_fragment hm.found hkind)
    obtain ⟨f', hf', -, heq⟩ := listing_eq_some.mp hlisting
    have hcompiled : m'.cache.compiled id = true := by
      rw [ha.filed.numbered hm.found] at hdeployed
      obtain ⟨f₂, hf₂, -⟩ := ((assemble_calm _ _ _).ok hassemble).forth hf₁
      exact hdeployed.compiled hf₂
    rw [FragmentCache.compiled, hf'] at hcompiled
    refine ⟨f', cached?_eq_some.mpr ⟨hf', (congrArg Listing.cached heq).symm.trans hcached⟩,
      beq_iff_eq.mp hcompiled,
      (congrArg Listing.kind heq).symm, (congrArg Listing.key heq).symm, ?_⟩
    exact (congrArg Listing.types heq).symm.trans (htypes hkind).symm

/-! ### Exits -/

theorem handleExit_indexed (ha : Accounted V B m) (h : Indexed config m) (g : GuardId) :
    Ensures Anyhow (handleExit g) m fun _ m' => Indexed config m' := by
  have hpassed : ∀ (r : Guard) (source : Fragment), Calm m.cache (passed m.cache r source) := by
    intro r source
    have hexits : Calm m.cache (m.cache.updateExit r.exit fun e => { e with hits := e.hits + 1 }) :=
      calm_congr rfl rfl
    refine trans_of Calm hexits
      (calm_tacit _ source.id (g := fun f => { f with exits := f.exits + 1 }) fun _ => ?_)
    exact ⟨rfl, rfl, List.Subset.refl _, .inl⟩
  have hattached : ∀ {r : Guard} {source child : Fragment} {id : FragmentId} {c : FragmentCache},
      FragmentCache.attachChild source r (passed m.cache r source) = .ok id c →
          c.fragment? id = some child → c.Sorted :=
    fun {r source _ _ _} hattach hchild => (attachChild_sorted (h.sorted.calm (hpassed r source))
      (ha.passed r source m.stats).size hattach (fragment?_eq_some.mp hchild).1).1
  refine (handleExit_exits g).mono fun b m' hexited => ?_
  cases hexited with
  | stray => exact h.calm _ (calm_congr rfl rfl)
  | counted => exact h.calm _ (hpassed _ _)
  | @dropped r source stats gone m' _ hs hdrop =>
    have hsource := fragment?_of_cached hs
    refine ((ensures_ok hdrop).mp (invalidate_expels source.id)).indexed (ha.passed r source stats)
      (h.calm _ (hpassed _ _)) ?_
    rw [ha.filed.numbered hsource]
    exact (fragment?_eq_some.mp hsource).1
  | refused hidle _ hs hattach hchild hdiscard =>
    obtain ⟨hrested, -⟩ := ha.attached hidle hs hattach hchild m.stats
    have hcalm := discard_calm (hrested.filed.numbered hchild ▸ hchild) hdiscard
    exact h.rested m.recorder _ ((hattached hattach hchild).calm hcalm) (not_recording hidle)
  | @branched r source child id stats c m' hidle _ hs hattach hchild hbegun =>
    obtain ⟨hrested, -, hkind⟩ := ha.attached hidle hs hattach hchild stats
    refine hbegun.indexed hrested.filed.numbered
      (h.rested m.recorder stats (hattached hattach hchild) (not_recording hidle)) fun e he => ?_
    rw [show _ = none from listing_branch hchild hkind] at he
    cases he

/-! ### Histories -/

/-- What is to be dropped is a fragment. -/
def Operation.Known (m : Monitor) (op : Operation) : Prop :=
  ∀ id, op = .invalidate id → ∃ f, m.cache.fragment? id = some f

/-- One operation. -/
theorem Indexed.step (ha : Accounted (fun _ => True) (fun _ _ => True) m)
    (h : Indexed config m) {op : Operation}
    (hop : op.Known m) (hrun : op.run m = .ok () m') : Indexed config m' := by
  cases op with
  | loopEdge key types =>
    obtain ⟨b, hok⟩ := ignored_eq_ok hrun
    exact (ensures_ok hok).mp (loopEdge_indexed ha h key types)
  | record p =>
    obtain ⟨b, hok⟩ := ignored_eq_ok hrun
    exact (ensures_ok hok).mp (record_indexed ha h p)
  | finish stop =>
    obtain ⟨result, hok⟩ := ignored_eq_ok hrun
    exact (ensures_ok hok).mp (endRecording_indexed ha h stop)
  | abort a => exact (ensures_ok hrun).mp (abortRecording_indexed ha h a)
  | execute fuel id slots =>
    obtain ⟨b, hok⟩ := ignored_eq_ok hrun
    have hran := (keepsAt_ok hok).mp (execute_ran ha.helpers fuel id slots)
    refine ⟨hran.config.trans h.settings, hran.closed.trans h.opened, hran.machine.trans h.runs,
      hran.cache ▸ h.sorted, ?_⟩
    unfold Monitor.recording
    rw [hran.recorder, hran.cache]
    exact h.live
  | exit g =>
    obtain ⟨b, hok⟩ := ignored_eq_ok hrun
    exact (ensures_ok hok).mp (handleExit_indexed ha h g)
  | invalidate id =>
    obtain ⟨b, hok⟩ := ignored_eq_ok hrun
    obtain ⟨f, hf⟩ := hop id rfl
    exact ((ensures_ok hok).mp (invalidate_expels id)).indexed ha h (fragment?_eq_some.mp hf).1
  | flush => exact ((ensures_ok hrun).mp flush_clears).indexed ha h

theorem create_indexed (hnative : config.native = false)
    (h : Monitor.create config = .ok m) : Indexed config m := by
  obtain ⟨-, r, r', -, -, rfl⟩ := create_eq h
  refine ⟨rfl, rfl, ?_, sorted_new _ _, nofun⟩
  rw [hnative]
  rfl

theorem Reached.indexed (hnative : config.native = false)
    (h : Reached (fun m op => op.Known m) config m) :
    Accounted (fun _ => True) (fun _ _ => True) m ∧ Indexed config m := by
  induction h with
  | start h => exact ⟨create_accounted h, create_indexed hnative h⟩
  | step _ hop hrun ih => exact ⟨ih.1.step hrun, ih.2.step ih.1 hop hrun⟩

/-- A compiled loop is entered for its types, unless it is a root that has none. -/
theorem Indexed.enters (h : Indexed config m) (henabled : config.enabled = true)
    (hf : m.cache.cached? id = some f)
    (hkind : f.kind ≠ .branch) (hstate : f.state = .compiled) :
    m.enter? f.key f.types = if f.kind = .root ∧ f.types = [] then none else some f := by
  obtain ⟨r, root, hlookup, hroot, hfound⟩ := h.sorted.found hf hkind
  have hopen : (m.closed || !m.config.enabled || m.machine.isNone) = false := by
    rw [h.opened, h.settings, henabled, ← Option.not_isSome, h.runs]
    rfl
  unfold enter?
  rw [hopen, if_neg Bool.false_ne_true, hlookup]
  simp only [Option.bind_eq_bind, Option.bind_some, hroot, hfound]
  split
  · rfl
  · rw [Option.bind_some, if_pos]
    exact beq_iff_eq.mpr hstate

/-- After every history of operations: a compiled root or peer that is cached is entered for its
loop and its types, and no other cached root or peer of the loop has these types. What was recorded
for a root or a peer and compiled is entered for the types at the end of the recording. A root that
is entered with no types is not found. -/
theorem loops_found (h : Reached (fun m op => op.Known m) config m)
    (henabled : config.enabled = true)
    (hnative : config.native = false) :
    (∀ id f, m.cache.cached? id = some f → f.kind ≠ .branch → f.state = .compiled →
      m.enter? f.key f.types = (if f.kind = .root ∧ f.types = [] then none else some f) ∧
      ∀ k q, m.cache.cached? k = some q → q.kind ≠ .branch → q.key = f.key →
      q.types = f.types → k = id) ∧
    ∀ id f stop m', Engaged m id f → f.kind ≠ .branch → endRecording stop m = .ok (.ok ()) m' →
      ∃ f', m'.cache.cached? id = some f' ∧ f'.state = .compiled ∧
        m'.enter? f.key stop = if f.kind = .root ∧ stop = [] then none else some f' := by
  obtain ⟨ha, hm⟩ := h.indexed hnative
  refine ⟨fun id f hf hkind hstate => ⟨hm.enters henabled hf hkind hstate,
    fun k q hq hkind' hkey htypes => ?_⟩,
    fun id f stop m' hengaged hkind hend => ?_⟩
  · exact hm.sorted.unlike hf hkind hq hkind' hkey htypes
  · obtain ⟨f', hf', hstate, hkind', hkey, rfl⟩ := endRecording_deploys ha hm hengaged hkind hend
    have hm' := (ensures_ok hend).mp (endRecording_indexed ha hm f'.types)
    refine ⟨f', hf', hstate, ?_⟩
    rw [← hkey, ← hkind']
    exact hm'.enters henabled hf' (hkind' ▸ hkind) hstate

/-- The theorem where a loop is compiled for an int and for a float: each is found for its types. -/
theorem forest_found : ∃ m root peer, Reached (fun m op => op.Known m) eager m ∧
    m.cache.cached? 1 = some root ∧ root.kind = .root ∧ m.enter? firstLoop [.int] = some root ∧
    m.cache.cached? 2 = some peer ∧ peer.kind = .peer ∧ m.enter? firstLoop [.float] = some peer ∧
    ∀ k q, m.cache.cached? k = some q → q.kind ≠ .branch → q.key = firstLoop →
      q.types = [.float] → k = 2 := by
  obtain ⟨m, hcareful, hforest⟩ := growing_forest
  have hm : Reached (fun m op => op.Known m) eager m := hcareful.mono fun _ _ hop id heq => by
    rw [heq] at hop
    exact hop.elim
  obtain ⟨root, hroot, hrooted⟩ := Option.map_eq_some_iff.mp hforest.root
  obtain ⟨peer, hpeer, hpeered⟩ := Option.map_eq_some_iff.mp hforest.peer
  injection hrooted with hkey hkind hstate htypes
  injection hpeered with hkey' hkind' hstate' htypes'
  obtain ⟨hentered, -⟩ := loops_found hm rfl rfl
  obtain ⟨henter, -⟩ := hentered 1 root hroot (hkind ▸ nofun) hstate
  obtain ⟨henter', honly⟩ := hentered 2 peer hpeer (hkind' ▸ nofun) hstate'
  rw [hkey, htypes, if_neg fun h => nomatch h.2] at henter
  rw [hkey', htypes', if_neg fun h => nomatch h.2] at henter'
  rw [hkey', htypes'] at honly
  exact ⟨m, root, peer, hm, hroot, hkind, henter, hpeer, hkind', henter', honly⟩

end LoopTracer.Monitor
