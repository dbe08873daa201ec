import LoopTracer.Proofs.Fragment.Filing
import LoopTracer.Proofs.Monitor.Operations
import LoopTracer.Proofs.Monitor.Outcomes

/-! What a monitor can account for.

After every history of operations, whatever was dropped on the way, the cache is filed, the
constants in what is being recorded are accounted for as well, and the fragment that is being
recorded has no trace yet (`Accounted`). `V` stands for the constants that the monitor was told, and
`B` for the loops that were recorded: an operation keeps the accounts if it is told no other
constant and begins no other loop. -/
namespace LoopTracer.Monitor

open Trace Compile FragmentCache

variable {V : Immediate → Prop} {B : FragmentId → LoopKey → Prop} {m m' : Monitor}
  {id : FragmentId} {f : Fragment}

theorem not_recording (h : m.recorder.state = .idle) : m.recording = false := by
  rw [← Bool.not_eq_true, recording_eq_true, h]
  nofun

/-- What a monitor accounts for while nothing is being recorded. -/
structure Rested (V : Immediate → Prop) (B : FragmentId → LoopKey → Prop) (m : Monitor) : Prop where
  filed : m.cache.Filed V B none
  size : m.cache.fragments.size < 2 ^ 32
  helpers : m.helpers = .standard
  trace : ∀ i ∈ m.recorder.buffer.insts, i.Vouched V
  idle : m.recording = false

/-- The fragment with a number is being recorded and has no trace yet. -/
def Subject (c : FragmentCache) (id : FragmentId) : Prop :=
  ∃ f, c.fragment? id = some f ∧ f.trace = none ∧ f.treeTarget = none

/-- What a monitor accounts for. -/
structure Accounted (V : Immediate → Prop) (B : FragmentId → LoopKey → Prop)
    (m : Monitor) : Prop where
  filed : m.cache.Filed V B none
  size : m.cache.fragments.size < 2 ^ 32
  helpers : m.helpers = .standard
  trace : ∀ i ∈ m.recorder.buffer.insts, i.Vouched V
  recording : m.recording = true → ∃ id, m.recorder.fragment = some id ∧ Subject m.cache id

theorem Rested.accounted (h : Rested V B m) : Accounted V B m :=
  ⟨h.filed, h.size, h.helpers, h.trace,
    fun hrecording => by rw [h.idle] at hrecording; cases hrecording⟩

theorem Accounted.rested (h : Accounted V B m) (hidle : m.recording = false) : Rested V B m :=
  ⟨h.filed, h.size, h.helpers, h.trace, hidle⟩

theorem Accounted.still (h : Accounted V B m) (hs : Still m m') : Accounted V B m' where
  filed := hs.cache ▸ h.filed
  size := hs.cache ▸ h.size
  helpers := hs.helpers.trans h.helpers
  trace := hs.recorder ▸ h.trace
  recording := by
    unfold Monitor.recording
    rw [hs.recorder, hs.cache]
    exact h.recording

theorem Accounted.mono {V' : Immediate → Prop} {B' : FragmentId → LoopKey → Prop}
    (h : Accounted V B m)
    (hV : ∀ v, V v → V' v) (hB : ∀ id key, B id key → B' id key) : Accounted V' B' m where
  filed := h.filed.mono hV hB
  size := h.size
  helpers := h.helpers
  trace i hi := (h.trace i hi).mono hV
  recording := h.recording

/-- The recorder is cleared. -/
theorem Rested.of_reset {r : Recorder} {c : FragmentCache} {stats : Stats}
    (hfiled : c.Filed V B none)
    (hsize : c.fragments.size < 2 ^ 32) (hhelpers : m.helpers = .standard) :
    Rested V B { m with recorder := r.reset, cache := c, stats } :=
  ⟨hfiled, hsize, hhelpers, fun i hi => absurd hi (Array.not_mem_empty i), rfl⟩

theorem Counted.placed {n : Nat} {x x' : Array ExitRecord} (h : Counted n x x')
    (hx : Placed V x) : Placed V x' := by
  have hback : ∀ e' ∈ x', ∃ e ∈ x, e'.exit = e.exit ∧ e'.locations = e.locations := by
    intro e' he'
    obtain ⟨k, hk⟩ := Array.mem_iff_getElem?.mp he'
    by_cases hn : k = n
    · subst hn
      obtain ⟨e, _, _, _, he, rfl⟩ := h.record e' hk
      exact ⟨e, Array.mem_of_getElem? he, rfl, rfl⟩
    · rw [h.others k hn] at hk
      exact ⟨e', Array.mem_of_getElem? hk, rfl, rfl⟩
  refine ⟨fun e' he' => ?_, fun e' he' => ?_⟩
  all_goals obtain ⟨e, he, hexit, hlocations⟩ := hback e' he'
  · exact hexit ▸ hx.kinds e he
  · exact hlocations ▸ hx.places e he

/-! ### Recordings -/

/-- A recording begins for a fragment that has no trace. -/
theorem Begun.accounted {types : TypeMap} {anchor : Option GuardId}
    (hb : Begun id types anchor m m') (h : Rested V B m)
    (hf : Subject m.cache id) : Accounted V B m' := by
  obtain ⟨f, root, r, stats, hf₀, -, hstart, rfl⟩ := hb
  obtain ⟨f', hf', htrace, htarget⟩ := hf
  rw [hf₀] at hf'
  cases hf'
  have hid := (fragment?_eq_some.mp hf₀).1
  have hstarted := start_started hstart
  have hold := h.filed.fragments hf₀
  refine ⟨?_, by simpa using h.size, h.helpers, ?_,
    fun _ => ⟨id, ?_, { f with state := .recording }, ?_, htrace, htarget⟩⟩
  · refine h.filed.update (g := ({ · with state := .recording })) hf₀ ⟨rfl, rfl, rfl⟩
      (fun j hj => .inl hj) ?_
    exact ⟨fun _ _ => ⟨htrace, htarget⟩, nofun, hold.begun, hold.vouched, hold.children⟩
  · exact fun i hi => (hstarted.trace i hi).mono fun _ => False.elim
  · rw [hstarted.fragment, h.filed.numbered hf₀]
  · show (m.cache.update id _).fragment? id = _
    rw [fragment?_update hid, if_pos rfl, hf₀]
    rfl

/-- A recording is given up. -/
theorem Failed.rested {anchor : Option GuardId} (h : Rested V B m) (hsubject : Subject m.cache id)
    (hfailed : Failed id anchor m m') : Rested V B m' := by
  obtain ⟨f', hf', htrace, htarget⟩ := hsubject
  cases hfailed with
  | loop hf hkind _ hstate =>
    rw [hf] at hf'
    cases hf'
    have hold := h.filed.fragments hf
    refine ⟨?_, by simpa using h.size, h.helpers, h.trace, h.idle⟩
    refine h.filed.update hf ⟨rfl, rfl, rfl⟩ (fun j hj => .inl hj) ?_
    refine ⟨fun _ _ => ⟨htrace, htarget⟩, fun hs => ?_, hold.begun, hold.vouched, hold.children⟩
    rcases hstate with rfl | rfl
    all_goals cases hs
  | branch hf _ _ _ _ hexits hdiscard =>
    have hreduced := ((discard_reduces _).ok hdiscard).faded
    refine ⟨(h.filed.withExits (hexits.placed h.filed.exits)).reduced hreduced, ?_,
      h.helpers, h.trace, h.idle⟩
    show _ < _
    rw [hreduced.size]
    exact h.size
  | gone hf _ hexits =>
    refine ⟨h.filed.withExits ?_, h.size, h.helpers, h.trace, h.idle⟩
    rcases hexits with rfl | ⟨_, _, -, -, hexits⟩
    · exact h.filed.exits
    · exact hexits.placed h.filed.exits

/-- An operation of the recorder that fails keeps the accounts. -/
theorem Recorded.accounted {α : Type} {x : Recording α} {P : α → Recorder → Prop} {e : MonitorError}
    (h : Accounted V B m)
    (hx : Ensures (Stopped m.recorder) x m.recorder P)
    (hr : Recorded x m (.error e) m') : Accounted V B m' := by
  cases hr with
  | idle hidle =>
    obtain ⟨rfl, -⟩ : _ = m.recorder ∧ _ := (ensures_error hidle).mp hx
    exact h
  | failed habort hid hfailed =>
    obtain ⟨-, hstate, r, -, rfl⟩ := (ensures_error habort).mp hx
    obtain ⟨id, hid', hsubject⟩ := h.recording (recording_eq_true.mpr hstate)
    rw [hid] at hid'
    cases hid'
    exact (Failed.rested (.of_reset h.filed h.size h.helpers) hsubject hfailed).accounted
  | stray habort hid =>
    obtain ⟨-, hstate, -⟩ := (ensures_error habort).mp hx
    obtain ⟨id, hid', -⟩ := h.recording (recording_eq_true.mpr hstate)
    rw [hid] at hid'
    cases hid'

/-- A primitive is recorded; a constant that it tells is accounted for. -/
theorem record_accounted (h : Accounted V B m) {p : Primitive}
    (hp : ∀ v dest, p.action = .const v dest → v.kind = .ptr → V v) :
    Ensures Anyhow (record p) m fun _ m' => Accounted V B m' := by
  unfold record
  refine .get ((onRecorder_records _).mono fun result m' hm' => ?_)
  have hrecord := Trace.record_ensures (V := V) m.helpers m.config.maxTraceLength m.recorder hp
  cases result with
  | error e => exact hm'.accounted h hrecord
  | ok u =>
    cases hm' with
    | done hok =>
      obtain ⟨hsame, -⟩ := (ensures_ok hok).mp hrecord
      refine ⟨h.filed, h.size, h.helpers, ?_, fun hrecording => ?_⟩
      · exact fun i hi => (hsame.trace i hi).elim (h.trace i) fun hi => hi
      · have hold : m.recording = true := by
          rw [recording_eq_true] at hrecording ⊢
          exact hsame.state.symm.trans hrecording
        obtain ⟨id, hid, hsubject⟩ := h.recording hold
        exact ⟨id, hsame.fragment.trans hid, hsubject⟩

theorem abortRecording_accounted (h : Accounted V B m) (a : Abort) :
    Ensures Anyhow (abortRecording a) m fun _ m' => Accounted V B m' := by
  refine (abortRecording_ends a).mono fun _ m' hm' => ?_
  rcases hm' with ⟨rfl, -⟩ | ⟨id, hrecording, hid, hfailed⟩
  · exact h
  · obtain ⟨id', hid', hsubject⟩ := h.recording hrecording
    rw [hid] at hid'
    cases hid'
    exact (Failed.rested (.of_reset h.filed h.size h.helpers) hsubject hfailed).accounted

/-! ### The end of a recording -/

/-- A trace that was not compiled is taken away again. -/
theorem Filed.detached {c : FragmentCache} (h : c.Filed V B (some id))
    (hf : c.fragment? id = some f)
    (hopen : f.state ≠ .compiled) :
    (c.update id ({ · with trace := none, treeTarget := none })).Filed V B none := by
  have hid := (fragment?_eq_some.mp hf).1
  have hold := h.fragments hf
  have hnew := h.update (g := ({ · with trace := none, treeTarget := none })) hf ⟨rfl, rfl, rfl⟩
    (fun j hj => .inl hj)
    ⟨fun _ _ => ⟨rfl, rfl⟩, fun hs => absurd hs hopen, fun _ ht => (by cases ht),
      fun _ hb => (by cases hb), hold.children⟩
  refine hnew.settle fun f' hf' _ => ?_
  rw [fragment?_update hid, if_pos rfl, hf] at hf'
  cases hf'
  exact ⟨rfl, rfl⟩

/-- Code is put into use for a fragment that has a trace. -/
theorem Filed.equipped {c c' : FragmentCache} {a : Assembly} (h : c.Filed V B (some id))
    (hf : c.fragment? id = some f)
    (htrace : f.trace.isSome = true) (hi : FragmentCache.install id a c = .ok () c') :
    c'.Filed V B none ∧ c'.fragments.size = c.fragments.size := by
  obtain ⟨c₁, hshrunk, rfl⟩ := install_reduces hi
  have hreduced : Reduced Fragment.Faded c c₁ := trans_of _ (reduced_update c id fun f =>
    ⟨⟨rfl, rfl, rfl⟩, List.Subset.refl _, List.Subset.refl _, rfl, rfl, .inl rfl⟩) hshrunk.faded
  obtain ⟨f₁, hf₁, hfaded⟩ := hreduced.forth hf
  have hid := (fragment?_eq_some.mp hf).1
  have h₁ := h.reduced hreduced
  have hold := h₁.fragments hf₁
  have hnew :=
    h₁.update (g := ({ · with state := .compiled })) hf₁ ⟨rfl, rfl, rfl⟩ (fun j hj => .inl hj)
    ⟨fun _ hs => by simp at hs, fun _ => hfaded.trace ▸ htrace, hold.begun,
      hold.vouched, hold.children⟩
  refine ⟨hnew.settle fun f' hf' hstate => ?_, by rw [update_size, hreduced.size]⟩
  rw [fragment?_update hid, if_pos rfl, hf₁] at hf'
  cases hf'
  simp at hstate

theorem Deployed.rested {anchor : Option GuardId} {a : Assembly} (hd : Deployed id anchor a m m')
    (hfiled : m.cache.Filed V B (some id))
    (hsize : m.cache.fragments.size < 2 ^ 32) (hhelpers : m.helpers = .standard)
    (hf : m.cache.fragment? id = some f)
    (htrace : f.trace.isSome = true) (hstate : m.recorder.state = .committing) : Rested V B m' := by
  have hcommits := commit_committing hstate
  cases hd with
  | loop hinstall hcommit =>
    rw [hcommits] at hcommit
    cases hcommit
    obtain ⟨hfiled, hsize'⟩ := Filed.equipped hfiled hf htrace hinstall
    exact .of_reset hfiled (hsize' ▸ hsize) hhelpers
  | branch hinstall hcommit hpromote =>
    rw [hcommits] at hcommit
    cases hcommit
    obtain ⟨hfiled, hsize'⟩ := Filed.equipped hfiled hf htrace hinstall
    have hreduced := (promote_reduces (F := Fragment.Faded) _ _).ok hpromote
    exact .of_reset (hfiled.reduced hreduced) (by rw [hreduced.size, hsize']; exact hsize) hhelpers

/-- The fragment with the trace that it is given. -/
theorem fragment?_attachTrace {c : FragmentCache} (hf : c.fragment? id = some f) (b : Buffer)
    (target : Option FragmentId) :
    (c.attachTrace id b target).fragment? id =
      some { f with trace := some b, exitBase := c.exits.size, treeTarget := target } := by
  have hupdate := fragment?_update (c := c) (j := id) (g := fun f : Fragment => { f with
    trace := some b, exitBase := c.exits.size, treeTarget := target }) (fragment?_eq_some.mp hf).1
  rw [if_pos rfl, hf] at hupdate
  exact hupdate

/-- Compiling what was recorded keeps the cache in order, but for the fragment that has its
trace now. -/
theorem Accounted.assembled (h : Accounted V B m) (hrecording : m.recording = true)
    (hid : m.recorder.fragment = some id)
    (hf : m.cache.fragment? id = some f) (hB : f.kind ≠ .branch → B id f.key) {stop : TypeMap}
    {target : Option Fragment}
    {b : Buffer} {r : Recorder} (hfinish : Recorder.finish f stop target m.recorder = .ok b r)
    (t : Option FragmentId) {f₁ : Fragment}
    (hf₁ : (m.cache.attachTrace id b t).fragment? id = some f₁) :
    KeepsAt (fun _ c => c.Filed V B (some id) ∧ c.fragments.size < 2 ^ 32 ∧
      c.fragment? id = some f₁ ∧
      f₁.trace.isSome = true ∧ f₁.state ≠ .compiled) (fun _ => True)
      (FragmentCache.assemble m.limits m.helpers f₁) (m.cache.attachTrace id b t) := by
  obtain ⟨id', hid', f', hf', htrace, htarget⟩ := h.recording hrecording
  rw [hid] at hid'
  cases hid'
  rw [hf] at hf'
  cases hf'
  have hopen : f.state ≠ .compiled := fun hs => by
    have := (h.filed.fragments hf).traced hs
    rw [htrace] at this
    cases this
  have hfiled :=
    attachTrace_filed h.filed hf (b := b) t hopen (fun hkind => h.filed.numbered hf ▸ hB hkind)
    fun i hi => ((finish_finished hfinish).trace i hi).elim (h.trace i) fun hi =>
      hi.mono fun _ => False.elim
  have hsame := fragment?_attachTrace hf b t
  rw [hf₁] at hsame
  obtain rfl := Option.some.inj hsame
  let c := m.cache.attachTrace id b t
  have hwork := assemble_restocks m.limits m.helpers
    { f with trace := some b, exitBase := m.cache.exits.size, treeTarget := t }
    (t.bind c.fragment?) { region := c.region, guardCount := c.guardCount, exits := c.exits }
  have hkeep : ∀ shop, Restocked { f with trace := some b,
                                          exitBase := m.cache.exits.size, treeTarget := t }
      { region := c.region, guardCount := c.guardCount, exits := c.exits } shop →
      (c.rebased shop).Filed V B (some id) ∧ (c.rebased shop).fragments.size < 2 ^ 32 ∧
      (c.rebased shop).fragment? id =
        some { f with trace := some b, exitBase := m.cache.exits.size, treeTarget := t } ∧
      (some b).isSome = true ∧ f.state ≠ .compiled := by
    intro shop hshop
    have hsize : (c.rebased shop).fragments.size = m.cache.fragments.size := update_size _ _
    exact ⟨hfiled.rebased hf₁ rfl rfl hshop, hsize ▸ h.size, hf₁, rfl, hopen⟩
  unfold KeepsAt at hwork ⊢
  rw [FragmentCache.assemble_eq]
  dsimp only
  split at hwork
  · next hok =>
    rw [hok]
    exact hkeep _ hwork
  · next herror =>
    rw [herror]
    exact ⟨hkeep _ hwork.1, trivial⟩

/-! ### Dropping fragments -/

/-- Nothing is added to the cache. -/
theorem Accounted.reduced (h : Accounted V B m) {c : FragmentCache}
    (hr : Reduced Fragment.Faded m.cache c) :
    Accounted V B { m with cache := c } := by
  refine ⟨h.filed.reduced hr, hr.size ▸ h.size, h.helpers, h.trace, fun hrecording => ?_⟩
  obtain ⟨id, hid, f, hf, htrace, htarget⟩ := h.recording hrecording
  obtain ⟨f', hf', hfaded⟩ := hr.forth hf
  exact ⟨id, hid, f', hf', hfaded.trace.trans htrace, hfaded.treeTarget.trans htarget⟩

theorem flush_accounted (h : Accounted V B m) :
    Ensures Anyhow flush m fun _ m' => Accounted V B m' := by
  unfold flush
  have hdrop : ∀ m₁ : Monitor, Accounted V B m₁ → Ensures Anyhow (do
      let gone ← caching FragmentCache.flush
      count fun s =>
        { s with flushes := s.flushes + 1, invalidations := s.invalidations + gone.length }) m₁
        fun _ m' => Accounted V B m' := fun m₁ h₁ =>
    caching_bind fun _ c hflush =>
      count_ensures ((h₁.reduced (flush_reduces.ok hflush).faded).still ⟨rfl, rfl, rfl, rfl⟩)
  refine .get ?_
  split
  · exact resetRecorder_bind
      (count_bind (hdrop _ (Rested.of_reset h.filed h.size h.helpers).accounted))
  · exact hdrop m h

/-- The recording of a loop is given up because its fragment is dropped. -/
theorem Accounted.forsaken (h : Accounted V B m) (hs : Subject m.cache id) (stats : Stats) :
    Rested V B { m with
    recorder := m.recorder.reset, stats, cache :=
        m.cache.update id ({ · with state := .failed }) } := by
  obtain ⟨f, hf, htrace, htarget⟩ := hs
  have hold := h.filed.fragments hf
  refine .of_reset (h.filed.update hf ⟨rfl, rfl, rfl⟩ (fun j hj => .inl hj) ?_)
    (by simpa using h.size) h.helpers
  exact ⟨fun _ _ => ⟨htrace, htarget⟩, nofun, hold.begun, hold.vouched, hold.children⟩

theorem invalidate_accounted (h : Accounted V B m) (id : FragmentId) :
    Ensures Anyhow (invalidate id) m fun _ m' => Accounted V B m' := by
  unfold invalidate
  refine .get ?_
  extract_lets rest
  have hrest : ∀ m₁ : Monitor, Accounted V B m₁ → Ensures Anyhow (rest ()) m₁ fun _ m' =>
      Accounted V B m' :=
    fun m₁ h₁ => caching_bind fun _ c hdrop => count_bind (.pure
      ((h₁.reduced ((invalidate_reduces id).ok hdrop).faded).still ⟨rfl, rfl, rfl, rfl⟩))
  clear_value rest
  split
  · next rf hrf =>
    have hrecording : m.recording = true ∧ m.recorder.fragment = some rf := by
      split at hrf
      · next hrecording => exact ⟨hrecording, hrf⟩
      · cases hrf
    obtain ⟨id', hid', f, hf, htrace, htarget⟩ := h.recording hrecording.1
    rw [hrecording.2] at hid'
    cases hid'
    split
    · refine resetRecorder_bind (count_bind (fragment_bind fun f' hf' => ?_))
      have hreset : Accounted V B { m with recorder := m.recorder.reset,
                                           stats := m.stats.abort .flushed } :=
        (Rested.of_reset h.filed h.size h.helpers).accounted
      replace hf' : m.cache.fragment? rf = some f' := hf'
      rw [hf] at hf'
      cases hf'
      split
      · exact caching_bind fun _ c hdiscard =>
          hrest _ (hreset.reduced ((discard_reduces f).ok hdiscard).faded)
      · exact updateFragment_bind (hrest _ (h.forsaken ⟨f, hf, htrace, htarget⟩ _).accounted)
    · exact hrest m h
  · exact hrest m h

theorem outOfSpace_accounted (h : Accounted V B m) (key : LoopKey) :
    Ensures Anyhow (outOfSpace key) m fun _ m' => Accounted V B m' := by
  unfold outOfSpace
  refine .modify_bind (.get ?_)
  split
  · exact count_bind (flush_accounted (h.still ⟨rfl, rfl, rfl, rfl⟩))
  · exact flush_accounted (h.still ⟨rfl, rfl, rfl, rfl⟩)

/-- A trace that could not be compiled was taken away again. -/
theorem Accounted.detached (h : Accounted V B m) (hrecording : m.recording = true)
    (hid : m.recorder.fragment = some id)
    (hf : m.cache.fragment? id = some f) (hB : f.kind ≠ .branch → B id f.key) {stop : TypeMap}
    {target : Option Fragment}
    {b : Buffer} {r : Recorder} (hfinish : Recorder.finish f stop target m.recorder = .ok b r)
    {t : Option FragmentId} {f₁ : Fragment}
    (hf₁ : (m.cache.attachTrace id b t).fragment? id = some f₁) {e : AssembleError}
    {c : FragmentCache}
    (hassemble : (m.cache.attachTrace id b t).assemble m.limits m.helpers f₁ = .error e c)
    (stats : Stats) :
    Rested V B { m with
      stats, recorder := r.reset, cache :=
        c.update id ({ · with trace := none, treeTarget := none }) } ∧
    Subject (c.update id ({ · with trace := none, treeTarget := none })) id := by
  obtain ⟨⟨hfiled, hsize, hf₂, -, hopen⟩, -⟩ :=
    (keepsAt_error hassemble).mp (h.assembled hrecording hid hf hB hfinish _ hf₁)
  obtain ⟨_, hid', f', hf', -⟩ := h.recording hrecording
  rw [hid] at hid'
  cases hid'
  rw [fragment?_attachTrace hf'] at hf₁
  cases hf₁
  refine ⟨.of_reset (Filed.detached hfiled hf₂ hopen) (by simpa using hsize) h.helpers,
    { f' with exitBase := m.cache.exits.size, trace := none, treeTarget := none }, ?_, rfl, rfl⟩
  rw [fragment?_update (fragment?_eq_some.mp hf₂).1, if_pos rfl, hf₂]
  rfl

/-- A recording ends, with its code in use or with a failure. -/
theorem endRecording_accounted (h : Accounted V B m) (stop : TypeMap)
    (hB : ∀ id f, m.recorder.fragment = some id → m.cache.fragment? id = some f →
      f.kind ≠ .branch → B id f.key) :
    Ensures Anyhow (endRecording stop) m fun _ m' => Accounted V B m' := by
  refine (endRecording_ends stop).mono fun result m' hm' => ?_
  cases hm' with
  | idle => exact h
  | unfinished _ _ hf hrecorded => exact hrecorded.accounted h (finish_ensures _ _ _ m.recorder)
  | compiled hrecording hid hf hfinish hf₁ hassemble hdeployed =>
    obtain ⟨hfiled, hsize, hf₂, htrace, -⟩ := (keepsAt_ok hassemble).mp
      (h.assembled hrecording hid hf (hB _ _ hid hf) hfinish _ hf₁)
    rw [h.filed.numbered hf] at hdeployed
    exact (hdeployed.rested hfiled hsize h.helpers hf₂ htrace
      (finish_finished hfinish).state).accounted
  | rejected hrecording hid hf hfinish hf₁ hassemble _ hfailed hspace =>
    obtain ⟨hrested, hsubject⟩ :=
      h.detached hrecording hid hf (hB _ _ hid hf) hfinish hf₁ hassemble _
    replace hrested := hfailed.rested hrested hsubject
    rcases hspace with ⟨-, rfl⟩ | ⟨-, key, hflush⟩
    · exact hrested.accounted
    · exact (ensures_ok hflush).mp (outOfSpace_accounted hrested.accounted key)

/-! ### Loops and exits -/

theorem findPeer_filed {c : FragmentCache} (h : c.Filed V B none) {root : Fragment}
    (hroot : c.fragment? id = some root)
    (hkind : root.kind = .root) {types : TypeMap} (hf : c.findPeer? root types = some f) :
    c.fragment? f.id = some f ∧ f.kind ≠ .branch ∧ f.key = root.key := by
  unfold findPeer? at hf
  split at hf
  · cases hf
    rw [h.numbered hroot, hkind]
    exact ⟨hroot, nofun, rfl⟩
  · obtain ⟨j, hj, hpeer⟩ := List.exists_of_findSome?_eq_some hf
    obtain ⟨hf, -⟩ := Option.filter_eq_some_iff.mp hpeer
    obtain ⟨q, hq, hkind', hkey⟩ := h.peers hroot j hj
    rw [hf] at hq
    cases hq
    rw [h.numbered hf, hkind']
    exact ⟨hf, nofun, hkey⟩

/-- The fragment that counts the runs of a loop belongs to that loop. -/
theorem Chosen.rested {key : LoopKey} {types : TypeMap} (h : Rested V B m)
    (hc : Chosen key types m id m')
    (hf : m'.cache.fragment? id = some f) : Rested V B m' ∧ f.kind ≠ .branch ∧ f.key = key := by
  have hid := (fragment?_eq_some.mp hf).1
  have hmade : ∀ {c : FragmentCache} {j : FragmentId} {made : Bool} {root : Fragment},
      m.cache.getOrCreate key = (c, j, made) → c.fragment? j = some root →
      c.Filed V B none ∧ c.fragments.size < 2 ^ 32 ∧ root.kind = .root ∧ root.key = key := by
    intro c j made root hget hroot
    obtain ⟨hfiled, hsize, root', hroot', hkind, hkey⟩ :=
      getOrCreate_filed h.filed h.size hget (fragment?_eq_some.mp hroot).1
    rw [hroot] at hroot'
    cases hroot'
    exact ⟨hfiled, hsize, hkind, hkey⟩
  cases hc with
  | found hget hroot hfound =>
    obtain ⟨hfiled, hsize, hkind, rfl⟩ := hmade hget hroot
    obtain ⟨hf', hkind', hkey⟩ := findPeer_filed hfiled hroot hkind hfound
    rw [hf] at hf'
    cases hf'
    exact ⟨⟨hfiled, hsize, h.helpers, h.trace, h.idle⟩, hkind', hkey⟩
  | typed hget hroot =>
    obtain ⟨hfiled, hsize, hkind, rfl⟩ := hmade hget hroot
    have hupdate :=
      hfiled.reduced (reduced_update _ id (g := ({ · with entryTypes := knownTypes types }))
      fun f => f.faded_counts _ _ _ _)
    replace hf : (FragmentCache.update _ id _).fragment? id = some f := hf
    rw [fragment?_update hid, if_pos rfl, hroot] at hf
    cases hf
    exact ⟨⟨hupdate, by simpa using hsize, h.helpers, h.trace, h.idle⟩, fun hbranch => (by
      rw [show _ = FragmentKind.root from hkind] at hbranch
      cases hbranch), rfl⟩
  | added hget hroot hadd =>
    obtain ⟨hfiled, hsize, hkind, rfl⟩ := hmade hget hroot
    rw [← hfiled.numbered hroot] at hroot
    obtain ⟨hfiled', hsize', f', hf', hkind', hkey⟩ := addPeer_filed hfiled hsize hroot hadd hid
    replace hf : FragmentCache.fragment? _ id = some f := hf
    rw [hf'] at hf
    cases hf
    exact ⟨⟨hfiled', hsize', h.helpers, h.trace, h.idle⟩, by rw [hkind']; nofun, hkey⟩

/-- A loop is counted, and when its recording begins this is accounted for. -/
theorem loopEdge_accounted (h : Accounted V B m) (key : LoopKey) (types : TypeMap) :
    Ensures Anyhow (loopEdge key types) m fun _ m' => Accounted V B m' := by
  refine (loopEdge_loops key types).mono fun b m' hlooped => ?_
  have hrested : m.recorder.state = .idle → ∀ stats, Rested V B { m with stats } :=
    fun hidle stats =>
    ⟨h.filed, h.size, h.helpers, h.trace, not_recording hidle⟩
  have hcounted : ∀ {m₁ : Monitor} {id : FragmentId} {f : Fragment}, Rested V B m₁ →
    m₁.cache.fragment? id = some f →
      Rested V B { m₁ with cache := m₁.cache.update id fun f => { f
          with hits := f.hits + 1 } } := by
    intro m₁ id f h₁ hf
    have hreduced := reduced_update m₁.cache id (g := fun f => { f with hits := f.hits + 1 })
      fun f => f.faded_counts _ _ _ _
    exact (h₁.accounted.reduced hreduced).rested h₁.idle
  cases hlooped with
  | skipped => exact h.still ⟨rfl, rfl, rfl, rfl⟩
  | chosen hidle hchosen hf => exact (hchosen.rested (hrested hidle _) hf).1.accounted
  | counted hidle hchosen hf =>
    exact (hcounted (hchosen.rested (hrested hidle _) hf).1 hf).accounted
  | @begun id stats m₁ _ hidle hchosen f hf hstate hbegun =>
    obtain ⟨h₁, hkind, rfl⟩ := hchosen.rested (hrested hidle _) hf
    obtain ⟨htrace, htarget⟩ := (h₁.filed.fragments hf).blank nofun (hstate.imp_right .inr)
    have hid := (fragment?_eq_some.mp hf).1
    have hf' : (m₁.cache.update id fun f => { f with hits := f.hits + 1 }).fragment? id =
        some { f with hits := f.hits + 1 } := by
      rw [fragment?_update hid, if_pos rfl, hf]
      rfl
    exact hbegun.accounted (hcounted h₁ hf) ⟨_, hf', htrace, htarget⟩

theorem Accounted.exits (h : Accounted V B m) (n : Nat) :
    Accounted V B { m with cache := m.cache.updateExit n fun e => { e with hits := e.hits + 1 } } :=
  ⟨h.filed.withExits
    ((counted_modify n m.cache.exits fun _ => ⟨_, _, _, rfl⟩).placed h.filed.exits),
    h.size, h.helpers,
    h.trace, h.recording⟩

theorem Accounted.passed (h : Accounted V B m) (r : Guard) (source : Fragment) (stats : Stats) :
    Accounted V B { m with stats, cache := passed m.cache r source } :=
  ((h.exits r.exit).reduced
    (reduced_update _ source.id (g := fun f => { f with exits := f.exits + 1 })
    fun f => f.faded_counts _ _ _ _)).still ⟨rfl, rfl, rfl, rfl⟩

/-- The fragment that was left has counted that. -/
theorem fragment?_passed (h : Accounted V B m) {r : Guard} {source : Fragment}
    (hs : m.cache.cached? r.source = some source) :
    (Monitor.passed m.cache r source).fragment? source.id =
      some { source with exits := source.exits + 1 } := by
  replace hs := fragment?_of_cached hs
  rw [← h.filed.numbered hs] at hs
  unfold Monitor.passed
  rw [fragment?_update (fragment?_eq_some.mp hs).1, if_pos rfl]
  exact congrArg (Option.map _) hs

/-- A branch is added where an exit was taken. -/
theorem Accounted.attached (h : Accounted V B m) (hidle : m.recorder.state = .idle) {r : Guard}
    {source child : Fragment}
    {c : FragmentCache} (hs : m.cache.cached? r.source = some source)
    (hattach : FragmentCache.attachChild source r (Monitor.passed m.cache r source) = .ok id c)
    (hchild : c.fragment? id = some child) (stats : Stats) :
    Rested V B { m with stats, cache := c } ∧ Subject c id ∧ child.kind = .branch := by
  have h₁ := h.passed r source stats
  obtain ⟨hfiled, hsize, f, hf, hkind, htrace, htarget⟩ :=
    attachChild_filed h₁.filed h₁.size (fragment?_passed h hs) hattach
      (fragment?_eq_some.mp hchild).1
  refine ⟨⟨hfiled, hsize, h.helpers, h.trace, not_recording hidle⟩, ⟨f, hf, htrace, htarget⟩, ?_⟩
  rw [hchild] at hf
  exact (Option.some.inj hf) ▸ hkind

/-- An exit is counted, and a branch may begin there. -/
theorem handleExit_accounted (h : Accounted V B m) (g : GuardId) :
    Ensures Anyhow (handleExit g) m fun _ m' => Accounted V B m' := by
  refine (handleExit_exits g).mono fun b m' hexited => ?_
  cases hexited with
  | stray hr hs => exact (h.exits _).still ⟨rfl, rfl, rfl, rfl⟩
  | counted hr hs => exact h.passed _ _ _
  | dropped hr hs hdrop => exact (ensures_ok hdrop).mp (invalidate_accounted (h.passed _ _ _) _)
  | refused hidle hr hs hattach hchild hdiscard =>
    exact (h.attached hidle hs hattach hchild _).1.accounted.reduced
      ((discard_reduces _).ok hdiscard).faded
  | branched hidle hr hs hattach hchild hbegun =>
    obtain ⟨hrested, hsubject, -⟩ := h.attached hidle hs hattach hchild _
    exact hbegun.accounted hrested hsubject

/-- Running compiled code has nothing to do with the accounts. -/
theorem execute_accounted (h : Accounted V B m) (fuel : Nat) (id : FragmentId)
    (slots : Array UInt64) :
    Ensures Anyhow (execute fuel id slots) m fun _ m' => Accounted V B m' := by
  have hran := execute_ran h.helpers fuel id slots
  cases hexecute : execute fuel id slots m with
  | ok a m' => exact (ensures_ok hexecute).mpr (h.still ((keepsAt_ok hexecute).mp hran).toStill)
  | error f m' => exact (ensures_error hexecute).mpr trivial

/-! ### Histories -/

/-- A new monitor has nothing to account for. -/
theorem create_accounted {config : Config}
    (h : Monitor.create config = .ok m) : Accounted V B m := by
  obtain ⟨hpage, r, r', hr, hb, rfl⟩ := create_eq h
  have hruled := CodePages.installBailout_ruled hb (CodePages.ruled_create hr hpage)
  exact ⟨filed_new config.machine hruled, by show 0 < _; decide, rfl,
    fun i hi => absurd hi (Array.not_mem_empty i), nofun⟩

end LoopTracer.Monitor
