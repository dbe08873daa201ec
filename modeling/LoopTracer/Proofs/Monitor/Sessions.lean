import LoopTracer.Proofs.Monitor.Accounts

/-! Which fragment is being recorded.

A primitive that the recorder takes leaves the recording to its fragment, and everything else that
can happen to a recording ends it (`record_goes_on`, `record_rests`, `abortRecording_rests`,
`endRecording_rests`). A recording begins where a loop is counted, for a fragment of that loop, or
where an exit is taken, for a branch that starts there (`loopEdge_begins`, `handleExit_begins`). -/
namespace LoopTracer.Monitor

open Trace Compile FragmentCache

variable {V : Immediate → Prop} {B : FragmentId → LoopKey → Prop} {m m' : Monitor}
  {id : FragmentId} {f : Fragment}

/-- A fragment is being recorded. -/
structure Engaged (m : Monitor) (id : FragmentId) (f : Fragment) : Prop where
  recording : m.recording = true
  fragment : m.recorder.fragment = some id
  found : m.cache.fragment? id = some f

theorem Accounted.engaged (h : Accounted V B m)
    (hrecording : m.recording = true) : ∃ id f, Engaged m id f :=
  let ⟨id, hid, f, hf, _⟩ := h.recording hrecording
  ⟨id, f, hrecording, hid, hf⟩

theorem Engaged.not_rests (h : Engaged m id f) : m.recording ≠ false := fun hrests => by
  have hrecording := h.recording
  rw [hrests] at hrecording
  cases hrecording

theorem Engaged.key (h : Engaged m id f) : m.recordingKey? = some f.key := by
  unfold recordingKey?
  rw [if_pos h.recording, h.fragment, Option.bind_some, h.found]
  rfl

/-- Only the recorder has changed, and it goes on with its recording. -/
structure GoesOn (m m' : Monitor) : Prop where
  recording : m.recording = true
  monitor : m' = { m with recorder := m'.recorder }
  fragment : m'.recorder.fragment = m.recorder.fragment
  anchor : m'.recorder.anchor = m.recorder.anchor

theorem GoesOn.engaged (h : GoesOn m m') (hm' : Engaged m' id f) : Engaged m id f := by
  refine ⟨h.recording, h.fragment ▸ hm'.fragment, ?_⟩
  have hfound := hm'.found
  rw [h.monitor] at hfound
  exact hfound

/-! ### The end of a recording -/

/-- A failure changes the cache and is counted. -/
theorem Failed.frame {anchor : Option GuardId} (h : Failed id anchor m m') :
    ∃ stats, m' = { m with stats, cache := m'.cache } := by
  cases h <;> exact ⟨_, rfl⟩

theorem Failed.recorder {anchor : Option GuardId} (h : Failed id anchor m m') :
    m'.recorder = m.recorder := by
  cases h <;> rfl

theorem Failed.rests {anchor : Option GuardId} (h : Failed id anchor m m')
    (hm : m.recording = false) :
    m'.recording = false := by
  unfold Monitor.recording at hm ⊢
  rw [h.recorder, hm]

/-- What the recorder was asked for did not work: nothing is being recorded any more. -/
theorem Recorded.rests {α : Type} {x : Recording α} {P : α → Recorder → Prop} {e : MonitorError}
    (hx : Ensures (Stopped m.recorder) x m.recorder P)
    (hr : Recorded x m (.error e) m') : m'.recording = false := by
  cases hr with
  | idle hidle =>
    obtain ⟨rfl, hrests⟩ : _ = m.recorder ∧ _ := (ensures_error hidle).mp hx
    exact hrests
  | failed habort _ hfailed =>
    obtain ⟨-, -, r, -, rfl⟩ := (ensures_error habort).mp hx
    exact hfailed.rests rfl
  | stray habort _ =>
    obtain ⟨-, -, r, -, rfl⟩ := (ensures_error habort).mp hx
    rfl

/-- The recorder goes on with its recording, or nothing is being recorded any more. -/
theorem record_goes_on (p : Primitive) :
    Ensures Anyhow (record p) m fun _ m' => m'.recording = true → GoesOn m m' := by
  unfold record
  refine .get ((onRecorder_records _).mono fun result m' hm' hrecording => ?_)
  have hrecord :=
    Trace.record_ensures (V := fun _ => True) m.helpers m.config.maxTraceLength m.recorder (p := p)
    fun _ _ _ _ => trivial
  cases result with
  | error e =>
    rw [hm'.rests hrecord] at hrecording
    cases hrecording
  | ok u =>
    cases hm' with
    | done hok =>
      obtain ⟨hsame, hstate⟩ := (ensures_ok hok).mp hrecord
      exact ⟨recording_eq_true.mpr hstate, rfl, hsame.fragment, hsame.anchor⟩

/-- A primitive that no trace can hold. -/
def Unheld (p : Primitive) : Prop := p.action = .unrecordable ∨
  ∃ header, p.action = .loopEdge header

theorem record_unheld {p : Primitive} (hp : Unheld p) (helpers : HelperTable)
    (maxLength : Int) (r : Recorder) :
    Ensures (fun _ _ => True) (Recorder.record helpers maxLength p) r fun _ _ => False := by
  obtain ⟨a, hprimitive⟩ : ∃ a, ∀ r, Recorder.primitive helpers p r = .error (.abort a) r := by
    unfold Recorder.primitive
    rcases hp with hp | ⟨header, hp⟩
    all_goals
      rw [hp]
      exact ⟨_, fun _ => rfl⟩
  unfold Recorder.record
  refine .get ?_
  dsimp only
  split
  · trivial
  · refine .modify_bind ?_
    unfold Ensures Recorder.orReset
    rw [bind_error (hprimitive _)]
    trivial

/-- Such a primitive ends the recording. -/
theorem record_rests {p : Primitive} (hp : Unheld p) :
    Ensures Anyhow (record p) m fun _ m' => m'.recording = false := by
  unfold record
  refine .get ((onRecorder_records _).mono fun result m' hm' => ?_)
  cases result with
  | error e =>
    exact hm'.rests (Trace.record_ensures (V := fun _ => True) m.helpers m.config.maxTraceLength
      m.recorder (p := p)
      fun _ _ _ _ => trivial)
  | ok u =>
    cases hm' with
    | done hok => exact ((ensures_ok hok).mp (record_unheld hp _ _ _)).elim

theorem abortRecording_rests (h : Accounted V B m) (a : Abort) :
    Ensures Anyhow (abortRecording a) m fun _ m' => m'.recording = false := by
  refine (abortRecording_ends a).mono fun _ m' hm' => ?_
  rcases hm' with ⟨rfl, hidle | hnone⟩ | ⟨id, -, -, hfailed⟩
  · exact hidle
  · by_contra hrecording
    obtain ⟨id, hid, -⟩ := h.recording (by simpa using hrecording)
    rw [hnone] at hid
    cases hid
  · exact hfailed.rests rfl

theorem flush_rests : Ensures Anyhow flush m fun _ m' => m'.recording = false := by
  unfold flush
  have hdrop : ∀ m₁ : Monitor, m₁.recording = false → Ensures Anyhow (do
      let gone ← caching FragmentCache.flush
      count fun s =>
        { s with flushes := s.flushes + 1, invalidations := s.invalidations + gone.length }) m₁
        fun _ m' => m'.recording = false := fun m₁ h₁ =>
    caching_bind fun _ c _ => count_ensures h₁
  refine .get ?_
  split
  · exact resetRecorder_bind (count_bind (hdrop _ rfl))
  · next hidle => exact hdrop m (by simpa using hidle)

theorem outOfSpace_rests (key : LoopKey) :
    Ensures Anyhow (outOfSpace key) m fun _ m' => m'.recording = false := by
  unfold outOfSpace
  refine .modify_bind (.get ?_)
  split
  · exact count_bind flush_rests
  · exact flush_rests

theorem Deployed.rests {anchor : Option GuardId} {a : Assembly}
    (h : Deployed id anchor a m m') : m'.recording = false := by
  have hreset : ∀ {r : Recorder}, m.recorder.commit = .ok r → r.isRecording = false := by
    intro r hcommit
    unfold Recorder.commit at hcommit
    split at hcommit
    · cases hcommit
      rfl
    · cases hcommit
  cases h with
  | loop _ hcommit => exact hreset hcommit
  | branch _ hcommit _ => exact hreset hcommit

theorem endRecording_rests (stop : TypeMap) :
    Ensures Anyhow (endRecording stop) m fun _ m' => m'.recording = false := by
  refine (endRecording_ends stop).mono fun result m' hm' => ?_
  cases hm' with
  | idle h => exact h
  | unfinished _ _ _ hrecorded => exact hrecorded.rests (finish_ensures _ _ _ m.recorder)
  | compiled _ _ _ _ _ _ hdeployed => exact hdeployed.rests
  | rejected _ _ _ _ _ _ _ hfailed hspace =>
    rcases hspace with ⟨-, rfl⟩ | ⟨-, key, hflush⟩
    · exact hfailed.rests rfl
    · exact (ensures_ok hflush).mp (outOfSpace_rests key)

/-! ### The start of a recording -/

theorem Begun.engaged {types : TypeMap} {anchor : Option GuardId} (h : Begun id types anchor m m')
    (hf : m.cache.fragment? id = some f) (hid : f.id = id) :
    Engaged m' id { f with state := .recording } := by
  obtain ⟨f', _, r, _, hf', -, hstart, rfl⟩ := h
  rw [hf] at hf'
  cases hf'
  have hstarted := start_started hstart
  refine ⟨recording_eq_true.mpr hstarted.state, hstarted.fragment.trans (congrArg some hid), ?_⟩
  show (m.cache.update id _).fragment? id = _
  rw [fragment?_update (fragment?_eq_some.mp hf).1, if_pos rfl, hf]
  rfl

/-- A recording that begins where a loop is counted is one of a fragment of that loop. -/
theorem loopEdge_begins (h : Accounted V B m) (hrests : m.recording = false) (key : LoopKey)
    (types : TypeMap) :
    Ensures Anyhow (loopEdge key types) m fun _ m' => m'.recording = true →
      ∃ id f, Engaged m' id f ∧ f.kind ≠ .branch ∧ f.key = key ∧ f.state = .recording := by
  refine (loopEdge_loops key types).mono fun b m' hlooped hrecording => ?_
  have hchosen : ∀ {stats : Stats} {id : FragmentId} {m₁ : Monitor},
    Chosen key types { m with stats } id m₁ →
      m₁.recorder = m.recorder := by
    intro stats id m₁ hc
    cases hc <;> rfl
  have hidle : m'.recorder = m.recorder → False := by
    intro hsame
    unfold Monitor.recording at hrests hrecording
    rw [hsame, hrests] at hrecording
    cases hrecording
  cases hlooped with
  | skipped => exact (hidle rfl).elim
  | chosen _ hc => exact (hidle (hchosen hc)).elim
  | counted _ hc =>
    have hsame := hchosen hc
    exact (hidle hsame).elim
  | @begun id stats m₁ _ hstate hc f hf _ hbegun =>
    have h₁ : Rested V B { m with stats } :=
      ⟨h.filed, h.size, h.helpers, h.trace, not_recording hstate⟩
    obtain ⟨h₁, hkind, hkey⟩ := hc.rested h₁ hf
    have hf' : (m₁.cache.update id fun f => { f with hits := f.hits + 1 }).fragment? id =
        some { f with hits := f.hits + 1 } := by
      rw [fragment?_update (fragment?_eq_some.mp hf).1, if_pos rfl, hf]
      rfl
    have hid : f.id = id := h₁.filed.numbered hf
    exact ⟨id, _, hbegun.engaged hf' hid, hkind, hkey, rfl⟩

theorem invalidate_rests (hrests : m.recording = false) (id : FragmentId) :
    Ensures Anyhow (invalidate id) m fun _ m' => m'.recording = false := by
  unfold invalidate
  refine .get ?_
  rw [hrests]
  exact caching_bind fun _ c _ => count_bind (.pure hrests)

/-- A recording that begins where an exit is taken is one of a branch. -/
theorem handleExit_begins (h : Accounted V B m) (hrests : m.recording = false) (g : GuardId) :
    Ensures Anyhow (handleExit g) m fun _ m' => m'.recording = true →
    ∃ id f, Engaged m' id f ∧ f.kind = .branch := by
  refine (handleExit_exits g).mono fun b m' hexited hrecording => ?_
  have hidle : m'.recording = false → False := fun hidle => by
    rw [hidle] at hrecording
    cases hrecording
  cases hexited with
  | stray | counted | refused => exact (hidle hrests).elim
  | dropped _ _ hdrop =>
    exact (hidle ((ensures_ok hdrop).mp (invalidate_rests (by exact hrests) _))).elim
  | @branched r source child id stats c _ hstate hr hs hattach hchild hbegun =>
    obtain ⟨hrested, -, hkind⟩ := h.attached hstate hs hattach hchild stats
    exact ⟨id, _, hbegun.engaged hchild (hrested.filed.numbered hchild), hkind⟩

end LoopTracer.Monitor
