import LoopTracer.Proofs.Fragment.Reversal
import LoopTracer.Proofs.Monitor.CodeRegion
import LoopTracer.Proofs.Monitor.Retries

/-! Recordings that are given up.

A recording begins where a loop is counted or an exit is taken (`Session`), and goes on while
primitives are recorded (`Continued`). When it is given up (`GivenUp`), all that it has done is
taken back: what is left is the monitor from which it began, but for counters (`Restored`,
`abandoned_restored`). -/
namespace LoopTracer.Monitor

open Trace Compile FragmentCache

variable {V : Immediate → Prop} {B : FragmentId → LoopKey → Prop} {config : Config}
  {m m' m₁ m₂ : Monitor}
  {id : FragmentId} {f : Fragment}

/-! ### From the first primitive to the last -/

/-- A recording has begun with an operation, for a loop or for a branch at an exit. -/
inductive Session (m : Monitor) : Operation → FragmentId → Fragment → Monitor → Prop where
  | loop {key : LoopKey} {types : TypeMap} {id : FragmentId} {f : Fragment} {m' : Monitor}
      (hm : Engaged m' id f)
      (hkind : f.kind ≠ .branch) (hstate : f.state = .recording) :
      Session m (.loopEdge key types) id f m'
  | branch {g : GuardId} {r : Guard} {source child : Fragment} {id : FragmentId} {c : FragmentCache}
      {recorder : Recorder}
      {stats : Stats} (hidle : m.recorder.state = .idle) (hr : m.cache.guards[g]? = some r)
      (hs : m.cache.cached? r.source = some source)
      (hattach : FragmentCache.attachChild source r (passed m.cache r source) = .ok id c)
      (hchild : c.fragment? id = some child) (hanchor : recorder.anchor = some r.id)
      (hm : Engaged { m with stats, recorder,
                             cache := c.update id ({ · with state := .recording }) } id
        { child with state := .recording }) :
      Session m (.exit g) id { child with state := .recording }
        { m with stats, recorder, cache := c.update id ({ · with state := .recording }) }

theorem Session.engaged {op : Operation} (h : Session m op id f m') : Engaged m' id f := by
  cases h with
  | loop hm => exact hm
  | branch _ _ _ _ _ _ hm => exact hm

theorem Session.state {op : Operation} (h : Session m op id f m') : f.state = .recording := by
  cases h with
  | loop _ _ hstate => exact hstate
  | branch => rfl

theorem handleExit_session (ha : Accounted V B m) (hrests : m.recording = false) (g : GuardId) :
    Ensures Anyhow (handleExit g) m fun _ m' => m'.recording = true →
    ∃ id f, Session m (.exit g) id f m' := by
  refine (handleExit_exits g).mono fun b m' hexited hrecording => ?_
  have hidle : m'.recording = false → False := fun hidle => by
    rw [hidle] at hrecording
    cases hrecording
  cases hexited with
  | stray | counted | refused => exact (hidle hrests).elim
  | dropped _ _ hdrop =>
    exact (hidle ((ensures_ok hdrop).mp (invalidate_rests (by exact hrests) _))).elim
  | @branched r source child id stats c m' hstate hr hs hattach hchild hbegun =>
    obtain ⟨hrested, -, -⟩ := ha.attached hstate hs hattach hchild stats
    have hm := hbegun.engaged hchild (hrested.filed.numbered hchild)
    obtain ⟨f, root, recorder, stats', hf, -, hstart, rfl⟩ := hbegun
    refine ⟨id, _, .branch hstate hr hs hattach hchild ?_ hm⟩
    have hguards : c.guards[g]? = some r := by
      rw [attachChild_frame hattach]
      exact hr
    rw [(start_started hstart).anchor]
    show ((c.guards[g]?.map _).map _) = _
    rw [hguards]
    rfl

/-- Where nothing was recorded before, an operation after which something is begins a recording. -/
theorem session_begins (ha : Accounted V B m) (hrests : m.recording = false) {op : Operation}
    (hrun : op.run m = .ok () m')
    (hrecording : m'.recording = true) : ∃ id f, Session m op id f m' := by
  have hidle : m'.recording = false → False := fun hidle => by
    rw [hidle] at hrecording
    cases hrecording
  cases op with
  | loopEdge key types =>
    obtain ⟨b, hok⟩ := ignored_eq_ok hrun
    obtain ⟨id, f, hm, hkind, -, hstate⟩ :=
      (ensures_ok hok).mp (loopEdge_begins ha hrests key types) hrecording
    exact ⟨id, f, .loop hm hkind hstate⟩
  | exit g =>
    obtain ⟨b, hok⟩ := ignored_eq_ok hrun
    exact (ensures_ok hok).mp (handleExit_session ha hrests g) hrecording
  | record p =>
    obtain ⟨b, hok⟩ := ignored_eq_ok hrun
    have hgoes := (ensures_ok hok).mp (record_goes_on p) hrecording
    exact absurd (hrests.symm.trans hgoes.recording) nofun
  | finish stop =>
    obtain ⟨result, hok⟩ := ignored_eq_ok hrun
    exact (hidle ((ensures_ok hok).mp (endRecording_rests stop))).elim
  | abort a => exact (hidle ((ensures_ok hrun).mp (abortRecording_rests ha a))).elim
  | execute fuel id slots =>
    obtain ⟨b, hok⟩ := ignored_eq_ok hrun
    have hran := (keepsAt_ok hok).mp (execute_ran ha.helpers fuel id slots)
    refine (hidle ?_).elim
    unfold Monitor.recording
    rw [hran.recorder]
    exact hrests
  | invalidate id =>
    obtain ⟨b, hok⟩ := ignored_eq_ok hrun
    exact (hidle ((ensures_ok hok).mp (invalidate_rests hrests id))).elim
  | flush => exact (hidle ((ensures_ok hrun).mp flush_rests)).elim

/-- Primitives are recorded, and none of them ends the recording. -/
def Continued : Monitor → Monitor → Prop := Relation.ReflTransGen fun m m' =>
  ∃ p, record p m = .ok (.ok ()) m'

theorem record_continues {p : Primitive} (h : record p m = .ok (.ok ()) m') :
    m'.recording = true ∧ GoesOn m m' := by
  have hgoes := (ensures_ok h).mp (record_goes_on p)
  unfold record at h
  have hrecorded :=
    (ensures_ok h).mp
      (.get (onRecorder_records (Recorder.record m.helpers m.config.maxTraceLength p)))
  cases hrecorded with
  | @done _ r hok =>
    obtain ⟨hsame, hstate⟩ :=
      (ensures_ok hok).mp (Trace.record_ensures (V := fun _ => True) m.helpers
      m.config.maxTraceLength m.recorder (p := p) fun _ _ _ _ => trivial)
    have hrecording :=
      recording_eq_true (m := { m with recorder := r }).mpr (hsame.state.trans hstate)
    exact ⟨hrecording, hgoes hrecording⟩

/-- Meanwhile only the recorder changes. -/
theorem Continued.engaged (h : Continued m m') (hm : Engaged m id f) :
    Engaged m' id f ∧ m' = { m with recorder := m'.recorder } ∧
    m'.recorder.anchor = m.recorder.anchor := by
  induction h with
  | refl => exact ⟨hm, rfl, rfl⟩
  | @tail m₁ m' _ hstep ih =>
    obtain ⟨hm₁, hframe, hanchor⟩ := ih
    obtain ⟨p, hp⟩ := hstep
    obtain ⟨hrecording, hgoes⟩ := record_continues hp
    have hframe' := hgoes.monitor
    refine ⟨⟨hrecording, hgoes.fragment.trans hm₁.fragment, ?_⟩, ?_, hgoes.anchor.trans hanchor⟩
    · rw [hframe']
      exact hm₁.found
    · rw [hframe', hframe]

theorem Continued.accounted (h : Continued m m') (ha : Accounted (fun _ => True) B m) :
    Accounted (fun _ => True) B m' := by
  induction h with
  | refl => exact ha
  | tail _ hstep ih =>
    obtain ⟨p, hp⟩ := hstep
    exact (ensures_ok hp).mp (record_accounted ih fun _ _ _ _ => trivial)

/-- A recording ends and nothing comes of it, though there was room for its code. -/
inductive GivenUp (m : Monitor) : Monitor → Prop where
  | primitive {p : Primitive} {e : MonitorError} {m' : Monitor}
      (h : record p m = .ok (.error e) m') : GivenUp m m'
  | unfinished {stop : TypeMap} {e : MonitorError} {m' : Monitor}
      (h : endRecording stop m = .ok (.error e) m')
      (hroom : Operation.roomless (.error e) = false) : GivenUp m m'
  | outside {a : Abort} {m' : Monitor} (h : abortRecording a m = .ok () m') : GivenUp m m'

/-! ### What is taken back -/

/-- The recorder gave the recording up. -/
theorem Recorded.given {α : Type} {x : Recording α} {P : α → Recorder → Prop} {e : MonitorError}
    (hm : Engaged m id f)
    (hx : Ensures (Stopped m.recorder) x m.recorder P) (hr : Recorded x m (.error e) m') :
    ∃ r : Recorder, Failed id m.recorder.anchor { m with recorder := r.reset } m' := by
  cases hr with
  | idle hidle =>
    obtain ⟨-, hrests⟩ := (ensures_error hidle).mp hx
    exact absurd hrests hm.not_rests
  | failed habort hid hfailed =>
    obtain ⟨-, -, r, -, rfl⟩ := (ensures_error habort).mp hx
    obtain rfl := Option.some.inj (hm.fragment.symm.trans hid)
    exact ⟨r, hfailed⟩
  | stray _ hid => exact absurd (hm.fragment.symm.trans hid) nofun

/-- However a recording is given up, its trace is taken away and its failure is counted. -/
theorem GivenUp.failed (ha : Accounted V (fun _ _ => True) m) (hm : Engaged m id f)
    (h : GivenUp m m') :
    ∃ stats, ∃ r : Recorder, ∃ c, Undone id m.cache c ∧
      Failed id m.recorder.anchor { m with stats, recorder := r.reset, cache := c } m' := by
  have hrecorder : (∃ r : Recorder, Failed id m.recorder.anchor { m with recorder := r.reset } m') →
      ∃ stats, ∃ r : Recorder, ∃ c, Undone id m.cache c ∧
        Failed id m.recorder.anchor { m with stats, recorder := r.reset, cache := c } m' :=
    fun ⟨r, hfailed⟩ => ⟨m.stats, r, m.cache, .refl hm.found, hfailed⟩
  cases h with
  | @primitive p e _ h =>
    unfold record at h
    have hrecorded :=
      (ensures_ok h).mp
        (.get (onRecorder_records (Recorder.record m.helpers m.config.maxTraceLength p)))
    exact hrecorder (hrecorded.given hm
      (Trace.record_ensures (V := fun _ => True) m.helpers m.config.maxTraceLength
      m.recorder (p := p) fun _ _ _ _ => trivial))
  | @unfinished stop e _ h hroom =>
    cases (ensures_ok h).mp (endRecording_ends stop) with
    | idle hidle => exact absurd hidle hm.not_rests
    | unfinished _ _ _ hrecorded =>
      exact hrecorder (hrecorded.given hm (finish_ensures _ _ _ m.recorder))
    | @rejected id' f' f₁ target b r e c stats m₁ _ _ hid hf hfinish hf₁ hassemble
        hfault hfailed hspace =>
      obtain rfl := Option.some.inj (hm.fragment.symm.trans hid)
      obtain rfl := Option.some.inj (hm.found.symm.trans hf)
      have hfits : ¬ NoSpace e := fun hfull => by
        rw [(roomless_iff _).mpr ⟨id, e, rfl, hfull⟩] at hroom
        cases hroom
      obtain ⟨-, rfl⟩ := hspace.resolve_right fun hs => hfits hs.1
      obtain ⟨_, hid', f', hf', htrace, htarget⟩ := ha.recording hm.recording
      obtain rfl := Option.some.inj (hm.fragment.symm.trans hid')
      obtain rfl := Option.some.inj (hm.found.symm.trans hf')
      rw [fragment?_attachTrace hm.found] at hf₁
      cases hf₁
      refine ⟨stats, r, _,
        detach_restored ha.filed.region hm.found htrace htarget hassemble hfault ?_, hfailed⟩
      rintro e' rfl hfull
      exact hfits hfull
  | @outside a _ h =>
    rcases (ensures_ok h).mp (abortRecording_ends a)
      with ⟨-, hidle | hnone⟩ | ⟨id', -, hid, hfailed⟩
    · exact absurd hidle hm.not_rests
    · exact absurd (hm.fragment.symm.trans hnone) nofun
    · obtain rfl := Option.some.inj (hm.fragment.symm.trans hid)
      exact hrecorder ⟨m.recorder, hfailed⟩

/-- A monitor as it was, but for counters: those of the fragment `own` that was recorded, if it is
still there, and those of the exit that it was recorded for. -/
structure Restored (own : FragmentId) (exit : Option Nat) (m m' : Monitor) : Prop where
  monitor : m' = { m with stats := m'.stats, recorder := m'.recorder, cache := m'.cache }
  idle : m'.recorder.state = .idle
  roots : m'.cache.roots = m.cache.roots
  others : ∀ k, k ≠ own → m'.cache.cached? k = m.cache.cached? k
  own : ∃ state attempts hits exitBase,
    m'.cache.cached? own = (m.cache.cached? own).map ({ · with state, attempts, hits, exitBase })
  guards : m'.cache.guards = m.cache.guards
  registered : m'.cache.registered = m.cache.registered
  exits : ∀ n < m.cache.exits.size, exit ≠ some n → m'.cache.exits[n]? = m.cache.exits[n]?
  exit : ∀ n < m.cache.exits.size, exit = some n → ∃ hits attempts blacklisted,
    m'.cache.exits[n]? = (m.cache.exits[n]?).map ({ · with hits, attempts, blacklisted })
  region : m.cache.region.Unspoilt m'.cache.region

/-- It does not matter what the recorder held. -/
theorem Restored.before {own : FragmentId} {exit : Option Nat} {recorder : Recorder}
    (h : Restored own exit { m with recorder } m') : Restored own exit m m' :=
  ⟨h.monitor, h.idle, h.roots, h.others, h.own, h.guards, h.registered, h.exits, h.exit, h.region⟩

/-- What was recorded for a loop is taken back. -/
theorem Failed.restored {anchor : Option GuardId} {stats : Stats} {r : Recorder} {c : FragmentCache}
    (hu : Undone id m.cache c) (hm : Engaged m id f) (hkind : f.kind ≠ .branch)
    (hstate : f.state = .recording)
    (hfailed : Failed id anchor { m with stats, recorder := r.reset, cache := c } m') : Restored
    id none m m' := by
  obtain ⟨exitBase, hfragments⟩ := hu.fragments
  have hid := (fragment?_eq_some.mp hm.found).1
  have hown : ∀ {q}, c.fragment? id = some q → q = { f with exitBase } := by
    intro q hq
    rw [hfragments, hm.found, Option.map_some, if_pos rfl] at hq
    exact (Option.some.inj hq).symm
  cases hfailed with
  | branch hq hbranch =>
    obtain rfl := hown hq
    exact absurd hbranch hkind
  | gone hq hgone =>
    obtain rfl := hown hq
    exact absurd (hstate.symm.trans hgone) nofun
  | @loop q attempts state stats' _ _ _ _ _ _ =>
    have hcached : ∀ k, (c.update id ({ · with attempts, hits := 0, state })).cached? k =
        (m.cache.cached? k).map fun f => if k = id
            then { f with state, attempts, hits := 0, exitBase } else f := by
      intro k
      unfold cached?
      rw [fragment?_update hid, hfragments]
      by_cases hk : k = id
      · simp only [if_pos hk, Option.map_map, Option.filter_map]
        rfl
      · simp only [if_neg hk, Option.map_id']
    refine ⟨rfl, rfl, hu.roots, fun k hk => ?_, ⟨state, attempts, 0, exitBase, ?_⟩,
      hu.guards, hu.registered,
      fun n hn _ => hu.exits n hn, nofun, hu.region⟩
    · refine (hcached k).trans ?_
      simp only [if_neg hk, Option.map_id']
    · refine (hcached id).trans ?_
      simp only [if_pos]

/-- What was recorded for a branch is taken back, and the branch is gone. -/
theorem Failed.restored_branch (ha : Accounted V B m) (hnamed : m.cache.Named)
    {g : GuardId} {r : Guard}
    {source child : Fragment} {c c' : FragmentCache} {stats : Stats} {recorder : Recorder}
    (hr : m.cache.guards[g]? = some r) (hs : m.cache.cached? r.source = some source)
    (hattach : FragmentCache.attachChild source r (passed m.cache r source) = .ok id c)
    (hchild : c.fragment? id = some child)
    (hu : Undone id (c.update id ({ · with state := .recording })) c')
    (hfailed : Failed id (some r.id) { m with stats, recorder := recorder.reset, cache := c' } m') :
    m'.cache.cached? id = none ∧
    Restored id (some r.exit) { m with cache := passed m.cache r source } m' := by
  have hsource := fragment?_passed ha hs
  have hpassed := ha.passed r source m.stats
  have hid := (fragment?_eq_some.mp hchild).1
  obtain ⟨hnone, -, -, ⟨new, hnew, hnumber, hbranch, hparent⟩, -⟩ :=
    attachChild_fragment hpassed.size hsource hattach hid
  obtain rfl : child = new := Option.some.inj (hchild.symm.trans hnew)
  have hframe := attachChild_frame hattach
  have hguards : c'.guards = m.cache.guards := by
    rw [hu.guards, update_guards, hframe]
    rfl
  have hexits : ∀ n < (passed m.cache r source).exits.size, c'.exits[n]? =
      (passed m.cache r source).exits[n]? := by
    have hsame : c.exits = (passed m.cache r source).exits := by rw [hframe]
    have hkept := hu.exits
    rwa [update_exits, hsame] at hkept
  obtain ⟨exitBase, hfragments⟩ := hu.fragments
  have hself : ∀ k, c'.fragment? k = if k = id
      then some { child with state := .recording, exitBase } else c.fragment? k := by
    intro k
    rw [hfragments, fragment?_update hid]
    by_cases hk : k = id
    · subst hk
      simp only [if_pos, hchild, Option.map_some]
    · simp only [if_neg hk, Option.map_id']
  have hown : ∀ {q}, c'.fragment? id = some q →
      q = { child with state := .recording, exitBase } := by
    intro q hq
    rw [hself, if_pos rfl] at hq
    exact (Option.some.inj hq).symm
  cases hfailed with
  | loop hq hkind =>
    obtain rfl := hown hq
    exact absurd hbranch hkind
  | gone hq hgone =>
    obtain rfl := hown hq
    cases hgone
  | @branch q g' r' exits cache _ hq _ _ hanchor hr' hcounted hdiscard =>
    have heq := hown hq
    obtain rfl : g = g' := (hnamed g r hr).symm.trans (Option.some.inj hanchor)
    obtain rfl : r = r' := by
      replace hr' : c'.guards[g]? = some r' := hr'
      rw [hguards, hr] at hr'
      exact Option.some.inj hr'
    have hqid : q.id = id := by rw [heq, hnumber]
    have hqparent : q.parent = some source.id := by rw [heq, hparent]
    have hqself : ∀ k, c'.fragment? k = if k = id then some q else c.fragment? k := by
      rw [heq]; exact hself
    have hcached :=
      discard_attached hpassed.filed hpassed.size hsource hattach hid hqid
        hqparent (by exact hqself)
      hdiscard
    have hgone : (passed m.cache r source).cached? id = none := by
      rw [cached?, hnone, Option.filter_none]
    obtain ⟨fragments, rfl⟩ : ∃ fragments, cache = { c' with exits, fragments } :=
      ⟨_, discard_frame hdiscard⟩
    have hroots : c.roots = (passed m.cache r source).roots := by rw [hframe]
    have hregistered : c.registered = (passed m.cache r source).registered := by rw [hframe]
    have hregion : c.region = (passed m.cache r source).region := by rw [hframe]
    refine ⟨(hcached id).trans hgone, rfl, rfl, hu.roots.trans hroots, fun k _ => hcached k,
      ⟨.failed, 0, 0, 0, ?_⟩, hguards,
      hu.registered.trans hregistered, fun n hn hne => ?_, fun n hn heq => ?_, ?_⟩
    · rw [show cached? _ id = none from hgone]
      exact (hcached id).trans hgone
    · exact (hcounted.others n fun hn => hne (congrArg some hn.symm)).trans (hexits n hn)
    · cases heq
      have he := (hexits r.exit hn).trans (Array.getElem?_eq_getElem hn)
      have hlt : r.exit < exits.size := hcounted.size ▸ (Array.getElem?_eq_some_iff.mp he).1
      obtain ⟨e, hits, attempts, blacklisted, he', heq⟩ :=
        hcounted.record _ (Array.getElem?_eq_getElem hlt)
      obtain rfl := Option.some.inj (he'.symm.trans he)
      refine ⟨hits, attempts, blacklisted, ?_⟩
      show exits[r.exit]? = ((passed m.cache r source).exits[r.exit]?).map _
      rw [Array.getElem?_eq_getElem hlt, heq, Array.getElem?_eq_getElem hn]
      rfl
    · have hspared := hu.region
      rwa [update_region, hregion] at hspared

/-- A recording that was given up after it had begun in a monitor that accounts for everything. -/
theorem Session.restored (ha : Accounted (fun _ => True) (fun _ _ => True) m)
    (hnamed : m.cache.Named) {op : Operation}
    (hs : Session m op id f m₁) (ha₁ : Accounted (fun _ => True) (fun _ _ => True) m₁)
    (hcontinued : Continued m₁ m₂)
    (hgiven : GivenUp m₂ m') :
    (f.kind ≠ .branch → Restored id none m₁ m') ∧
      (f.kind = .branch → m'.cache.cached? id = none ∧ ∃ g r source, op = .exit g ∧
        m.cache.guards[g]? = some r ∧
        m.cache.cached? r.source = some source ∧
        Restored id (some r.exit) { m with cache := passed m.cache r source } m') ∧
      m₁.cache.region.Unspoilt m'.cache.region := by
  obtain ⟨hm₂, hframe, hanchor⟩ := hcontinued.engaged hs.engaged
  obtain ⟨stats, r, c, hundone, hfailed⟩ := hgiven.failed (hcontinued.accounted ha₁) hm₂
  generalize m₂.recorder = recorder at hframe hanchor hfailed
  subst hframe
  cases hs with
  | loop _ hkind hstate =>
    have hrestored := (hfailed.restored hundone hm₂ hkind hstate).before
    exact ⟨fun _ => hrestored, fun hbranch => absurd hbranch hkind, hrestored.region⟩
  | @branch g guard source child _ c₁ _ _ hidle hr hs hattach hchild hstarted hm₁ =>
    rw [hanchor, hstarted] at hfailed
    obtain ⟨hgone, hrestored⟩ :=
      Failed.restored_branch ha hnamed hr hs hattach hchild hundone hfailed
    obtain ⟨-, -, hbranch⟩ := ha.attached hidle hs hattach hchild m.stats
    refine ⟨fun hkind => absurd hbranch hkind,
      fun _ => ⟨hgone, g, guard, source, rfl, hr, hs, hrestored⟩, ?_⟩
    have hregion : c₁.region = (passed m.cache guard source).region := by
      rw [attachChild_frame hattach]
    show c₁.region.Unspoilt _
    rw [hregion]
    exact hrestored.region

/-- After every history of operations: a recording that begins, of a loop or of a branch, and that
ends without its code being put into use, leaves everything as it was when it began, but for the
state and the counters of the loop's fragment, or the counters of the branch's exit. Only when there
was no room for the code is this not so. -/
theorem abandoned_restored {permitted : Monitor → Operation → Prop} (h : Reached permitted config m)
    (hrests : m.recording = false) {op : Operation} (hrun : op.run m = .ok () m₁)
    (hrecording : m₁.recording = true)
    (hcontinued : Continued m₁ m₂) (hgiven : GivenUp m₂ m') :
    ∃ id f, Engaged m₁ id f ∧
      (f.kind ≠ .branch → Restored id none m₁ m') ∧
      (f.kind = .branch → m'.cache.cached? id = none ∧ ∃ g r source, op = .exit g ∧
        m.cache.guards[g]? = some r ∧
        m.cache.cached? r.source = some source ∧
        Restored id (some r.exit) { m with cache := passed m.cache r source } m') ∧
      (config.maxCodePages * config.pageSize < 2 ^ 63 → ∀ a p,
        m₁.cache.region.pages[a / m₁.cache.region.bytes]? = some p → p.kind ≠ .free →
        m'.cache.region.mem.get? a = m₁.cache.region.mem.get? a) := by
  obtain ⟨ha, hspacious⟩ := h.spacious
  obtain ⟨n, htallied⟩ := h.tallied
  obtain ⟨-, hbounded⟩ := htallied.bounded
  have ha₁ := ha.step hrun
  have hspacious₁ := hspacious.tended ha.filed.region (run_tended ha.helpers hrun)
  obtain ⟨id, f, hs⟩ := session_begins ha hrests hrun hrecording
  obtain ⟨hloop, hbranch, hregion⟩ := hs.restored ha hbounded.cache.named ha₁ hcontinued hgiven
  exact ⟨id, f, hs.engaged, hloop, hbranch,
    fun hfits => hregion.bytes (hspacious₁.sized ha₁.filed.region hfits)⟩

/-- The theorem where a branch of a branch is given up after a primitive was recorded. -/
theorem sprout_restored : ∃ m m₁ m₂ m' r source, Reached Operation.Careful eager m ∧
    m.recording = false ∧ (Operation.exit 2).run m = .ok () m₁ ∧ m₁.recording = true ∧
    record widened m₁ = .ok (.ok ()) m₂ ∧ abandoning.run m₂ = .ok () m' ∧
    m'.cache.cached? 4 = none ∧ m.cache.guards[(2 : GuardId)]? = some r ∧
    m.cache.cached? r.source = some source ∧
    Restored 4 (some r.exit) { m with cache := passed m.cache r source } m' ∧
    ∀ a p, m₁.cache.region.pages[a / m₁.cache.region.bytes]? = some p → p.kind ≠ .free →
      m'.cache.region.mem.get? a = m₁.cache.region.mem.get? a := by
  obtain ⟨m, m₁, hm, hrests, hrun, hsprout⟩ := growing_sprouts
  obtain ⟨m₂, m', hrecord, habandon⟩ : ∃ m₂ m', record widened m₁ = .ok (.ok ()) m₂ ∧
      abandoning.run m₂ = .ok () m' := by
    have habandoned := hsprout.abandoned
    split at habandoned
    · next m₂ hrecord =>
      obtain ⟨m', hnext⟩ := Option.isSome_iff_exists.mp habandoned
      exact ⟨m₂, m', hrecord, Operation.next?_eq_some.mp hnext⟩
    · cases habandoned
  obtain ⟨id, f, hengaged, -, hbranch, hbytes⟩ :=
    abandoned_restored hm hrests hrun hsprout.recording (.single ⟨widened, hrecord⟩)
      (.outside habandon)
  obtain rfl : id = 4 := Option.some.inj (hengaged.fragment.symm.trans hsprout.fragment)
  have hkind : f.kind = .branch := by
    obtain ⟨q, hq, hsketch⟩ := Option.map_eq_some_iff.mp hsprout.branch
    obtain rfl : f = q :=
      Option.some.inj (hengaged.found.symm.trans (fragment?_of_cached hq))
    exact congrArg Sketch.kind hsketch
  obtain ⟨hgone, g, r, source, heq, hr, hsource, hrestored⟩ := hbranch hkind
  cases heq
  exact ⟨m, m₁, m₂, m', r, source, hm, hrests, hrun, hsprout.recording, hrecord, habandon, hgone,
    hr, hsource, hrestored, hbytes (by decide)⟩

end LoopTracer.Monitor
