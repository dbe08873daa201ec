import LoopTracer.Proofs.Monitor.Statistics

/-! What a monitor's statistics say is so after every history.

A history is any sequence of operations that come to an end, among them ones that drop a fragment
while it is being recorded. It keeps track of the fragments in use: a fragment is in use from the
operation that compiles it until it is dropped, or everything is. -/
namespace LoopTracer.Monitor

open Trace Compile FragmentCache

variable {V : Immediate → Prop} {B : FragmentId → LoopKey → Prop} {m m' : Monitor}
  {id : FragmentId} {f : Fragment}
  {used : FragmentId → Bool}

/-! ### What an operation does to the guards -/

/-- A fragment that is being recorded is not compiled. -/
theorem Subject.not_compiled {c : FragmentCache} (hs : Subject c id) (hc : c.Filed V B none)
    (hf : c.fragment? id = some f) : f.state ≠ .compiled := by
  obtain ⟨f', hf', htrace, -⟩ := hs
  rw [hf] at hf'
  cases hf'
  intro hstate
  have := (hc.fragments hf).traced hstate
  rw [htrace] at this
  cases this

theorem Begun.akin {types : TypeMap} {anchor : Option GuardId} (hb : Begun id types anchor m m')
    (hopen : ∀ f, m.cache.fragment? id = some f → f.state ≠ .compiled) : Akin m.cache m'.cache := by
  obtain ⟨f, root, r, stats, hf, -, -, rfl⟩ := hb
  refine akin_update _ _ fun q hq => ⟨rfl, ?_⟩
  have hf' := fragment?_eq_some.mpr ⟨(fragment?_eq_some.mp hf).1, hq⟩
  exact (beq_eq_false_iff_ne.mpr (hopen q hf')).symm

/-- Nothing happens to the guards when a recording is given up. -/
theorem Failed.akin {anchor : Option GuardId} (hfailed : Failed id anchor m m')
    (hnumbered : ∀ {j q}, m.cache.fragment? j = some q → q.id = j)
    (hopen : ∀ f, m.cache.fragment? id = some f → f.state ≠ .compiled) : Akin m.cache m'.cache := by
  cases hfailed with
  | @loop f _ state _ hf _ _ hstate =>
    refine akin_update _ _ fun q hq => ⟨rfl, ?_⟩
    have hf' := fragment?_eq_some.mpr ⟨(fragment?_eq_some.mp hf).1, hq⟩
    have hnew : state ≠ .compiled := by rcases hstate with rfl | rfl <;> nofun
    exact (beq_eq_false_iff_ne.mpr hnew).trans (beq_eq_false_iff_ne.mpr (hopen q hf')).symm
  | branch hf _ _ _ _ _ hdiscard =>
    refine trans_of Akin (akin_congr ?_ ?_ ?_)
      (discard_akin (by rw [hnumbered hf]; exact hf) hdiscard)
    · rfl
    · rfl
    · exact Nat.le_refl _
  | gone => exact akin_congr rfl rfl (Nat.le_refl _)

theorem Chosen.akin {key : LoopKey} {types : TypeMap}
    (h : Chosen key types m id m') : Akin m.cache m'.cache := by
  have hget : ∀ {c : FragmentCache} {j : FragmentId} {made : Bool}, m.cache.getOrCreate key =
      (c, j, made) → Akin m.cache c := by
    intro c j made hget
    have := getOrCreate_akin m.cache key
    rwa [hget] at this
  cases h with
  | found hmade => exact hget hmade
  | typed hmade =>
    exact trans_of Akin (hget hmade) (akin_update _ _ (by exact fun _ _ => ⟨rfl, rfl⟩))
  | added hmade _ hadd => exact trans_of Akin (hget hmade) ((addPeer_akin _ _).ok hadd)

theorem loopEdge_akin (key : LoopKey) (types : TypeMap) :
    Ensures Anyhow (loopEdge key types) m fun _ m' => Akin m.cache m'.cache := by
  refine (loopEdge_loops key types).mono fun b m' hm' => ?_
  cases hm' with
  | skipped => exact refl_of Akin m.cache
  | chosen _ hchosen => exact hchosen.akin
  | counted _ hchosen =>
    exact trans_of Akin hchosen.akin (akin_update _ _ (by exact fun _ _ => ⟨rfl, rfl⟩))
  | @begun id _ m₁ _ _ hchosen f hf hstate hbegun =>
    have hcounted :=
      akin_update m₁.cache id (g := fun f => { f with hits := f.hits + 1 }) fun _ _ => ⟨rfl, rfl⟩
    refine trans_of Akin hchosen.akin (trans_of Akin hcounted (hbegun.akin fun q hq => ?_))
    replace hq : (m₁.cache.update id fun f => { f with hits := f.hits + 1 }).fragment? id =
      some q := hq
    rw [fragment?_update (fragment?_eq_some.mp hf).1, if_pos rfl, hf] at hq
    cases hq
    rcases hstate with hstate | hstate <;> (show f.state ≠ _; rw [hstate]; nofun)

/-- A request to the recorder does nothing to the guards. -/
theorem Recorded.akin {α : Type} {x : Recording α} {P : α → Recorder → Prop}
    {result : Except MonitorError α} (h : Accounted V B m)
    (hx : Ensures (Stopped m.recorder) x m.recorder P)
    (hr : Recorded x m result m') : Akin m.cache m'.cache := by
  cases hr with
  | done => exact refl_of Akin m.cache
  | idle => exact refl_of Akin m.cache
  | stray => exact refl_of Akin m.cache
  | failed habort hid hfailed =>
    obtain ⟨-, hstate, -⟩ := (ensures_error habort).mp hx
    obtain ⟨id, hid', hsubject⟩ := h.recording (recording_eq_true.mpr hstate)
    rw [hid] at hid'
    cases hid'
    exact hfailed.akin h.filed.numbered fun f hf => hsubject.not_compiled h.filed hf

theorem record_akin (h : Accounted V B m) (p : Primitive) :
    Ensures Anyhow (record p) m fun _ m' => Akin m.cache m'.cache := by
  unfold record
  have hrecord :=
    Trace.record_ensures (V := fun _ => True) (p := p) m.helpers m.config.maxTraceLength m.recorder
    fun _ _ _ _ => trivial
  exact .get ((onRecorder_records _).mono fun _ _ hm' => hm'.akin h hrecord)

theorem abortRecording_akin (h : Accounted V B m) (a : Abort) :
    Ensures Anyhow (abortRecording a) m fun _ m' => Akin m.cache m'.cache := by
  refine (abortRecording_ends a).mono fun _ m' hm' => ?_
  rcases hm' with ⟨rfl, -⟩ | ⟨id, hrecording, hid, hfailed⟩
  · exact refl_of Akin m'.cache
  · obtain ⟨id', hid', hsubject⟩ := h.recording hrecording
    rw [hid] at hid'
    cases hid'
    exact hfailed.akin h.filed.numbered fun f hf => hsubject.not_compiled h.filed hf

theorem invalidate_turnover (h : Accounted V B m) (id : FragmentId) :
    Ensures Anyhow (invalidate id) m fun _ m' => Turnover m.cache m'.cache := by
  unfold invalidate
  refine .get ?_
  extract_lets rest
  have hrest : ∀ m₁ : Monitor, Accounted V B m₁ → Akin m.cache m₁.cache →
      Ensures Anyhow (rest ()) m₁ fun _ m' => Turnover m.cache m'.cache := fun m₁ h₁ hakin =>
    caching_bind fun _ c hdrop => count_bind (.pure
      (let ⟨D, hD⟩ := invalidate_culls h₁.filed h₁.size hdrop
      .dropped D (hakin.culled hD)))
  clear_value rest
  split
  · next rf hrf =>
    have hrecording : m.recording = true ∧ m.recorder.fragment = some rf := by
      split at hrf
      · next hrecording => exact ⟨hrecording, hrf⟩
      · cases hrf
    obtain ⟨_, hid', hsubject⟩ := h.recording hrecording.1
    rw [hrecording.2] at hid'
    cases hid'
    split
    · refine resetRecorder_bind (count_bind (fragment_bind fun f hf => ?_))
      replace hf : m.cache.fragment? rf = some f := hf
      have hreset : Accounted V B { m with recorder := m.recorder.reset,
                                           stats := m.stats.abort .flushed } :=
        (Rested.of_reset h.filed h.size h.helpers).accounted
      split
      · refine caching_bind fun _ c hdiscard =>
          hrest _ (hreset.reduced ((discard_reduces f).ok hdiscard).faded) ?_
        exact discard_akin (h.filed.numbered hf ▸ hf) hdiscard
      · refine updateFragment_bind (hrest _ (h.forsaken hsubject _).accounted ?_)
        refine akin_update _ _ fun q hq => ⟨rfl, ?_⟩
        have hf' := fragment?_eq_some.mpr ⟨(fragment?_eq_some.mp hf).1, hq⟩
        exact (beq_eq_false_iff_ne.mpr (hsubject.not_compiled h.filed hf')).symm
    · exact hrest m h (refl_of Akin m.cache)
  · exact hrest m h (refl_of Akin m.cache)

theorem handleExit_turnover (h : Accounted V B m) (g : GuardId) :
    Ensures Anyhow (handleExit g) m fun _ m' => Turnover m.cache m'.cache := by
  refine (handleExit_exits g).mono fun b m' hexited => ?_
  have hexits : ∀ n, Akin m.cache (m.cache.updateExit n fun e => { e with hits := e.hits + 1 }) :=
    fun _ =>
    akin_congr rfl rfl (Nat.le_refl _)
  have hpassed : ∀ (r : Guard) (source : Fragment), Akin m.cache (passed m.cache r source) :=
    fun r source =>
    trans_of Akin (hexits r.exit) (akin_update _ _ (by exact fun _ _ => ⟨rfl, rfl⟩))
  cases hexited with
  | stray => exact .none (hexits _)
  | counted => exact .none (hpassed _ _)
  | dropped _ _ hdrop =>
    exact ((ensures_ok hdrop).mp (invalidate_turnover (h.passed _ _ _) _)).after (hpassed _ _)
  | refused hidle _ hs hattach hchild hdiscard =>
    obtain ⟨hrested, -⟩ := h.attached hidle hs hattach hchild m.stats
    have hdiscarded := discard_akin (hrested.filed.numbered hchild ▸ hchild) hdiscard
    exact .none
      (trans_of Akin (hpassed _ _) (trans_of Akin ((attachChild_akin _ _).ok hattach) hdiscarded))
  | branched hidle _ hs hattach hchild hbegun =>
    obtain ⟨hrested, hsubject, -⟩ := h.attached hidle hs hattach hchild m.stats
    have hstarted := hbegun.akin fun f hf => hsubject.not_compiled hrested.filed hf
    exact .none
      (trans_of Akin (hpassed _ _) (trans_of Akin ((attachChild_akin _ _).ok hattach) hstarted))

/-- Everything is dropped. -/
theorem flush_stocks (h : Accounted V B m) (hs : m.cache.Stocked used) :
    Ensures Anyhow flush m fun _ m' => m'.cache.Stocked fun _ => false := by
  unfold flush
  have hdrop : ∀ m₁ : Monitor, m₁.cache = m.cache → Ensures Anyhow (do
      let gone ← caching FragmentCache.flush
      count fun s =>
        { s with flushes := s.flushes + 1, invalidations := s.invalidations + gone.length }) m₁
        fun _ m' => m'.cache.Stocked fun _ => false := fun m₁ h₁ =>
    caching_bind fun _ c hflush =>
      count_ensures (FragmentCache.flush_stocks hs h.filed h.size (h₁ ▸ hflush))
  refine .get ?_
  split
  · exact resetRecorder_bind (count_bind (hdrop _ rfl))
  · exact hdrop m rfl

theorem outOfSpace_stocks (h : Accounted V B m) (hs : m.cache.Stocked used) (key : LoopKey) :
    Ensures Anyhow (outOfSpace key) m fun _ m' => m'.cache.Stocked fun _ => false := by
  unfold outOfSpace
  refine .modify_bind (.get ?_)
  split
  · exact count_bind (flush_stocks (h.still ⟨rfl, rfl, rfl, rfl⟩) hs)
  · exact flush_stocks (h.still ⟨rfl, rfl, rfl, rfl⟩) hs

/-- The code of a trace is put into use, or nothing happens to the guards; if there was no room for
it, everything is dropped. -/
theorem endRecording_turnover (h : Accounted V B m) (hs : m.cache.Stocked used) (stop : TypeMap) :
    Ensures Anyhow (endRecording stop) m fun result m' =>
      (∀ id e, result = .error (.assembling id e) → ¬ NoSpace e) ∧ Turnover m.cache m'.cache ∨
      (∃ id e, result = .error (.assembling id e) ∧ NoSpace e) ∧
      m'.cache.Stocked fun _ => false := by
  refine (endRecording_ends stop).mono fun result m' hm' => ?_
  cases hm' with
  | idle => exact .inl ⟨nofun, .none (refl_of Akin m.cache)⟩
  | @unfinished id f target e _ _ _ _ hrecorded =>
    refine .inl ⟨fun _ _ heq => ?_, .none (hrecorded.akin h (finish_ensures _ _ _ m.recorder))⟩
    cases heq
    cases hrecorded
  | @compiled id f f₁ target b r a c m' hrecording hid hf hfinish hf₁ hassemble hdeployed =>
    refine .inl ⟨nofun, .added id ((attachTrace_akin m.cache id b (target.map (·.id))).added ?_)⟩
    obtain ⟨_, hid', hsubject⟩ := h.recording hrecording
    rw [hid] at hid'
    cases hid'
    have hopen : f₁.state ≠ .compiled := by
      rw [fragment?_attachTrace hf] at hf₁
      cases hf₁
      show f.state ≠ .compiled
      exact hsubject.not_compiled h.filed hf
    obtain ⟨l, hfrees⟩ : ∃ l, (m.cache.attachTrace id b (target.map (·.id))).region.Frees l :=
      h.filed.region.frees
    rw [h.filed.numbered hf] at hdeployed
    have hadds : ∀ {c'}, FragmentCache.install id a c = .ok () c' →
        Added id (m.cache.attachTrace id b (target.map (·.id))) c' :=
      fun hinstall => install_adds hfrees hf₁ hopen hassemble hinstall
    cases hdeployed with
    | loop hinstall _ => exact hadds hinstall
    | branch hinstall _ hpromote => exact (hadds hinstall).akin ((promote_akin _ _).ok hpromote)
  | @rejected id f f₁ target b r e c stats m₁ _ hrecording hid hf hfinish hf₁ hassemble
      hfault hfailed hspace =>
    have hany : Accounted V (fun _ _ => True) m := h.mono (fun _ h => h) fun _ _ _ => trivial
    obtain ⟨hrested, hsubject⟩ :=
      hany.detached hrecording hid hf (fun _ => trivial) hfinish hf₁ hassemble stats
    obtain ⟨l, hfrees⟩ : ∃ l, (m.cache.attachTrace id b (target.map (·.id))).region.Frees l :=
      h.filed.region.frees
    have hcompiling : Akin (m.cache.attachTrace id b (target.map (·.id))) c :=
      assemble_akin hfrees hassemble hfault
    have htaken : Akin c (c.update id ({ · with trace := none, treeTarget := none })) :=
      akin_update _ _ fun _ _ => ⟨rfl, rfl⟩
    have hgiven : Akin (c.update id ({ · with trace := none, treeTarget := none })) m₁.cache :=
      hfailed.akin hrested.filed.numbered fun f hf => hsubject.not_compiled hrested.filed hf
    have hakin := trans_of Akin (attachTrace_akin m.cache id b (target.map (·.id)))
      (trans_of Akin hcompiling (trans_of Akin htaken hgiven))
    rcases hspace with ⟨hroom, rfl⟩ | ⟨hfull, key, hflush⟩
    · exact .inl ⟨fun _ _ heq => by cases heq; exact hroom, .none hakin⟩
    · refine .inr ⟨⟨id, e, rfl, hfull⟩, ?_⟩
      exact (ensures_ok hflush).mp
        (outOfSpace_stocks (hfailed.rested hrested hsubject).accounted (hs.akin hakin) key)

/-! ### Histories -/

namespace Operation

/-- A recording is given up from outside for a reason that is defined. -/
def Reasoned : Operation → Prop
  | abort a => a.reason ∈ AbortReason.all
  | _ => True

theorem Careful.reasoned {op : Operation} (h : op.Careful m) : op.Reasoned := by
  cases op with
  | abort => exact h.elim
  | _ => trivial

/-- Whether a recording ended because there was no room for its trace. -/
def roomless : Except MonitorError Unit → Bool
  | .error (.assembling _ (.compile e)) => e.kind == .outOfSpace
  | _ => false

/-- Whether an operation drops everything, on demand or to make room. -/
def flushes (m : Monitor) : Operation → Bool
  | flush => true
  | finish stop =>
    match endRecording stop m with
    | .ok result _ => roomless result
    | .error _ _ => false
  | _ => false

end Operation

theorem roomless_iff (result : Except MonitorError Unit) :
    Operation.roomless result = true ↔ ∃ id e, result = .error (.assembling id e) ∧ NoSpace e := by
  unfold Operation.roomless
  split
  · next id e =>
    rw [beq_iff_eq]
    exact ⟨fun h => ⟨id, _, rfl, h⟩, fun ⟨_, _, heq, h⟩ => by cases heq; exact h⟩
  · next hother =>
    refine iff_of_false nofun fun ⟨id, e, heq, hfull⟩ => ?_
    cases e with
    | compile e => exact hother id e heq
    | _ => exact hfull

/-- The monitors that a sequence of operations leads to, with the fragments that are in use. -/
inductive History (config : Config) : (FragmentId → Bool) → Monitor → Prop where
  | start {m : Monitor} (h : Monitor.create config = .ok m) : History config (fun _ => false) m
  | step {used : FragmentId → Bool} {m m' : Monitor} {op : Operation} (h : History config used m)
      (hop : op.Reasoned)
      (hrun : op.run m = .ok () m') :
      History config (if op.flushes m then fun _ => false else inUse used m.cache m'.cache) m'
  | close {used : FragmentId → Bool} {m m' : Monitor} {result : Except CloseError Unit}
      (h : History config used m)
      (hrun : Monitor.close m = .ok result m') :
      History config (if m.closed then used else fun _ => false) m'

/-- What a history keeps. -/
structure Kept (used : FragmentId → Bool) (m : Monitor) : Prop where
  accounted : Accounted (fun _ => True) (fun _ _ => True) m
  balanced : m.Balanced
  stocked : m.cache.Stocked used

theorem ignored_eq_ok {α : Type} {x : Monitoring α} {u : Unit}
    (h : Functor.discard x m = .ok u m') : ∃ a, x m = .ok a m' := by
  change EStateM.map _ x m = _ at h
  rw [EStateM.map] at h
  split at h
  · next a _ hx =>
    cases h
    exact ⟨a, hx⟩
  · cases h

/-- The accounts are kept by every operation. -/
theorem Accounted.step (ha : Accounted (fun _ => True) (fun _ _ => True) m) {op : Operation}
    (hrun : op.run m = .ok () m') :
    Accounted (fun _ => True) (fun _ _ => True) m' := by
  cases op with
  | loopEdge key types =>
    obtain ⟨b, hok⟩ := ignored_eq_ok hrun
    exact (ensures_ok hok).mp (loopEdge_accounted ha key types)
  | record p =>
    obtain ⟨b, hok⟩ := ignored_eq_ok hrun
    exact (ensures_ok hok).mp (record_accounted ha fun _ _ _ _ => trivial)
  | finish stop =>
    obtain ⟨result, hok⟩ := ignored_eq_ok hrun
    exact (ensures_ok hok).mp (endRecording_accounted ha stop fun _ _ _ _ _ => trivial)
  | abort a => exact (ensures_ok hrun).mp (abortRecording_accounted ha a)
  | execute fuel id slots =>
    obtain ⟨b, hok⟩ := ignored_eq_ok hrun
    exact (ensures_ok hok).mp (execute_accounted ha fuel id slots)
  | exit g =>
    obtain ⟨b, hok⟩ := ignored_eq_ok hrun
    exact (ensures_ok hok).mp (handleExit_accounted ha g)
  | invalidate id =>
    obtain ⟨b, hok⟩ := ignored_eq_ok hrun
    exact (ensures_ok hok).mp (invalidate_accounted ha id)
  | flush => exact (ensures_ok hrun).mp (flush_accounted ha)

theorem Accounted.close (ha : Accounted V B m) :
    Ensures Anyhow Monitor.close m fun _ m' => Accounted V B m' := by
  unfold Monitor.close
  refine .get ?_
  split
  · exact .pure ha
  · refine .modify_bind ?_
    have hclosed : Accounted V B { m with closed := true } := ha.still ⟨rfl, rfl, rfl, rfl⟩
    refine .bind (flush_accounted hclosed) fun _ m₁ h₁ =>
      caching_bind fun owned c hclose => .pure ?_
    cases hclose
    exact ⟨{ h₁.filed with region := CodePages.ruled_close h₁.filed.region }, h₁.size, h₁.helpers,
      h₁.trace, h₁.recording⟩

/-- One operation. -/
theorem Kept.step (h : Kept used m) {op : Operation} (hop : op.Reasoned)
    (hrun : op.run m = .ok () m') :
    Kept (if op.flushes m then fun _ => false else inUse used m.cache m'.cache) m' := by
  obtain ⟨ha, hb, hs⟩ := h
  have ha' := ha.step hrun
  cases op with
  | loopEdge key types =>
    obtain ⟨b, hok⟩ := ignored_eq_ok hrun
    exact ⟨ha',
      (ensures_ok hok).mp (loopEdge_balances hb key types),
      hs.turnover (.none ((ensures_ok hok).mp (loopEdge_akin key types)))⟩
  | record p =>
    obtain ⟨b, hok⟩ := ignored_eq_ok hrun
    exact ⟨ha', (ensures_ok hok).mp (record_balances hb ha p),
      hs.turnover (.none ((ensures_ok hok).mp (record_akin ha p)))⟩
  | finish stop =>
    obtain ⟨result, hok⟩ := ignored_eq_ok hrun
    refine ⟨ha', (ensures_ok hok).mp (endRecording_balances hb ha stop), ?_⟩
    have hflushes : (Operation.finish stop).flushes m = Operation.roomless result := by
      show (match endRecording stop m with
        | .ok result _ => Operation.roomless result
        | .error _ _ => false) = _
      rw [hok]
    rcases (ensures_ok hok).mp (endRecording_turnover ha hs stop)
      with ⟨hroom, hturnover⟩ | ⟨⟨id, e, rfl, hfull⟩, hempty⟩
    · have hno : Operation.roomless result = false := Bool.eq_false_iff.mpr fun hyes => by
        obtain ⟨id, e, heq, hfull⟩ := (roomless_iff result).mp hyes
        exact hroom id e heq hfull
      rw [hflushes, hno]
      exact hs.turnover hturnover
    · rw [hflushes, (roomless_iff _).mpr ⟨id, e, rfl, hfull⟩]
      exact hempty
  | abort a =>
    have hreason : ∀ n, a.reason ≠ .other n := fun n hn => by
      simp [Operation.Reasoned, hn, AbortReason.all] at hop
    exact ⟨ha', (ensures_ok hrun).mp (abortRecording_balances hb hreason),
      hs.turnover (.none ((ensures_ok hrun).mp (abortRecording_akin ha a)))⟩
  | execute fuel id slots =>
    obtain ⟨b, hok⟩ := ignored_eq_ok hrun
    have hsame := ((keepsAt_ok hok).mp (execute_ran ha.helpers fuel id slots)).cache
    exact ⟨ha', (ensures_ok hok).mp (execute_balances hb ha fuel id slots),
      hs.turnover (.none (hsame ▸ refl_of Akin m.cache))⟩
  | exit g =>
    obtain ⟨b, hok⟩ := ignored_eq_ok hrun
    exact ⟨ha', (ensures_ok hok).mp (handleExit_balances hb ha g),
      hs.turnover ((ensures_ok hok).mp (handleExit_turnover ha g))⟩
  | invalidate id =>
    obtain ⟨b, hok⟩ := ignored_eq_ok hrun
    exact ⟨ha', (ensures_ok hok).mp (invalidate_balances hb id),
      hs.turnover ((ensures_ok hok).mp (invalidate_turnover ha id))⟩
  | flush =>
    exact ⟨ha', (ensures_ok hrun).mp (flush_balances hb),
      (ensures_ok hrun).mp (flush_stocks ha hs)⟩

/-- The code region is given up after everything was dropped. -/
theorem Kept.close (h : Kept used m) : Ensures Anyhow Monitor.close m fun _ m' =>
    Kept (if m.closed then used else fun _ => false) m' := by
  obtain ⟨ha, hb, hs⟩ := h
  unfold Monitor.close
  refine .get ?_
  split
  · exact .pure ⟨ha, hb, hs⟩
  · refine .modify_bind ?_
    have ha₁ : Accounted (fun _ => True) (fun _ _ => True) { m with closed := true } :=
      ha.still ⟨rfl, rfl, rfl, rfl⟩
    refine .bind (Q := fun _ m₁ => Kept (fun _ => false) m₁) ?_ fun _ m₁ ⟨ha₁, hb₁, hs₁⟩ => ?_
    · cases hflush : flush { m with closed := true } with
      | error e m₁ => exact (ensures_error hflush).mpr trivial
      | ok u m₁ =>
        exact (ensures_ok hflush).mpr ⟨(ensures_ok hflush).mp (flush_accounted ha₁),
          (ensures_ok hflush).mp (flush_balances (by exact hb)),
          (ensures_ok hflush).mp (flush_stocks ha₁ hs)⟩
    · refine caching_bind fun owned c hclose => .pure ?_
      cases hclose
      refine ⟨⟨{ ha₁.filed with region := CodePages.ruled_close ha₁.filed.region }, ha₁.size,
        ha₁.helpers, ha₁.trace,
        ha₁.recording⟩, hb₁, hs₁.akin (akin_congr rfl rfl (Nat.le_refl _))⟩

theorem History.kept {config : Config} (h : History config used m) : Kept used m := by
  induction h with
  | start h =>
    refine ⟨create_accounted h, ?_, ?_⟩
    all_goals obtain ⟨-, r, r', -, -, rfl⟩ := create_eq h
    · exact Stats.balanced_new
    · exact stocked_new _ _
  | step _ hop hrun ih => exact ih.step hop hrun
  | close _ hrun ih => exact (ensures_ok hrun).mp ih.close

/-- After every history the statistics add up: every recording that was started was committed or
given up or is under way, what was committed is a root, a peer or a branch, every branch was
promoted, and the counters by reason and by kind have the right sums. As long as guards have numbers
of their own, as many of them are registered as the fragments in use have. -/
theorem statistics_conserved {config : Config} (h : History config used m) :
    m.stats.recordingsStarted =
        m.stats.recordingsCommitted + m.stats.recordingsAborted + (if m.recording then 1 else 0) ∧
      m.stats.recordingsCommitted =
        m.stats.rootsCompiled + m.stats.peersCompiled + m.stats.branchesCompiled ∧
      m.stats.promotions = m.stats.branchesCompiled ∧
      m.stats.recordingsAborted = m.stats.abortsByReason.sum ∧
      m.stats.sideExits = m.stats.exitsByKind.sum ∧
      (∀ id, used id = true → m.cache.compiled id = true) ∧
      (m.cache.guardCount < 2 ^ 32 → m.cache.guardsSize =
        ((m.cache.fragments.toList.filter fun f => used f.id).map (·.guards.length)).sum) := by
  obtain ⟨ha, hb, hs⟩ := h.kept
  exact ⟨hb.started, hb.committed, hb.promoted, hb.aborted, hb.exited, hs.compiled,
    fun hcount => hs.guardsSize ha.filed ha.size hcount⟩

theorem Reached.history {permitted : Monitor → Operation → Prop} {config : Config}
    (h : Reached permitted config m)
    (hp : ∀ m op, permitted m op → op.Reasoned) : ∃ used, History config used m := by
  induction h with
  | start h => exact ⟨_, .start h⟩
  | step _ hop hrun ih =>
    obtain ⟨used, ih⟩ := ih
    exact ⟨_, ih.step (hp _ _ hop) hrun⟩

/-- The theorem where three fragments are compiled, with a guard each for two of them, and a fourth
is being recorded. -/
theorem sprout_counted : ∃ used m, History eager used m ∧ m.recording = true ∧
    m.stats.recordingsStarted = 4 ∧
    m.stats.rootsCompiled + m.stats.peersCompiled + m.stats.branchesCompiled = 3 ∧
    m.cache.guardCount < 2 ^ 32 ∧ m.cache.guardsSize =
      ((m.cache.fragments.toList.filter fun f => used f.id).map (·.guards.length)).sum := by
  obtain ⟨m₀, m, hcareful, hrests, hrun, hsprout⟩ := growing_sprouts
  have hm : Reached Operation.Careful eager m :=
    hcareful.step (show Operation.Careful m₀ (.exit 2) from hrests) hrun
  obtain ⟨used, hused⟩ := hm.history fun _ _ hop => hop.reasoned
  obtain ⟨hstarted, hcommitted, -, -, -, -, hguards⟩ := statistics_conserved hused
  have hcount : m.cache.guardCount < 2 ^ 32 := by
    rw [hsprout.guardCount]
    decide
  refine ⟨used, m, hused, hsprout.recording, ?_, ?_, hcount, hguards hcount⟩
  · rw [hstarted, hsprout.committed, hsprout.unaborted, hsprout.recording]
    rfl
  · rw [← hcommitted, hsprout.committed]

end LoopTracer.Monitor
