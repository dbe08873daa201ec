import LoopTracer.Proofs.Fragment.Guards
import LoopTracer.Proofs.Monitor.Accounts

/-! The counters of a monitor add up.

A recording ends in one of many ways: it is committed, it is given up by the recorder or from
outside, its trace cannot be compiled, or its fragment is dropped. Each of them counts it exactly
once (`Balanced`), so that what was started is what was committed, what was given up and what is
still under way. -/
namespace LoopTracer

open Trace Compile

namespace Stats

/-- The counters add up, `recording` telling whether a recording is under way. -/
structure Balanced (recording : Bool) (s : Stats) : Prop where
  started : s.recordingsStarted = s.recordingsCommitted + s.recordingsAborted + if recording then 1
    else 0
  committed : s.recordingsCommitted = s.rootsCompiled + s.peersCompiled + s.branchesCompiled
  promoted : s.promotions = s.branchesCompiled
  aborted : s.recordingsAborted = s.abortsByReason.sum
  exited : s.sideExits = s.exitsByKind.sum
  reasons : s.abortsByReason.size = AbortReason.all.size
  kinds : s.exitsByKind.size = ExitKind.all.size

variable {recording : Bool} {s : Stats}

theorem balanced_new : Balanced false {} := ⟨rfl, rfl, rfl, rfl, rfl, rfl, rfl⟩

/-- The other counters have nothing to do with it. -/
theorem Balanced.other
    (h : s.Balanced recording)
    (loopEdges assemblyFailures executions invalidations flushes blacklisted
    codeBytes : Nat) : Balanced recording { s with
      loopEdges, assemblyFailures, executions, invalidations, flushes, blacklisted, codeBytes } :=
  ⟨h.started, h.committed, h.promoted, h.aborted, h.exited, h.reasons, h.kinds⟩

/-- Counting in one place of a table adds one to its sum. -/
theorem sum_modify (a : Array Nat) {i : Nat} (hi : i < a.size) :
    (a.modify i (· + 1)).sum = a.sum + 1 := by
  have hlist : ∀ (l : List Nat) (i : Nat), i < l.length → (l.modify i (· + 1)).sum = l.sum + 1 := by
    intro l
    induction l with
    | nil => nofun
    | cons n l ih =>
      rintro (- | i) hi
      · simp
        omega
      · have := ih i (by simpa using hi)
        simp [this]
        omega
  have := hlist a.toList i (by simpa using hi)
  rwa [← Array.toList_modify, Array.sum_toList, Array.sum_toList] at this

theorem Balanced.start (h : s.Balanced false) :
    Balanced true { s with recordingsStarted := s.recordingsStarted + 1 } :=
  { h with started := by simp [h.started] }

/-- A recording is given up for a reason that has a name. -/
theorem Balanced.abort (h : s.Balanced true) {r : AbortReason} (hr : ∀ n, r ≠ .other n) :
    (s.abort r).Balanced false := by
  obtain ⟨i, hi⟩ : ∃ i, AbortReason.all.finIdxOf? r = some i := by
    rw [← Option.isSome_iff_exists, Array.isSome_finIdxOf?]
    cases r with
    | other n => exact absurd rfl (hr n)
    | _ => simp [AbortReason.all]
  have hreasons : (s.abort r).abortsByReason = s.abortsByReason.modify i (· + 1) := by
    unfold Stats.abort
    rw [hi]
  refine ⟨?_, h.committed, h.promoted, ?_, h.exited, ?_, h.kinds⟩
  · have := h.started
    simp only [Stats.abort, if_true, Bool.false_eq_true, if_false] at this ⊢
    omega
  · rw [hreasons, sum_modify _ (Nat.lt_of_lt_of_eq i.isLt h.reasons.symm), ← h.aborted]
    rfl
  · rw [hreasons, Array.size_modify, h.reasons]

theorem Balanced.exit (h : s.Balanced recording) {k : ExitKind} (hk : ∀ n, k ≠ .other n) :
    (s.exit k).Balanced recording := by
  obtain ⟨i, hi⟩ : ∃ i, ExitKind.all.finIdxOf? k = some i := by
    rw [← Option.isSome_iff_exists, Array.isSome_finIdxOf?]
    cases k with
    | other n => exact absurd rfl (hk n)
    | _ => simp [ExitKind.all]
  have hkinds : (s.exit k).exitsByKind = s.exitsByKind.modify i (· + 1) := by
    unfold Stats.exit
    rw [hi]
  refine ⟨h.started, h.committed, h.promoted, h.aborted, ?_, h.reasons, ?_⟩
  · rw [hkinds, sum_modify _ (Nat.lt_of_lt_of_eq i.isLt h.kinds.symm), ← h.exited]
    rfl
  · rw [hkinds, Array.size_modify, h.kinds]

/-- A trace is put into use. -/
theorem Balanced.commit (h : s.Balanced true) (kind : FragmentKind) (codeBytes : Nat) :
    Balanced false (match kind with
    | .root => { s with
        recordingsCommitted := s.recordingsCommitted + 1, codeBytes, rootsCompiled :=
            s.rootsCompiled + 1 }
    | .peer => { s with
        recordingsCommitted := s.recordingsCommitted + 1, codeBytes, peersCompiled :=
            s.peersCompiled + 1 }
    | .branch => { s with
        recordingsCommitted := s.recordingsCommitted + 1, codeBytes, branchesCompiled :=
            s.branchesCompiled + 1
        promotions := s.promotions + 1 }) := by
  have hstarted := h.started
  have hcommitted := h.committed
  have hpromoted := h.promoted
  cases kind
  all_goals
    refine ⟨?_, ?_, ?_, h.aborted, h.exited, h.reasons, h.kinds⟩
    all_goals
      simp only [if_true, Bool.false_eq_true, if_false] at hstarted ⊢
      omega

end Stats

namespace Monitor

open FragmentCache

variable {V : Immediate → Prop} {B : FragmentId → LoopKey → Prop} {m m' : Monitor} {id : FragmentId}

/-- The counters of a monitor add up. -/
def Balanced (m : Monitor) : Prop := m.stats.Balanced m.recording

/-- A recording begins. -/
theorem startRecording_balances (h : m.Balanced) (types : TypeMap) (anchor : Option GuardId) :
    Ensures Anyhow (startRecording id types anchor) m fun _ m' => m'.Balanced := by
  unfold startRecording
  refine fragment_bind fun f hf => fragment_bind fun root hroot => .get ?_
  extract_lets anchor'
  split
  · exact .throw trivial
  · exact .pure h
  · next r hr =>
    have hstarted := start_started hr
    refine .modify_bind (updateFragment_bind (count_bind (.pure ?_)))
    have hidle : m.stats.Balanced false := not_recording hstarted.idle ▸ h
    show Stats.Balanced r.isRecording _
    rw [show r.isRecording = true from beq_iff_eq.mpr hstarted.state]
    exact hidle.start

/-- A recording that was given up is counted, whatever becomes of its fragment. -/
theorem recordingFailed_balances (h : m.stats.Balanced true) (anchor : Option GuardId) {a : Abort}
    (ha : ∀ n, a.reason ≠ .other n) : Ensures Anyhow (recordingFailed id anchor a) m fun _ m' =>
      m'.stats.Balanced false ∧ m'.recorder = m.recorder := by
  unfold recordingFailed
  refine count_bind ?_
  have hcounted := h.abort ha
  extract_lets rest
  have hrest : Ensures Anyhow (rest ()) { m with stats := m.stats.abort a.reason } fun _ m' =>
      m'.stats.Balanced false ∧ m'.recorder = m.recorder := by
    refine .get (fragment_bind fun f hf => ?_)
    split
    · split
      · exact .throw trivial
      · refine guard_bind fun r hr => updateCache_bind (.get ?_)
        extract_lets attempts drop
        have hdrop : ∀ m₁ : Monitor, m₁.stats.Balanced false ∧ m₁.recorder = m.recorder →
            Ensures Anyhow (drop ()) m₁ fun _ m' =>
                m'.stats.Balanced false ∧ m'.recorder = m.recorder := by
          intro m₁ h₁
          unfold drop
          split
          · exact caching_anyhow fun _ _ _ => h₁
          · exact .pure h₁
        clear_value drop
        split
        · exact updateCache_bind (count_bind (hdrop _ ⟨hcounted.other _ _ _ _ _ _ _, rfl⟩))
        · exact hdrop _ ⟨hcounted, rfl⟩
    · split
      · refine updateFragment_bind ?_
        split
        · exact count_ensures ⟨hcounted.other _ _ _ _ _ _ _, rfl⟩
        · exact .pure ⟨hcounted, rfl⟩
      · exact .pure ⟨hcounted, rfl⟩
  clear_value rest
  split
  · exact .throw trivial
  · exact hrest

/-- The recorder is asked for something; if it gives the recording up, this is counted. -/
theorem onRecorder_balances {α : Type} {x : Recording α} {P : α → Recorder → Prop} (h : m.Balanced)
    (ha : Accounted V B m)
    (hx : Ensures (Stopped m.recorder) x m.recorder P) :
    Ensures Anyhow (onRecorder x) m fun result m' =>
      match result with
      | .ok a => ∃ r, P a r ∧ m' = { m with recorder := r }
      | .error _ => m'.Balanced := by
  unfold onRecorder
  refine .get (.get ?_)
  extract_lets anchor step
  cases hrecorder : x m.recorder with
  | ok a r =>
    have hstep : step m = .ok (.ok a) { m with recorder := r } := by simp only [step, hrecorder]
    refine .bind (Q := fun y m' => y = .ok a ∧ m' = { m with recorder := r })
      ((ensures_ok hstep).mpr ⟨rfl, rfl⟩) ?_
    rintro _ _ ⟨rfl, rfl⟩
    exact .pure ⟨r, (ensures_ok hrecorder).mp hx, rfl⟩
  | error e r =>
    have hstep : step m = .ok (.error e) { m with recorder := r } := by simp only [step, hrecorder]
    have hstopped := (ensures_error hrecorder).mp hx
    refine .bind (Q := fun y m' => y = .error e ∧ m' = { m with recorder := r })
      ((ensures_ok hstep).mpr ⟨rfl, rfl⟩) ?_
    rintro _ _ ⟨rfl, rfl⟩
    cases e with
    | notRecording =>
      obtain ⟨rfl, -⟩ : r = m.recorder ∧ _ := hstopped
      exact .pure h
    | fault f => exact .throw trivial
    | abort a =>
      obtain ⟨hreason, hstate, r, -, rfl⟩ := hstopped
      have hrecording := recording_eq_true.mpr hstate
      obtain ⟨id, hid, -⟩ := ha.recording hrecording
      dsimp only
      rw [hid]
      have hopen : m.stats.Balanced true := hrecording ▸ h
      refine .bind (recordingFailed_balances (m := { m with recorder := r.reset })
        hopen anchor hreason) fun _ m' hm' => .pure ?_
      show m'.stats.Balanced m'.recorder.isRecording
      rw [hm'.2]
      exact hm'.1

theorem record_balances (h : m.Balanced) (ha : Accounted V B m) (p : Primitive) :
    Ensures Anyhow (record p) m fun _ m' => m'.Balanced := by
  unfold record
  have hrecord :=
    Trace.record_ensures (V := fun _ => True) (p := p) m.helpers m.config.maxTraceLength m.recorder
    fun _ _ _ _ => trivial
  refine .get ((onRecorder_balances h ha hrecord).mono fun result m' hm' => ?_)
  cases result with
  | error e => exact hm'
  | ok u =>
    obtain ⟨r, ⟨hsame, -⟩, rfl⟩ := hm'
    show m.stats.Balanced (r.state == .recording)
    rw [hsame.state]
    exact h

theorem abortRecording_balances (h : m.Balanced) {a : Abort} (ha : ∀ n, a.reason ≠ .other n) :
    Ensures Anyhow (abortRecording a) m fun _ m' => m'.Balanced := by
  unfold abortRecording
  refine .get ?_
  split
  · next hrecording =>
    split
    · next id hid =>
      have hopen : m.stats.Balanced true := hrecording ▸ h
      refine resetRecorder_bind
        ((recordingFailed_balances (by exact hopen) _ ha).mono fun _ m' hm' => ?_)
      show m'.stats.Balanced m'.recorder.isRecording
      rw [hm'.2]
      exact hm'.1
    · exact .pure h
  · exact .pure h

/-- Everything is dropped, a recording included. -/
theorem flush_balances (h : m.Balanced) : Ensures Anyhow flush m fun _ m' => m'.Balanced := by
  unfold flush
  have hdrop : ∀ m₁ : Monitor, m₁.Balanced → Ensures Anyhow (do
      let gone ← caching FragmentCache.flush
      count fun s =>
        { s with flushes := s.flushes + 1, invalidations := s.invalidations + gone.length }) m₁
        fun _ m' => m'.Balanced := fun m₁ h₁ =>
    caching_bind fun _ c _ => count_ensures (Stats.Balanced.other h₁ _ _ _ _ _ _ _)
  refine .get ?_
  split
  · next hrecording =>
    have hopen : m.stats.Balanced true := hrecording ▸ h
    exact resetRecorder_bind (count_bind (hdrop _ (hopen.abort nofun)))
  · exact hdrop m h

theorem outOfSpace_balances (h : m.Balanced) (key : LoopKey) :
    Ensures Anyhow (outOfSpace key) m fun _ m' => m'.Balanced := by
  unfold outOfSpace
  refine .modify_bind (.get ?_)
  split
  · exact count_bind (flush_balances (Stats.Balanced.other h _ _ _ _ _ _ _))
  · exact flush_balances h

/-- A fragment is dropped; a recording that is seen to depend on it is given up. -/
theorem invalidate_balances (h : m.Balanced) (id : FragmentId) :
    Ensures Anyhow (invalidate id) m fun _ m' => m'.Balanced := by
  unfold invalidate
  refine .get ?_
  extract_lets rest
  have hrest : ∀ m₁ : Monitor, m₁.Balanced → Ensures Anyhow (rest ()) m₁ fun _ m' => m'.Balanced :=
    fun m₁ h₁ => caching_bind fun _ c _ =>
      count_bind (.pure (Stats.Balanced.other h₁ _ _ _ _ _ _ _))
  clear_value rest
  split
  · next rf hrf =>
    have hrecording : m.recording = true := by
      split at hrf
      · assumption
      · cases hrf
    have hopen : m.stats.Balanced true := hrecording ▸ h
    split
    · refine resetRecorder_bind (count_bind (fragment_bind fun f hf => ?_))
      split
      · exact caching_bind fun _ c _ => hrest _ (hopen.abort nofun)
      · exact updateFragment_bind (hrest _ (hopen.abort nofun))
    · exact hrest m h
  · exact hrest m h

/-- Code is put into use. -/
theorem installAssembly_balances (h : m.stats.Balanced true) (f : Fragment)
    (anchor : Option GuardId) (a : Assembly) :
    Ensures Anyhow (installAssembly f anchor a) m fun _ m' => m'.Balanced := by
  unfold installAssembly
  refine caching_bind fun _ c _ => .get ?_
  extract_lets rest
  have hrest : ∀ r : Recorder, Ensures Anyhow (rest ()) { m with cache := c, recorder := r.reset }
      fun _ m' => m'.Balanced := by
    intro r
    refine count_bind ?_
    split
    · exact count_ensures (h.commit .root _)
    · exact count_ensures (h.commit .peer _)
    · refine count_bind ?_
      split
      · exact .throw trivial
      · exact guard_bind fun g _ => fragment_bind fun child _ => caching_bind fun _ _ _ =>
          count_ensures (h.commit .branch _)
  clear_value rest
  dsimp only
  cases hcommit : m.recorder.commit with
  | error e => exact .throw trivial
  | ok r =>
    obtain rfl : r = m.recorder.reset := by
      unfold Recorder.commit at hcommit
      split at hcommit
      · exact (Except.ok.inj hcommit).symm
      · cases hcommit
    exact .modify_bind (hrest m.recorder)

/-- A recording ends, with its code in use or with a failure. -/
theorem endRecording_balances (h : m.Balanced) (ha : Accounted V B m) (stop : TypeMap) :
    Ensures Anyhow (endRecording stop) m fun _ m' => m'.Balanced := by
  unfold endRecording
  refine .get ?_
  split
  · exact .pure h
  next hrecording =>
  replace hrecording : m.recording = true := by simpa using hrecording
  have hopen : m.stats.Balanced true := hrecording ▸ h
  split
  · next id hid =>
    refine fragment_bind fun f hf => ?_
    extract_lets rest
    have hrest : ∀ target : Option Fragment, Ensures Anyhow (rest target) m fun _ m' =>
        m'.Balanced := by
      intro target
      refine .bind (onRecorder_balances h ha (finish_ensures f stop target m.recorder))
        fun result m₁ hm₁ => ?_
      cases result with
      | error e => exact .pure hm₁
      | ok b =>
        obtain ⟨r, hfinished, rfl⟩ := hm₁
        refine updateCache_bind (fragment_bind fun f₁ _ => ?_)
        refine .bind (Q := fun _ m₂ => ∃ c, m₂ = { m with recorder := r, cache := c }) ?_ ?_
        · unfold Ensures assembleFragment
          dsimp only
          split
          · next heq =>
            split at heq
            · cases heq
              exact ⟨_, rfl⟩
            · cases heq
            · cases heq
              exact ⟨_, rfl⟩
          · trivial
        rintro y _ ⟨c, rfl⟩
        cases y with
        | ok a => exact .bind (installAssembly_balances
          (by exact hopen) f _ a) fun _ _ h' => .pure h'
        | error e =>
          refine count_bind (updateFragment_bind (resetRecorder_bind ?_))
          refine .bind (recordingFailed_balances (by exact hopen.other _ _ _ _ _ _ _) _ (by nofun))
            fun _ m₃ hm₃ => ?_
          have h₃ : m₃.Balanced := by
            show m₃.stats.Balanced m₃.recorder.isRecording
            rw [hm₃.2]
            exact hm₃.1
          dsimp only
          split
          · exact fragment_bind fun root _ =>
              .bind (outOfSpace_balances h₃ _) fun _ _ h' => .pure h'
          · exact .pure h₃
    clear_value rest
    split
    · exact fragment_bind fun root _ => .get (.pure_bind (hrest _))
    · exact .pure_bind (hrest none)
  · exact .throw trivial

theorem candidate_balances (h : m.Balanced) (key : LoopKey) (types : TypeMap) :
    Ensures Anyhow (candidate key types) m fun _ m' => m'.Balanced := by
  refine (candidate_chooses key types).mono fun id m' hm' => ?_
  cases hm' <;> exact h

theorem loopEdge_balances (h : m.Balanced) (key : LoopKey) (types : TypeMap) :
    Ensures Anyhow (loopEdge key types) m fun _ m' => m'.Balanced := by
  unfold loopEdge
  have hcounted : Balanced
      { m with stats := { m.stats with loopEdges := m.stats.loopEdges + 1 } } :=
    Stats.Balanced.other h _ _ _ _ _ _ _
  refine count_bind (.get ?_)
  split
  · exact .pure hcounted
  split
  · exact .pure hcounted
  refine .bind (candidate_balances hcounted key types) fun id m₁ h₁ => fragment_bind fun f hf => ?_
  split
  · exact .pure h₁
  refine updateFragment_bind (.get ?_)
  split
  · exact .pure h₁
  · exact startRecording_balances (by exact h₁) types none

/-- An exit is counted under its kind, and a branch may begin there. -/
theorem handleExit_balances (h : m.Balanced) (ha : Accounted V B m) (g : GuardId) :
    Ensures Anyhow (handleExit g) m fun _ m' => m'.Balanced := by
  unfold handleExit
  refine guard_bind fun r hr => .get (count_bind (updateCache_bind (.get ?_)))
  have hkind : ∀ n, (m.cache.exitOf r).exit.kind ≠ .other n := by
    unfold exitOf
    cases he : m.cache.exits[r.exit]? with
    | none => nofun
    | some e => exact ha.filed.exits.kinds e (Array.mem_of_getElem? he)
  have hcounted : ∀ c, Balanced { m with cache := c,
                                         stats := m.stats.exit (m.cache.exitOf r).exit.kind } :=
    fun _ => Stats.Balanced.exit h hkind
  dsimp only
  split
  · refine updateFragment_bind (.get ?_)
    split
    · exact .bind (invalidate_balances (hcounted _) _) fun _ _ h' => .pure h'
    split
    · exact .pure (hcounted _)
    split
    · exact .pure (hcounted _)
    refine caching_bind fun id c _ => fragment_bind fun child _ => ?_
    refine .bind (startRecording_balances (hcounted c) _ _) fun b m₁ h₁ => ?_
    cases b with
    | true => exact .pure h₁
    | false => exact fragment_bind fun _ _ => caching_bind fun _ _ _ => .pure h₁
  · exact .pure (hcounted _)

theorem execute_balances (h : m.Balanced) (ha : Accounted V B m) (fuel : Nat) (id : FragmentId)
    (slots : Array UInt64) :
    Ensures Anyhow (execute fuel id slots) m fun _ m' => m'.Balanced := by
  have hran := execute_ran ha.helpers fuel id slots
  cases hexecute : execute fuel id slots m with
  | error f m' => exact (ensures_error hexecute).mpr trivial
  | ok a m' =>
    have hran := (keepsAt_ok hexecute).mp hran
    obtain ⟨n, hn⟩ := hran.stats
    refine (ensures_ok hexecute).mpr ?_
    show m'.stats.Balanced m'.recorder.isRecording
    rw [hran.recorder, hn]
    exact Stats.Balanced.other h _ _ _ _ _ _ _

end Monitor

end LoopTracer
