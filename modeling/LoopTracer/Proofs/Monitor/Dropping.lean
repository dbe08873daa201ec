import LoopTracer.Proofs.Monitor.Linked

/-! Recordings that are given up and fragments that are dropped.

A recording that fails ends with an idle recorder and no fragment marked. Before the monitor drops a
fragment it gives up the recording of one that grew from it. It looks for that along parents and
roots only, while the cache drops along the targets of traces, too: an eviction overlooks the
recording if the cache drops its fragment and the monitor does not see it (`Overlooks`). -/
namespace LoopTracer.Monitor

open Trace Compile FragmentCache

variable {m m' : Monitor} {p q : Prop} {id : FragmentId} {f : Fragment}

/-! ### Changes of one fragment -/

theorem Coherent.noting (h : Coherent p q m) {c : FragmentCache} (hn : Noting m.cache c) :
    Coherent p q { m with cache := c } :=
  h.recached (h.sound.noting hn) hn.backend

/-- The state of a fragment that is being recorded. -/
theorem Coherent.closed (h : Coherent p q m) (hs : m.cache.Subject (some id))
    (hf : m.cache.cached? id = some f)
    {g : Fragment → Fragment} (hg : Noted m.cache f (g f)) (hstate : (g f).state ≠ .recording) :
    Coherent p q { m with cache := m.cache.update id g } ∧ (m.cache.update id g).Subject none :=
  ⟨h.noting (noting_update (fragment?_of_cached hf) hg), hs.finish hf hg.mild.cached hstate⟩

/-- The cached fragment that is being recorded. -/
theorem Subject.cached (hs : m.cache.Subject (some id)) (hf : m.cache.fragment? id = some f) :
    m.cache.cached? id = some f ∧ f.state = .recording := by
  obtain ⟨f', hf', hstate⟩ := hs.there rfl
  have hsame := fragment?_of_cached hf'
  rw [hf] at hsame
  cases hsame
  exact ⟨hf', hstate⟩

/-! ### Failed recordings -/

/-- A branch whose recording failed is dropped. -/
theorem discard_subject (h : Coherent p q m) (hs : m.cache.Subject (some id))
    (hf : m.cache.cached? id = some f) :
    Ensures Harmless (caching (FragmentCache.discard f)) m fun _ m' =>
    Coherent p q m' ∧ m'.cache.Subject none ∧
      m'.recorder = m.recorder ∧ Pruned (· == id) m.cache m'.cache ∧
      ∃ f', m'.cache.fragment? id = some f' ∧ Spent f' := by
  refine (caching_ensures (FragmentCache.discard_ensures h.sound hf)).mono ?_
  rintro _ _ ⟨c, rfl, hsound, hpruned, hspent⟩
  exact ⟨h.recached hsound hpruned.backend, hs.dropped hpruned (beq_self_eq_true id),
    rfl, hpruned, hspent⟩

/-- The recorder has given up the recording of a fragment, and the fragment is still marked. -/
structure Halted (p q : Prop) (id : FragmentId) (m : Monitor) : Prop extends Coherent p q m where
  subject : m.cache.Subject (some id)
  idle : m.recorder.state = .idle

theorem Halted.still (h : Halted p q id m) (hs : Still m m') : Halted p q id m' :=
  ⟨h.toCoherent.still hs, hs.cache ▸ h.subject, hs.recorder ▸ h.idle⟩

theorem Halted.exits (h : Halted p q id m) (exit : Nat) (g : ExitRecord → ExitRecord) :
    Halted p q id { m with cache := m.cache.updateExit exit g } :=
  ⟨h.toCoherent.noting ((Noting.refl m.cache).exits _), h.subject.congr rfl, h.idle⟩

/-- After a recording failed nothing is being recorded. -/
theorem recordingFailed_ensures (h : Halted p q id m) (anchor : Option GuardId) (a : Abort) :
    Ensures Harmless (recordingFailed id anchor a) m fun _ m' => Inv p q m' := by
  unfold recordingFailed
  refine count_bind ?_
  have h₁ : Halted p q id { m with stats := m.stats.abort a.reason } := h.still ⟨rfl, rfl, rfl, rfl⟩
  generalize { m with stats := m.stats.abort a.reason } = m₁ at h₁ ⊢
  extract_lets next
  have hnext : Ensures Harmless (next ()) m₁ fun _ m' => Inv p q m' := by
    refine .get (fragment_bind fun f hf => ?_)
    obtain ⟨hf, hstate⟩ := Subject.cached h₁.subject hf
    have hlive : f.state ≠ .invalidated := by
      rw [hstate]
      rintro ⟨⟩
    -- it is not dropped yet, so both cases end with a change of the fragment
    split
    · split
      · exact .throw fun _ _ h => by cases h
      · -- whatever the exit is told, the branch is dropped
        refine guard_bind fun r hr => updateCache_bind (.get ?_)
        extract_lets attempts drop
        have hdrop : ∀ m₂, Halted p q id m₂ → m₂.cache.cached? id = some f →
            Ensures Harmless (drop ()) m₂ fun _ m' => Inv p q m' := by
          intro m₂ h₂ hf₂
          unfold drop
          refine (discard_subject h₂.toCoherent h₂.subject hf₂).mono fun _ m₃ hdiscarded => ?_
          obtain ⟨hc, hs, hrecorder, _⟩ := hdiscarded
          exact ⟨hc, .idle (hrecorder ▸ h₂.idle) hs⟩
        split
        · exact updateCache_bind
            (count_bind (hdrop _ (((h₁.exits _ _).exits _ _).still ⟨rfl, rfl, rfl, rfl⟩) hf))
        · exact hdrop _ (h₁.exits _ _) hf
    · extract_lets attempts last
      have hopen : f.state ≠ .compiled := by
        rw [hstate]
        rintro ⟨⟩
      have hend : ∀ state, state ≠ .compiled → state ≠ .invalidated → state ≠ .recording →
          Inv p q { m₁ with cache := m₁.cache.update id ({ · with attempts,
                                                                  hits := 0, state }) } := by
        intro state hcompiled hinvalidated hrecording
        obtain ⟨hc, hs⟩ :=
          h₁.toCoherent.closed h₁.subject hf (g := ({ · with attempts, hits := 0, state }))
          (noted_open hopen state hcompiled hinvalidated (fun _ => .inl) _ _ _ _) hrecording
        exact ⟨hc, .idle h₁.idle hs⟩
      refine updateFragment_bind ?_
      split
      · exact (hend .blacklisted (fun h => by cases h) (fun h => by cases h) fun h => by
          cases h).still ⟨rfl, rfl, rfl, rfl⟩
      · exact hend .failed (fun h => by cases h) (fun h => by cases h) fun h => by cases h
  split
  · exact .bind (.throw (Q := fun _ _ => False) fun _ _ h => by cases h) fun _ _ => False.elim
  · exact hnext

/-! ### Dropping a fragment -/

/-- Dropping a fragment drops the one that is being recorded, and the recording goes on. -/
def Overlooks (m : Monitor) (id : FragmentId) : Prop :=
  ∃ rf, m.recording = true ∧ m.recorder.fragment = some rf ∧
    marked (m.cache.dependents id) rf = true ∧
    dependsOn m.cache id (m.cache.fragments.size + 1) rf = false

theorem dependsOn_congr {c c' : FragmentCache}
    (h : c'.fragments.map outline = c.fragments.map outline) (on : FragmentId)
    (n : Nat) (id : FragmentId) : dependsOn c' on n id = dependsOn c on n id := by
  have hfragment : ∀ j, (c'.fragment? j).map outline = (c.fragment? j).map outline := by
    intro j
    unfold fragment?
    split
    · rfl
    · rw [← Array.getElem?_map, ← Array.getElem?_map, h]
  induction n generalizing id with
  | zero => rfl
  | succ n ih =>
    have hsame := hfragment id
    unfold dependsOn
    cases hf : c.fragment? id with
    | none =>
      rw [hf, Option.map_none, Option.map_eq_none_iff] at hsame
      rw [hsame]
    | some f =>
      rw [hf, Option.map_some, Option.map_eq_some_iff] at hsame
      obtain ⟨f', hf', hsame⟩ := hsame
      rw [hf']
      injection hsame with hid _ _ _ _ _ _ _ _ _ _ _ _ _ hroot hparent
      dsimp only
      rw [hid, hroot, hparent, funext ih]

/-- Whether an eviction overlooks the recording depends on the trees and the recorder only. -/
theorem overlooks_congr (h : m'.cache.fragments.map outline = m.cache.fragments.map outline)
    (hr : m'.recorder = m.recorder) (id : FragmentId) : Overlooks m' id ↔ Overlooks m id := by
  have hsize : m'.cache.fragments.size = m.cache.fragments.size := by
    simpa using congrArg Array.size h
  unfold Overlooks recording
  rw [hr, dependents_congr h, hsize]
  simp only [dependsOn_congr h]

/-- What an eviction leaves. -/
structure Evicted (p q : Prop) (id : FragmentId) (m m' : Monitor) :
    Prop extends Coherent p q m' where
  linked : ¬ Overlooks m id → Linked m'
  stray : Overlooks m id → m'.recorder = m.recorder ∧ ∀ rf, m.recorder.fragment = some rf →
    m'.cache.cached? rf = none

theorem invalidate_ensures (h : Inv p q m) (hp : p → ∃ f, m.cache.cached? id = some f) :
    Ensures Harmless (invalidate id) m fun _ m' => Evicted p q id m m' := by
  unfold invalidate
  refine .get ?_
  extract_lets evict
  -- the cache drops the fragment, whatever became of the recording
  have hevict : ∀ m₁, Coherent p q m₁ →
    (p → ∃ f, m₁.cache.fragment? id = some f ∧ (f.cached = true ∨ Spent f)) →
      Ensures Harmless (evict ()) m₁ fun _ m' => Coherent p q m' ∧ m'.recorder = m₁.recorder ∧
        Pruned (marked (m₁.cache.dependents id)) m₁.cache m'.cache := by
    intro m₁ h₁ hp₁
    refine .bind (caching_ensures (FragmentCache.invalidate_ensures h₁.sound hp₁)) ?_
    rintro gone _ ⟨c, rfl, hsound, hpruned⟩
    exact count_bind
      (.pure ⟨(h₁.recached hsound hpruned.backend).still ⟨rfl, rfl, rfl, rfl⟩, rfl, hpruned⟩)
  have hp' : p → ∃ f, m.cache.fragment? id = some f ∧ (f.cached = true ∨ Spent f) := fun hp' =>
    let ⟨f, hf⟩ := hp hp'
    ⟨f, fragment?_of_cached hf, .inl (cached?_eq_some.mp hf).2⟩
  cases h.linked with
  | idle hstate hs =>
    have hquiet : m.recording = false := by
      rw [← Bool.not_eq_true, recording_eq_true, hstate]
      nofun
    have hseen : ¬ Overlooks m id := fun ⟨_, hrecording, _⟩ => by
      rw [hquiet] at hrecording
      cases hrecording
    rw [hquiet]
    refine (hevict m h.toCoherent hp').mono fun _ m' ⟨hc, hrecorder, hpruned⟩ => ?_
    exact ⟨hc, fun _ => .idle (hrecorder ▸ hstate) (hs.pruned hpruned nofun),
      fun hover => absurd hover hseen⟩
  | @recording rf f hstate hid hs hf hanchor =>
    rw [if_pos (recording_eq_true.mpr hstate), hid]
    dsimp only
    split
    · next hdepends =>
      have hseen : ¬ Overlooks m id := fun ⟨rf', _, hrf', _, hnot⟩ => by
        rw [hid] at hrf'
        cases hrf'
        rw [hdepends] at hnot
        cases hnot
      refine resetRecorder_bind (count_bind ?_)
      have h₁ : Halted p q rf { m with recorder := m.recorder.reset,
                                       stats := m.stats.abort .flushed } :=
        ⟨⟨h.sound, h.limits, h.helpers⟩, hs, rfl⟩
      -- the fragment to be dropped is still there, unless it is the one that was being recorded
      have hlast : ∀ m₂, Coherent p q m₂ → m₂.cache.Subject none → m₂.recorder.state = .idle →
          (∀ f, m.cache.cached? id = some f → ∃ f', m₂.cache.fragment? id = some f' ∧
            (f'.cached = true ∨ Spent f')) →
          Ensures Harmless (evict ()) m₂ fun _ m' => Evicted p q id m m' := by
        intro m₂ hc hs₂ hidle hkept
        refine (hevict m₂ hc fun hp' => ?_).mono fun _ m' ⟨hc', hrecorder, hpruned⟩ => ?_
        · obtain ⟨f, hf⟩ := hp hp'
          exact hkept f hf
        · exact ⟨hc', fun _ => .idle (hrecorder ▸ hidle) (hs₂.pruned hpruned nofun),
            fun hover => absurd hover hseen⟩
      refine fragment_bind fun f' hf' => ?_
      obtain ⟨hf', hrecording⟩ := Subject.cached h₁.subject hf'
      split
      · refine .bind (discard_subject h₁.toCoherent h₁.subject hf') fun _ m₂ ⟨hc, hs₂,
          hrecorder, hpruned, hspent⟩ => ?_
        refine hlast m₂ hc hs₂ (hrecorder ▸ h₁.idle) fun f₀ hf₀ => ?_
        by_cases hsame : id = rf
        · obtain ⟨f'', hf'', hspent⟩ := hspent
          exact ⟨f'', hsame ▸ hf'', .inr hspent⟩
        · have hkept := hpruned.cached hf₀ (beq_eq_false_iff_ne.mpr hsame)
          exact ⟨_, fragment?_of_cached hkept, .inl (cached?_eq_some.mp hkept).2⟩
      · have hopen : f'.state ≠ .compiled := by
          rw [hrecording]
          nofun
        have hnoted : Noted m.cache f' { f' with state := .failed } :=
          noted_open hopen .failed nofun nofun (fun _ => .inl) _ _ _ _
        obtain ⟨hc, hs₂⟩ :=
          h₁.toCoherent.closed h₁.subject hf' (g := ({ · with state := .failed })) hnoted nofun
        refine updateFragment_bind (hlast _ hc hs₂ rfl fun f₀ hf₀ => ?_)
        obtain ⟨f₁, hf₁, -⟩ :=
          (noting_update (g := ({ · with state := .failed }))
            (fragment?_of_cached hf') hnoted).cached hf₀
        exact ⟨f₁, fragment?_of_cached hf₁, .inl (cached?_eq_some.mp hf₁).2⟩
    · next hdepends =>
      rw [Bool.not_eq_true] at hdepends
      refine (hevict m h.toCoherent hp').mono fun _ m' ⟨hc, hrecorder, hpruned⟩ =>
        ⟨hc, fun hseen => ?_, fun hover => ?_⟩
      · have hD : marked (m.cache.dependents id) rf = false := by
          rw [← Bool.not_eq_true]
          exact fun hD => hseen ⟨rf, recording_eq_true.mpr hstate, hid, hD, hdepends⟩
        refine .recording (hrecorder ▸ hstate) (hrecorder ▸ hid) (hs.pruned hpruned fun j hj => ?_)
          (hpruned.cached hf hD) ?_
        · cases hj
          exact hD
        · rw [hrecorder]
          exact hanchor
      · obtain ⟨rf', -, hrf', hD, -⟩ := hover
        refine ⟨hrecorder, fun j hj => ?_⟩
        rw [hj] at hrf'
        cases hrf'
        refine Option.eq_none_iff_forall_ne_some.mpr fun f' hf' => ?_
        obtain ⟨-, -, hkept, -⟩ := hpruned.cached_back hf'
        rw [hD] at hkept
        cases hkept

/-! ### Dropping everything -/

theorem flush_ensures (h : Inv p q m) : Ensures Harmless flush m fun _ m' => Inv p q m' := by
  unfold flush
  refine .get ?_
  extract_lets rest
  have hrest : ∀ m₁, Coherent p q m₁ → m₁.recorder.state = .idle →
      Ensures Harmless (rest ()) m₁ fun _ m' => Inv p q m' := by
    intro m₁ h₁ hidle
    refine .bind (caching_ensures (FragmentCache.flush_ensures h₁.sound)) ?_
    rintro gone _ ⟨c, rfl, hsound, hbackend, hnone⟩
    have h₂ : Inv p q { m₁ with cache := c } :=
      ⟨h₁.recached hsound hbackend, .idle hidle (subject_none hnone)⟩
    exact h₂.still ⟨rfl, rfl, rfl, rfl⟩
  cases h.linked with
  | idle hstate hs =>
    split
    · exact resetRecorder_bind (count_bind (hrest _ ⟨h.sound, h.limits, h.helpers⟩ rfl))
    · exact hrest m h.toCoherent hstate
  | recording hstate hid hs hf hanchor =>
    rw [if_pos (recording_eq_true.mpr hstate)]
    exact resetRecorder_bind (count_bind (hrest _ ⟨h.sound, h.limits, h.helpers⟩ rfl))

end LoopTracer.Monitor
