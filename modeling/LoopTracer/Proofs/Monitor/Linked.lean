import LoopTracer.Monitor.Basic
import LoopTracer.Proofs.Fragment.Eviction
import LoopTracer.Proofs.Fragment.Wiring
import LoopTracer.Proofs.Trace.Recorders

/-! The monitor's recorder and its cache.

The fragment that is being recorded is marked as such in the cache, and no other one is (`Subject`).
Between two operations of the monitor the recorder is idle and no fragment is marked, or it records
the marked one, a branch for the guard where the branch starts (`Linked`). The cache itself is in
order throughout an operation (`Coherent`). -/
namespace LoopTracer

open Trace Compile

namespace FragmentCache

variable {c c' : FragmentCache} {id n : FragmentId} {f f' new : Fragment} {s : Option FragmentId}
  {D : FragmentId → Bool}

/-- `s` is the fragment being recorded, if there is one. -/
structure Subject (c : FragmentCache) (s : Option FragmentId) : Prop where
  there : ∀ {id}, s = some id → ∃ f, c.cached? id = some f ∧ f.state = .recording
  only : ∀ {id f}, c.cached? id = some f → f.state = .recording → s = some id

theorem subject_none (h : ∀ id, c.cached? id = none) : Subject c none :=
  ⟨nofun, fun hf => by rw [h] at hf; cases hf⟩

theorem Subject.congr (h : Subject c s)
    (hfragments : c'.fragments = c.fragments) : Subject c' s := by
  have hcached : ∀ id, c'.cached? id = c.cached? id := fun id => by
    rw [cached?, cached?, fragment?, fragment?, hfragments]
  refine ⟨fun hid => ?_, fun hf => ?_⟩
  · rw [hcached]
    exact h.there hid
  · rw [hcached] at hf
    exact h.only hf

/-- The cached fragments after a change of one. -/
theorem cached?_update (hf : c.cached? id = some f) {g : Fragment → Fragment}
    (hg : (g f).cached = f.cached)
    (j : FragmentId) : (c.update id g).cached? j = if j = id then some (g f) else c.cached? j := by
  obtain ⟨hf, hcached⟩ := cached?_eq_some.mp hf
  rw [cached?, fragment?_update (fragment?_eq_some.mp hf).1]
  split
  · next hj =>
    subst hj
    rw [hf, Option.map_some, Option.filter_some, if_pos (hg.trans hcached)]
  · rfl

theorem Subject.update (h : Subject c s) (hf : c.cached? id = some f) {g : Fragment → Fragment}
    (hg : (g f).cached = f.cached) (hstate : (g f).state = f.state) :
    Subject (c.update id g) s := by
  refine ⟨fun {j} hj => ?_, fun {j q} hq hrecording => ?_⟩
  · obtain ⟨q, hq, hrecording⟩ := h.there hj
    rw [cached?_update hf hg]
    split
    · next heq =>
      subst heq
      rw [hf] at hq
      cases hq
      exact ⟨_, rfl, hstate.trans hrecording⟩
    · exact ⟨q, hq, hrecording⟩
  · rw [cached?_update hf hg] at hq
    split at hq
    · next heq =>
      subst heq
      cases hq
      exact h.only hf (hstate.symm.trans hrecording)
    · exact h.only hq hrecording

/-- Recording begins. -/
theorem Subject.begin (h : Subject c none) (hf : c.cached? id = some f) {g : Fragment → Fragment}
    (hg : (g f).cached = f.cached) (hstate : (g f).state = .recording) :
    Subject (c.update id g) (some id) := by
  refine ⟨fun {j} hj => ?_, fun {j q} hq hrecording => ?_⟩
  · cases hj
    exact ⟨g f, by rw [cached?_update hf hg, if_pos rfl], hstate⟩
  · rw [cached?_update hf hg] at hq
    split at hq
    · next heq => exact congrArg some heq.symm
    · cases h.only hq hrecording

/-- Recording ends. -/
theorem Subject.finish (h : Subject c (some id)) (hf : c.cached? id = some f)
    {g : Fragment → Fragment}
    (hg : (g f).cached = f.cached) (hstate : (g f).state ≠ .recording) :
    Subject (c.update id g) none := by
  refine ⟨nofun, fun {j q} hq hrecording => ?_⟩
  rw [cached?_update hf hg] at hq
  split at hq
  · cases hq
    exact absurd hrecording hstate
  · next hne => exact absurd (Option.some.inj (h.only hq hrecording)).symm hne

theorem Subject.installed {a : Assembly} {r : CodePages} (h : Subject c (some id))
    (hi : Installed id a r c c') :
    Subject c' none := by
  refine ⟨nofun, fun {j q} hq hrecording => ?_⟩
  by_cases hj : j = id
  · subst hj
    obtain ⟨f, hf, -⟩ := h.there rfl
    rw [hi.cached_self hf] at hq
    cases hq
    cases hrecording
  · rw [hi.cached_other hj] at hq
    exact absurd (Option.some.inj (h.only hq hrecording)).symm hj

theorem Subject.grown (h : Subject c s) (hg : Grown n new c c') : Subject c' s := by
  refine ⟨fun hid => ?_, fun hf hrecording => ?_⟩
  · obtain ⟨f, hf, hrecording⟩ := h.there hid
    exact ⟨_, hg.cached hf, hrecording⟩
  · rcases hg.cached_back hf with ⟨-, rfl⟩ | ⟨f, hf₀, rfl⟩
    · obtain ⟨_, _, _, _, _, _, rfl⟩ := hg.sprout.blank
      cases hrecording
    · exact h.only hf₀ hrecording

/-- Other fragments go. -/
theorem Subject.pruned (h : Subject c s) (hp : Pruned D c c')
    (hD : ∀ id, s = some id → D id = false) : Subject c' s := by
  refine ⟨fun hid => ?_, fun hf hrecording => ?_⟩
  · obtain ⟨f, hf, hrecording⟩ := h.there hid
    exact ⟨_, hp.cached hf (hD _ hid), hrecording⟩
  · obtain ⟨f, hf₀, -, rfl⟩ := hp.cached_back hf
    exact h.only hf₀ hrecording

/-- The fragment itself goes. -/
theorem Subject.dropped (h : Subject c (some id)) (hp : Pruned D c c')
    (hD : D id = true) : Subject c' none := by
  refine ⟨nofun, fun hf hrecording => ?_⟩
  obtain ⟨f, hf₀, hkept, rfl⟩ := hp.cached_back hf
  cases h.only hf₀ hrecording
  rw [hD] at hkept
  cases hkept

end FragmentCache

namespace Monitor

variable {m m' : Monitor} {p q : Prop} {id : FragmentId}

/-- What holds of a monitor throughout an operation. -/
structure Coherent (p q : Prop) (m : Monitor) : Prop where
  sound : m.cache.Sound p q
  limits : m.limits.backend = m.cache.backend
  helpers : m.helpers = .standard

/-- The recorder and the cache agree on what is being recorded. -/
inductive Linked (m : Monitor) : Prop where
  | idle (hstate : m.recorder.state = .idle) (hs : m.cache.Subject none)
  | recording {id : FragmentId} {f : Fragment} (hstate : m.recorder.state = .recording)
      (hid : m.recorder.fragment = some id) (hs : m.cache.Subject (some id))
      (hf : m.cache.cached? id = some f)
      (hanchor : f.kind = .branch → m.recorder.anchor = f.anchor)

/-- What holds of a monitor between its operations. -/
structure Inv (p q : Prop) (m : Monitor) : Prop extends Coherent p q m where
  linked : Linked m

theorem recording_eq_true : m.recording = true ↔ m.recorder.state = .recording := by
  rw [recording, Recorder.isRecording, beq_iff_eq]

/-- The cache and the recorder of a monitor are not touched. -/
structure Still (m m' : Monitor) : Prop where
  cache : m'.cache = m.cache
  recorder : m'.recorder = m.recorder
  limits : m'.limits = m.limits
  helpers : m'.helpers = m.helpers

theorem Coherent.still (h : Coherent p q m) (hs : Still m m') : Coherent p q m' where
  sound := hs.cache ▸ h.sound
  limits := by rw [hs.limits, hs.cache, h.limits]
  helpers := hs.helpers.trans h.helpers

theorem Linked.still (h : Linked m) (hs : Still m m') : Linked m' := by
  cases h with
  | idle hstate hsubject => exact .idle (by rw [hs.recorder, hstate]) (hs.cache ▸ hsubject)
  | recording hstate hid hsubject hf hanchor =>
    exact .recording (by rw [hs.recorder, hstate]) (by rw [hs.recorder, hid])
      (hs.cache ▸ hsubject) (hs.cache ▸ hf)
      (by rw [hs.recorder]; exact hanchor)

theorem Inv.still (h : Inv p q m) (hs : Still m m') : Inv p q m' :=
  ⟨h.toCoherent.still hs, h.linked.still hs⟩

/-- Another cache in its place. -/
theorem Coherent.recached (h : Coherent p q m) {c : FragmentCache} (hs : c.Sound p q)
    (hb : c.backend = m.cache.backend) :
    Coherent p q { m with cache := c } := ⟨hs, h.limits.trans hb.symm, h.helpers⟩

/-- Something was noted that has nothing to do with the recording. -/
theorem Inv.recached (h : Inv p q m) {c : FragmentCache} (hs : c.Sound p q)
    (hb : c.backend = m.cache.backend)
    (hsubject : ∀ s, m.cache.Subject s → c.Subject s)
    (hkept : ∀ {id f}, m.cache.cached? id = some f →
      ∃ f', c.cached? id = some f' ∧ f'.kind = f.kind ∧ f'.anchor = f.anchor) :
    Inv p q { m with cache := c } := by
  refine ⟨h.toCoherent.recached hs hb, ?_⟩
  cases h.linked with
  | idle hstate hnone => exact .idle hstate (hsubject _ hnone)
  | recording hstate hid hsome hf hanchor =>
    obtain ⟨f', hf', hkind, hanchor'⟩ := hkept hf
    exact .recording hstate hid (hsubject _ hsome) hf' fun hbranch =>
      (hanchor (hkind ▸ hbranch)).trans hanchor'.symm

/-! ### Parts of operations -/

variable {α β : Type} {Q : β → Monitor → Prop} {E : Fault → Monitor → Prop}

theorem caching_ensures {x : Caching α} {P : α → FragmentCache → Prop}
    (h : Ensures Harmless x m.cache P) :
    Ensures Harmless (caching x) m fun a m' => ∃ c, m' = { m with cache := c } ∧ P a c := by
  unfold Ensures caching
  dsimp only
  cases hx : x m.cache with
  | ok a c => exact ⟨c, rfl, (ensures_ok hx).mp h⟩
  | error f c => exact (ensures_error hx).mp h

/-- The same, whatever may stop it. -/
theorem caching_anyhow {x : Caching α} {P : α → Monitor → Prop}
    (h : ∀ a c, x m.cache = .ok a c → P a { m with cache := c }) :
    Ensures Anyhow (caching x) m P := by
  unfold Ensures caching
  dsimp only
  cases hx : x m.cache with
  | ok a c => exact h a c hx
  | error f c => trivial

theorem caching_bind {x : Caching α} {k : α → Monitoring β}
    (h : ∀ a c, x m.cache = .ok a c → Ensures Anyhow (k a) { m with cache := c } Q) :
    Ensures Anyhow (caching x >>= k) m Q :=
  .bind (Q := fun a m' => Ensures Anyhow (k a) m' Q) (caching_anyhow h) fun _ _ h => h

theorem fragment_some {f : Fragment}
    (h : m.cache.fragment? id = some f) : fragment id m = .ok f m := by
  unfold fragment
  rw [bind_ok (show (get : Monitoring Monitor) m = .ok m m from rfl), h]
  rfl

theorem fragment_none (h : m.cache.fragment? id = none) : fragment id m = .error .bounds m := by
  unfold fragment
  rw [bind_ok (show (get : Monitoring Monitor) m = .ok m m from rfl), h]
  rfl

theorem fragment_bind [Lenient E] {k : Fragment → Monitoring β}
    (h : ∀ f, m.cache.fragment? id = some f → Ensures E (k f) m Q) :
    Ensures E (fragment id >>= k) m Q := by
  cases hf : m.cache.fragment? id with
  | none => exact (ensures_error (bind_error (fragment_none hf))).mpr (Lenient.bounds m)
  | some f =>
    have hk := h f hf
    unfold Ensures at hk ⊢
    rwa [bind_ok (fragment_some hf)]

theorem guard_bind [Lenient E] {g : GuardId} {k : Guard → Monitoring β}
    (h : ∀ r, m.cache.guards[g]? = some r → Ensures E (k r) m Q) :
    Ensures E (guard g >>= k) m Q := by
  refine .bind (Q := fun r m' => m' = m ∧ m.cache.guards[g]? = some r) ?_ ?_
  · unfold guard
    refine .get ?_
    split
    · next hr => exact .pure ⟨rfl, hr⟩
    · exact .throw (Lenient.bounds m)
  · rintro r _ ⟨rfl, hr⟩
    exact h r hr

theorem count_bind {f : Stats → Stats} {k : Unit → Monitoring β}
    (h : Ensures E (k ()) { m with stats := f m.stats } Q) : Ensures E (count f >>= k) m Q := h

theorem count_ensures {f : Stats → Stats} {Q : Unit → Monitor → Prop}
    (h : Q () { m with stats := f m.stats }) :
    Ensures E (count f) m Q := h

theorem updateCache_bind {f : FragmentCache → FragmentCache} {k : Unit → Monitoring β}
    (h : Ensures E (k ()) { m with cache := f m.cache } Q) :
    Ensures E (updateCache f >>= k) m Q := h

theorem updateFragment_bind {f : Fragment → Fragment} {k : Unit → Monitoring β}
    (h : Ensures E (k ()) { m with cache := m.cache.update id f } Q) :
    Ensures E (updateFragment id f >>= k) m Q := h

theorem resetRecorder_bind {k : Unit → Monitoring β}
    (h : Ensures E (k ()) { m with recorder := m.recorder.reset } Q) :
    Ensures E (resetRecorder >>= k) m Q := h

end Monitor

end LoopTracer
