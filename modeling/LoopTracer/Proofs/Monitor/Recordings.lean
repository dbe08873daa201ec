import LoopTracer.Proofs.Monitor.Dropping

/-! Recordings from their start to their end.

A recording starts for a fragment that is not compiled, goes on as long as the recorder can follow,
and ends with the code of the fragment in use or with a failure. All of this keeps the recorder and
the cache in step (`Inv`). -/
namespace LoopTracer.Monitor

open Trace Compile FragmentCache

variable {m m' : Monitor} {p q : Prop} {id : FragmentId} {f : Fragment}

/-! ### Starting -/

/-- Nothing is being recorded. -/
structure Resting (p q : Prop) (m : Monitor) : Prop extends Coherent p q m where
  subject : m.cache.Subject none
  idle : m.recorder.state = .idle

theorem Resting.inv (h : Resting p q m) : Inv p q m := ⟨h.toCoherent, .idle h.idle h.subject⟩

theorem Inv.resting (h : Inv p q m) (hidle : m.recorder.state = .idle) : Resting p q m := by
  refine ⟨h.toCoherent, ?_, hidle⟩
  cases h.linked with
  | idle _ hs => exact hs
  | recording hstate => exact RecorderState.noConfusion (hidle.symm.trans hstate)

theorem Resting.still (h : Resting p q m) (hs : Still m m') : Resting p q m' :=
  ⟨h.toCoherent.still hs, hs.cache ▸ h.subject, hs.recorder ▸ h.idle⟩

/-- Counters and entry types of a fragment. -/
theorem Resting.counts (h : Resting p q m) (hf : m.cache.cached? id = some f)
    {g : Fragment → Fragment}
    (hg : ∃ entryTypes hits exits attempts, g f = { f with entryTypes, hits, exits, attempts }) :
    Resting p q { m with cache := m.cache.update id g } := by
  obtain ⟨entryTypes, hits, exits, attempts, heq⟩ := hg
  have hnoted : Noted m.cache f (g f) := heq ▸ noted_counts m.cache f entryTypes hits exits attempts
  exact ⟨h.toCoherent.noting (noting_update (fragment?_of_cached hf) hnoted),
    h.subject.update hf (by rw [heq]) (by rw [heq]), h.idle⟩

/-- A new fragment. -/
theorem Resting.grown (h : Resting p q m) {c : FragmentCache} {new : Fragment}
    (hg : Grown id new m.cache c) :
    Resting p q { m with cache := c } ∧ ∃ f, c.cached? id = some f :=
  ⟨⟨h.toCoherent.recached (h.sound.grown hg) hg.backend, h.subject.grown hg, h.idle⟩,
    new, hg.cached_new⟩

theorem findPeer_cached {c : FragmentCache} (ht : Trees c) {root : Fragment}
    (hroot : c.cached? id = some root)
    {types : TypeMap} (h : c.findPeer? root types = some f) : c.cached? f.id = some f := by
  unfold findPeer? at h
  split at h
  · cases h
    rw [ht.numbered (fragment?_of_cached hroot)]
    exact hroot
  · obtain ⟨j, hj, h⟩ := List.exists_of_findSome?_eq_some h
    obtain ⟨hf, -⟩ := Option.filter_eq_some_iff.mp h
    obtain ⟨q', hq', -⟩ := (ht.peers hroot).2 j hj
    rw [fragment?_of_cached hq'] at hf
    cases hf
    rw [ht.numbered (fragment?_of_cached hq')]
    exact hq'

/-- The fragment that counts the runs of a loop is a cached one, unless there is no number for it. -/
theorem candidate_ensures (h : Resting p q m) (key : LoopKey) (types : TypeMap) :
    Ensures Harmless (candidate key types) m fun id m' =>
      id = 0 ∨ Resting p q m' ∧ ∃ f, m'.cache.cached? id = some f := by
  unfold candidate
  have hroot : Ensures Harmless (fun c => .ok (c.getOrCreate key).2.1 (c.getOrCreate key).1)
      m.cache fun id c =>
      id = 0 ∨ (c = m.cache ∧ ∃ f, c.cached? id = some f) ∨ ∃ new, Grown id new m.cache c := by
    show (m.cache.getOrCreate key).2.1 = 0 ∨ _
    rcases getOrCreate_cases h.sound.trees key
      with ⟨id, f, heq, hf, -⟩ | ⟨c', heq⟩ | ⟨c', heq, hgrown⟩
    · rw [heq]
      exact .inr (.inl ⟨rfl, f, hf⟩)
    · rw [heq]
      exact .inl rfl
    · rw [heq]
      exact .inr (.inr ⟨_, hgrown⟩)
  have hroot : Ensures Harmless
      (caching fun c => .ok (c.getOrCreate key).2.1 (c.getOrCreate key).1) m fun id m' =>
      id = 0 ∨ Resting p q m' ∧ ∃ f, m'.cache.cached? id = some f := by
    refine (caching_ensures hroot).mono ?_
    rintro _ _ ⟨c, rfl, hzero | ⟨rfl, hf⟩ | ⟨new, hgrown⟩⟩
    · exact .inl hzero
    · exact .inr ⟨h, hf⟩
    · exact .inr (h.grown hgrown)
  refine .bind hroot fun id m₁ hm₁ => fragment_bind fun root hroot => ?_
  obtain ⟨h₁, f₁, hf₁⟩ := hm₁.resolve_left fun hzero => by
    rw [hzero] at hroot
    exact (fragment?_eq_some.mp hroot).1 rfl
  rw [fragment?_of_cached hf₁] at hroot
  cases hroot
  refine .get ?_
  split
  · next f' hf' => exact .pure (.inr ⟨h₁, f', findPeer_cached h₁.sound.trees hf₁ hf'⟩)
  · split
    · refine updateFragment_bind (.pure (.inr ⟨h₁.counts hf₁ ⟨_, _, _, _, rfl⟩, ?_⟩))
      exact ⟨_, by rw [cached?_update hf₁ rfl, if_pos rfl]⟩
    · have hid := h₁.sound.trees.numbered (fragment?_of_cached hf₁)
      refine (caching_ensures (addPeer_ensures h₁.sound.trees (hid ▸ hf₁) types)).mono ?_
      rintro j _ ⟨c, rfl, hzero | ⟨new, hgrown⟩⟩
      · exact .inl hzero
      · exact .inr (h₁.grown hgrown)

/-- A recording starts, or nothing happens. -/
theorem startRecording_ensures (h : Resting p q m) (hf : m.cache.cached? id = some f)
    (hopen : f.state ≠ .compiled)
    (anchor : Option GuardId) (hanchor : ∀ g, anchor = some g → f.anchor = some g)
    (types : TypeMap) :
    Ensures Harmless (startRecording id types anchor) m fun b m' =>
    if b then Inv p q m' else m' = m := by
  unfold startRecording
  refine fragment_bind fun f' hf' => fragment_bind fun root _ => .get ?_
  rw [fragment?_of_cached hf] at hf'
  cases hf'
  extract_lets anchor'
  split
  · next e he => exact .throw (tame_start he)
  · exact .pure rfl
  · next r hr =>
    have hstarted := start_started hr
    have hkind := (start_ok hr).1
    refine .modify_bind (updateFragment_bind (count_bind (.pure ?_)))
    have hnoted : Noted m.cache f { f with state := .recording } :=
      noted_open hopen .recording nofun nofun (fun _ => .inl) _ _ _ _
    rw [if_pos rfl]
    have hinv : Inv p q { m with recorder := r,
                                 cache := m.cache.update id ({ · with state := .recording }) } := by
      refine ⟨⟨h.sound.noting (noting_update (fragment?_of_cached hf) hnoted), h.limits, h.helpers⟩,
        ?_⟩
      refine .recording hstarted.state ?_ (h.subject.begin hf rfl rfl)
        (f := { f with state := .recording }) ?_ ?_
      · rw [hstarted.fragment, h.sound.trees.numbered (fragment?_of_cached hf)]
      · show (m.cache.update id _).cached? id = _
        rw [cached?_update hf rfl, if_pos rfl]
      · intro hbranch
        -- a branch is recorded for the guard that it starts at
        show r.anchor = f.anchor
        rw [show f.kind = .branch from hbranch, beq_self_eq_true] at hkind
        rw [hstarted.anchor]
        unfold anchor' at hkind ⊢
        cases anchor with
        | none => cases hkind
        | some g =>
          rw [hanchor g rfl]
          cases hg : m.cache.guards[g]? with
          | none => simp [hg] at hkind
          | some r => simp [hg, (h.sound.trees.records hg).1]
    exact hinv.still ⟨rfl, rfl, rfl, rfl⟩

theorem loopEdge_ensures (h : Inv p q m) (key : LoopKey) (types : TypeMap) :
    Ensures Harmless (loopEdge key types) m fun _ m' => Inv p q m' := by
  unfold loopEdge
  refine count_bind (.get ?_)
  replace h : Inv p q { m with stats := { m.stats with loopEdges := m.stats.loopEdges + 1 } } :=
    h.still ⟨rfl, rfl, rfl, rfl⟩
  generalize { m with stats := { m.stats with loopEdges := m.stats.loopEdges + 1 } } = m at h ⊢
  split
  · exact .pure h
  · next hready =>
    have hidle : m.recorder.state = .idle := by
      simp only [Bool.or_eq_true, decide_eq_true_eq, not_or] at hready
      exact Classical.not_not.mp hready.2
    split
    · exact .pure h
    · refine .bind (candidate_ensures (h.resting hidle) key types) fun id m₁ hm₁ =>
        fragment_bind fun f hf => ?_
      obtain ⟨h₁, f', hf'⟩ := hm₁.resolve_left fun hzero => by
        rw [hzero] at hf
        exact (fragment?_eq_some.mp hf).1 rfl
      rw [fragment?_of_cached hf'] at hf
      cases hf
      split
      · exact .pure h₁.inv
      · next hstate =>
        have hopen : f.state ≠ .compiled := fun hcompiled => by simp [hcompiled] at hstate
        have h₂ := h₁.counts hf' (g := fun f => { f with hits := f.hits + 1 }) ⟨_, _, _, _, rfl⟩
        refine updateFragment_bind (.get ?_)
        split
        · exact .pure h₂.inv
        · have hf₂ : (m₁.cache.update id fun f => { f with hits := f.hits + 1 }).cached? id =
              some { f with hits := f.hits + 1 } := by rw [cached?_update hf' rfl, if_pos rfl]
          refine (startRecording_ensures h₂ hf₂ hopen none nofun types).mono fun b m' hm' => ?_
          cases b with
          | true => exact hm'
          | false => exact hm' ▸ h₂.inv

/-! ### Recording -/

theorem Linked.same (h : Linked m) {V : Immediate → Prop} {r : Recorder}
    (hs : Same V m.recorder r) : Linked { m with recorder := r } := by
  cases h with
  | idle hstate hsubject => exact .idle (hs.state.trans hstate) hsubject
  | recording hstate hid hsubject hf hanchor =>
    exact .recording (hs.state.trans hstate) (hs.fragment.trans hid) hsubject hf fun hkind =>
      hs.anchor.trans (hanchor hkind)

/-- The recorder has given up. -/
theorem Coherent.halted (h : Coherent p q m) (hs : m.cache.Subject (some id)) {r : Recorder}
    (hr : r.state = .idle) :
    Halted p q id { m with recorder := r } := ⟨⟨h.sound, h.limits, h.helpers⟩, hs, hr⟩

/-- An operation of the recorder: if it gives up, the recording has failed. -/
theorem onRecorder_ensures {α : Type} {x : Recording α} {P : α → Recorder → Prop} (h : Inv p q m)
    (hx : Ensures (Stopped m.recorder) x m.recorder P) :
    Ensures Harmless (onRecorder x) m fun r m' => match r with
      | .ok a => ∃ r, m' = { m with recorder := r } ∧ P a r
      | .error _ => Inv p q m' := by
  unfold onRecorder
  refine .get (.get ?_)
  extract_lets anchor step
  cases hr : x m.recorder with
  | ok a r =>
    have hstep : step m = .ok (.ok a) { m with recorder := r } := by simp only [step, hr]
    refine .bind (Q := fun y m' => y = .ok a ∧ m' = { m with recorder := r })
      ((ensures_ok hstep).mpr ⟨rfl, rfl⟩) ?_
    rintro _ _ ⟨rfl, rfl⟩
    exact .pure ⟨r, rfl, (ensures_ok hr).mp hx⟩
  | error e r =>
    have hstep : step m = .ok (.error e) { m with recorder := r } := by simp only [step, hr]
    have hstopped := (ensures_error hr).mp hx
    refine .bind (Q := fun y m' => y = .error e ∧ m' = { m with recorder := r })
      ((ensures_ok hstep).mpr ⟨rfl, rfl⟩) ?_
    rintro _ _ ⟨rfl, rfl⟩
    cases e with
    | notRecording =>
      obtain ⟨rfl, -⟩ := hstopped
      exact .pure h
    | fault f => exact .throw hstopped
    | abort a =>
      obtain ⟨-, hstate, r₁, -, rfl⟩ := hstopped
      cases h.linked with
      | idle hidle => exact RecorderState.noConfusion (hstate.symm.trans hidle)
      | @recording j f _ hid hs hf hanchor =>
        rw [hid]
        refine .bind (recordingFailed_ensures (h.toCoherent.halted hs rfl) _ _) fun _ m' hm' => ?_
        exact .pure hm'

theorem record_ensures (h : Inv p q m) (x : Primitive) :
    Ensures Harmless (record x) m fun _ m' => Inv p q m' := by
  unfold record
  refine .get
    ((onRecorder_ensures h
      (Trace.record_ensures (V := fun _ => True) _ _ _ fun _ _ _ _ => trivial)).mono
    fun r m' hm' => ?_)
  cases r with
  | error e => exact hm'
  | ok _ =>
    obtain ⟨r, rfl, hsame, -⟩ := hm'
    exact ⟨⟨h.sound, h.limits, h.helpers⟩, h.linked.same hsame⟩

theorem abortRecording_ensures (h : Inv p q m) (a : Abort) :
    Ensures Harmless (abortRecording a) m fun _ m' => Inv p q m' := by
  unfold abortRecording
  refine .get ?_
  cases h.linked with
  | idle hidle hs =>
    have hquiet : m.recording = false := by
      rw [← Bool.not_eq_true, recording_eq_true, hidle]
      nofun
    rw [hquiet]
    exact .pure h
  | @recording j f hstate hid hs hf hanchor =>
    rw [if_pos (recording_eq_true.mpr hstate), hid]
    exact resetRecorder_bind (recordingFailed_ensures (h.toCoherent.halted hs rfl) _ _)

/-! ### The end of a recording -/

/-- A recording that is finished, and whose code is to be made or was just made. -/
structure Closing (p q : Prop) (id : FragmentId) (f : Fragment) (m : Monitor) :
    Prop extends Coherent p q m where
  subject : m.cache.Subject (some id)
  committing : m.recorder.state = .committing
  cached : m.cache.cached? id = some f

theorem outOfSpace_ensures (h : Inv p q m) (key : LoopKey) :
    Ensures Harmless (outOfSpace key) m fun _ m' => Inv p q m' := by
  unfold outOfSpace
  refine .modify_bind (.get ?_)
  have h₁ : Inv p q
      { m with spaceFailures := m.spaceFailures.alter key fun n => some (n.getD 0 + 1) } :=
    h.still ⟨rfl, rfl, rfl, rfl⟩
  generalize { m with spaceFailures := m.spaceFailures.alter key fun n => some (n.getD 0 + 1) } =
    m₁ at h₁ ⊢
  split
  · exact count_bind (flush_ensures (h₁.still ⟨rfl, rfl, rfl, rfl⟩))
  · exact flush_ensures h₁

/-- The trace of a fragment is compiled, or the cache is as before but for the table of exits. -/
theorem assembleFragment_ensures (h : Closing p q id f m) 
    (hends : f.kind = .branch → (∃ t, f.treeTarget = some t) ∧
      ∃ buffer, f.trace = some buffer ∧ buffer.insts.back?.any (·.op == .jumpTree) = true) :
    Ensures Harmless (assembleFragment f) m fun r m' => match r with
      | .ok a => ∃ c, m' = { m
        with cache := c } ∧ Ensures Harmless (FragmentCache.install id a) c fun _ c' =>
          c'.Sound p q ∧ ∃ shop r, Installed id a r (m.cache.rebased shop) c'
      | .error _ => Closing p q id f m' := by
  unfold Ensures assembleFragment
  dsimp only
  have hopen : f.state ≠ .compiled := by
    rw [(Subject.cached h.subject (fragment?_of_cached h.cached)).2]
    nofun
  cases hr : m.cache.assemble m.limits m.helpers f with
  | ok a c => exact ⟨c, rfl, install_sound h.sound h.cached hopen h.limits hends hr⟩
  | error e c =>
    rcases assemble_failed h.sound hr with ⟨fault, rfl, htame⟩ | ⟨hnot, hsound, shop, rfl⟩
    · exact htame
    · have hclosing : Closing p q id f { m with cache := m.cache.rebased shop } :=
        ⟨h.toCoherent.recached hsound rfl, h.subject.congr rfl, h.committing, h.cached⟩
      cases e with
      | fault fault => exact absurd rfl (hnot fault)
      | _ => exact hclosing

/-- The code is put into use, and a branch is entered from its guard from now on. -/
theorem installAssembly_ensures (h : Closing p q id f m) {f₀ : Fragment} (hid : f₀.id = id)
    (hkind : f₀.kind = f.kind)
    {anchor : Option GuardId} (hanchor : f.kind = .branch → anchor = f.anchor) {a : Assembly}
    {c : FragmentCache}
    (hinstall : Ensures Harmless (FragmentCache.install id a) c fun _ c' =>
      c'.Sound p q ∧ ∃ shop r, Installed id a r (m.cache.rebased shop) c') :
    Ensures Harmless (installAssembly f₀ anchor a) { m with cache := c } fun _ m' => Inv p q m' ∧
      ∃ f', m'.cache.cached? id = some f' ∧ f'.state = .compiled := by
  subst hid
  unfold installAssembly
  refine .bind (caching_ensures hinstall) ?_
  rintro _ _ ⟨c₁, rfl, hsound, shop, r, hinstalled⟩
  refine .get ?_
  rw [commit_committing h.committing]
  refine .modify_bind (count_bind ?_)
  have hsubject : (m.cache.rebased shop).Subject (some f₀.id) := h.subject.congr rfl
  have hrest : ∀ stats, Resting p q { m with cache := c₁, recorder := m.recorder.reset, stats } :=
    fun stats =>
    ⟨⟨hsound, h.limits.trans hinstalled.backend.symm, h.helpers⟩,
      hsubject.installed hinstalled, rfl⟩
  have hcached : c₁.cached? f₀.id = some (equip a f) := hinstalled.cached_self h.cached
  split
  · exact ⟨(hrest _).inv, _, hcached, rfl⟩
  · exact ⟨(hrest _).inv, _, hcached, rfl⟩
  · next hbranch =>
    rw [hkind] at hbranch
    refine count_bind ?_
    rw [hanchor hbranch]
    split
    · exact .throw fun _ _ h => by cases h
    · next g hg =>
      refine guard_bind fun r hr => fragment_bind fun f' hf' => ?_
      have hsame : c₁.fragment? f₀.id = some f' := hf'
      rw [fragment?_of_cached hcached] at hsame
      cases hsame
      refine .bind (caching_ensures (promote_ensures hsound hcached hbranch hg hr)) ?_
      rintro _ _ ⟨c₂, rfl, hsound₂, hbackend, hfragments⟩
      have hend : Resting p q { m with cache := c₂, recorder := m.recorder.reset } :=
        ⟨⟨hsound₂, ((hrest m.stats).limits).trans hbackend.symm, h.helpers⟩,
          (hrest m.stats).subject.congr hfragments, rfl⟩
      refine count_ensures ⟨hend.inv.still ⟨rfl, rfl, rfl, rfl⟩, equip a f, ?_, rfl⟩
      show c₂.cached? f₀.id = _
      rw [cached?, fragment?, hfragments]
      exact hcached

/-- The finished trace is given to the fragment. -/
theorem Closing.attach (h : Coherent p q m) (hs : m.cache.Subject (some id))
    (hf : m.cache.cached? id = some f)
    {r : Recorder} (hr : r.state = .committing) (buffer : Buffer) {target : Option FragmentId}
    (htarget : ∀ t, target = some t → ∃ q, m.cache.cached? t = some q ∧ q.state = .compiled) :
    Closing p q id { f with trace := some buffer, exitBase := m.cache.exits.size,
                            treeTarget := target }
      { m with recorder := r, cache := m.cache.attachTrace id buffer target } := by
  let g : Fragment → Fragment :=
    ({ · with trace := some buffer, exitBase := m.cache.exits.size, treeTarget := target })
  obtain ⟨exits, heq⟩ : ∃ exits, m.cache.attachTrace id buffer target =
    { m.cache.update id g with exits } := ⟨_, rfl⟩
  rw [heq]
  have hstate := (Subject.cached hs (fragment?_of_cached hf)).2
  have hopen : f.state ≠ .compiled := by
    rw [hstate]
    nofun
  have hrecording : Noted m.cache f (g f) :=
    noted_open hopen f.state hopen (by rw [hstate]; nofun) (fun t ht => .inr (htarget t ht)) _ _ _ _
  have hn := noting_update (g := g) (fragment?_of_cached hf) hrecording
  refine ⟨⟨h.sound.noting (hn.exits exits), h.limits, h.helpers⟩,
    (hs.update (g := g) hf rfl rfl).congr rfl, hr, ?_⟩
  show (m.cache.update id g).cached? id = _
  rw [cached?_update (g := g) hf rfl, if_pos rfl]

/-- A trace that could not be compiled is taken away again, and the recording has failed. -/
theorem Closing.detach (h : Closing p q id f m) {r : Recorder} (hr : r.state = .idle) :
    Halted p q id { m with recorder := r,
                           cache := m.cache.update id
                               ({ · with trace := none, treeTarget := none }) } := by
  have hstate := (Subject.cached h.subject (fragment?_of_cached h.cached)).2
  have hopen : f.state ≠ .compiled := by
    rw [hstate]
    nofun
  have hnoted : Noted m.cache f { f with trace := none, treeTarget := none } :=
    noted_open hopen f.state hopen (by rw [hstate]; nofun) (fun _ ht => by cases ht) _ _ _ _
  exact ⟨⟨h.sound.noting (noting_update (fragment?_of_cached h.cached) hnoted),
    h.limits, h.helpers⟩,
    h.subject.update h.cached rfl rfl, hr⟩

/-- A recording ends with its code in use, or with a failure. -/
theorem endRecording_ensures (h : Inv p q m) (stop : TypeMap) :
    Ensures Harmless (endRecording stop) m fun r m' => Inv p q m' ∧ (r = .ok () → ∃ id f',
      m.recorder.fragment = some id ∧ m'.cache.cached? id = some f' ∧ f'.state = .compiled) := by
  unfold endRecording
  refine .get ?_
  cases h.linked with
  | idle hidle hs =>
    have hquiet : m.recording = false := by
      rw [← Bool.not_eq_true, recording_eq_true, hidle]
      nofun
    rw [hquiet]
    exact .pure ⟨h, nofun⟩
  | @recording id f hstate hid hs hf hanchor =>
    rw [recording_eq_true.mpr hstate, hid]
    refine fragment_bind fun f' hf' => ?_
    rw [fragment?_of_cached hf] at hf'
    cases hf'
    extract_lets rest
    have hrest : ∀ target : Option Fragment,
      (∀ t, target = some t → m.cache.cached? t.id = some t ∧ t.state = .compiled) →
        Ensures Harmless (rest target) m fun r m' => Inv p q m' ∧ (r = .ok () → ∃ id' f',
          some id = some id' ∧ m'.cache.cached? id' = some f' ∧ f'.state = .compiled) := by
      intro target htarget
      refine .bind (onRecorder_ensures h (finish_ensures f stop target m.recorder)) fun r m₁ hm₁ =>
        ?_
      cases r with
      | error e => exact .pure ⟨hm₁, nofun⟩
      | ok buffer =>
        obtain ⟨r, rfl, hfinished⟩ := hm₁
        refine updateCache_bind (fragment_bind fun f₁ hf₁ => ?_)
        have h₁ : Closing p q id _
            { m with recorder := r, cache := m.cache.attachTrace id buffer (target.map (·.id)) } :=
          .attach h.toCoherent hs hf hfinished.state buffer fun t ht => by
            obtain ⟨q', hq', rfl⟩ := Option.map_eq_some_iff.mp ht
            exact ⟨q', htarget q' hq'⟩
        have hsame := fragment?_of_cached h₁.cached
        rw [hf₁] at hsame
        obtain rfl := Option.some.inj hsame
        refine .bind (assembleFragment_ensures h₁ fun hkind => ?_) fun result m₂ hm₂ => ?_
        · obtain ⟨hsome, hback⟩ := hfinished.branch hkind
          obtain ⟨t, rfl⟩ := Option.isSome_iff_exists.mp hsome
          exact ⟨⟨t.id, rfl⟩, buffer, rfl, hback⟩
        cases result with
        | ok a =>
          obtain ⟨c, rfl, hinstall⟩ := hm₂
          refine .bind (installAssembly_ensures h₁
            (h.sound.trees.numbered (fragment?_of_cached hf)) rfl hanchor hinstall)
            fun _ m₃ ⟨h₃, f', hf', hstate'⟩ => .pure ⟨h₃, fun _ => ⟨id, f', rfl, hf', hstate'⟩⟩
        | error e =>
          refine count_bind (updateFragment_bind (resetRecorder_bind ?_))
          have h₂ : Closing p q id _
              { m₂ with stats := { m₂.stats
                with assemblyFailures := m₂.stats.assemblyFailures + 1 } } :=
            ⟨hm₂.toCoherent.still ⟨rfl, rfl, rfl, rfl⟩, hm₂.subject, hm₂.committing, hm₂.cached⟩
          refine .bind (recordingFailed_ensures (h₂.detach rfl) _ _) fun _ m₃ h₃ => ?_
          dsimp only
          split
          · exact fragment_bind fun root _ =>
              .bind (outOfSpace_ensures h₃ _) fun _ m₄ h₄ => .pure ⟨h₄, nofun⟩
          · exact .pure ⟨h₃, nofun⟩
    clear_value rest
    split
    · refine fragment_bind fun root hroot => .get (.pure_bind (hrest _ fun t ht => ?_))
      obtain ⟨r, hr, -⟩ := h.sound.trees.root hf
      rw [fragment?_of_cached hr] at hroot
      cases hroot
      obtain ⟨ht, hexec⟩ := Option.filter_eq_some_iff.mp ht
      exact ⟨findPeer_cached h.sound.trees hr ht, by simpa [Fragment.executable] using hexec⟩
    · exact .pure_bind (hrest none fun t ht => by cases ht)

end LoopTracer.Monitor
