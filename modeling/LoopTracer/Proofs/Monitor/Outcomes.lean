import LoopTracer.Proofs.Monitor.Linked

/-! What the operations of a monitor do when they succeed.

Each operation is opened once, and what it can have done is listed: which parts of the monitor it has
replaced, and by what. Nothing is assumed of the monitor. -/
namespace LoopTracer.Monitor

open Trace Compile FragmentCache

variable {m m' : Monitor} {id : FragmentId} {f : Fragment}

/-! ### Exits -/

/-- Exit number `n` is counted; what it is and where its values are does not change. -/
structure Counted (n : Nat) (x x' : Array ExitRecord) : Prop where
  size : x'.size = x.size
  others : ∀ k, k ≠ n → x'[k]? = x[k]?
  record : ∀ e', x'[n]? = some e' → ∃ e hits attempts blacklisted, x[n]? = some e ∧
    e' = { e with hits, attempts, blacklisted }

theorem counted_modify (n : Nat) (x : Array ExitRecord) {g : ExitRecord → ExitRecord}
    (hg : ∀ e, ∃ hits attempts blacklisted, g e = { e with hits, attempts, blacklisted }) :
    Counted n x (x.modify n g) := by
  refine ⟨by simp, fun k hk => ?_, fun e' he' => ?_⟩
  · rw [Array.getElem?_modify, if_neg (Ne.symm hk)]
  · rw [Array.getElem?_modify, if_pos rfl] at he'
    obtain ⟨e, he, rfl⟩ := Option.map_eq_some_iff.mp he'
    obtain ⟨hits, attempts, blacklisted, heq⟩ := hg e
    exact ⟨e, hits, attempts, blacklisted, he, heq⟩

theorem Counted.trans {n : Nat} {x x' x'' : Array ExitRecord} (h : Counted n x x')
    (h' : Counted n x' x'') :
    Counted n x x'' := by
  refine ⟨h'.size.trans h.size, fun k hk => (h'.others k hk).trans (h.others k hk),
    fun e'' he'' => ?_⟩
  obtain ⟨e', _, _, _, he', rfl⟩ := h'.record e'' he''
  obtain ⟨e, _, _, _, he, rfl⟩ := h.record e' he'
  exact ⟨e, _, _, _, he, rfl⟩

/-! ### Recordings -/

/-- A recording begins for a fragment. -/
structure Begun (id : FragmentId) (types : TypeMap) (anchor : Option GuardId)
    (m m' : Monitor) : Prop where
  begins : ∃ f root r stats, m.cache.fragment? id = some f ∧ m.cache.fragment? f.root = some root ∧
    m.recorder.start f root.types types
      ((anchor.bind fun g => m.cache.guards[g]?).map fun g => (g, m.cache.exitOf g)) = .ok r ∧
    m' = { m with recorder := r,
                  cache := m.cache.update id ({ · with state := .recording }), stats }

theorem startRecording_begins (types : TypeMap) (anchor : Option GuardId) :
    Ensures Anyhow (startRecording id types anchor) m fun b m' =>
    if b then Begun id types anchor m m' else m' = m := by
  unfold startRecording
  refine fragment_bind fun f hf => fragment_bind fun root hroot => .get ?_
  extract_lets anchor'
  split
  · exact .throw trivial
  · exact .pure rfl
  · next r hr =>
    refine .modify_bind (updateFragment_bind (count_bind (.pure ?_)))
    exact ⟨f, root, r, _, hf, hroot, hr, rfl⟩

/-- An exit after one more attempt to record from it has failed. -/
def flunked (config : Config) (e : ExitRecord) : ExitRecord :=
  let e := { e with attempts := e.attempts + 1, hits := 0 }
  if config.maxBranchAttempts ≤ e.attempts then { e with blacklisted := true } else e

theorem counted_flunked (config : Config) (n : Nat) (x : Array ExitRecord) :
    Counted n x (x.modify n (flunked config)) := by
  refine counted_modify n x fun e => ?_
  unfold flunked
  dsimp only
  split
  · exact ⟨_, _, _, rfl⟩
  · exact ⟨_, _, _, rfl⟩

section flunked

variable {config : Config} {n : Nat} {x : Array ExitRecord}

theorem flunked_banned (hlast : config.maxBranchAttempts ≤
      (((x.modify n fun e => { e with attempts := e.attempts + 1, hits := 0 })[n]?.getD
        default).attempts : Nat)) :
    ((x.modify n fun e => { e with attempts := e.attempts + 1, hits := 0 }).modify n
      ({ · with blacklisted := true })) =
      x.modify n (flunked config) := by
  refine Array.ext_getElem? fun k => ?_
  rw [Array.getElem?_modify, if_pos rfl] at hlast
  rw [Array.getElem?_modify, Array.getElem?_modify, Array.getElem?_modify]
  split
  · next hk =>
    subst hk
    cases he : x[n]? with
    | none => rfl
    | some e =>
      rw [he, Option.map_some, Option.getD_some] at hlast
      simp only [Option.map_some, flunked]
      rw [if_pos hlast]
  · rfl

theorem flunked_open (hmore : ¬ config.maxBranchAttempts ≤
      (((x.modify n fun e => { e with attempts := e.attempts + 1, hits := 0 })[n]?.getD
        default).attempts : Nat)) :
    (x.modify n fun e => { e with attempts := e.attempts + 1, hits := 0 }) =
      x.modify n (flunked config) := by
  refine Array.ext_getElem? fun k => ?_
  rw [Array.getElem?_modify, if_pos rfl] at hmore
  rw [Array.getElem?_modify, Array.getElem?_modify]
  split
  · next hk =>
    subst hk
    cases he : x[n]? with
    | none => rfl
    | some e =>
      rw [he, Option.map_some, Option.getD_some] at hmore
      simp only [Option.map_some, flunked]
      rw [if_neg hmore]
  · rfl

end flunked

/-- What is left when the recording for a fragment was given up. -/
inductive Failed (id : FragmentId) (anchor : Option GuardId) (m : Monitor) : Monitor → Prop where
  | loop {f : Fragment} {attempts : Nat} {state : FragmentState} {stats : Stats}
      (hf : m.cache.fragment? id = some f) (hkind : f.kind ≠ .branch)
      (hlive : f.state ≠ .invalidated)
      (hstate : state = .blacklisted ∨ state = .failed) (hattempts : attempts = f.attempts + 1)
      (hlast : state = .blacklisted ↔ m.config.maxRecordAttempts ≤ (attempts : Nat)) :
      Failed id anchor m
      { m with stats, cache := m.cache.update id ({ · with attempts, hits := 0, state }) }
  | branch {f : Fragment} {g : GuardId} {r : Guard} {exits : Array ExitRecord}
      {cache : FragmentCache} {stats : Stats}
      (hf : m.cache.fragment? id = some f) (hkind : f.kind = .branch)
      (hlive : f.state ≠ .invalidated)
      (hanchor : anchor = some g) (hr : m.cache.guards[g]? = some r)
      (hexits : Counted r.exit m.cache.exits exits)
      (hdiscard : FragmentCache.discard f { m.cache with exits } = .ok () cache)
      (hflunked : exits = m.cache.exits.modify r.exit (flunked m.config)) :
      Failed id anchor m { m with stats, cache }
  | gone {f : Fragment} {exits : Array ExitRecord} {stats : Stats}
      (hf : m.cache.fragment? id = some f) (hgone : f.state = .invalidated)
      (hexits : exits = m.cache.exits ∨ ∃ g r, anchor = some g ∧ m.cache.guards[g]? = some r ∧
        Counted r.exit m.cache.exits exits)
      (hflunked : exits = m.cache.exits ∨ ∃ g r, anchor = some g ∧ m.cache.guards[g]? = some r ∧
        exits = m.cache.exits.modify r.exit (flunked m.config)) :
      Failed id anchor m { m with stats, cache := { m.cache with exits } }

theorem recordingFailed_fails (anchor : Option GuardId) (a : Abort) :
    Ensures Anyhow (recordingFailed id anchor a) m fun _ m' => Failed id anchor m m' := by
  unfold recordingFailed
  refine count_bind ?_
  extract_lets rest
  have hrest : Ensures Anyhow (rest ()) { m with stats := m.stats.abort a.reason } fun _ m' =>
      Failed id anchor m m' := by
    refine .get (fragment_bind fun f hf => ?_)
    replace hf : m.cache.fragment? id = some f := hf
    split
    · next hkind =>
      split
      · exact .throw trivial
      · next g =>
        refine guard_bind fun r hr => updateCache_bind (.get ?_)
        extract_lets attempts drop
        have hdrop : ∀ stats exits, exits = m.cache.exits.modify r.exit (flunked m.config) →
            Ensures Anyhow (drop ()) { m with stats, cache := { m.cache with exits } } fun _ m' =>
                Failed id (some g) m m' := by
          rintro stats exits rfl
          have hexits := counted_flunked m.config r.exit m.cache.exits
          unfold drop
          split
          · next hlive =>
            exact caching_anyhow fun _ cache hdiscard =>
              .branch hf hkind hlive rfl hr hexits hdiscard rfl
          · next hgone =>
            exact .gone hf (Classical.not_not.mp hgone) (.inr ⟨g, r, rfl, hr, hexits⟩)
              (.inr ⟨g, r, rfl, hr, rfl⟩)
        split
        · next hlast => exact updateCache_bind (count_bind (hdrop _ _ (flunked_banned hlast)))
        · next hmore => exact hdrop _ _ (flunked_open hmore)
    · next hkind =>
      split
      · next hlive =>
        extract_lets attempts last
        have hlast : last = true ↔ m.config.maxRecordAttempts ≤ (attempts : Nat) :=
          decide_eq_true_iff
        refine updateFragment_bind ?_
        split
        · next hl => exact .loop hf hkind hlive (.inl rfl) rfl (iff_of_true rfl (hlast.mp hl))
        · next hl => exact .loop hf hkind hlive (.inr rfl) rfl (iff_of_false
            nofun fun h => hl (hlast.mpr h))
      · next hgone => exact .gone hf (Classical.not_not.mp hgone) (.inl rfl) (.inl rfl)
  clear_value rest
  split
  · exact .throw trivial
  · exact hrest

/-- What is left when the recorder was asked for something. -/
inductive Recorded {α : Type} (x : Recording α) (m : Monitor) :
    Except MonitorError α → Monitor → Prop where
  | done {a : α} {r : Recorder} (h : x m.recorder = .ok a r) :
      Recorded x m (.ok a) { m with recorder := r }
  | idle {r : Recorder} (h : x m.recorder = .error .notRecording r) :
      Recorded x m (.error .notRecording) { m with recorder := r }
  | failed {a : Abort} {r : Recorder} {id : FragmentId} {m' : Monitor}
      (h : x m.recorder = .error (.abort a) r)
      (hid : m.recorder.fragment = some id)
      (hfailed : Failed id m.recorder.anchor { m with recorder := r } m') :
      Recorded x m (.error (.abort a)) m'
  | stray {a : Abort} {r : Recorder} (h : x m.recorder = .error (.abort a) r)
      (hid : m.recorder.fragment = none) :
      Recorded x m (.error (.abort a)) { m with recorder := r }

theorem onRecorder_records {α : Type} (x : Recording α) :
    Ensures Anyhow (onRecorder x) m fun result m' => Recorded x m result m' := by
  unfold onRecorder
  refine .get (.get ?_)
  extract_lets anchor step
  cases hx : x m.recorder with
  | ok a r =>
    have hstep : step m = .ok (.ok a) { m with recorder := r } := by simp only [step, hx]
    refine .bind (Q := fun y m' => y = .ok a ∧ m' = { m with recorder := r })
      ((ensures_ok hstep).mpr ⟨rfl, rfl⟩) ?_
    rintro _ _ ⟨rfl, rfl⟩
    exact .pure (.done hx)
  | error e r =>
    have hstep : step m = .ok (.error e) { m with recorder := r } := by simp only [step, hx]
    refine .bind (Q := fun y m' => y = .error e ∧ m' = { m with recorder := r })
      ((ensures_ok hstep).mpr ⟨rfl, rfl⟩) ?_
    rintro _ _ ⟨rfl, rfl⟩
    cases e with
    | notRecording => exact .pure (.idle hx)
    | fault f => exact .throw trivial
    | abort a =>
      dsimp only
      cases hid : m.recorder.fragment with
      | some id =>
        exact .bind (recordingFailed_fails _ _) fun _ m' hfailed => .pure (.failed hx hid hfailed)
      | none => exact .pure (.stray hx hid)

/-- What is left when code was put into use. -/
inductive Deployed (id : FragmentId) (anchor : Option GuardId) (a : Assembly)
    (m : Monitor) : Monitor → Prop where
  | loop {r : Recorder} {c : FragmentCache} {stats : Stats}
      (hinstall : FragmentCache.install id a m.cache = .ok () c)
      (hcommit : m.recorder.commit = .ok r) :
      Deployed id anchor a m { m with recorder := r, stats, cache := c }
  | branch {r : Recorder} {c c' : FragmentCache} {stats : Stats} {g : Guard} {child : Fragment}
      (hinstall : FragmentCache.install id a m.cache = .ok () c)
      (hcommit : m.recorder.commit = .ok r)
      (hpromote : FragmentCache.promote g child c = .ok () c')
      (hg : ∃ j, anchor = some j ∧ c.guards[j]? = some g) :
      Deployed id anchor a m { m with recorder := r, stats, cache := c' }

/-- Only a branch is entered from a guard. -/
theorem installAssembly_deploys (f : Fragment) (anchor : Option GuardId) (a : Assembly) :
    Ensures Anyhow (installAssembly f anchor a) m fun _ m' =>
      Deployed f.id (if f.kind = .branch then anchor else none) a m m' := by
  unfold installAssembly
  refine caching_bind fun _ c hinstall => .get ?_
  extract_lets rest
  have hrest : ∀ r stats, m.recorder.commit = .ok r →
      Ensures Anyhow (rest ()) { m with cache := c, recorder := r, stats } fun _ m' =>
        Deployed f.id (if f.kind = .branch then anchor else none) a m m' := by
    intro r stats hcommit
    refine count_bind ?_
    split
    · exact .loop hinstall hcommit
    · exact .loop hinstall hcommit
    · next hkind =>
      rw [if_pos hkind]
      refine count_bind ?_
      split
      · exact .throw trivial
      · next j =>
        refine guard_bind fun g hg => fragment_bind fun child _ =>
          caching_bind fun _ c' hpromote => ?_
        exact .branch hinstall hcommit hpromote ⟨j, rfl, hg⟩
  clear_value rest
  dsimp only
  cases hcommit : m.recorder.commit with
  | error e => exact .throw trivial
  | ok r => exact .modify_bind (hrest r _ hcommit)

/-- A trace did not fit into the code region. -/
def NoSpace : AssembleError → Prop
  | .compile e => e.kind = .outOfSpace
  | _ => False

/-- A fragment that a branch can end in: a compiled one of its loop that is entered with the types
at the end. -/
def Joins (c : FragmentCache) (f : Fragment) (stop : TypeMap) (t : Fragment) : Prop :=
  ∃ root, c.fragment? f.root = some root ∧ c.findPeer? root stop = some t ∧ t.executable = true

/-- What is left when a recording was to end. -/
inductive Ended (stop : TypeMap) (m : Monitor) : Except MonitorError Unit → Monitor → Prop where
  | idle (h : m.recording = false) : Ended stop m (.error .notRecording) m
  | unfinished {id : FragmentId} {f : Fragment} {target : Option Fragment}
      {e : MonitorError} {m' : Monitor}
      (hrecording : m.recording = true) (hid : m.recorder.fragment = some id)
      (hf : m.cache.fragment? id = some f)
      (h : Recorded (Recorder.finish f stop target) m (.error e) m') : Ended stop m (.error e) m'
  | compiled {id : FragmentId} {f f₁ : Fragment} {target : Option Fragment} {b : Buffer}
      {r : Recorder} {a : Assembly}
      {c : FragmentCache} {m' : Monitor}
      (hrecording : m.recording = true) (hid : m.recorder.fragment = some id)
      (hf : m.cache.fragment? id = some f)
      (hfinish : Recorder.finish f stop target m.recorder = .ok b r)
      (hf₁ : (m.cache.attachTrace id b (target.map (·.id))).fragment? id = some f₁)
      (hassemble : (m.cache.attachTrace id b (target.map (·.id))).assemble m.limits m.helpers f₁ =
        .ok a c)
      (h : Deployed f.id (if f.kind = .branch then m.recorder.anchor else none) a
        { m with recorder := r, cache := c } m')
      (hends : f.kind ≠ .branch → target = none)
      (hjoins : ∀ t, target = some t → Joins m.cache f stop t) : Ended stop m (.ok ()) m'
  | rejected {id : FragmentId} {f f₁ : Fragment} {target : Option Fragment}
      {b : Buffer} {r : Recorder}
      {e : AssembleError} {c : FragmentCache} {stats : Stats} {m₁ m' : Monitor}
      (hrecording : m.recording = true) (hid : m.recorder.fragment = some id)
      (hf : m.cache.fragment? id = some f)
      (hfinish : Recorder.finish f stop target m.recorder = .ok b r)
      (hf₁ : (m.cache.attachTrace id b (target.map (·.id))).fragment? id = some f₁)
      (hassemble : (m.cache.attachTrace id b (target.map (·.id))).assemble m.limits m.helpers f₁ =
        .error e c)
      (hfault : ∀ fault, e ≠ .fault fault)
      (hfailed : Failed id m.recorder.anchor { m with
        stats, recorder := r.reset, cache :=
          c.update id ({ · with trace := none, treeTarget := none }) } m₁)
      (hspace : ¬ NoSpace e ∧ m' = m₁ ∨ NoSpace e ∧ ∃ key, outOfSpace key m₁ = .ok () m')
      (hroot : NoSpace e → ∃ root, m₁.cache.fragment? f.root = some root ∧
        outOfSpace root.key m₁ = .ok () m')
      (hends : f.kind ≠ .branch → target = none)
      (hjoins : ∀ t, target = some t → Joins m.cache f stop t) :
      Ended stop m (.error (.assembling id e)) m'

/-- What assembling gives, code or the reason why there is none, with the cache that it leaves. -/
def Assembles (before : FragmentCache) (limits : Limits) (helpers : HelperTable) (f : Fragment)
    (after : FragmentCache) :
    Except AssembleError Assembly → Prop
  | .ok a => before.assemble limits helpers f = .ok a after
  | .error e => before.assemble limits helpers f = .error e after ∧ ∀ fault, e ≠ .fault fault

theorem endRecording_ends (stop : TypeMap) :
    Ensures Anyhow (endRecording stop) m fun result m' => Ended stop m result m' := by
  unfold endRecording
  refine .get ?_
  split
  · next hidle => exact .pure (.idle (by simpa using hidle))
  next hrecording =>
  replace hrecording : m.recording = true := by simpa using hrecording
  split
  · next id hid =>
    refine fragment_bind fun f hf => ?_
    extract_lets rest
    have hrest : ∀ target : Option Fragment, (f.kind ≠ .branch → target = none) →
        (∀ t, target = some t → Joins m.cache f stop t) →
        Ensures Anyhow (rest target) m fun result m' => Ended stop m result m' := by
      intro target hends hjoins
      refine .bind (onRecorder_records (Recorder.finish f stop target)) fun result m₁ hm₁ => ?_
      cases result with
      | error e => exact .pure (.unfinished hrecording hid hf hm₁)
      | ok b =>
        obtain ⟨r, hfinish, rfl⟩ : ∃ r, Recorder.finish f stop target m.recorder = .ok b r ∧
            m₁ = { m with recorder := r } := by
          cases hm₁ with
          | done h => exact ⟨_, h, rfl⟩
        refine updateCache_bind (fragment_bind fun f₁ hf₁ => ?_)
        refine .bind (Q := fun y m₂ => ∃ c, m₂ = { m with recorder := r, cache := c } ∧
          Assembles (m.cache.attachTrace id b (target.map (·.id))) m.limits m.helpers f₁ c y) ?_ ?_
        · unfold Ensures assembleFragment
          dsimp only
          cases hassemble : (m.cache.attachTrace id b (target.map (·.id))).assemble
              m.limits m.helpers f₁ with
          | ok a c => exact ⟨c, rfl, hassemble⟩
          | error e c =>
            cases e <;> first | trivial | exact ⟨c, rfl, hassemble, fun _ h => by cases h⟩
        rintro y _ ⟨c, rfl, hassemble⟩
        cases y with
        | ok a =>
          refine .bind (installAssembly_deploys f _ a) fun _ m' hdeployed => .pure ?_
          exact .compiled hrecording hid hf hfinish hf₁ hassemble hdeployed hends hjoins
        | error e =>
          refine count_bind (updateFragment_bind (resetRecorder_bind ?_))
          refine .bind (recordingFailed_fails _ _) fun _ m₃ hfailed => ?_
          have hend : ∀ m', ¬ NoSpace e ∧ m' = m₃ ∨ NoSpace e ∧
            (∃ key, outOfSpace key m₃ = .ok () m') →
              (NoSpace e → ∃ root, m₃.cache.fragment? f.root = some root ∧
                outOfSpace root.key m₃ = .ok () m') →
              Ended stop m (.error (.assembling id e)) m' :=
            fun _ hspace hroot =>
              .rejected hrecording hid hf hfinish hf₁ hassemble.1 hassemble.2 hfailed hspace
                hroot hends hjoins
          dsimp only
          split
          · refine fragment_bind fun root hroot =>
              .bind (Q := fun _ m' => outOfSpace root.key m₃ = .ok () m') ?_ ?_
            · unfold Ensures
              split
              · next h => exact h
              · trivial
            · exact fun _ m' h =>
                .pure (hend m' (.inr ⟨rfl, root.key, h⟩) fun _ => ⟨root, hroot, h⟩)
          · next hroom =>
            have hfits : ¬ NoSpace e := fun hfull => by
              cases e with
              | compile e =>
                obtain ⟨kind, detail⟩ := e
                exact hroom detail (by rw [show kind = .outOfSpace from hfull])
              | _ => exact hfull
            exact .pure (hend m₃ (.inl ⟨hfits, rfl⟩) fun hfull => absurd hfull hfits)
    clear_value rest
    split
    · next hkind =>
      refine fragment_bind fun root hroot => .get (.pure_bind ?_)
      refine hrest ((m.cache.findPeer? root stop).filter (·.executable))
        (fun hloop => absurd hkind hloop) fun t ht => ?_
      obtain ⟨ht, hexecutable⟩ := Option.filter_eq_some_iff.mp ht
      exact ⟨root, hroot, ht, hexecutable⟩
    · exact .pure_bind (hrest none (fun _ => rfl) fun t ht => by cases ht)
  · exact .throw trivial

/-- A recording that is given up from outside. -/
theorem abortRecording_ends (a : Abort) :
    Ensures Anyhow (abortRecording a) m fun _ m' =>
    m' = m ∧ (m.recording = false ∨ m.recorder.fragment = none) ∨
      ∃ id, m.recording = true ∧ m.recorder.fragment = some id ∧
        Failed id m.recorder.anchor { m with recorder := m.recorder.reset } m' := by
  unfold abortRecording
  refine .get ?_
  split
  · next hrecording =>
    cases hid : m.recorder.fragment with
    | some id =>
      refine resetRecorder_bind
        ((recordingFailed_fails m.recorder.anchor a).mono fun _ m' hfailed => ?_)
      exact .inr ⟨id, hrecording, rfl, hfailed⟩
    | none => exact .pure (.inl ⟨rfl, .inr rfl⟩)
  · next hidle => exact .pure (.inl ⟨rfl, .inl (by simpa using hidle)⟩)

/-! ### Dropping fragments -/

/-- Before a fragment is dropped: a recording that depends on it is given up. -/
inductive Yielded (on : FragmentId) (m : Monitor) : Monitor → Prop where
  | idle (h : m.recording = true → m.recorder.fragment = none) : Yielded on m m
  | apart {id : FragmentId} (hrecording : m.recording = true) (hid : m.recorder.fragment = some id)
      (hapart : dependsOn m.cache on (m.cache.fragments.size + 1) id = false) : Yielded on m m
  | branch {id : FragmentId} {f : Fragment} {stats : Stats} {c : FragmentCache}
      (hrecording : m.recording = true)
      (hid : m.recorder.fragment = some id) (hf : m.cache.fragment? id = some f)
      (hkind : f.kind = .branch)
      (hdiscard : FragmentCache.discard f m.cache = .ok () c) :
      Yielded on m { m with recorder := m.recorder.reset, stats, cache := c }
  | loop {id : FragmentId} {f : Fragment} {stats : Stats} (hrecording : m.recording = true)
      (hid : m.recorder.fragment = some id) (hf : m.cache.fragment? id = some f)
      (hkind : f.kind ≠ .branch) :
      Yielded on m { m with recorder := m.recorder.reset, stats,
                            cache := m.cache.update id ({ · with state := .failed }) }

/-- What is left when a fragment was dropped. -/
inductive Expelled (on : FragmentId) (m : Monitor) : Monitor → Prop where
  | mk {m₁ : Monitor} {gone : List FragmentId} {c : FragmentCache} {stats : Stats}
      (hyielded : Yielded on m m₁)
      (hdrop : FragmentCache.invalidate on m₁.cache = .ok gone c) :
      Expelled on m { m₁ with stats, cache := c }

theorem invalidate_expels (on : FragmentId) :
    Ensures Anyhow (invalidate on) m fun _ m' => Expelled on m m' := by
  unfold invalidate
  refine .get ?_
  extract_lets rest
  have hrest : ∀ m₁ : Monitor, Yielded on m m₁ → Ensures Anyhow (rest ()) m₁ fun _ m' =>
      Expelled on m m' :=
    fun m₁ h₁ => caching_bind fun _ c hdrop => count_bind (.pure
      (show Expelled on m { m₁ with stats := _, cache := c } from .mk h₁ hdrop))
  clear_value rest
  split
  · next id hrf =>
    obtain ⟨hrecording, hid⟩ : m.recording = true ∧ m.recorder.fragment = some id := by
      split at hrf
      · next hrecording => exact ⟨hrecording, hrf⟩
      · cases hrf
    split
    · refine resetRecorder_bind (count_bind (fragment_bind fun f hf => ?_))
      split
      · next hkind =>
          exact caching_bind fun _ c hdiscard => hrest _ (.branch hrecording hid hf hkind hdiscard)
      · next hkind => exact updateFragment_bind (hrest _ (.loop hrecording hid hf hkind))
    · next hapart => exact hrest m (.apart hrecording hid (Bool.not_eq_true _ ▸ hapart))
  · next hrf =>
    refine hrest m (.idle fun hrecording => ?_)
    rw [if_pos hrecording] at hrf
    exact Option.eq_none_iff_forall_ne_some.mpr hrf

/-- What is left when everything was dropped. -/
inductive Cleared (m : Monitor) : Monitor → Prop where
  | mk {r : Recorder} {stats : Stats} {gone : List FragmentId} {c : FragmentCache}
      (hr : m.recording = true ∧ r = m.recorder.reset ∨ m.recording = false ∧ r = m.recorder)
      (hflush : FragmentCache.flush m.cache = .ok gone c) :
      Cleared m { m with recorder := r, stats, cache := c }

theorem flush_clears : Ensures Anyhow flush m fun _ m' => Cleared m m' := by
  unfold flush
  refine .get ?_
  split
  · next hrecording =>
    exact resetRecorder_bind (count_bind (caching_bind fun _ c hflush =>
      count_ensures (.mk (.inl ⟨hrecording, rfl⟩) hflush)))
  · next hrests =>
    exact caching_bind fun _ c hflush =>
      count_ensures (.mk (.inr ⟨Bool.not_eq_true _ ▸ hrests, rfl⟩) hflush)

/-- Once more there was no room for a trace of a loop, and everything is dropped. -/
theorem outOfSpace_clears (key : LoopKey) : Ensures Anyhow (outOfSpace key) m fun _ m' => ∃ stats,
    Cleared { m
      with stats, spaceFailures := m.spaceFailures.alter key fun n => some (n.getD 0 + 1) } m' := by
  unfold outOfSpace
  refine .modify_bind (.get ?_)
  split
  · exact count_bind (flush_clears.mono fun _ m' h => ⟨_, h⟩)
  · exact flush_clears.mono fun _ m' h => ⟨_, h⟩

/-! ### Loops and exits -/

/-- The cache after an exit was counted, for itself and for its fragment. -/
def passed (c : FragmentCache) (r : Guard) (source : Fragment) : FragmentCache :=
  (c.updateExit r.exit fun e => { e with hits := e.hits + 1 }).update source.id fun f =>
    { f with exits := f.exits + 1 }

/-- What is left when an exit was taken. -/
inductive Exited (g : GuardId) (m : Monitor) : Bool → Monitor → Prop where
  | stray {r : Guard} {stats : Stats} (hr : m.cache.guards[g]? = some r)
      (hs : m.cache.cached? r.source = none) :
      Exited g m false
      { m with stats, cache := m.cache.updateExit r.exit fun e => { e with hits := e.hits + 1 } }
  | counted {r : Guard} {source : Fragment} {stats : Stats} (hr : m.cache.guards[g]? = some r)
      (hs : m.cache.cached? r.source = some source) :
      Exited g m false { m with stats, cache := passed m.cache r source }
  | dropped {r : Guard} {source : Fragment} {stats : Stats} {gone : List FragmentId} {m' : Monitor}
      (hr : m.cache.guards[g]? = some r) (hs : m.cache.cached? r.source = some source)
      (hdrop : Monitor.invalidate source.id
        { m with stats, cache := passed m.cache r source } = .ok gone m') :
      Exited g m false m'
  | refused {r : Guard} {source child : Fragment} {id : FragmentId} {stats : Stats}
      {c c' : FragmentCache}
      (hidle : m.recorder.state = .idle) (hr : m.cache.guards[g]? = some r)
      (hs : m.cache.cached? r.source = some source)
      (hattach : FragmentCache.attachChild source r (passed m.cache r source) = .ok id c)
      (hchild : c.fragment? id = some child)
      (hdiscard : FragmentCache.discard child c = .ok () c') :
      Exited g m false { m with stats, cache := c' }
  | branched {r : Guard} {source child : Fragment} {id : FragmentId} {stats : Stats}
      {c : FragmentCache} {m' : Monitor}
      (hidle : m.recorder.state = .idle) (hr : m.cache.guards[g]? = some r)
      (hs : m.cache.cached? r.source = some source)
      (hattach : FragmentCache.attachChild source r (passed m.cache r source) = .ok id c)
      (hchild : c.fragment? id = some child)
      (hbegun : Begun id child.types (some g) { m with stats, cache := c } m')
      (hopen : ((passed m.cache r source).exitOf r).blacklisted = false) : Exited g m true m'

theorem handleExit_exits (g : GuardId) :
    Ensures Anyhow (handleExit g) m fun b m' => Exited g m b m' := by
  unfold handleExit
  refine guard_bind fun r hr => .get (count_bind (updateCache_bind (.get ?_)))
  dsimp only
  split
  · next source hs =>
    replace hs : m.cache.cached? r.source = some source := hs
    refine updateFragment_bind (.get ?_)
    split
    · refine .bind (Q := fun _ m' => Exited g m false m') ?_ fun _ m' h => .pure h
      unfold Ensures
      split
      · next hdrop => exact .dropped hr hs hdrop
      · trivial
    split
    · exact .pure (.counted hr hs)
    next hready =>
    have hidle : m.recorder.state = .idle := by
      simp only [Bool.or_eq_true, decide_eq_true_eq, not_or] at hready
      exact Classical.not_not.mp hready.2
    split
    · exact .pure (.counted hr hs)
    next hready =>
    simp only [Bool.or_eq_true, not_or] at hready
    obtain ⟨⟨hopen, -⟩, -⟩ := hready
    refine caching_bind fun id c hattach => fragment_bind fun child hchild => ?_
    refine .bind (startRecording_begins _ _) fun b m₁ hm₁ => ?_
    cases b with
    | true => exact .pure (.branched hidle hr hs hattach hchild hm₁ (Bool.not_eq_true _ ▸ hopen))
    | false =>
      obtain rfl : m₁ = _ := hm₁
      refine fragment_bind fun child' hchild' => caching_bind fun _ c' hdiscard => .pure ?_
      exact .refused hidle hr hs hattach hchild' hdiscard
  · next hnone => exact .pure (.stray hr (Option.eq_none_iff_forall_ne_some.mpr hnone))

/-- The fragment of a loop that counts, and the cache with it in place. -/
inductive Chosen (key : LoopKey) (types : TypeMap) (m : Monitor) : FragmentId → Monitor → Prop where
  | found {c : FragmentCache} {id : FragmentId} {made : Bool} {root f : Fragment}
      (hget : m.cache.getOrCreate key = (c, id, made)) (hroot : c.fragment? id = some root)
      (hf : c.findPeer? root types = some f) : Chosen key types m f.id { m with cache := c }
  | typed {c : FragmentCache} {id : FragmentId} {made : Bool} {root : Fragment}
      (hget : m.cache.getOrCreate key = (c, id, made)) (hroot : c.fragment? id = some root)
      (huntyped : root.entryTypes = none) :
      Chosen key types m id
      { m with cache := c.update id ({ · with entryTypes := knownTypes types }) }
  | added {c c' : FragmentCache} {id new : FragmentId} {made : Bool} {root : Fragment}
      (hget : m.cache.getOrCreate key = (c, id, made)) (hroot : c.fragment? id = some root)
      (hadd : FragmentCache.addPeer root types c = .ok new c')
      (hnone : c.findPeer? root types = none)
      (htyped : root.entryTypes ≠ none) : Chosen key types m new { m with cache := c' }

theorem candidate_chooses (key : LoopKey) (types : TypeMap) :
    Ensures Anyhow (candidate key types) m fun id m' => Chosen key types m id m' := by
  unfold candidate
  refine caching_bind fun id c hget => fragment_bind fun root hroot => .get ?_
  obtain ⟨made, hget⟩ : ∃ made, m.cache.getOrCreate key = (c, id, made) := by
    cases hget
    exact ⟨_, rfl⟩
  split
  · next f hf => exact .pure (.found hget hroot hf)
  · next hnone =>
    split
    · next huntyped =>
        exact updateFragment_bind
          (.pure (.typed hget hroot (Option.isNone_iff_eq_none.mp huntyped)))
    · next htyped =>
      exact caching_anyhow fun new c' hadd => .added hget hroot hadd hnone fun heq =>
        htyped (Option.isNone_iff_eq_none.mpr heq)

/-- What is left when a loop edge was counted. -/
inductive Looped (key : LoopKey) (types : TypeMap) (m : Monitor) : Bool → Monitor → Prop where
  | skipped {stats : Stats} : Looped key types m false { m with stats }
  | chosen {id : FragmentId} {stats : Stats} {m' : Monitor} (hidle : m.recorder.state = .idle)
      (h : Chosen key types { m with stats } id m') {f : Fragment}
      (hf : m'.cache.fragment? id = some f)
      (hroom : (m.spaceFailures[key]?.getD 0 : Nat) < m.config.maxRecordAttempts) :
      Looped key types m false m'
  | counted {id : FragmentId} {stats : Stats} {m₁ : Monitor} (hidle : m.recorder.state = .idle)
      (h : Chosen key types { m with stats } id m₁) {f : Fragment}
      (hf : m₁.cache.fragment? id = some f)
      (hroom : (m.spaceFailures[key]?.getD 0 : Nat) < m.config.maxRecordAttempts) :
      Looped key types m false
      { m₁ with cache := m₁.cache.update id fun f => { f with hits := f.hits + 1 } }
  | begun {id : FragmentId} {stats : Stats} {m₁ m' : Monitor} (hidle : m.recorder.state = .idle)
      (h : Chosen key types { m with stats } id m₁) {f : Fragment}
      (hf : m₁.cache.fragment? id = some f)
      (hstate : f.state = .counting ∨ f.state = .failed)
      (hbegun : Begun id types none
        { m₁ with cache := m₁.cache.update id fun f => { f with hits := f.hits + 1 } } m')
      (hroom : (m.spaceFailures[key]?.getD 0 : Nat) < m.config.maxRecordAttempts) :
      Looped key types m true m'

theorem loopEdge_loops (key : LoopKey) (types : TypeMap) :
    Ensures Anyhow (loopEdge key types) m fun b m' => Looped key types m b m' := by
  unfold loopEdge
  refine count_bind (.get ?_)
  split
  · exact .pure .skipped
  next hready =>
  have hidle : m.recorder.state = .idle := by
    simp only [Bool.or_eq_true, decide_eq_true_eq, not_or] at hready
    exact Classical.not_not.mp hready.2
  split
  · exact .pure .skipped
  next hattempts =>
  have hroom := Int.not_le.mp hattempts
  refine .bind (candidate_chooses key types) fun id m₁ h => fragment_bind fun f hf => ?_
  split
  · exact .pure (.chosen hidle h hf hroom)
  next hopen =>
  have hstate : f.state = .counting ∨ f.state = .failed := by
    cases hs : f.state <;> simp [hs] at hopen ⊢
  refine updateFragment_bind (.get ?_)
  split
  · exact .pure (.counted hidle h hf hroom)
  · refine (startRecording_begins types none).mono fun b m' hm' => ?_
    cases b with
    | true => exact .begun hidle h hf hstate hm' hroom
    | false =>
      obtain rfl : m' = _ := hm'
      exact .counted hidle h hf hroom

end LoopTracer.Monitor
