import LoopTracer.Proofs.Fragment.Attempts
import LoopTracer.Proofs.Monitor.Conservation
import LoopTracer.Proofs.Monitor.Sessions

/-! How often is tried what fails.

A loop that fails to be recorded, or whose trace does not fit into the code region, is tried again,
and so is a branch that fails at an exit; all three are counted, and each counter has a bound in the
settings. After every history of operations no counter is above its bound, and what has reached it
is left alone (`retries_bounded`). Traces that do not fit are counted by the history itself
(`Tallied`). -/
namespace LoopTracer.Monitor

open Trace Compile FragmentCache

variable {config : Config} {m m' : Monitor} {n : LoopKey → Nat} {id : FragmentId} {f : Fragment}

/-- The counters of a monitor are in bounds; a trace of the loop `key` did not fit `n key` times. -/
structure Bounded (config : Config) (n : LoopKey → Nat) (m : Monitor) : Prop where
  settings : m.config = config
  loops : 0 < config.maxRecordAttempts
  sides : 0 < config.maxBranchAttempts
  failures : ∀ key, m.spaceFailures[key]?.getD 0 = n key
  few : ∀ key, (n key : Int) ≤ config.maxRecordAttempts
  cache : Temperate config.maxRecordAttempts config.maxBranchAttempts n m.cache
  recording : m.recording = true → ∀ id, m.recorder.fragment = some id →
    Willing config.maxRecordAttempts config.maxBranchAttempts n m.cache id m.recorder.anchor

/-- What an operation does to the counters. -/
structure Charged (config : Config) (n : LoopKey → Nat) (m m' : Monitor) : Prop where
  bounded : Bounded config n m'
  lasting : Lasting m.cache m'.cache

theorem Charged.trans {m₁ : Monitor} (h : Lasting m.cache m₁.cache)
    (h' : Charged config n m₁ m') : Charged config n m m' :=
  ⟨h'.bounded, trans_of Lasting h h'.lasting⟩

/-- The cache changes, but no counter. -/
theorem Bounded.moved (h : Bounded config n m) (stats : Stats) {fresh : LoopKey → Prop}
    {c : FragmentCache}
    (hm : Moved config.maxRecordAttempts fresh m.cache c)
    (hfresh : ∀ key, fresh key → (n key : Int) < config.maxRecordAttempts) :
    Charged config n m { m with stats, cache := c } :=
  ⟨⟨h.settings, h.loops, h.sides, h.failures, h.few, h.cache.moved hm hfresh h.sides,
    fun hrecording id hid => (h.recording hrecording id hid).moved hm hfresh h.loops h.sides⟩,
    hm.lasting⟩

/-- Nothing is tried and nothing is added. -/
theorem Bounded.shrunk (h : Bounded config n m) (stats : Stats) {c : FragmentCache}
    (hr : Reduced Fragment.Shrunk m.cache c) :
    Charged config n m { m with stats, cache := c } :=
  have hm : Moved config.maxRecordAttempts (fun _ => False) m.cache c := hr.shrunk_moved
  h.moved stats hm nofun

/-- Nothing is being recorded any more. -/
theorem Bounded.rested (h : Bounded config n m) (r : Recorder) (stats : Stats) {c : FragmentCache}
    (hc : Temperate config.maxRecordAttempts config.maxBranchAttempts n c)
    (hr : r.isRecording = false) :
    Bounded config n { m with recorder := r, stats, cache := c } :=
  ⟨h.settings, h.loops, h.sides, h.failures, h.few, hc,
    fun hrecording => absurd (hr.symm.trans hrecording) nofun⟩

/-! ### Recordings that fail -/

/-- An exit at which recording a branch failed. -/
theorem flunked_tried {e : ExitRecord} (h : e.Tried config.maxBranchAttempts)
    (hopen : (e.attempts : Int) < config.maxBranchAttempts) :
    (flunked config e).Tried config.maxBranchAttempts ∧
      (e.blacklisted = true → (flunked config e).blacklisted = true) := by
  have hlast : e.blacklisted ≠ true := fun hlast => by
    have := h.spent.mp hlast
    omega
  unfold flunked
  dsimp only
  split
  · next hspent =>
    refine ⟨⟨?_, iff_of_true rfl ?_⟩, fun _ => rfl⟩
    all_goals
      dsimp only at hspent ⊢
      omega
  · next hmore =>
    refine ⟨⟨?_, iff_of_false hlast ?_⟩, fun h => h⟩
    all_goals
      dsimp only at hmore ⊢
      omega

/-- Recording a branch failed at an exit. -/
theorem exits_flunked {c : FragmentCache} {k : Nat} {x : Array ExitRecord}
    (hx : x = c.exits.modify k (flunked config))
    (h : Temperate config.maxRecordAttempts config.maxBranchAttempts n c)
    (hopen : ∀ e, c.exits[k]? = some e → (e.attempts : Int) < config.maxBranchAttempts) :
    Temperate config.maxRecordAttempts config.maxBranchAttempts n { c with exits := x } ∧
    Lasting c { c with exits := x } := by
  subst hx
  refine ⟨⟨h.tried, h.rooted, h.room, fun e' he' => ?_, h.named⟩, fun j e he hlast => ?_⟩
  · obtain ⟨j, hj⟩ := Array.mem_iff_getElem?.mp he'
    rw [Array.getElem?_modify] at hj
    split at hj
    · next hk =>
      subst hk
      obtain ⟨e, he, rfl⟩ := Option.map_eq_some_iff.mp hj
      exact (flunked_tried (h.exits e (Array.mem_of_getElem? he)) (hopen e he)).1
    · exact h.exits e' (Array.mem_of_getElem? hj)
  · show ∃ e', (c.exits.modify k (flunked config))[j]? = some e' ∧ e'.blacklisted = true
    rw [Array.getElem?_modify, he]
    split
    · next hk =>
      subst hk
      exact ⟨_, rfl, (flunked_tried (h.exits e (Array.mem_of_getElem? he)) (hopen e he)).2 hlast⟩
    · exact ⟨e, rfl, hlast⟩

/-- A failure is counted, once. -/
theorem Failed.temperate {anchor : Option GuardId} (hfailed : Failed id anchor m m')
    (hconfig : m.config = config)
    (hsides : 0 < config.maxBranchAttempts)
    (h : Temperate config.maxRecordAttempts config.maxBranchAttempts n m.cache)
    (hw : Willing config.maxRecordAttempts config.maxBranchAttempts n m.cache id anchor) :
    Temperate config.maxRecordAttempts config.maxBranchAttempts n m'.cache ∧
    Lasting m.cache m'.cache := by
  subst hconfig
  have hside : ∀ {g r}, anchor = some g → m.cache.guards[g]? = some r →
    ∀ e, m.cache.exits[r.exit]? = some e →
      (e.attempts : Int) < m.config.maxBranchAttempts := by
    intro g r hg hr
    obtain ⟨r', hr', hopen⟩ := hw.side g hg
    rw [hr] at hr'
    cases hr'
    exact hopen
  cases hfailed with
  | @loop f attempts state _ hf hkind hlive hstate hattempts hlast =>
    have hmore := (hw.loop hf).2
    refine ⟨h.update hf rfl rfl (fun hc => hc) ⟨?_, fun hs => ?_, fun hs => ?_, fun _ => ?_⟩,
      refl_of Lasting m.cache⟩
    · show (attempts : Int) ≤ _
      omega
    · have := hlast.mp hs
      show (attempts : Int) = _
      omega
    · exact .inl (hlast.mpr (Int.le_of_eq (show (attempts : Int) = _ from hs).symm))
    · show state ≠ .invalidated
      rcases hstate with rfl | rfl <;> nofun
  | branch hf _ _ hanchor hr _ hdiscard hflunked =>
    obtain ⟨htemperate, hlasting⟩ := exits_flunked hflunked h (hside hanchor hr)
    obtain ⟨htemperate', hlasting'⟩ := htemperate.shrunk ((discard_reduces _).ok hdiscard) hsides
    exact ⟨htemperate', trans_of Lasting hlasting hlasting'⟩
  | gone _ _ _ hflunked =>
    rcases hflunked with rfl | ⟨g, r, hanchor, hr, rfl⟩
    · exact ⟨h, refl_of Lasting m.cache⟩
    · exact exits_flunked rfl h (hside hanchor hr)

/-- A failed recording is counted. -/
theorem Bounded.failed (h : Bounded config n m) (hrests : m.recording = false)
    {anchor : Option GuardId}
    (hw : Willing config.maxRecordAttempts config.maxBranchAttempts n m.cache id anchor)
    (hfailed : Failed id anchor m m') : Charged config n m m' := by
  obtain ⟨stats, hm'⟩ := hfailed.frame
  obtain ⟨htemperate, hlasting⟩ := hfailed.temperate h.settings h.sides h.cache hw
  refine ⟨?_, hlasting⟩
  rw [hm']
  exact h.rested _ _ htemperate hrests

/-- The recorder gave the recording up, or there was none. -/
theorem Recorded.charged {α : Type} {x : Recording α} {P : α → Recorder → Prop} {e : MonitorError}
    (h : Bounded config n m) (hx : Ensures (Stopped m.recorder) x m.recorder P)
    (hr : Recorded x m (.error e) m') :
    Charged config n m m' := by
  cases hr with
  | idle hidle =>
    obtain ⟨rfl, -⟩ : _ = m.recorder ∧ _ := (ensures_error hidle).mp hx
    exact ⟨h, refl_of Lasting m.cache⟩
  | failed habort hid hfailed =>
    obtain ⟨-, hstate, r₁, -, rfl⟩ := (ensures_error habort).mp hx
    have hw := h.recording (recording_eq_true.mpr hstate) _ hid
    have hgone := h.rested r₁.reset m.stats h.cache rfl
    obtain ⟨h', hlasting⟩ := hgone.failed rfl hw hfailed
    exact ⟨h', hlasting⟩
  | stray habort _ =>
    obtain ⟨-, -, r₁, -, rfl⟩ := (ensures_error habort).mp hx
    exact ⟨h.rested r₁.reset m.stats h.cache rfl, refl_of Lasting m.cache⟩

theorem record_charged (h : Bounded config n m) (p : Primitive) :
    Ensures Anyhow (record p) m fun _ m' => Charged config n m m' := by
  unfold record
  have hrecord :=
    Trace.record_ensures (V := fun _ => True) (p := p) m.helpers m.config.maxTraceLength m.recorder
    fun _ _ _ _ => trivial
  refine .get ((onRecorder_records _).mono fun result m' hm' => ?_)
  cases result with
  | error e => exact hm'.charged h hrecord
  | ok a =>
    cases hm' with
    | @done _ r hok =>
      obtain ⟨hsame, hstate⟩ := (ensures_ok hok).mp hrecord
      refine ⟨⟨h.settings, h.loops, h.sides, h.failures, h.few, h.cache, fun _ id hid => ?_⟩,
        refl_of Lasting m.cache⟩
      have hw := h.recording (recording_eq_true.mpr hstate) id (hsame.fragment ▸ hid)
      exact hsame.anchor ▸ hw

theorem abortRecording_charged (h : Bounded config n m) (a : Abort) :
    Ensures Anyhow (abortRecording a) m fun _ m' => Charged config n m m' := by
  refine (abortRecording_ends a).mono fun _ m' hm' => ?_
  rcases hm' with ⟨rfl, -⟩ | ⟨id, hrecording, hid, hfailed⟩
  · exact ⟨h, refl_of Lasting m'.cache⟩
  · have hw := h.recording hrecording id hid
    have hgone := h.rested m.recorder.reset m.stats h.cache rfl
    obtain ⟨h', hlasting⟩ := hgone.failed rfl hw hfailed
    exact ⟨h', hlasting⟩

/-! ### Recordings that begin -/

/-- What may still be tried is recorded. -/
theorem Begun.charged {types : TypeMap} {anchor : Option GuardId} (hb : Begun id types anchor m m')
    (hnumbered : ∀ {j q}, m.cache.fragment? j = some q → q.id = j) (h : Bounded config n m)
    (hw : Willing config.maxRecordAttempts config.maxBranchAttempts n m.cache id anchor) : Charged
    config n m m' := by
  obtain ⟨f, root, r, stats, hf, -, hstart, rfl⟩ := hb
  have hstarted := start_started hstart
  have hmoved : Moved config.maxRecordAttempts (fun _ => False) m.cache
      (m.cache.update id ({ · with state := .recording })) :=
    moved_update hf (Fragment.eased_state (hw.loop hf).2 ⟨nofun, nofun⟩)
  have hanchor : ∀ g, r.anchor = some g → anchor = some g := by
    intro g hg
    rw [hstarted.anchor] at hg
    cases anchor with
    | none => cases hg
    | some g' =>
      obtain ⟨_, hpair, rfl⟩ := Option.map_eq_some_iff.mp hg
      obtain ⟨r', hr', rfl⟩ := Option.map_eq_some_iff.mp hpair
      exact congrArg some (h.cache.named g' r' hr').symm
  refine ⟨⟨h.settings, h.loops, h.sides, h.failures, h.few, h.cache.moved hmoved nofun h.sides,
    fun _ j hj => ?_⟩,
    hmoved.lasting⟩
  obtain rfl : id = j := by
    rw [hstarted.fragment, hnumbered hf] at hj
    exact Option.some.inj hj
  have hw' := hw.moved hmoved nofun h.loops h.sides
  exact ⟨hw'.loop, fun g hg => hw'.side g (hanchor g hg)⟩

/-- The fragment of a loop is found, or it is added. -/
theorem Chosen.moved {most : Int} (hmost : 0 < most) {key : LoopKey} {types : TypeMap}
    {V : Immediate → Prop}
    {B : FragmentId → LoopKey → Prop} (h : Rested V B m) (hc : Chosen key types m id m')
    (hf : m'.cache.fragment? id = some f) :
    ∃ c, m' = { m with cache := c } ∧ Moved most (· = key) m.cache c := by
  cases hc with
  | found hget hroot _ =>
    exact ⟨_, rfl, getOrCreate_moved hmost h.size hget (fragment?_eq_some.mp hroot).1⟩
  | typed hget hroot =>
    refine ⟨_, rfl, trans_of _ (getOrCreate_moved hmost h.size hget (fragment?_eq_some.mp hroot).1)
      (moved_counts _ _ fun f => ?_)⟩
    exact Fragment.eased_congr rfl rfl rfl rfl rfl
  | @added c c' j new made root hget hroot hadd =>
    have hj := (fragment?_eq_some.mp hroot).1
    obtain ⟨hfiled, hsize, root', hroot', -, rfl⟩ := getOrCreate_filed h.filed h.size hget hj
    rw [hroot] at hroot'
    cases hroot'
    rw [← hfiled.numbered hroot] at hroot
    exact ⟨c', rfl, trans_of _ (getOrCreate_moved hmost h.size hget hj)
      (addPeer_moved hmost hsize hroot hadd (fragment?_eq_some.mp hf).1)⟩

theorem loopEdge_charged {V : Immediate → Prop} {B : FragmentId → LoopKey → Prop}
    (ha : Accounted V B m)
    (h : Bounded config n m) (key : LoopKey) (types : TypeMap) :
    Ensures Anyhow (loopEdge key types) m fun _ m' => Charged config n m m' := by
  have hrested : m.recorder.state = .idle → ∀ stats, Rested V B { m with stats } :=
    fun hidle stats =>
    ⟨ha.filed, ha.size, ha.helpers, ha.trace, not_recording hidle⟩
  have hfresh : (m.spaceFailures[key]?.getD 0 : Nat) < m.config.maxRecordAttempts →
      ∀ key', key' = key → (n key' : Int) < config.maxRecordAttempts := by
    rintro hroom _ rfl
    rwa [h.failures, h.settings] at hroom
  have hcounts : ∀ (c : FragmentCache) (id : FragmentId), Moved config.maxRecordAttempts (· = key) c
      (c.update id fun f => { f with hits := f.hits + 1 }) := fun c id =>
    moved_counts c id fun f => Fragment.eased_congr rfl rfl rfl rfl rfl
  refine (loopEdge_loops key types).mono fun b m' hlooped => ?_
  cases hlooped with
  | skipped => exact h.shrunk _ (refl_of (Reduced Fragment.Shrunk) m.cache)
  | chosen hidle hchosen hf hroom =>
    obtain ⟨c, rfl, hmoved⟩ := hchosen.moved h.loops (hrested hidle _) hf
    exact h.moved _ hmoved (hfresh hroom)
  | counted hidle hchosen hf hroom =>
    obtain ⟨c, rfl, hmoved⟩ := hchosen.moved h.loops (hrested hidle _) hf
    exact h.moved _ (trans_of _ hmoved (hcounts c _)) (hfresh hroom)
  | @begun id stats m₁ m' hidle hchosen f hf hstate hbegun hroom =>
    obtain ⟨c, rfl, hmoved⟩ := hchosen.moved h.loops (hrested hidle _) hf
    obtain ⟨hrested₁, -, hkey⟩ := hchosen.rested (hrested hidle _) hf
    replace hmoved := trans_of _ hmoved (hcounts c id)
    obtain ⟨h₁, hlasting⟩ := h.moved stats hmoved (hfresh hroom)
    refine .trans hlasting (hbegun.charged (fun {j q} hq => ?_) h₁ ⟨fun {q} hq => ?_, nofun⟩)
    all_goals
      replace hq : (c.update id fun f => { f with hits := f.hits + 1 }).fragment? _ = some q := hq
      rw [fragment?_update (fragment?_eq_some.mp hf).1] at hq
    · split at hq
      · obtain ⟨q₀, hq₀, rfl⟩ := Option.map_eq_some_iff.mp hq
        show q₀.id = j
        exact hrested₁.filed.numbered hq₀
      · exact hrested₁.filed.numbered hq
    · replace hf : c.fragment? id = some f := hf
      rw [if_pos rfl, hf] at hq
      cases hq
      refine ⟨hkey ▸ hfresh hroom _ rfl, ?_⟩
      -- What is to be recorded was not tried for the last time.
      have hcounted : (c.update id fun f => { f with hits := f.hits + 1 }).fragment? id =
          some { f with hits := f.hits + 1 } := by
        rw [fragment?_update (fragment?_eq_some.mp hf).1, if_pos rfl, hf]
        rfl
      have htried := h₁.cache.tried hcounted
      refine Int.lt_iff_le_and_ne.mpr ⟨htried.few, fun hspent => ?_⟩
      rcases htried.spent hspent with hs | hs <;> rcases hstate with heq | heq <;>
        exact absurd (heq.symm.trans hs) nofun

/-! ### Dropping fragments -/

theorem Yielded.charged {on : FragmentId} (hy : Yielded on m m')
    (h : Bounded config n m) : Charged config n m m' := by
  cases hy with
  | idle => exact ⟨h, refl_of Lasting m.cache⟩
  | apart => exact ⟨h, refl_of Lasting m.cache⟩
  | branch _ _ _ _ hdiscard =>
    obtain ⟨htemperate, hlasting⟩ := h.cache.shrunk ((discard_reduces _).ok hdiscard) h.sides
    exact ⟨h.rested _ _ htemperate rfl, hlasting⟩
  | loop hrecording hid hf _ =>
    have hmore := ((h.recording hrecording _ hid).loop hf).2
    have hmoved : Moved config.maxRecordAttempts (fun _ => False) m.cache
        (m.cache.update _ ({ · with state := .failed })) :=
      moved_update hf (Fragment.eased_state hmore ⟨nofun, nofun⟩)
    exact ⟨h.rested _ _ (h.cache.moved hmoved nofun h.sides) rfl, hmoved.lasting⟩

theorem Expelled.charged {on : FragmentId} (he : Expelled on m m')
    (h : Bounded config n m) : Charged config n m m' := by
  obtain ⟨hyielded, hdrop⟩ := he
  obtain ⟨h₁, hlasting⟩ := hyielded.charged h
  exact .trans hlasting (h₁.shrunk _ ((invalidate_reduces on).ok hdrop))

/-- Nothing is left in the cache. -/
def Emptied (m : Monitor) : Prop := ∀ id, m.cache.cached? id = none

/-- Everything is dropped, after which the traces that did not fit may be counted anew. -/
theorem Cleared.charged {n' : LoopKey → Nat}
    {spaceFailures : Std.TreeMap LoopKey Nat} {stats : Stats}
    (hc : Cleared { m with stats, spaceFailures } m') (h : Bounded config n m)
    (hfailures : ∀ key, spaceFailures[key]?.getD 0 = n' key)
    (hfew : ∀ key, (n' key : Int) ≤ config.maxRecordAttempts) :
    Charged config n' m m' ∧ Emptied m' := by
  obtain ⟨hr, hflush⟩ := hc
  obtain ⟨htemperate, hlasting⟩ := h.cache.shrunk (flush_reduces.ok hflush) h.sides
  have hempty : Temperate _ _ n' _ := htemperate.emptied (flush_empties hflush)
  refine ⟨⟨⟨h.settings, h.loops, h.sides, hfailures, hfew, hempty, fun hrecording => ?_⟩, hlasting⟩,
    fun id => ?_⟩
  · rcases hr with ⟨-, rfl⟩ | ⟨hrests, rfl⟩
    · cases hrecording
    · exact absurd (hrests.symm.trans hrecording) nofun
  · refine Option.filter_eq_none_iff.mpr fun f hf => ?_
    rw [flush_empties hflush hf]
    nofun

theorem flush_charged (h : Bounded config n m) :
    Ensures Anyhow flush m fun _ m' => Charged config n m m' ∧ Emptied m' :=
  flush_clears.mono fun _ _ hc =>
    (show Cleared { m with stats := m.stats, spaceFailures := m.spaceFailures } _ from hc).charged
      h h.failures h.few

/-- A trace did not fit once more, perhaps. -/
def bump (n : LoopKey → Nat) (lost : Option LoopKey) : LoopKey → Nat :=
  fun k => if lost = some k then n k + 1 else n k

@[simp] theorem bump_none (n : LoopKey → Nat) : bump n none = n := rfl

theorem outOfSpace_charged (h : Bounded config n m) {key : LoopKey}
    (hroom : (n key : Int) < config.maxRecordAttempts) :
    Ensures Anyhow (outOfSpace key) m fun _ m' =>
    Charged config (bump n (some key)) m m' ∧ Emptied m' := by
  refine (outOfSpace_clears key).mono fun _ m' ⟨stats, hc⟩ => hc.charged h (fun k => ?_) fun k => ?_
  · rw [Std.TreeMap.getElem?_alter, bump]
    by_cases hk : key = k
    · subst hk
      rw [if_pos (Std.compare_eq_iff_eq.mpr rfl), if_pos rfl, ← h.failures]
      rfl
    · rw [if_neg (by simpa using hk), if_neg (by simpa using hk), h.failures]
  · rw [bump]
    split
    · next hk =>
      cases hk
      omega
    · exact h.few k

/-! ### Recordings that end -/

/-- The loop whose root a recording is below. -/
def recordedRoot? (m : Monitor) : Option LoopKey := do
  let id ← m.recorder.fragment
  let f ← m.cache.fragment? id
  let root ← m.cache.fragment? f.root
  return root.key

/-- Fragments stay with their loops when a recording fails. -/
theorem Failed.keyed {anchor : Option GuardId} (hfailed : Failed id anchor m m')
    {j : FragmentId} {q : Fragment}
    (hq : m.cache.fragment? j = some q) :
    ∃ q', m'.cache.fragment? j = some q' ∧ q'.key = q.key := by
  cases hfailed with
  | loop hf =>
    show ∃ q', (m.cache.update id _).fragment? j = some q' ∧ q'.key = q.key
    rw [fragment?_update (fragment?_eq_some.mp hf).1]
    split
    · exact ⟨_, congrArg (Option.map _) hq, rfl⟩
    · exact ⟨q, hq, rfl⟩
  | branch _ _ _ _ _ _ hdiscard =>
    obtain ⟨q', hq', hshrunk⟩ := ((discard_reduces _).ok hdiscard).forth hq
    exact ⟨q', hq', hshrunk.key⟩
  | gone => exact ⟨q, hq, rfl⟩

theorem endRecording_charged {V : Immediate → Prop} (ha : Accounted V (fun _ _ => True) m)
    (h : Bounded config n m)
    (stop : TypeMap) : Ensures Anyhow (endRecording stop) m fun result m' =>
      Operation.roomless result = false ∧ Charged config n m m' ∨
      Operation.roomless result = true ∧ Emptied m' ∧
        ∃ key, recordedRoot? m = some key ∧ Charged config (bump n (some key)) m m' := by
  refine (endRecording_ends stop).mono fun result m' hm' => ?_
  cases hm' with
  | idle => exact .inl ⟨rfl, h, refl_of Lasting m.cache⟩
  | unfinished _ _ _ hrecorded =>
    refine .inl ⟨?_, hrecorded.charged h (finish_ensures _ _ _ m.recorder)⟩
    cases hrecorded <;> rfl
  | @compiled id f f₁ target b r a c m' hrecording hid hf hfinish hf₁ hassemble hdeployed =>
    refine .inl ⟨rfl, ?_⟩
    have hmore := ((h.recording hrecording _ hid).loop hf).2
    have hmoved : Moved config.maxRecordAttempts (fun _ => False) m.cache c :=
      trans_of _ (attachTrace_moved m.cache id b _) ((assemble_moved _ _ _).ok hassemble)
    obtain ⟨f₂, hf₂, hkey⟩ := hmoved.forth hf
    have hf₂more : (f₂.attempts : Int) < config.maxRecordAttempts := by
      rcases hmoved.back hf₂ with ⟨q, hq, heased⟩ | ⟨hattempts, -⟩
      · rw [hf] at hq
        cases hq
        exact heased.attempts ▸ hmore
      · rw [hattempts]
        exact h.loops
    have hdone : ∀ {c'}, FragmentCache.install f.id a c = .ok () c' →
        Moved config.maxRecordAttempts (fun _ => False) m.cache c' := by
      intro c' hinstall
      rw [ha.filed.numbered hf] at hinstall
      obtain ⟨c₁, hreduced, rfl⟩ := install_reduces hinstall
      have hfirst : Reduced (Fragment.Eased config.maxRecordAttempts) c
          (c.update id fun f => { equip a f with state := f.state }) :=
        reduced_update c id fun _ => Fragment.eased_congr rfl rfl rfl rfl rfl
      have hequipped := trans_of _ hfirst (hreduced.mono fun _ _ h => h.eased)
      obtain ⟨f₃, hf₃, heased⟩ := hequipped.forth hf₂
      refine trans_of _ hmoved (trans_of _ (hequipped.moved fun _ _ h => h) (moved_update hf₃ ?_))
      exact Fragment.eased_state (heased.attempts ▸ hf₂more) ⟨nofun, nofun⟩
    have hreset : ∀ {r' : Recorder}, r.commit = .ok r' → r'.isRecording = false := by
      intro r' hcommit
      unfold Recorder.commit at hcommit
      split at hcommit <;> cases hcommit
      rfl
    cases hdeployed with
    | loop hinstall hcommit =>
      exact ⟨h.rested _ _ (h.cache.moved (hdone hinstall) nofun h.sides) (hreset hcommit),
        (hdone hinstall).lasting⟩
    | branch hinstall hcommit hpromote =>
      have hpromoted := trans_of _ (hdone hinstall)
        (((promote_reduces (F := Fragment.Shrunk) _ _).ok hpromote).shrunk_moved)
      exact ⟨h.rested _ _ (h.cache.moved hpromoted nofun h.sides) (hreset hcommit),
        hpromoted.lasting⟩
  | @rejected id f f₁ target b r e c stats m₁ m' hrecording hid hf hfinish hf₁ hassemble hfault
      hfailed hspace hroot =>
    have hw := h.recording hrecording _ hid
    have hmoved : Moved config.maxRecordAttempts (fun _ => False) m.cache
        (c.update id ({ · with trace := none, treeTarget := none })) := by
      refine trans_of _ (attachTrace_moved m.cache id b _)
        (trans_of _ ((assemble_moved _ _ _).error hassemble).1 ?_)
      exact moved_counts _ _ fun f => Fragment.eased_congr rfl rfl rfl rfl rfl
    have hrested : Bounded config n { m with
        stats, recorder := r.reset, cache :=
          c.update id ({ · with trace := none, treeTarget := none }) } :=
      h.rested _ _ (h.cache.moved hmoved nofun h.sides) rfl
    obtain ⟨h₁, hlasting⟩ := hrested.failed rfl (hw.moved hmoved nofun h.loops h.sides) hfailed
    replace hlasting : Lasting m.cache m₁.cache := trans_of Lasting hmoved.lasting hlasting
    by_cases hfull : NoSpace e
    · obtain ⟨root, hroot, hflush⟩ := hroot hfull
      -- The root is one of the same loop as before.
      obtain ⟨root₀, hroot₀, hkey₀⟩ := h.cache.rooted hf
      have hkey : root.key = f.key := by
        obtain ⟨q, hq, hqkey⟩ := hmoved.forth hroot₀
        obtain ⟨q', hq', hqkey'⟩ := hfailed.keyed hq
        rw [hroot] at hq'
        cases hq'
        exact hqkey'.trans (hqkey.trans hkey₀)
      obtain ⟨⟨h', hlasting'⟩, hempty⟩ :=
        (ensures_ok hflush).mp (outOfSpace_charged h₁ (hkey ▸ (hw.loop hf).1))
      refine .inr ⟨(roomless_iff _).mpr ⟨id, e, rfl, hfull⟩, hempty, root.key, ?_, h',
        trans_of Lasting hlasting hlasting'⟩
      unfold recordedRoot?
      simp [hid, hf, hroot₀, hkey₀, hkey]
    · obtain ⟨-, rfl⟩ := hspace.resolve_right fun hs => hfull hs.1
      refine .inl ⟨Bool.eq_false_iff.mpr fun hyes => ?_, h₁, hlasting⟩
      obtain ⟨_, _, heq, hs⟩ := (roomless_iff _).mp hyes
      cases heq
      exact hfull hs

/-! ### Exits -/

theorem handleExit_charged {V : Immediate → Prop} {B : FragmentId → LoopKey → Prop}
    (ha : Accounted V B m)
    (h : Bounded config n m) (g : GuardId) :
    Ensures Anyhow (handleExit g) m fun _ m' => Charged config n m m' := by
  have hexits : ∀ (r : Guard) (fresh : LoopKey → Prop), Moved config.maxRecordAttempts fresh m.cache
      (m.cache.updateExit r.exit fun e => { e with hits := e.hits + 1 }) := fun r _ =>
    moved_exits (enlarged_modify m.cache.exits r.exit
        (g := fun e => { e with hits := e.hits + 1 }) fun _ =>
      ⟨rfl, rfl⟩) rfl rfl rfl
  have hpassed : ∀ (r : Guard) (source : Fragment) (fresh : LoopKey → Prop),
      Moved config.maxRecordAttempts fresh m.cache (passed m.cache r source) :=
        fun r source fresh =>
    trans_of _ (hexits r fresh)
        (moved_counts _ source.id (g := fun f => { f with exits := f.exits + 1 }) fun f =>
      Fragment.eased_congr rfl rfl rfl rfl rfl)
  -- A branch is added below a fragment that is cached, so its loop may be tried.
  have hattached : ∀ {r : Guard} {source child : Fragment} {id : FragmentId} {c : FragmentCache},
      m.cache.cached? r.source = some source →
        FragmentCache.attachChild source r (passed m.cache r source) = .ok id c →
      c.fragment? id = some child →
        ((n source.key : Int) < config.maxRecordAttempts ∧ child.key = source.key ∧
        child.attempts = 0) ∧ Moved config.maxRecordAttempts (· = source.key) m.cache c := by
    intro r source child id c hs hattach hchild
    obtain ⟨hsource, hcached⟩ := Option.filter_eq_some_iff.mp hs
    have hroom := h.cache.room hsource hcached
    have hmoved := hpassed r source (· = source.key)
    obtain ⟨root, hroot, hkey⟩ := h.cache.rooted hsource
    obtain ⟨root', hroot', hkey'⟩ := hmoved.forth hroot
    rw [← ha.filed.numbered hsource] at hsource
    obtain ⟨source', hsource', -⟩ := hmoved.forth hsource
    have hsize := (ha.passed r source m.stats).size
    refine ⟨⟨hroom, attachChild_untried hsize hsource' hattach hchild⟩, trans_of _ hmoved ?_⟩
    exact attachChild_moved h.loops hsize hsource' hroot' (hkey'.trans hkey) hattach
      (fragment?_eq_some.mp hchild).1
  refine (handleExit_exits g).mono fun b m' hexited => ?_
  cases hexited with
  | @stray r => exact h.moved _ (hexits r fun _ => False) nofun
  | @counted r source => exact h.moved _ (hpassed r source fun _ => False) nofun
  | @dropped r source stats gone m' _ _ hdrop =>
    obtain ⟨h₁, hlasting⟩ := h.moved stats (hpassed r source fun _ => False) nofun
    exact .trans hlasting (((ensures_ok hdrop).mp (invalidate_expels source.id)).charged h₁)
  | refused hidle _ hs hattach hchild hdiscard =>
    -- The branch is found before it is discarded.
    obtain ⟨⟨hroom, -⟩, hmoved⟩ := hattached hs hattach hchild
    exact h.moved _ (trans_of _ hmoved ((discard_reduces _).ok hdiscard).shrunk_moved)
      (fun _ hkey => hkey ▸ hroom)
  | @branched r source child id stats c m' hidle hr hs hattach hchild hbegun hopen =>
    obtain ⟨⟨hroom, hkey, hattempts⟩, hmoved⟩ := hattached hs hattach hchild
    obtain ⟨h₁, hlasting⟩ := h.moved stats hmoved fun _ hkey => hkey ▸ hroom
    obtain ⟨hrested, -, -⟩ := ha.attached hidle hs hattach hchild stats
    refine .trans hlasting
      (hbegun.charged hrested.filed.numbered h₁ ⟨fun {f} hf => ?_, fun g' hg' => ?_⟩)
    · obtain rfl : child = f := Option.some.inj (hchild.symm.trans hf)
      rw [hkey, hattempts]
      exact ⟨hroom, h.loops⟩
    · cases hg'
      obtain ⟨r', hr', hexit, -⟩ := hmoved.guards.kept g r hr
      refine ⟨r', hr', fun e' he' => ?_⟩
      rcases hmoved.exits.back _ e' he' with ⟨e, he, hsame, -⟩ | ⟨hnew, -⟩
      · rw [hexit] at he
        have htried := h.cache.exits e (Array.mem_of_getElem? he)
        have hmore : e.blacklisted = false := by
          unfold exitOf passed at hopen
          change ((m.cache.exits.modify r.exit fun e =>
            { e with hits := e.hits + 1 })[r.exit]?.getD default).blacklisted = _
            at hopen
          rw [Array.getElem?_modify, if_pos rfl, he] at hopen
          exact hopen
        rw [hsame]
        refine Int.lt_iff_le_and_ne.mpr ⟨htried.few, fun hspent => ?_⟩
        rw [htried.spent.mpr hspent] at hmore
        cases hmore
      · rw [hnew]
        exact h.sides

/-! ### Histories -/

/-- The loop whose trace an operation cannot find room for. -/
def Operation.misfit? (m : Monitor) : Operation → Option LoopKey
  | finish stop =>
    match endRecording stop m with
    | .ok result _ => if Operation.roomless result then recordedRoot? m else none
    | .error _ _ => none
  | _ => none

/-- The monitors that a sequence of operations leads to, with how often no room was found for the
trace of a fragment whose root is of a given loop. -/
inductive Tallied (config : Config) : (LoopKey → Nat) → Monitor → Prop where
  | start {m : Monitor} (h : Monitor.create config = .ok m) : Tallied config (fun _ => 0) m
  | step {n : LoopKey → Nat} {m m' : Monitor} {op : Operation} (h : Tallied config n m)
      (hrun : op.run m = .ok () m') :
      Tallied config (bump n (op.misfit? m)) m'
  | close {n : LoopKey → Nat} {m m' : Monitor} {result : Except CloseError Unit}
      (h : Tallied config n m)
      (hrun : Monitor.close m = .ok result m') : Tallied config n m'

/-- One operation. -/
theorem Bounded.step (ha : Accounted (fun _ => True) (fun _ _ => True) m)
    (h : Bounded config n m) {op : Operation}
    (hrun : op.run m = .ok () m') : Charged config (bump n (op.misfit? m)) m m' := by
  cases op with
  | loopEdge key types =>
    obtain ⟨b, hok⟩ := ignored_eq_ok hrun
    exact (ensures_ok hok).mp (loopEdge_charged ha h key types)
  | record p =>
    obtain ⟨b, hok⟩ := ignored_eq_ok hrun
    exact (ensures_ok hok).mp (record_charged h p)
  | finish stop =>
    obtain ⟨result, hok⟩ := ignored_eq_ok hrun
    have hmisfit : (Operation.finish stop).misfit? m = if Operation.roomless result
        then recordedRoot? m else none := by
      show (match endRecording stop m with
        | .ok result _ => if Operation.roomless result then recordedRoot? m else none
        | .error _ _ => none) = _
      rw [hok]
    rcases (ensures_ok hok).mp (endRecording_charged ha h stop)
      with ⟨hroom, hcharged⟩ | ⟨hfull, -, key, hkey, hcharged⟩
    · rwa [hmisfit, hroom, if_neg Bool.false_ne_true, bump_none]
    · rwa [hmisfit, if_pos hfull, hkey]
  | abort a => exact (ensures_ok hrun).mp (abortRecording_charged h a)
  | execute fuel id slots =>
    obtain ⟨b, hok⟩ := ignored_eq_ok hrun
    have hran := (keepsAt_ok hok).mp (execute_ran ha.helpers fuel id slots)
    refine ⟨⟨hran.config.trans h.settings, h.loops, h.sides, hran.spaceFailures ▸ h.failures, h.few,
      hran.cache ▸ h.cache, ?_⟩,
      hran.cache ▸ refl_of Lasting m.cache⟩
    unfold Monitor.recording
    rw [hran.recorder, hran.cache]
    exact h.recording
  | exit g =>
    obtain ⟨b, hok⟩ := ignored_eq_ok hrun
    exact (ensures_ok hok).mp (handleExit_charged ha h g)
  | invalidate id =>
    obtain ⟨b, hok⟩ := ignored_eq_ok hrun
    exact ((ensures_ok hok).mp (invalidate_expels id)).charged h
  | flush => exact ((ensures_ok hrun).mp (flush_charged h)).1

theorem Bounded.close (h : Bounded config n m) :
    Ensures Anyhow Monitor.close m fun _ m' => Charged config n m m' := by
  unfold Monitor.close
  refine .get ?_
  split
  · exact .pure ⟨h, refl_of Lasting m.cache⟩
  · refine .modify_bind ?_
    have hclosed : Bounded config n { m with closed := true } :=
      ⟨h.settings, h.loops, h.sides, h.failures, h.few, h.cache, h.recording⟩
    refine .bind (flush_charged hclosed) fun _ m₁ ⟨⟨h₁, hlasting⟩, _⟩ =>
      caching_bind fun owned c hclose => .pure ?_
    cases hclose
    have hreleased : Moved config.maxRecordAttempts (fun _ => False) m₁.cache
        { m₁.cache with region := m₁.cache.region.close.1 } :=
      moved_exits (refl_of Enlarged m₁.cache.exits) rfl rfl rfl
    exact .trans hlasting (h₁.moved _ hreleased nofun)

theorem create_bounded (h : Monitor.create config = .ok m) : Bounded config (fun _ => 0) m := by
  have hvalid : ∃ u, config.validate = .ok u := by
    unfold Monitor.create at h
    cases hv : config.validate with
    | error e =>
      rw [hv] at h
      cases h
    | ok u => exact ⟨u, rfl⟩
  obtain ⟨u, hvalid⟩ := hvalid
  obtain ⟨hloops, hsides⟩ := validate_attempts hvalid
  obtain ⟨-, r, r', -, -, rfl⟩ := create_eq h
  refine ⟨rfl, hloops, hsides, fun key => ?_, fun key => Int.le_of_lt hloops,
    temperate_new _ _ _ _ _, nofun⟩
  show (({} : Std.TreeMap LoopKey Nat)[key]?).getD 0 = 0
  rw [Std.TreeMap.getElem?_emptyc]
  rfl

theorem Tallied.bounded (h : Tallied config n m) :
    Accounted (fun _ => True) (fun _ _ => True) m ∧ Bounded config n m := by
  induction h with
  | start h => exact ⟨create_accounted h, create_bounded h⟩
  | step _ hrun ih => exact ⟨ih.1.step hrun, (ih.2.step ih.1 hrun).bounded⟩
  | close _ hrun ih =>
    exact ⟨(ensures_ok hrun).mp ih.1.close, ((ensures_ok hrun).mp ih.2.close).bounded⟩

/-- After every history of operations: for no loop was no room found more often than it may be
tried, each time with everything dropped; a loop for which it was not found that often is neither
cached nor recorded from then on. A fragment was tried no more often than it may be, and so was an
exit; they are left alone when they were tried that often, and only then, and what is left alone at
an exit stays so. No branch is recorded from an exit that is left alone. -/
theorem retries_bounded (h : Tallied config n m) :
    (∀ key, (n key : Int) ≤ config.maxRecordAttempts) ∧
      (∀ key, (n key : Int) = config.maxRecordAttempts →
        (∀ id f, m.cache.cached? id = some f → f.key ≠ key) ∧
        ∀ id f, Engaged m id f → f.key ≠ key) ∧
      (∀ stop result m', endRecording stop m = .ok result m' → Operation.roomless result = true →
        Emptied m' ∧ ∃ key, recordedRoot? m = some key) ∧
      (∀ id f, m.cache.fragment? id = some f → (f.attempts : Int) ≤ config.maxRecordAttempts ∧
        (f.cached = true →
          (f.state = .blacklisted ↔ (f.attempts : Int) = config.maxRecordAttempts))) ∧
      (∀ e ∈ m.cache.exits, (e.attempts : Int) ≤ config.maxBranchAttempts ∧
        (e.blacklisted = true ↔ (e.attempts : Int) = config.maxBranchAttempts)) ∧
      (∀ op m', Operation.run op m = .ok () m' → Lasting m.cache m'.cache) ∧
      (∀ result m', Monitor.close m = .ok result m' → Lasting m.cache m'.cache) ∧
      (m.recording = true → ∀ g, m.recorder.anchor = some g →
        ∃ r, m.cache.guards[g]? = some r ∧ (m.cache.exitOf r).blacklisted = false) := by
  obtain ⟨ha, hb⟩ := h.bounded
  refine ⟨hb.few, fun key hkey => ⟨?_, ?_⟩, ?_, ?_, fun e he => ?_, ?_, ?_, ?_⟩
  · rintro id f hf rfl
    obtain ⟨hf, hcached⟩ := Option.filter_eq_some_iff.mp hf
    exact absurd hkey (Int.ne_of_lt (hb.cache.room hf hcached))
  · rintro id f hengaged rfl
    have hw := hb.recording hengaged.recording id hengaged.fragment
    exact absurd hkey (Int.ne_of_lt (hw.loop hengaged.found).1)
  · intro stop result m' hend hfull
    rcases (ensures_ok hend).mp (endRecording_charged ha hb stop)
      with ⟨hroom, -⟩ | ⟨-, hempty, key, hkey, -⟩
    · exact absurd (hroom.symm.trans hfull) nofun
    · exact ⟨hempty, key, hkey⟩
  · intro id f hf
    have htried := hb.cache.tried hf
    exact ⟨htried.few, fun hcached => ⟨htried.last, fun hspent =>
      (htried.spent hspent).resolve_right (htried.live hcached)⟩⟩
  · have htried := hb.cache.exits e he
    exact ⟨htried.few, htried.spent⟩
  · exact fun op m' hrun => (hb.step ha hrun).lasting
  · exact fun result m' hrun => ((ensures_ok hrun).mp hb.close).lasting
  · intro hrecording g hg
    obtain ⟨id, f, hengaged⟩ := ha.engaged hrecording
    obtain ⟨r, hr, hopen⟩ := (hb.recording hrecording id hengaged.fragment).side g hg
    refine ⟨r, hr, ?_⟩
    unfold exitOf
    cases he : m.cache.exits[r.exit]? with
    | none => rfl
    | some e =>
      refine Bool.eq_false_iff.mpr fun hlast => absurd (hopen e he) ?_
      rw [(hb.cache.exits e (Array.mem_of_getElem? he)).spent.mp hlast]
      exact Int.lt_irrefl _

theorem Reached.tallied {permitted : Monitor → Operation → Prop}
    (h : Reached permitted config m) : ∃ n, Tallied config n m := by
  induction h with
  | start h => exact ⟨_, .start h⟩
  | step _ _ hrun ih =>
    obtain ⟨n, ih⟩ := ih
    exact ⟨_, ih.step hrun⟩

/-- Settings under which nothing is tried twice and there is room for the code of one trace. -/
def scarce : Config :=
  { eager with maxRecordAttempts := 1, maxBranchAttempts := 1, maxCodePages := 3 }

/-- The branch at the guard of the root is given up. -/
def pruning : List Operation := rooted ++ [.exit 1, abandoning]

/-- The theorem where a branch is given up, after which its exit is left alone, and where then a peer
does not fit, after which the loop is neither cached nor recorded. -/
theorem scarce_retried : ∃ n n' m m' e, Tallied scarce n m ∧ e ∈ m.cache.exits ∧
    (e.attempts : Int) = 1 ∧ e.blacklisted = true ∧ Tallied scarce n' m' ∧ n' firstLoop = 1 ∧
    (∀ id f, m'.cache.cached? id = some f → f.key ≠ firstLoop) ∧
    ∀ id f, Engaged m' id f → f.key ≠ firstLoop := by
  obtain ⟨m, hm, hfacts⟩ := reached_of_run (fun _ _ => True) scarce pruning
    (fun m => m.cache.exits.any (·.attempts = 1) &&
      (after (fun _ _ => True)
        [.loopEdge firstLoop [.float], .record (doubling .float), .finish [.float]] m).any
        (·.spaceFailures[firstLoop]? = some 1))
    (by decide +kernel)
  rw [Bool.and_eq_true, Array.any_eq_true', Option.any_eq_true] at hfacts
  obtain ⟨⟨e, he, hattempts⟩, m', hafter, hfailures⟩ := hfacts
  obtain ⟨n, hn⟩ := hm.tallied
  obtain ⟨n', hn'⟩ := (hm.after hafter).tallied
  have hfull : n' firstLoop = 1 := by
    rw [← hn'.bounded.2.failures, of_decide_eq_true hfailures]
    rfl
  have hspent : (e.attempts : Int) = 1 := by rw [of_decide_eq_true hattempts]; rfl
  obtain ⟨-, -, -, -, hexits, -⟩ := retries_bounded hn
  obtain ⟨-, hloops, -⟩ := retries_bounded hn'
  obtain ⟨hcached, hengaged⟩ := hloops firstLoop (congrArg Nat.cast hfull)
  exact ⟨n, n', m, m', e, hn, he, hspent, (hexits e he).2.mpr hspent, hn', hfull, hcached, hengaged⟩

end LoopTracer.Monitor
