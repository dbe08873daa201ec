import LoopTracer.Proofs.Fragment.Excision
import LoopTracer.Proofs.Machine.Running
import LoopTracer.Proofs.Monitor.Recordings
import LoopTracer.Proofs.Monitor.Settings
import LoopTracer.Proofs.Trace.Sealing

/-! Histories of a monitor.

`Operation` is what can be asked of a monitor, and `Reached` are the monitors that a history of
permitted operations leads to. What one operation does to a monitor in order (`run_ensures`) gives
what holds after any history of operations that do not overlook a recording (`Reached.inv`). -/
namespace LoopTracer.Monitor

open Trace Compile FragmentCache Machine

variable {m m' : Monitor} {p q : Prop} {id : FragmentId} {f : Fragment}

/-! ### Running compiled code and leaving it -/

/-- Compiled code has run: only the machine, the count of runs and the strings have changed. -/
structure Ran (m m' : Monitor) : Prop extends Still m m' where
  stats : ∃ executions, m'.stats = { m.stats with executions }
  heap : m.helpers = .standard → m.heap.Grows m'.heap
  config : m'.config = m.config
  closed : m'.closed = m.closed
  spaceFailures : m'.spaceFailures = m.spaceFailures
  machine : m'.machine.isSome = m.machine.isSome

instance : IsPreorder Monitor Ran where
  refl _ := ⟨⟨rfl, rfl, rfl, rfl⟩, ⟨_, rfl⟩, fun _ => refl_of StringHeap.Grows _,
    rfl, rfl, rfl, rfl⟩
  trans _ _ _ h h' :=
    ⟨⟨h'.cache.trans h.cache, h'.recorder.trans h.recorder, h'.limits.trans h.limits,
    h'.helpers.trans h.helpers⟩, h'.stats.imp fun _ hn => by rw [hn, h.stats.choose_spec],
    fun hs => trans_of StringHeap.Grows (h.heap hs) (h'.heap (h.helpers.trans hs)),
    h'.config.trans h.config,
    h'.closed.trans h.closed, h'.spaceFailures.trans h.spaceFailures, h'.machine.trans h.machine⟩

/-- Running a fragment. -/
theorem execute_ran (hs : m.helpers = .standard) (fuel : Nat) (id : FragmentId)
    (slots : Array UInt64) :
    KeepsAt Ran Tame (execute fuel id slots) m := by
  have hcount : Keeps Ran Tame (count fun s => { s with executions := s.executions + 1 }) :=
    .modify fun m =>
      ⟨⟨rfl, rfl, rfl, rfl⟩, ⟨_, rfl⟩, fun _ => refl_of StringHeap.Grows _, rfl, rfl, rfl, rfl⟩
  unfold execute
  refine .bind (Keeps.get m) fun _ _ h => ?_
  cases h
  split
  · exact Keeps.pure _ _
  cases hf : m.cache.fragment? id with
  | none => exact (keepsAt_error (bind_error (fragment_none hf))).mpr ⟨refl_of Ran m,
    fun _ _ h => by cases h⟩
  | some f =>
  refine .after (refl_of Ran m) ?_ (bind_ok (fragment_some hf))
  split
  · exact Keeps.pure _ _
  refine .bind (hcount _) fun _ m₂ h => ?_
  obtain rfl := (EStateM.Result.ok.inj h).2
  extract_lets run
  have hrun : KeepsAt Ran Tame run
      { m with stats := { m.stats with executions := m.stats.executions + 1 } } := by
    unfold KeepsAt run
    dsimp only
    cases m.machine with
    | none => exact ⟨refl_of Ran _, fun _ _ h => by cases h⟩
    | some machine =>
      dsimp only
      obtain ⟨hheap, hfault⟩ :=
        runFrom_mannered (hs ▸ mannered_standard) m.cache.region.seen m.maxSteps fuel
        f.entry.toNat { machine with slots, overflow := false, args := #[], steps := 0 } m.heap
      split
      · next hok =>
        split at hok
        · cases hok
        · cases hok
          exact ⟨⟨rfl, rfl, rfl, rfl⟩, ⟨_, rfl⟩, fun _ => hheap, rfl, rfl, rfl, rfl⟩
      · next herror =>
        split at herror
        · next hout =>
          cases herror
          exact ⟨⟨⟨rfl, rfl, rfl, rfl⟩, ⟨_, rfl⟩, fun _ => hheap, rfl, rfl, rfl, rfl⟩,
            hfault _ hout⟩
        · cases herror
  clear_value run
  refine .bind hrun fun result m₃ _ => ?_
  split
  · exact Keeps.pure _ _
  · refine .bind (Keeps.get _) fun _ _ _ => ?_
    split
    · exact Keeps.pure _ _
    · exact Keeps.pure _ _
  · exact Keeps.pure _ _

theorem execute_ensures (h : Inv p q m) (fuel : Nat) (id : FragmentId) (slots : Array UInt64) :
    Ensures Harmless (execute fuel id slots) m fun _ m' => Inv p q m' := by
  have hran := execute_ran h.helpers fuel id slots
  cases hexecute : execute fuel id slots m with
  | ok a m' => exact (ensures_ok hexecute).mpr (h.still ((keepsAt_ok hexecute).mp hran).toStill)
  | error f m' => exact (ensures_error hexecute).mpr ((keepsAt_error hexecute).mp hran).2

/-- The fragment that is dropped when an exit is taken once more. -/
def exhausted? (m : Monitor) (g : GuardId) : Option FragmentId := do
  let g ← m.cache.guards[g]?
  let source ← m.cache.cached? g.source
  if m.config.invalidateThreshold ≤ (source.exits + 1 : Nat) then some source.id else none

theorem exhausted?_eq {r : Guard} (hr : m.cache.guards[r.id]? = some r) : m.exhausted? r.id =
    (m.cache.cached? r.source).bind fun source =>
      if m.config.invalidateThreshold ≤ (source.exits + 1 : Nat) then some source.id else none := by
  unfold exhausted?
  rw [hr]
  rfl

/-- What an operation leaves that may drop a fragment. -/
def Aftermath (p q : Prop) (evicted : Option FragmentId) (m m' : Monitor) : Prop :=
  match evicted with
  | some id => Evicted p q id m m'
  | none => Inv p q m'

/-- The cache after an exit was counted, for itself and for its fragment. -/
def tallied (c : FragmentCache) (r : Guard) : FragmentCache :=
  (c.updateExit r.exit fun e => { e with hits := e.hits + 1 }).update r.source fun f =>
    { f with exits := f.exits + 1 }

section tallied

variable {r : Guard} {source : Fragment}

theorem cached?_tallied {c : FragmentCache} (hs : c.cached? r.source = some source)
    (j : FragmentId) :
    (tallied c r).cached? j = if j = r.source then some { source with exits := source.exits + 1 }
    else c.cached? j := by
  have hs' : (c.updateExit r.exit fun e => { e with hits := e.hits + 1 }).cached? r.source =
    some source := hs
  exact cached?_update hs' rfl j

theorem map_outline_tallied (c : FragmentCache) (r : Guard) :
    (tallied c r).fragments.map outline = c.fragments.map outline := map_outline_update fun _ => rfl

theorem Inv.tallied (h : Inv p q m) (hs : m.cache.cached? r.source = some source) :
    Inv p q { m with cache := tallied m.cache r } := by
  let c := m.cache.updateExit r.exit fun e => { e with hits := e.hits + 1 }
  have hs' : c.cached? r.source = some source := hs
  have hnoted : Noted c source { source with exits := source.exits + 1 } := noted_counts _ _ _ _ _ _
  have hsound := (h.sound.noting ((Noting.refl m.cache).exits c.exits)).noting
    (noting_update (g := fun f => { f with exits := f.exits + 1 }) (fragment?_of_cached hs') hnoted)
  have hsubject : ∀ s, m.cache.Subject s → c.Subject s := fun s hsubject => hsubject.congr rfl
  refine h.recached hsound rfl (fun s hs => (hsubject s hs).update hs' rfl rfl) fun {j f} hj => ?_
  rw [cached?_tallied hs]
  split
  · next hsame =>
    subst hsame
    rw [hs] at hj
    cases hj
    exact ⟨_, rfl, rfl, rfl⟩
  · exact ⟨f, hj, rfl, rfl⟩

end tallied

/-- Recording of a branch begins, or the branch is dropped again. -/
theorem startBranch_ensures (h : Resting p q m) {new : Fragment}
    (hf : m.cache.cached? id = some new)
    (hopen : new.state ≠ .compiled) {g : GuardId} (hanchor : new.anchor = some g)
    (types : TypeMap) :
    Ensures Harmless (do
      if ← startRecording id types (some g) then return true
      caching (FragmentCache.discard (← fragment id))
      return false) m fun _ m' => Inv p q m' := by
  refine .bind (startRecording_ensures h hf hopen (some g) (fun _ hg => hg ▸ hanchor) types)
    fun b m₁ hm₁ => ?_
  cases b with
  | true => exact .pure hm₁
  | false =>
    obtain rfl : m₁ = m := hm₁
    refine fragment_bind fun f' hf' => ?_
    rw [fragment?_of_cached hf] at hf'
    cases hf'
    refine .bind (caching_ensures (FragmentCache.discard_ensures h.sound hf)) ?_
    rintro _ _ ⟨c, rfl, hsound, hpruned, -⟩
    exact .pure ⟨h.toCoherent.recached hsound hpruned.backend,
      .idle h.idle (h.subject.pruned hpruned nofun)⟩

theorem handleExit_ensures (h : Inv p q m) (g : GuardId) :
    Ensures Harmless (handleExit g) m fun _ m' => Aftermath p q (m.exhausted? g) m m' := by
  unfold handleExit
  refine guard_bind fun r hr => .get (count_bind (updateCache_bind (.get ?_)))
  obtain ⟨rfl, f, hf, -, hcompiled⟩ := h.sound.trees.records hr
  dsimp only
  split
  · next source hs =>
    replace hs : m.cache.cached? r.source = some source := hs
    have hid : source.id = r.source := h.sound.trees.numbered (fragment?_of_cached hs)
    have hstate : source.state = .compiled := by
      rw [fragment?_of_cached hs] at hf
      exact Option.some.inj hf ▸ hcompiled (Option.some.inj hf ▸ (cached?_eq_some.mp hs).2)
    rw [hid]
    refine updateFragment_bind (.get ?_)
    dsimp only
    change Ensures Harmless _ { m with
      stats := m.stats.exit (m.cache.exitOf r).exit.kind, cache := tallied m.cache r } _
    have h₁ : Inv p q { m with
        stats := m.stats.exit (m.cache.exitOf r).exit.kind, cache := tallied m.cache r } :=
      (h.tallied hs).still ⟨rfl, rfl, rfl, rfl⟩
    have hf₁ : (tallied m.cache r).cached? r.source =
        some { source with exits := source.exits + 1 } := by
      rw [cached?_tallied hs, if_pos rfl]
    split
    · next hexhausted =>
      have hout : m.exhausted? r.id = some r.source := by
        rw [exhausted?_eq hr, hs, Option.bind_some, if_pos hexhausted, hid]
      rw [hout]
      refine .bind (invalidate_ensures h₁ fun _ => ⟨_, hf₁⟩) fun _ m' he => .pure ?_
      have hover : Overlooks { m with stats := m.stats.exit (m.cache.exitOf r).exit.kind,
                                      cache := tallied m.cache r } r.source ↔
          Overlooks m r.source := by
        apply overlooks_congr
        · exact map_outline_tallied m.cache r
        · rfl
      exact ⟨he.toCoherent, fun hseen => he.linked fun h => hseen (hover.mp h),
        fun h => he.stray (hover.mpr h)⟩
    · next hfresh =>
      have hout : m.exhausted? r.id = none := by
        rw [exhausted?_eq hr, hs, Option.bind_some, if_neg hfresh]
      rw [hout]
      split
      · exact .pure h₁
      next hready =>
      split
      · exact .pure h₁
      have hidle : m.recorder.state = .idle := by
        simp only [Bool.or_eq_true, decide_eq_true_eq, not_or] at hready
        exact Classical.not_not.mp hready.2
      have hrest := h₁.resting hidle
      rw [← hid] at hf₁
      have hattach := attachChild_ensures hrest.sound.trees hf₁ hstate rfl rfl hr
      refine .bind (caching_ensures hattach) ?_
      rintro child _ ⟨c, rfl, hchild⟩
      refine fragment_bind fun new hnew => ?_
      obtain ⟨new', hgrown, -, hanchor⟩ := hchild.resolve_left fun hzero => by
        rw [hzero] at hnew
        exact (fragment?_eq_some.mp hnew).1 rfl
      have hopen : new'.state ≠ .compiled := by
        obtain ⟨_, _, _, _, _, _, rfl⟩ := hgrown.sprout.blank
        nofun
      exact startBranch_ensures (hrest.grown hgrown).1 hgrown.cached_new hopen hanchor _
  · next hnone =>
    have hout : m.exhausted? r.id = none := by
      have hnone : m.cache.cached? r.source = none := Option.eq_none_iff_forall_ne_some.mpr hnone
      rw [exhausted?_eq hr, hnone, Option.bind_none]
    rw [hout]
    refine .pure (Inv.still
      (m := { m with cache := m.cache.updateExit r.exit fun e => { e with hits := e.hits + 1 } }) ?_
      ⟨rfl, rfl, rfl, rfl⟩)
    exact h.recached (h.sound.noting ((Noting.refl m.cache).exits _)) rfl (fun s hs => hs.congr rfl)
      fun hf => ⟨_, hf, rfl, rfl⟩

/-! ### Histories -/

/-- What can be asked of a monitor. -/
inductive Operation where
  | loopEdge (key : LoopKey) (types : TypeMap)
  | record (x : Primitive)
  | finish (stop : TypeMap)
  | abort (a : Abort)
  | execute (fuel : Nat) (id : FragmentId) (slots : Array UInt64)
  | exit (guard : GuardId)
  | invalidate (id : FragmentId)
  | flush

namespace Operation

def run : Operation → Monitoring Unit
  | loopEdge key types => Functor.discard (Monitor.loopEdge key types)
  | record x => Functor.discard (Monitor.record x)
  | finish stop => Functor.discard (Monitor.endRecording stop)
  | abort a => Monitor.abortRecording a
  | execute fuel id slots => Functor.discard (Monitor.execute fuel id slots)
  | exit guard => Functor.discard (Monitor.handleExit guard)
  | invalidate id => Functor.discard (Monitor.invalidate id)
  | flush => Monitor.flush

/-- The fragment that an operation drops on its own account, with all that depends on it. -/
def evicts (m : Monitor) : Operation → Option FragmentId
  | exit guard => m.exhausted? guard
  | invalidate id => some id
  | _ => none

/-- No fragment is left or dropped during a recording. -/
def Quiet (m : Monitor) : Operation → Prop
  | exit _ | invalidate _ => m.recording = false
  | _ => True

end Operation

/-- The monitors that permitted operations lead to. -/
inductive Reached (permitted : Monitor → Operation → Prop) (config : Config) : Monitor → Prop where
  | start {m : Monitor} (h : Monitor.create config = .ok m) : Reached permitted config m
  | step {m m' : Monitor} {op : Operation} (h : Reached permitted config m) (hop : permitted m op)
      (hrun : op.run m = .ok () m') : Reached permitted config m'

/-- The code region is so small that a branch reaches every address. -/
def Small (config : Config) : Prop := config.maxCodePages * config.pageSize < 2 ^ 31

/-- What one operation does. -/
theorem run_ensures (h : Inv p q m) (op : Operation)
    (hp : p → ∀ id, op = .invalidate id → ∃ f, m.cache.cached? id = some f) :
    Ensures Harmless op.run m fun _ m' => Aftermath p q (op.evicts m) m m' := by
  cases op with
  | loopEdge key types => exact .ignored (loopEdge_ensures h key types)
  | record x => exact .ignored (record_ensures h x)
  | finish stop => exact .ignored ((endRecording_ensures h stop).mono fun _ _ h => h.1)
  | abort a => exact abortRecording_ensures h a
  | execute fuel id slots => exact .ignored (execute_ensures h fuel id slots)
  | exit g => exact .ignored (handleExit_ensures h g)
  | invalidate id => exact .ignored (invalidate_ensures h fun hp' => hp hp' id rfl)
  | flush => exact flush_ensures h

theorem create_eq {config : Config} (h : Monitor.create config = .ok m) : 0 < config.pageSize ∧
    ∃ region region', CodePages.create config.maxCodePages config.pageSize config.native =
      .ok region ∧
      CodePages.installBailout config.machine region = .ok () region' ∧
      m = { config, limits := config.limits,
            cache := { backend := config.machine, region := region' }
            machine := if config.native then none else some {} } := by
  unfold Monitor.create at h
  cases hv : config.validate with
  | error e =>
    rw [hv] at h
    cases h
  | ok u =>
    have hsize := validate_pageSize hv
    rw [hv] at h
    change Monitor.build config config.native = _ at h
    unfold Monitor.build at h
    cases hr : CodePages.create config.maxCodePages config.pageSize config.native with
    | error e =>
      rw [hr] at h
      cases h
    | ok region =>
      rw [hr] at h
      simp only [Except.mapError, bind, Except.bind] at h
      split at h
      · cases h
      · next hb =>
        cases h
        exact ⟨by omega, region, _, rfl, hb, rfl⟩

/-- A new monitor is in order. -/
theorem create_inv {config : Config} (h : Monitor.create config = .ok m) : Inv p
    (Small config) m := by
  obtain ⟨hpage, r, r', hr, hb, rfl⟩ := create_eq h
  obtain ⟨mem, bailout, hsame, hlaid⟩ := CodePages.installBailout_eq hb
  obtain ⟨hcount, hreset⟩ := CodePages.create_eq hr
  have hpages : 0 < (CodePages.fresh config.maxCodePages.toNat).size := by
    rw [CodePages.fresh_size]
    omega
  have hsize : 0 < r.pages.size := by
    rw [hreset]
    show 0 < (CodePages.fresh _).size
    rw [CodePages.fresh_size]
    exact hpages
  have hheld : r'.Held fun _ _ => [] := by
    rw [hsame, hreset]
    obtain ⟨hfirst, ⟨l, hl⟩, hused, hnodup, hall⟩ := CodePages.held_reset
      { mem := { size := (signed64 (config.maxCodePages * config.pageSize)).toNat }
        pageSize := config.pageSize
        pages := CodePages.fresh config.maxCodePages.toNat } hpages
    exact ⟨hfirst, ⟨l, hl.linked, hl.nodup, hl.count, hl.all⟩, hused, hnodup, hall⟩
  have hsound := sound_new (p := p) config.machine hheld fun hsmall =>
    hlaid (CodePages.laid_create hr hpage hsmall) hsize
  exact ⟨⟨hsound, rfl, rfl⟩, .idle rfl (subject_none fun id => by simp [cached?, fragment?])⟩

/-- After every history of operations that overlook no recording. -/
theorem Reached.inv {permitted : Monitor → Operation → Prop} {config : Config}
    (h : Reached permitted config m)
    (hseen : ∀ m op, permitted m op → ∀ id, op.evicts m = some id → ¬ Overlooks m id)
    (hp : p → ∀ m op, permitted m op → ∀ id, op = .invalidate id →
      ∃ f, m.cache.cached? id = some f) :
    Inv p (Small config) m := by
  induction h with
  | start h => exact create_inv h
  | @step m m' op _ hop hrun ih =>
    have hafter := (ensures_ok hrun).mp (run_ensures ih op fun hp' => hp hp' m op hop)
    cases hevicts : op.evicts m with
    | none =>
      rw [hevicts] at hafter
      exact hafter
    | some id =>
      rw [hevicts] at hafter
      exact ⟨hafter.toCoherent, hafter.linked (hseen m op hop id hevicts)⟩

/-- Quiet operations overlook nothing. -/
theorem Operation.Quiet.seen {op : Operation} (h : op.Quiet m)
    (hevicts : op.evicts m = some id) : ¬ Overlooks m id := by
  rintro ⟨_, hrecording, -⟩
  have hquiet : m.recording = false := by
    cases op with
    | exit | invalidate => exact h
    | _ => cases hevicts
  rw [hquiet] at hrecording
  cases hrecording

/-! ### Histories that are run

Every operation is a function, so a history that is written down can be run, and what it leads to
is a matter of evaluation (`reached_of_run`). -/

def Operation.next? (op : Operation) (m : Monitor) : Option Monitor :=
  match op.run m with
  | .ok () m' => some m'
  | .error _ _ => none

theorem Operation.next?_eq_some {op : Operation} :
    op.next? m = some m' ↔ op.run m = .ok () m' := by
  unfold next?
  split
  · next m₁ hrun => rw [hrun, Option.some.injEq, EStateM.Result.ok.injEq, eq_self, true_and]
  · next e m₁ hrun => rw [hrun]; exact ⟨nofun, nofun⟩

section Runs

variable {permitted : Monitor → Operation → Prop} [∀ m op, Decidable (permitted m op)]
  {config : Config}

variable (permitted) in
/-- The monitor that operations lead to, one after the other, if each is permitted and none of them
faults. -/
def after : List Operation → Monitor → Option Monitor
  | [], m => some m
  | op :: ops, m => if permitted m op then (op.next? m).bind (after ops) else none

theorem after_cons {op : Operation} {ops : List Operation}
    (h : after permitted (op :: ops) m = some m') :
    ∃ m₁, permitted m op ∧ op.run m = .ok () m₁ ∧ after permitted ops m₁ = some m' := by
  unfold after at h
  split at h
  · next hop =>
    obtain ⟨m₁, hrun, hrest⟩ := Option.bind_eq_some_iff.mp h
    exact ⟨m₁, hop, Operation.next?_eq_some.mp hrun, hrest⟩
  · cases h

theorem Reached.after {ops : List Operation} (hm : Reached permitted config m)
    (h : after permitted ops m = some m') : Reached permitted config m' := by
  induction ops generalizing m with
  | nil =>
    cases h
    exact hm
  | cons op ops ih =>
    obtain ⟨m₁, hop, hrun, hrest⟩ := after_cons h
    exact ih (hm.step hop hrun) hrest

variable (permitted config) in
/-- The monitor that a new one becomes. -/
def ended (ops : List Operation) : Option Monitor :=
  (Monitor.create config).toOption.bind (after permitted ops)

theorem reached_of_ended {ops : List Operation} (h : ended permitted config ops = some m) :
    Reached permitted config m := by
  obtain ⟨m₀, hcreate, hafter⟩ := Option.bind_eq_some_iff.mp h
  cases hm₀ : Monitor.create config with
  | error e =>
    rw [hm₀] at hcreate
    cases hcreate
  | ok m₁ =>
    rw [hm₀] at hcreate
    cases hcreate
    exact .after (.start hm₀) hafter

variable (permitted config) in
theorem reached_of_run (ops : List Operation) (facts : Monitor → Bool)
    (h : (ended permitted config ops).any facts = true) :
    ∃ m, Reached permitted config m ∧ facts m = true := by
  obtain ⟨m, hm, hfacts⟩ := (Option.any_eq_true _ _).mp h
  exact ⟨m, reached_of_ended hm, hfacts⟩

end Runs

theorem Reached.mono {permitted permitted' : Monitor → Operation → Prop} {config : Config}
    (h : Reached permitted config m) (hp : ∀ m op, permitted m op → permitted' m op) :
    Reached permitted' config m := by
  induction h with
  | start h => exact .start h
  | step _ hop hrun ih => exact .step ih (hp _ _ hop) hrun

/-- Nothing is dropped or given up on demand, and no fragment is left during a recording. -/
def Operation.Careful (m : Monitor) : Operation → Prop
  | exit _ => m.recording = false
  | invalidate _ | abort _ => False
  | _ => True

instance (m : Monitor) : (op : Operation) → Decidable (op.Careful m)
  | .exit _ => inferInstanceAs (Decidable (m.recording = false))
  | .invalidate _ | .abort _ => isFalse False.elim
  | .loopEdge .. | .record _ | .finish _ | .execute .. | .flush => isTrue trivial

theorem Operation.Careful.quiet {op : Operation} (h : op.Careful m) : op.Quiet m := by
  cases op with
  | invalidate => exact h.elim
  | exit => exact h
  | _ => trivial

/-- Settings under which loops and exits are recorded as soon as they are met. -/
def eager : Config :=
  { hotLoopThreshold := 1, hotExitThreshold := 1, maxCodePages := 7, pageSize := 1024 }

theorem eager_valid : Config.validate eager = .ok () := validate_of_isOk (by decide +kernel)

theorem eager_small : Small eager := by
  show (7 : Int) * 1024 < 2 ^ 31
  decide

def firstLoop : LoopKey := { code := 1, pc := 0, depth := 1 }

/-- The local of the loop becomes a float. -/
def widened : Primitive := { pc := 5, depth := 0, action := .const ⟨.float, 0⟩ ⟨.ofSlot 0, .float⟩ }

/-- A loop that doubles its local is recorded with an int. -/
def rooted : List Operation := [.loopEdge firstLoop [.int], .record (doubling .int), .finish [.int]]

/-- The loop is recorded with a float, too, and what follows an overflow of the int is recorded up to
the loop with a float. -/
def growing : List Operation :=
  rooted ++ [.loopEdge firstLoop [.float], .record (doubling .float), .finish [.float],
    .exit 1, .record (doubling .int), .record widened, .finish [.float]]

/-- What the examples say of a fragment. -/
structure Sketch where
  key : LoopKey := firstLoop
  kind : FragmentKind
  state : FragmentState := .compiled
  types : TypeMap
  target : Option FragmentId := none
  children : List FragmentId := []
  guards : List GuardId := []
  pages : List Nat
deriving DecidableEq

def sketch (f : Fragment) : Sketch :=
  ⟨f.key, f.kind, f.state, f.types, f.treeTarget, f.children, f.guards, f.mainPages⟩

/-- A tree of compiled fragments: a root, a peer of it, and a branch that starts at the guard of the
root and ends in the peer. -/
structure Forest (m : Monitor) : Prop where
  rests : m.recording = false
  root : (m.cache.cached? 1).map sketch =
    some { kind := .root, types := [.int], children := [3], guards := [1], pages := [1] }
  peer : (m.cache.cached? 2).map sketch = some { kind := .peer, types := [.float], pages := [3] }
  branch : (m.cache.cached? 3).map sketch =
    some { kind := .branch, types := [.int], target := some 2, guards := [2], pages := [4] }
  guard : m.cache.guards[(1 : GuardId)]?.map (·.target) = some (.fragment 3)
  armed : m.cache.registered.toList = [1, 2]
  guardCount : m.cache.guardCount = 2
  freeCount : m.cache.region.freeCount = 1
  dropped : (match FragmentCache.invalidate 2 m.cache with
    | .ok gone _ => some gone
    | .error _ _ => none) = some [2, 3]

instance (m : Monitor) : Decidable (Forest m) :=
  decidable_of_iff (_ ∧ _ ∧ _ ∧ _ ∧ _ ∧ _ ∧ _ ∧ _ ∧ _)
    ⟨fun ⟨h₁, h₂, h₃, h₄, h₅, h₆, h₇, h₈, h₉⟩ => ⟨h₁, h₂, h₃, h₄, h₅, h₆, h₇, h₈, h₉⟩,
      fun ⟨h₁, h₂, h₃, h₄, h₅, h₆, h₇, h₈, h₉⟩ => ⟨h₁, h₂, h₃, h₄, h₅, h₆, h₇, h₈, h₉⟩⟩

theorem growing_forest : ∃ m, Reached Operation.Careful eager m ∧ Forest m := by
  obtain ⟨m, hm, hforest⟩ := reached_of_run Operation.Careful eager growing
    (fun m => decide (Forest m)) (by decide +kernel)
  exact ⟨m, hm, of_decide_eq_true hforest⟩

def abandoning : Operation := .abort { reason := .assembly, pc := 5, detail := ∅ }

/-- A branch of the branch is being recorded: the fourth recording that was started, and the only one
that is not committed. It goes when the peer goes, and that is overlooked. -/
structure Sprout (m : Monitor) : Prop where
  recording : m.recording = true
  fragment : m.recorder.fragment = some 4
  branch : (m.cache.cached? 4).map sketch =
    some { kind := .branch, state := .recording, types := [.int], pages := [] }
  committed : m.stats.recordingsCommitted = 3
  unaborted : m.stats.recordingsAborted = 0
  guardCount : m.cache.guardCount = 2
  peer : (m.cache.cached? 2).isSome = true
  marked : marked (m.cache.dependents 2) 4 = true
  overlooked : dependsOn m.cache 2 (m.cache.fragments.size + 1) 4 = false
  evicted : ((Operation.invalidate 2).next? m).map (·.recorder.fragment) = some (some 4)
  abandoned : (match record widened m with
    | .ok (.ok ()) m' => (abandoning.next? m').isSome
    | _ => false) = true

instance (m : Monitor) : Decidable (Sprout m) :=
  decidable_of_iff (_ ∧ _ ∧ _ ∧ _ ∧ _ ∧ _ ∧ _ ∧ _ ∧ _ ∧ _ ∧ _)
    ⟨fun ⟨h₁, h₂, h₃, h₄, h₅, h₆, h₇, h₈, h₉, h, h'⟩ =>
        ⟨h₁, h₂, h₃, h₄, h₅, h₆, h₇, h₈, h₉, h, h'⟩,
      fun ⟨h₁, h₂, h₃, h₄, h₅, h₆, h₇, h₈, h₉, h, h'⟩ =>
        ⟨h₁, h₂, h₃, h₄, h₅, h₆, h₇, h₈, h₉, h, h'⟩⟩

theorem growing_sprouts : ∃ m m', Reached Operation.Careful eager m ∧ m.recording = false ∧
    (Operation.exit 2).run m = .ok () m' ∧ Sprout m' := by
  obtain ⟨m, hm, hfacts⟩ := reached_of_run Operation.Careful eager growing
    (fun m => !m.recording && ((Operation.exit 2).next? m).any fun m' => decide (Sprout m'))
    (by decide +kernel)
  rw [Bool.and_eq_true, Bool.not_eq_true', Option.any_eq_true] at hfacts
  obtain ⟨hrests, m', hrun, hsprout⟩ := hfacts
  exact ⟨m, m', hm, hrests, Operation.next?_eq_some.mp hrun, of_decide_eq_true hsprout⟩

/-! ### What goes when a fragment goes

As long as no eviction overlooks the fragment that is being recorded, the cache of a monitor is in
order, and then an eviction takes out the least set of dependents and leaves everything else alone
(`eviction_exact`). -/

variable {config : Config}

/-- If the operation drops a fragment, it does not overlook the recording. -/
def Operation.Seen (m : Monitor) (op : Operation) : Prop :=
  ∀ id, op.evicts m = some id → ¬ Overlooks m id

/-- After every history of operations that overlook no recording: dropping a cached fragment
succeeds and answers the least set that has the fragment in it and all that depends on its members,
in the order of the numbers. These fragments and their guards are taken out of the cache; what stays
forgets them, an exit that led into one of them leads to the shared exit code again, and every other
guard and every other byte of code is as it was. Marking the dependents comes to an end in every
order, and with the marks of any order and whatever order the registered guards are visited in, what
is answered and what is left are the same. -/
theorem eviction_exact (h : Reached Operation.Seen config m) (hsmall : Small config)
    (hcount : m.cache.guardCount < 2 ^ 32) (hf : m.cache.cached? id = some f) :
    ∃ gone c', FragmentCache.invalidate id m.cache = .ok gone c' ∧
      (∀ k, k ∈ gone ↔ Dependent m.cache id k) ∧ gone.Pairwise (· < ·) ∧ Excised gone m.cache c' ∧
      ∀ l, Marking m.cache id l → l.length ≤ m.cache.size ∧
        ((∀ k ∈ l, ∀ j, Depends m.cache j k → j ∈ l) →
          ∀ gs : List Guard, gs.Perm m.cache.registeredGuards →
          ∃ c'', sweep (m.cache.marks l) gs m.cache = .ok gone c'' ∧ Same c' c'') := by
  have hs : m.cache.Sound False (Small config) :=
    (h.inv (p := False) (fun _ _ hop => hop) False.elim).sound
  obtain ⟨c', hrun, hexcised, hsame⟩ := invalidate_exact hs hsmall hcount hf
  exact ⟨m.cache.casualties id, c', hrun, fun k => mem_casualties hs.trees hf,
    sorted_casualties hs.trees id, hexcised,
    fun l hl => ⟨hl.length_le hs.trees hf, hsame l hl⟩⟩

/-- The theorem where a peer is dropped: the branch that ends in it goes, too, and the guard that led
to the branch leads to the shared exit code again. The root stays. -/
theorem forest_excised :
    ∃ m peer r c', Reached Operation.Seen eager m ∧ Small eager ∧ m.cache.guardCount < 2 ^ 32 ∧
    m.cache.cached? 2 = some peer ∧ m.cache.guards[(1 : GuardId)]? = some r ∧
    r.target = .fragment 3 ∧
    FragmentCache.invalidate 2 m.cache = .ok [2, 3] c' ∧
    (∀ k, k ∈ ([2, 3] : List FragmentId) ↔ Dependent m.cache 2 k) ∧ Excised [2, 3] m.cache c' ∧
    c'.guards[(1 : GuardId)]? = some { r with target := .bailout } ∧
    m.cache.backend.branchTarget c'.region.mem r.site = .ok m.cache.region.bailout := by
  obtain ⟨m, hcareful, hforest⟩ := growing_forest
  have hm : Reached Operation.Seen eager m :=
    hcareful.mono fun _ _ hop _ hevicts => hop.quiet.seen hevicts
  have hcount : m.cache.guardCount < 2 ^ 32 := by rw [hforest.guardCount]; decide
  obtain ⟨peer, hpeer, -⟩ := Option.map_eq_some_iff.mp hforest.peer
  obtain ⟨root, hroot, hsketch⟩ := Option.map_eq_some_iff.mp hforest.root
  obtain ⟨r, hr, htarget⟩ := Option.map_eq_some_iff.mp hforest.guard
  obtain ⟨gone, c', hrun, hgone, -, hexcised, -⟩ := eviction_exact hm eager_small hcount hpeer
  obtain rfl : gone = [2, 3] := by
    have hdropped := hforest.dropped
    rw [hrun] at hdropped
    exact Option.some.inj hdropped
  have hguards : (1 : GuardId) ∈ root.guards := by
    rw [show root.guards = [1] from congrArg Sketch.guards hsketch]
    exact List.mem_singleton.mpr rfl
  have hstays : (1 : GuardId) ∈ c'.registered :=
    (hexcised.registered 1).mpr ⟨1, root, hroot, by decide, hguards⟩
  obtain ⟨hreturned, hjump⟩ := hexcised.returned 1 r 3 hstays hr htarget (by decide)
  exact ⟨m, peer, r, c', hm, eager_small, hcount, hpeer, hr, htarget, hrun, hgone, hexcised,
    hreturned, hjump⟩

end LoopTracer.Monitor
