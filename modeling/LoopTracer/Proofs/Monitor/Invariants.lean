import Mathlib.Data.List.Nodup
import LoopTracer.Proofs.Monitor.Operations

/-! What never breaks in a monitor.

Three results about every history of operations. No code page is lost or shared (`code_pages_owned`),
no jump of compiled code leads to where there is no code any more (`no_dangling_jump`), and a fragment
that is being recorded stays in the cache as long as no eviction overlooks it
(`recorded_fragment_cached`). -/
namespace LoopTracer.Monitor

open Trace Compile FragmentCache Machine

variable {config : Config} {m : Monitor}

/-! ### Code pages -/

/-- Quiet histories keep a monitor in order. -/
theorem Reached.quiet (h : Reached Operation.Quiet config m) : Inv False (Small config) m :=
  h.inv (fun _ _ hquiet _ hevicts => hquiet.seen hevicts) False.elim

/-- Between quiet operations the first page holds the shared exit code, and every other page is
either on the list of free pages, once, or in one list of one compiled fragment that is cached,
once, and its entry in the table tells whose it is and what for. The pages of every fragment can be
given back, and no quiet operation gives back a page that is not in use. -/
theorem code_pages_owned (h : Reached Operation.Quiet config m) :
    (∃ p, m.cache.region.pages[0]? = some p ∧ p.kind = .bailout) ∧
    (∀ id f side, m.cache.fragment? id = some f → ∀ n ∈ f.pages side, n ≠ 0 ∧
      n < m.cache.region.pages.size) ∧
    (∃ l, CodePages.Linked m.cache.region.pages m.cache.region.free l ∧ l.Nodup ∧
      m.cache.region.freeCount = l.length ∧ 0 ∉ l ∧
      ∀ (n : Nat) p, m.cache.region.pages[n]? = some p → n ≠ 0 →
        (p.kind = .free ∧ n ∈ l ∧ ∀ id f side, m.cache.fragment? id = some f → n ∉ f.pages side) ∨
        (n ∉ l ∧ ∃ id f side, m.cache.cached? id = some f ∧ f.state = .compiled ∧
          (f.pages side).count n = 1 ∧
          p.owner = id ∧ p.kind = side.kind ∧
          ∀ j q side', m.cache.fragment? j = some q → n ∈ q.pages side' → j = id ∧ side' = side)) ∧
    (∀ id f, m.cache.fragment? id = some f →
      ∃ r r', CodePages.releaseAll f.mainPages m.cache.region = .ok () r ∧
      CodePages.releaseAll f.exitPages r = .ok () r') ∧
    ∀ op : Operation, op.Quiet m → ∀ fault m', op.run m = .error fault m' →
      ∀ kind page, fault ≠ .freeingPage kind page := by
  have hinv := h.quiet
  obtain ⟨hheld, hlodged⟩ := hinv.sound.housed
  obtain ⟨l, hl⟩ := hheld.frees
  have hmem : ∀ {id f side n}, m.cache.fragment? id = some f → n ∈ f.pages side →
      n ∈ m.cache.pagesOf id side :=
    fun hf hn => by rwa [pagesOf_eq hf]
  refine ⟨hheld.first, fun id f side hf n hn => ⟨hheld.ne (hmem hf hn), ?_⟩,
    ⟨l, hl.linked, hl.nodup, hl.count, hheld.zero_not_free hl, fun n p hp hn => ?_⟩,
    fun id f hf => ?_,
    fun op _ fault m' hrun => ?_⟩
  · exact (Array.getElem?_eq_some_iff.mp (hheld.used (hmem hf hn))).1
  · rcases hheld.all hp with hfree | hzero | ⟨id, side, hn⟩
    · refine .inl ⟨hfree, hl.all n p hp hfree, fun id f side hf hn => ?_⟩
      exact hheld.not_free hl (hmem hf hn) (hl.all n p hp hfree)
    · exact absurd hzero ‹n ≠ 0›
    · have hused := hheld.used hn
      rw [hp] at hused
      cases hused
      refine .inr ⟨hheld.not_free hl hn, ?_⟩
      cases hf : m.cache.fragment? id with
      | none =>
        rw [pagesOf, hf] at hn
        cases hn
      | some f =>
        have hn' := hn
        have hnodup := hheld.nodup id side
        rw [pagesOf_eq hf] at hn' hnodup
        obtain ⟨hcached, hstate⟩ := hlodged hf (List.ne_nil_of_mem hn')
        exact ⟨id, f, side, cached?_eq_some.mpr ⟨hf, hcached⟩, hstate,
          List.count_eq_one_of_mem hnodup hn', rfl, rfl,
          fun j q side' hq hnq => hheld.inj (hmem hq hnq) hn⟩
  · obtain ⟨r, r', hmain, hexits, -⟩ := hheld.vacate id
    rw [pagesOf_eq hf] at hmain hexits
    exact ⟨r, r', hmain, hexits⟩
  · exact (ensures_error hrun).mp (run_ensures hinv op False.elim)

/-- The theorem where three fragments are compiled: one page is free, and that of the root's code is
the root's. -/
theorem forest_pages : ∃ m l p, Reached Operation.Quiet eager m ∧
    CodePages.Linked m.cache.region.pages m.cache.region.free l ∧ l.length = 1 ∧ 1 ∉ l ∧
    (m.cache.cached? 1).map (·.mainPages) = some [1] ∧
    m.cache.region.pages[1]? = some p ∧ p.owner = 1 ∧ p.kind = .main := by
  obtain ⟨m, hcareful, hforest⟩ := growing_forest
  have hm := hcareful.mono fun _ _ hop => hop.quiet
  obtain ⟨root, hroot, hsketch⟩ := Option.map_eq_some_iff.mp hforest.root
  have hpages : root.mainPages = [1] := congrArg Sketch.pages hsketch
  have hroot' : m.cache.fragment? 1 = some root := (cached?_eq_some.mp hroot).1
  have hmem : 1 ∈ root.pages .main := by
    show 1 ∈ root.mainPages
    rw [hpages]
    exact List.mem_singleton.mpr rfl
  obtain ⟨-, hbounds, ⟨l, hlinked, -, hcount, -, hall⟩, -⟩ := code_pages_owned hm
  obtain ⟨hne, hlt⟩ := hbounds 1 root .main hroot' 1 hmem
  obtain ⟨p, hp⟩ : ∃ p, m.cache.region.pages[1]? = some p :=
    ⟨_, Array.getElem?_eq_getElem hlt⟩
  have hlength : l.length = 1 := by
    have := hcount.symm.trans hforest.freeCount
    exact_mod_cast this
  refine ⟨m, l, p, hm, hlinked, hlength, ?_⟩
  rcases hall 1 p hp hne with ⟨-, -, hnone⟩ | ⟨hnot, id, f, side, -, -, -, howner, hkind, hinj⟩
  · exact absurd hmem (hnone 1 root .main hroot')
  · obtain ⟨rfl, rfl⟩ := hinj 1 root .main hroot' hmem
    exact ⟨hnot, by rw [hroot, Option.map_some, hpages], hp, howner, hkind⟩

/-! ### Jumps -/

/-- As long as the code region is small and guards have numbers, every jump of the code that can
be executed leads to code. The exit of a registered guard goes to the shared exit code or to the
entry of the branch that starts at the guard, and the end of a branch goes to the top of the loop
of its target. -/
theorem no_dangling_jump (h : Reached Operation.Quiet config m) (hsmall : Small config)
    (hcount : m.cache.guardCount < 2 ^ 32) :
    (∀ id ∈ m.cache.registered, ∃ g f, m.cache.guard? id = some g ∧
      m.cache.cached? g.source = some f ∧
      f.state = .compiled ∧ id ∈ f.guards ∧
      match g.target with
      | .bailout =>
        m.cache.backend.branchTarget m.cache.region.mem g.site = .ok m.cache.region.bailout
      | .fragment k => ∃ q, m.cache.cached? k = some q ∧ q.state = .compiled ∧ k ∈ f.children ∧
          q.parent = some g.source ∧ q.anchor = some id ∧
          m.cache.backend.branchTarget m.cache.region.mem g.site = .ok q.entry) ∧
    (∀ id f, m.cache.cached? id = some f → f.kind = .branch → f.state = .compiled → ∃ t q range,
      f.treeTarget = some t ∧ m.cache.cached? t = some q ∧ q.state = .compiled ∧
        f.mainCode.head? = some range ∧
      m.cache.backend.branchTarget m.cache.region.mem
        (m.cache.backend.branchSite range.stop (.jump q.loopTop)) = .ok q.loopTop) := by
  have hs := h.quiet.sound
  have hw := hs.wired hsmall hcount
  have hmemory : m.cache.region.mem.size < 2 ^ 32 := Nat.lt_trans hw.laid.small (by decide)
  refine ⟨fun id hid => ?_, fun id f hf hkind hstate => ?_⟩
  · obtain ⟨j, f, hf, hmem⟩ := (hs.armed (.inr hcount)).only hid
    obtain ⟨g, hg, rfl⟩ := hs.issued hcount j f id (fragment?_of_cached hf) hmem
    obtain ⟨-, f', hf', -, hcompiled⟩ := hs.trees.records hg
    rw [fragment?_of_cached hf] at hf'
    cases hf'
    have hguard : m.cache.guard? id = some g := guard?_eq_some.mpr ⟨hid, hg⟩
    obtain ⟨a, ha, hhosted⟩ := hw.site hg hid
    have hjump := hhosted.2.branchTarget hmemory
    refine ⟨g, f, hguard, hf, hcompiled (cached?_eq_some.mp hf).2, hmem, ?_⟩
    cases htarget : g.target with
    | bailout =>
      rw [htarget] at ha
      cases ha
      exact hjump
    | fragment k =>
      obtain ⟨q, hq, hkind, hstate, hparent, hanchor⟩ := hw.child hg hid htarget
      rw [htarget, address?, hq] at ha
      cases ha
      obtain ⟨p', q', hp', -, hq', -, -, hchild⟩ := hs.trees.branch hq hkind
      rw [hparent] at hp'
      cases hp'
      rw [hf] at hq'
      cases hq'
      exact ⟨q, hq, hstate, hchild, hparent, hanchor, hjump⟩
  · obtain ⟨t, ht⟩ := hs.trees.ends hf hkind hstate
    obtain ⟨q, hq, hstate'⟩ := hs.trees.target hf ht
    obtain ⟨range, hhead, hhosted⟩ := hw.final hf hkind hstate ht hq hstate'
    exact ⟨t, q, range, ht, hq, hstate', hhead, hhosted.2.branchTarget hmemory⟩

/-- The theorem where the guard of a root leads to a branch, and the branch ends in a peer. -/
theorem forest_jumps : ∃ m g branch peer range, Reached Operation.Quiet eager m ∧ Small eager ∧
    m.cache.guardCount < 2 ^ 32 ∧ m.cache.guard? 1 = some g ∧ g.target = .fragment 3 ∧
    m.cache.cached? 3 = some branch ∧ branch.treeTarget = some 2 ∧
    m.cache.cached? 2 = some peer ∧ branch.mainCode.head? = some range ∧
    m.cache.backend.branchTarget m.cache.region.mem g.site = .ok branch.entry ∧
    m.cache.backend.branchTarget m.cache.region.mem
      (m.cache.backend.branchSite range.stop (.jump peer.loopTop)) = .ok peer.loopTop := by
  obtain ⟨m, hcareful, hforest⟩ := growing_forest
  have hm := hcareful.mono fun _ _ hop => hop.quiet
  have hcount : m.cache.guardCount < 2 ^ 32 := by
    rw [hforest.guardCount]
    decide
  obtain ⟨hguards, hends⟩ := no_dangling_jump hm eager_small hcount
  obtain ⟨branch, hbranch, hsketch⟩ := Option.map_eq_some_iff.mp hforest.branch
  obtain ⟨t, peer, range, ht, hpeer, -, hrange, hend⟩ := hends 3 branch hbranch
    (congrArg Sketch.kind hsketch) (congrArg Sketch.state hsketch)
  obtain rfl : t = 2 := Option.some.inj (ht.symm.trans (congrArg Sketch.target hsketch))
  have harmed : (1 : GuardId) ∈ m.cache.registered := by
    rw [← Std.TreeSet.mem_toList, hforest.armed]
    exact List.mem_cons_self
  obtain ⟨g, f, hg, -, -, -, hjump⟩ := hguards 1 harmed
  have htarget : g.target = .fragment 3 := by
    have hguard := hforest.guard
    rw [(guard?_eq_some.mp hg).2] at hguard
    exact Option.some.inj hguard
  rw [htarget] at hjump
  obtain ⟨q, hq, -, -, -, -, hjump⟩ := hjump
  obtain rfl : q = branch := Option.some.inj (hq.symm.trans hbranch)
  exact ⟨m, g, q, peer, range, hm, eager_small, hcount, hg, htarget, hq, ht, hpeer, hrange, hjump,
    hend⟩

/-! ### Recordings -/

/-- Only a cached fragment is dropped, and its eviction does not overlook the recording. -/
def Operation.Heeded (m : Monitor) (op : Operation) : Prop :=
  (∀ id, op = .invalidate id → ∃ f, m.cache.cached? id = some f) ∧
    ∀ id, op.evicts m = some id → ¬ Overlooks m id

/-- In every history without an eviction that overlooks the recording, what is being recorded is
cached and marked, it is the only marked fragment, its root is cached, and for a branch the parent
is compiled and the guard it starts at registered. So code is put into use for cached fragments
only. An eviction that overlooks the recording leaves a recorder that goes on for a fragment that is
not cached. -/
theorem recorded_fragment_cached (h : Reached Operation.Heeded config m) :
    (m.recording = true → ∃ id f, m.recorder.fragment = some id ∧ m.cache.cached? id = some f ∧
      f.state = .recording ∧ (∀ j q, m.cache.cached? j = some q → q.state = .recording → j = id) ∧
      (∃ r, m.cache.cached? f.root = some r) ∧
      (f.kind = .branch → ∃ p q g, f.parent = some p ∧ m.cache.cached? p = some q ∧
        q.state = .compiled ∧
        f.anchor = some g ∧ m.recorder.anchor = some g ∧ g ∈ m.cache.registered)) ∧
    (∀ stop m', endRecording stop m = .ok (.ok ()) m' → ∃ id f f', m.recorder.fragment = some id ∧
      m.cache.cached? id = some f ∧ m'.cache.cached? id = some f' ∧ f'.state = .compiled) ∧
    (∀ (op : Operation) id m', op.evicts m = some id →
      (∀ j, op = .invalidate j → ∃ f, m.cache.cached? j = some f) →
      Overlooks m id → op.run m = .ok () m' →
      m'.recording = true ∧ ∀ rf, m'.recorder.fragment = some rf → m'.cache.cached? rf = none) := by
  have hinv : Inv True (Small config) m :=
    h.inv (fun _ _ hop => hop.2) fun _ _ _ hop => hop.1
  refine ⟨fun hrecording => ?_, fun stop m' hend => ?_,
    fun op id m' hevicts hcached hover hrun => ?_⟩
  · cases hinv.linked with
    | idle hidle =>
      rw [recording_eq_true, hidle] at hrecording
      cases hrecording
    | @recording id f hstate hid hs hf hanchor =>
      obtain ⟨f', hf', hmarked⟩ := hs.there rfl
      rw [hf] at hf'
      cases hf'
      have hroot := hinv.sound.trees.root hf
      refine ⟨id, f, hid, hf, hmarked, fun j q hq hq' => (Option.some.inj (hs.only hq hq')).symm,
        ⟨hroot.choose, hroot.choose_spec.1⟩, fun hkind => ?_⟩
      obtain ⟨p, q, hp, -, hq, hcompiled, -, -⟩ := hinv.sound.trees.branch hf hkind
      obtain ⟨g, r, hg, hr, hsource⟩ := hinv.sound.trees.anchored hf hkind
      obtain ⟨-, owner, howner, hmem, -⟩ := hinv.sound.trees.records hr
      rw [hp] at hsource
      cases hsource
      rw [fragment?_of_cached hq] at howner
      cases howner
      exact ⟨_, q, g, hp, hq, hcompiled, hg, (hanchor hkind).trans hg,
        (hinv.sound.armed (.inl trivial)).ready hq hmem⟩
  · obtain ⟨-, hdone⟩ := (ensures_ok hend).mp (endRecording_ensures hinv stop)
    obtain ⟨id, f', hid, hf', hcompiled⟩ := hdone rfl
    cases hinv.linked with
    | idle hidle =>
      have hquiet : m.recording = false := by
        rw [← Bool.not_eq_true, recording_eq_true, hidle]
        nofun
      unfold endRecording at hend
      rw [bind_ok (show (get : Monitoring Monitor) m = .ok m m from rfl), hquiet] at hend
      cases hend
    | recording _ hid' _ hf =>
      rw [hid] at hid'
      cases hid'
      exact ⟨id, _, f', hid, hf, hf', hcompiled⟩
  · have hafter := (ensures_ok hrun).mp (run_ensures hinv op fun _ => hcached)
    rw [hevicts] at hafter
    obtain ⟨hsame, hgone⟩ := Evicted.stray hafter hover
    obtain ⟨_, hrecording, -⟩ := hover
    refine ⟨?_, fun rf hrf => hgone rf (hsame ▸ hrf)⟩
    unfold recording at hrecording ⊢
    rwa [hsame]

/-- The theorem where a branch of a branch is being recorded: the fragment is cached and its guard
registered, and when the peer is dropped that the first branch ends in, the recorder goes on without
the fragment. -/
theorem sprout_cached : ∃ m f p q g m', Reached Operation.Heeded eager m ∧ m.recording = true ∧
    m.recorder.fragment = some 4 ∧ m.cache.cached? 4 = some f ∧ f.state = .recording ∧
    f.parent = some p ∧ m.cache.cached? p = some q ∧ q.state = .compiled ∧
    f.anchor = some g ∧ g ∈ m.cache.registered ∧
    Overlooks m 2 ∧ (Operation.invalidate 2).run m = .ok () m' ∧
    m'.recording = true ∧ m'.cache.cached? 4 = none := by
  have hheeded : ∀ m op, Operation.Careful m op → op.Heeded m := by
    refine fun m op hop => ⟨fun id heq => ?_, fun _ hevicts => hop.quiet.seen hevicts⟩
    rw [heq] at hop
    exact hop.elim
  obtain ⟨m₀, m, hcareful, hrests, hrun, hsprout⟩ := growing_sprouts
  have hm : Reached Operation.Heeded eager m :=
    (hcareful.mono hheeded).step (hheeded m₀ (.exit 2) hrests) hrun
  obtain ⟨hrecorded, -, hstrays⟩ := recorded_fragment_cached hm
  obtain ⟨id, f, hid, hf, hstate, -, -, hbranch⟩ := hrecorded hsprout.recording
  obtain rfl : id = 4 := Option.some.inj (hid.symm.trans hsprout.fragment)
  have hkind : f.kind = .branch := by
    have hsketch := hsprout.branch
    rw [hf] at hsketch
    exact congrArg Sketch.kind (Option.some.inj hsketch)
  obtain ⟨p, q, g, hp, hq, hcompiled, hg, -, hregistered⟩ := hbranch hkind
  have hover : Overlooks m 2 :=
    ⟨4, hsprout.recording, hsprout.fragment, hsprout.marked, hsprout.overlooked⟩
  obtain ⟨m', hevict, hfragment⟩ := Option.map_eq_some_iff.mp hsprout.evicted
  have hevict' := Operation.next?_eq_some.mp hevict
  obtain ⟨hgoes, hgone⟩ := hstrays (.invalidate 2) 2 m' rfl
    (fun j heq => by cases heq; exact Option.isSome_iff_exists.mp hsprout.peer) hover hevict'
  exact ⟨m, f, p, q, g, m', hm, hsprout.recording, hid, hf, hstate, hp, hq, hcompiled, hg,
    hregistered, hover, hevict', hgoes, hgone 4 hfragment⟩

end LoopTracer.Monitor
