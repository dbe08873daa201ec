import LoopTracer.Proofs.Compile.Workshop
import LoopTracer.Proofs.Fragment.Installation

/-! What holds of a cache whatever happens to it.

Most operations on a cache add nothing: fragments, links between them and entries of tables can only
go (`Reduced`). From this and from how fragments are added it follows what a cache keeps through
every history, also one in which a fragment was dropped while it was being recorded: fragments have
their numbers and belong to their loops, what is compiled has a trace, and every trace and every
place of a value has constants that somebody vouches for (`Filed`). -/
namespace LoopTracer

open Trace Compile Machine

/-- The types of a fragment are those that its loop's slots gave it, none being the empty map. -/
theorem getD_knownTypes (types : TypeMap) : (knownTypes types).getD [] = types := by
  unfold knownTypes
  split
  · next hempty => exact (List.isEmpty_iff.mp hempty).symm
  · rfl

/-! ### Fragments that lose something -/

/-- A fragment is changed; what it is does not change. -/
structure Fragment.Revised (f f' : Fragment) : Prop where
  id : f'.id = f.id
  key : f'.key = f.key
  kind : f'.kind = f.kind

/-- A fragment gets no new branches or peers and keeps its trace, if it is not dropped altogether. -/
structure Fragment.Faded (f f' : Fragment) : Prop extends Fragment.Revised f f' where
  children : f'.children ⊆ f.children
  peers : f'.peers ⊆ f.peers
  trace : f'.trace = f.trace
  treeTarget : f'.treeTarget = f.treeTarget
  state : f'.state = f.state ∨ f'.state = .invalidated

instance : IsPreorder Fragment Fragment.Faded where
  refl _ := ⟨⟨rfl, rfl, rfl⟩, List.Subset.refl _, List.Subset.refl _, rfl, rfl, .inl rfl⟩
  trans _ _ _ h h' := ⟨⟨h'.id.trans h.id, h'.key.trans h.key, h'.kind.trans h.kind⟩,
    List.Subset.trans h'.children h.children, List.Subset.trans h'.peers h.peers,
    h'.trace.trans h.trace, h'.treeTarget.trans h.treeTarget,
    h'.state.elim (fun hs => hs ▸ h.state) .inr⟩

/-- A fragment is dropped, or loses branches, peers or pages; nothing else about it changes. -/
structure Fragment.Shrunk (f f' : Fragment) : Prop extends Fragment.Faded f f' where
  root : f'.root = f.root
  guards : f'.guards = f.guards
  entryTypes : f'.entryTypes = f.entryTypes
  attempts : f'.attempts = f.attempts
  cached : f'.cached = true → f.cached = true ∧ f'.state = f.state

instance : IsPreorder Fragment Fragment.Shrunk where
  refl f := ⟨refl_of Fragment.Faded f, rfl, rfl, rfl, rfl, fun h => ⟨h, rfl⟩⟩
  trans _ _ _ h h' :=
    ⟨trans_of Fragment.Faded h.toFaded h'.toFaded, h'.root.trans h.root, h'.guards.trans h.guards,
    h'.entryTypes.trans h.entryTypes, h'.attempts.trans h.attempts, fun hcached =>
      let ⟨hcached', hstate'⟩ := h'.cached hcached
      let ⟨hcached, hstate⟩ := h.cached hcached'
      ⟨hcached, hstate'.trans hstate⟩⟩

/-- A fragment is dropped. -/
theorem Fragment.shrunk_drop (f : Fragment) (mainPages exitPages : List Nat)
    (mainCode exitCode : List CodeRange) :
    f.Shrunk { f with mainPages, exitPages, mainCode, exitCode, cached := false,
                      state := .invalidated } :=
  ⟨⟨⟨rfl, rfl, rfl⟩, List.Subset.refl _, List.Subset.refl _, rfl, rfl, .inr rfl⟩, rfl,
    rfl, rfl, rfl, nofun⟩

/-- The counters and the entry types of a fragment may change at any time. -/
theorem Fragment.faded_counts (f : Fragment) (entryTypes : Option TypeMap)
    (hits exits attempts : Nat) :
    f.Faded { f with entryTypes, hits, exits, attempts } :=
  ⟨⟨rfl, rfl, rfl⟩, List.Subset.refl _, List.Subset.refl _, rfl, rfl, .inl rfl⟩

namespace FragmentCache

/-- Guards are found by their numbers. -/
def Named (c : FragmentCache) : Prop := ∀ (g : GuardId) r, c.guards[g]? = some r → r.id = g

/-- Guards stay what they are, but for where they lead; if others are added, they are found by
their numbers. -/
structure Steered (c c' : FragmentCache) : Prop where
  kept : ∀ (g : GuardId) r, c.guards[g]? = some r →
    ∃ r', c'.guards[g]? = some r' ∧ r'.exit = r.exit ∧ r'.source = r.source
  named : c.Named → c'.Named

instance : IsPreorder FragmentCache Steered where
  refl _ := ⟨fun _ r hr => ⟨r, hr, rfl, rfl⟩, id⟩
  trans _ _ _ h h' := by
    refine ⟨fun g r hr => ?_, h'.named ∘ h.named⟩
    obtain ⟨r₁, hr₁, hexit₁, hsource₁⟩ := h.kept g r hr
    obtain ⟨r₂, hr₂, hexit₂, hsource₂⟩ := h'.kept g r₁ hr₁
    exact ⟨r₂, hr₂, hexit₂.trans hexit₁, hsource₂.trans hsource₁⟩

theorem steered_congr {c c' : FragmentCache} (h : c'.guards = c.guards) : Steered c c' :=
  ⟨fun _ r hr => ⟨r, h ▸ hr, rfl, rfl⟩, fun hnamed g r hr => hnamed g r (h ▸ hr)⟩

/-- Nothing is added to a cache, and its fragments change as `F` says. -/
structure Reduced (F : Fragment → Fragment → Prop) (c c' : FragmentCache) : Prop where
  size : c'.fragments.size = c.fragments.size
  fragment : ∀ (k : Nat) f', c'.fragments[k]? = some f' → ∃ f, c.fragments[k]? = some f ∧ F f f'
  roots : ∀ (key : LoopKey) (id : FragmentId), c'.roots[key]? = some id → c.roots[key]? = some id
  region : CodePages.Tended c.region c'.region
  exits : c'.exits = c.exits
  count : c'.guardCount = c.guardCount
  guards : Steered c c'

variable {F : Fragment → Fragment → Prop} [IsPreorder Fragment F] {c c' : FragmentCache}
  {g : Fragment → Fragment}

instance : IsPreorder FragmentCache (Reduced F) where
  refl _ := ⟨rfl, fun _ f hf => ⟨f, hf, refl_of F f⟩, fun _ _ h => h, refl_of _ _,
    rfl, rfl, refl_of _ _⟩
  trans _ _ _ h h' := by
    refine ⟨h'.size.trans h.size, fun k f₂ hf₂ => ?_,
      fun key id hid => h.roots key id (h'.roots key id hid),
      trans_of _ h.region h'.region, h'.exits.trans h.exits, h'.count.trans h.count,
      trans_of _ h.guards h'.guards⟩
    obtain ⟨f₁, hf₁, hF₂⟩ := h'.fragment k f₂ hf₂
    obtain ⟨f, hf, hF₁⟩ := h.fragment k f₁ hf₁
    exact ⟨f, hf, trans_of F hF₁ hF₂⟩

/-- What is changed has nothing to do with the fragments. -/
theorem reduced_aside (hfragments : c'.fragments = c.fragments) (hroots : c'.roots = c.roots)
    (hregion : CodePages.Tended c.region c'.region) (hexits : c'.exits = c.exits)
    (hcount : c'.guardCount = c.guardCount)
    (hguards : Steered c c') : Reduced F c c' :=
  ⟨by rw [hfragments], fun _ f hf => ⟨f, hfragments ▸ hf, refl_of F f⟩, fun _ _ h => hroots ▸ h,
    hregion, hexits, hcount,
    hguards⟩

omit [IsPreorder Fragment F] in
theorem Reduced.mono {G : Fragment → Fragment → Prop} (h : Reduced F c c')
    (hFG : ∀ f f', F f f' → G f f') :
    Reduced G c c' :=
  ⟨h.size, fun k f' hf' => (h.fragment k f' hf').imp fun _ => .imp_right (hFG _ _), h.roots,
    h.region, h.exits, h.count,
    h.guards⟩

theorem Reduced.faded (h : Reduced Fragment.Shrunk c c') :
    Reduced Fragment.Faded c c' := h.mono fun _ _ h => h.toFaded

theorem getElem?_update (c : FragmentCache) (id : FragmentId) (g : Fragment → Fragment) (k : Nat) :
    (c.update id g).fragments[k]? = if place id = k then (c.fragments[k]?).map g
    else c.fragments[k]? := by
  unfold update
  exact Array.getElem?_modify

theorem reduced_update (c : FragmentCache) (id : FragmentId) (hg : ∀ f, F f (g f)) :
    Reduced F c (c.update id g) := by
  refine ⟨update_size c g, fun k f' hf' => ?_, fun _ _ h => h, refl_of _ _, rfl, rfl,
    steered_congr rfl⟩
  rw [getElem?_update] at hf'
  split at hf'
  · obtain ⟨f, hf, rfl⟩ := Option.map_eq_some_iff.mp hf'
    exact ⟨f, hf, hg f⟩
  · exact ⟨f', hf', refl_of F f'⟩

theorem reduced_paged {α : Type} {x : CodePages.Paged α}
    (hx : Keeps CodePages.Tended (fun _ => True) x) :
    Keeps (Reduced F) (fun _ => True) (paged x) := by
  intro c
  have hx := hx c.region
  unfold KeepsAt at hx ⊢
  unfold paged
  dsimp only
  cases h : x c.region with
  | ok a r =>
    rw [h] at hx
    exact reduced_aside rfl rfl hx rfl rfl (steered_congr rfl)
  | error e r =>
    rw [h] at hx
    exact ⟨reduced_aside rfl rfl hx.1 rfl rfl (steered_congr rfl), trivial⟩

/-! ### Operations that add nothing -/

theorem register_reduces (g : Guard) : Keeps (Reduced F) (fun _ => True) (register g) := by
  intro c
  unfold KeepsAt register
  by_cases hregistered : c.registered.contains g.id = true
  · rw [if_pos hregistered]
    exact ⟨refl_of _ c, trivial⟩
  · rw [if_neg hregistered]
    refine reduced_aside rfl rfl (refl_of _ _) rfl rfl ⟨fun k r hr => ⟨r, ?_, rfl, rfl⟩,
      fun hnamed k r hr => ?_⟩
    · show (c.guards.insertIfNew g.id g)[k]? = some r
      rw [Std.TreeMap.getElem?_insertIfNew, if_neg, hr]
      rintro ⟨hk, hnone⟩
      rw [Std.compare_eq_iff_eq] at hk
      subst hk
      exact hnone (Std.TreeMap.mem_iff_isSome_getElem?.mpr (by rw [hr]; rfl))
    · replace hr : (c.guards.insertIfNew g.id g)[k]? = some r := hr
      rw [Std.TreeMap.getElem?_insertIfNew] at hr
      split at hr
      · next hk =>
        cases hr
        exact Std.compare_eq_iff_eq.mp hk.1
      · exact hnamed k r hr

theorem redirect_reduces (g : Guard) (target : ExitTarget) (address : CodeAddr) :
    Keeps (Reduced F) (fun _ => True) (redirect g target address) := by
  intro c
  have hguards : ∀ region,
      Steered c { c with region, guards := c.guards.modify g.id fun g => { g with target } } := by
    intro region
    have hmodify : ∀ k : GuardId, (c.guards.modify g.id fun g => { g with target })[k]? =
        if compare g.id k = .eq then c.guards[k]?.map fun g => { g with target }
        else c.guards[k]? := by
      intro k
      rw [Std.TreeMap.getElem?_modify]
      split
      · next hk => rw [Std.compare_eq_iff_eq.mp hk]
      · rfl
    refine ⟨fun k r hr => ?_, fun hnamed k r' hr' => ?_⟩
    · dsimp only
      rw [hmodify, hr]
      split
      · exact ⟨_, rfl, rfl, rfl⟩
      · exact ⟨r, rfl, rfl, rfl⟩
    · dsimp only at hr'
      rw [hmodify] at hr'
      split at hr'
      · obtain ⟨r, hr, rfl⟩ := Option.map_eq_some_iff.mp hr'
        exact hnamed k r hr
      · exact hnamed k r' hr'
  unfold KeepsAt redirect
  dsimp only
  cases hpatch : c.backend.patch c.region.mem g.site address with
  | ok mem =>
    exact reduced_aside rfl rfl (CodePages.Overwritten.tended (overwritten_patch hpatch))
      rfl rfl (hguards _)
  | error e => exact ⟨reduced_aside rfl rfl (refl_of _ _) rfl rfl (hguards _), trivial⟩

theorem promote_reduces (g : Guard) (child : Fragment) :
    Keeps (Reduced F) (fun _ => True) (promote g child) := by
  unfold promote
  split
  · exact .throw trivial
  · exact redirect_reduces _ _ _

theorem unpatch_reduces (g : Guard) : Keeps (Reduced F) (fun _ => True) (unpatch g) :=
  .bind .get fun _ => redirect_reduces _ _ _

/-- Dropping a branch takes it from its parent. -/
theorem shrunk_children (f : Fragment) (id : FragmentId) :
    f.Shrunk { f with children := f.children.erase id } :=
  ⟨⟨⟨rfl, rfl, rfl⟩, List.erase_subset, List.Subset.refl _, rfl, rfl, .inl rfl⟩, rfl, rfl, rfl, rfl,
    fun h => ⟨h, rfl⟩⟩

theorem shrunk_peers (f : Fragment) (id : FragmentId) :
    f.Shrunk { f with peers := f.peers.erase id } :=
  ⟨⟨⟨rfl, rfl, rfl⟩, List.Subset.refl _, List.erase_subset, rfl, rfl, .inl rfl⟩, rfl, rfl, rfl, rfl,
    fun h => ⟨h, rfl⟩⟩

theorem discard_reduces (f : Fragment) :
    Keeps (Reduced Fragment.Shrunk) (fun _ => True) (discard f) := by
  intro c
  unfold KeepsAt discard
  split
  · next h =>
    split at h
    · cases h
    · cases h
      refine trans_of _ ?_ (reduced_update _ _ fun f => f.shrunk_drop _ _ _ _)
      split
      · exact reduced_update _ _ fun q => shrunk_children q f.id
      · exact refl_of _ c
  · next h =>
    split at h
    · cases h
      exact ⟨refl_of _ c, trivial⟩
    · cases h

theorem drop_reduces (mask : Array Bool) (f : Fragment) :
    Keeps (Reduced Fragment.Shrunk) (fun _ => True) (drop mask f) := by
  refine .bind (.modify fun c => reduced_aside rfl rfl (refl_of _ _) rfl rfl (steered_congr rfl))
      fun _ =>
    .bind (reduced_paged (CodePages.releaseAll_tended _)) fun _ =>
      .bind (reduced_paged (CodePages.releaseAll_tended _)) fun _ => .modify fun c => ?_
  refine trans_of _ ?_ (reduced_update _ _ fun f => f.shrunk_drop _ _ _ _)
  have hparent : Reduced Fragment.Shrunk c (parentless mask f c) := by
    unfold parentless
    split
    · split
      · exact refl_of _ c
      · exact reduced_update _ _ fun q => shrunk_children q f.id
    · exact refl_of _ c
  have hpeers : ∀ c : FragmentCache, Reduced Fragment.Shrunk c (peerless mask f c) := by
    intro c
    unfold peerless
    split
    · exact reduced_update _ _ fun q => shrunk_peers q f.id
    · exact refl_of _ c
  have hroots : ∀ c : FragmentCache, Reduced Fragment.Shrunk c (rootless f c) := by
    intro c
    unfold rootless
    split
    · refine ⟨rfl, fun _ f hf => ⟨f, hf, refl_of _ f⟩, fun key id hid => ?_, refl_of _ _, rfl, rfl,
        steered_congr rfl⟩
      rw [Std.TreeMap.getElem?_erase] at hid
      split at hid
      · cases hid
      · exact hid
    · exact refl_of _ c
  exact trans_of _ (trans_of _ hparent (hpeers _)) (hroots _)

theorem invalidate_reduces (id : FragmentId) :
    Keeps (Reduced Fragment.Shrunk) (fun _ => True) (invalidate id) :=
  .bind .get fun _ => .bind (.forM (fun g => unpatch_reduces g) _) fun _ =>
    .bind (.forM (fun f => drop_reduces _ f) _) fun _ => .pure _

theorem invalidateRoots_reduces (l : List FragmentId) :
    Keeps (Reduced Fragment.Shrunk) (fun _ => True) (invalidateRoots l) := by
  induction l with
  | nil => exact .pure _
  | cons id l ih =>
    refine .bind .get fun c => ?_
    extract_lets rest
    have hrest : ∀ gone, Keeps (Reduced Fragment.Shrunk) (fun _ => True) (rest gone) :=
      fun gone => .bind ih fun _ => .pure _
    split
    · split
      · exact .bind (.pure _) hrest
      · exact .bind (invalidate_reduces _) hrest
    · exact .bind (.pure _) hrest

theorem flush_reduces : Keeps (Reduced Fragment.Shrunk) (fun _ => True) flush := by
  refine .bind .get fun _ => .bind (invalidateRoots_reduces _) fun _ =>
    .bind (.modify fun c => ?_) fun _ => .pure _
  refine ⟨by simp, fun k f' hf' => ?_, fun key id hid => ?_, CodePages.tended_reset _, rfl, rfl,
    steered_congr rfl⟩
  · rw [Array.getElem?_map] at hf'
    obtain ⟨f, hf, rfl⟩ := Option.map_eq_some_iff.mp hf'
    exact ⟨f, hf, ⟨⟨⟨rfl, rfl, rfl⟩, List.Subset.refl _, List.Subset.refl _, rfl, rfl, .inl rfl⟩,
      rfl, rfl, rfl, rfl, nofun⟩⟩
  · simp at hid

/-- Putting code into use gives a fragment its code and adds nothing but that. -/
theorem install_reduces {id : FragmentId} {a : Assembly} (h : install id a c = .ok () c') :
    ∃ c₁, Reduced Fragment.Shrunk (c.update id fun f => { equip a f with state := f.state }) c₁ ∧
      c' = c₁.update id ({ · with state := .compiled }) := by
  unfold install at h
  obtain ⟨_, c₁, hfirst, h⟩ := bind_eq_ok h
  obtain ⟨_, c₂, hmain, h⟩ := bind_eq_ok h
  obtain ⟨_, c₃, hexits, h⟩ := bind_eq_ok h
  obtain ⟨_, c₄, hguards, h⟩ := bind_eq_ok h
  cases h
  cases hfirst
  refine ⟨c₄, ?_, rfl⟩
  have h₂ := (reduced_paged (F := Fragment.Shrunk) (CodePages.handOver_tended id a.mainPages)).ok
    hmain
  have h₃ := (reduced_paged (F := Fragment.Shrunk) (CodePages.handOver_tended id a.exitPages)).ok
    hexits
  have h₄ := (Keeps.forM (fun g => register_reduces (F := Fragment.Shrunk) g) a.guards).ok hguards
  exact trans_of _ h₂ (trans_of _ h₃ h₄)

end FragmentCache

/-! ### What a cache keeps -/

/-- A fragment in a table of `n` of them. A trace is vouched for by `V`, and a loop that has one was
begun as `B` says; unless it is `own`, a fragment that is not compiled has no trace. -/
structure Fragment.Filed (V : Immediate → Prop) (B : FragmentId → LoopKey → Prop)
    (own : Option FragmentId) (n : Nat)
    (f : Fragment) : Prop where
  blank : own ≠ some f.id → f.state = .counting ∨ f.state = .recording ∨ f.state = .failed →
    f.trace = none ∧ f.treeTarget = none
  traced : f.state = .compiled → f.trace.isSome = true
  begun : f.kind ≠ .branch → f.trace.isSome = true → B f.id f.key
  vouched : ∀ b, f.trace = some b → ∀ i ∈ b.insts, i.Vouched V
  children : ∀ j ∈ f.children, j.toNat ≤ n

/-- Exits are of kinds that are counted, and the places of their values name constants of
which `V` holds. -/
structure Trace.Placed (V : Immediate → Prop) (exits : Array ExitRecord) : Prop where
  kinds : ∀ e ∈ exits, ∀ n, e.exit.kind ≠ .other n
  places : ∀ e ∈ exits, ∀ l ∈ e.locations, ∀ v, l.place = .immediate v → v.kind = .ptr → V v

theorem Fragment.Filed.faded {V : Immediate → Prop} {B : FragmentId → LoopKey → Prop}
    {own : Option FragmentId} {n : Nat}
    {f f' : Fragment} (h : f.Filed V B own n) (hf : f.Faded f') : f'.Filed V B own n where
  blank hown hstate := by
    rw [hf.trace, hf.treeTarget]
    rcases hf.state with hs | hs
    · exact h.blank (hf.id ▸ hown) (hs ▸ hstate)
    · simp [hs] at hstate
  traced hstate := by
    rw [hf.trace]
    rcases hf.state with hs | hs
    · exact h.traced (hs ▸ hstate)
    · simp [hs] at hstate
  begun hkind htrace := by
    rw [hf.id, hf.key]
    exact h.begun (hf.kind ▸ hkind) (hf.trace ▸ htrace)
  vouched := hf.trace ▸ h.vouched
  children j hj := h.children j (hf.children hj)

namespace FragmentCache

/-- What a cache keeps through every history. -/
structure Filed (V : Immediate → Prop) (B : FragmentId → LoopKey → Prop) (own : Option FragmentId)
    (c : FragmentCache) : Prop where
  numbered : ∀ {id f}, c.fragment? id = some f → f.id = id
  fragments : ∀ {id f}, c.fragment? id = some f → f.Filed V B own c.fragments.size
  roots : ∀ {key : LoopKey} {id : FragmentId}, c.roots[key]? = some id →
    ∃ f, c.fragment? id = some f ∧ f.kind = .root ∧ f.key = key
  peers : ∀ {id f}, c.fragment? id = some f → ∀ j ∈ f.peers,
    ∃ q, c.fragment? j = some q ∧ q.kind = .peer ∧ q.key = f.key
  exits : Placed V c.exits
  region : c.region.Ruled

variable {V : Immediate → Prop} {B : FragmentId → LoopKey → Prop} {own : Option FragmentId}
  {c c' : FragmentCache}
  {id : FragmentId} {f : Fragment} {g : Fragment → Fragment}

theorem Reduced.back {F : Fragment → Fragment → Prop} (h : Reduced F c c') {f' : Fragment}
    (hf : c'.fragment? id = some f') : ∃ f, c.fragment? id = some f ∧ F f f' := by
  obtain ⟨hid, hf⟩ := fragment?_eq_some.mp hf
  obtain ⟨f, hf₀, hF⟩ := h.fragment _ _ hf
  exact ⟨f, fragment?_eq_some.mpr ⟨hid, hf₀⟩, hF⟩

theorem Reduced.forth {F : Fragment → Fragment → Prop} (h : Reduced F c c')
    (hf : c.fragment? id = some f) :
    ∃ f', c'.fragment? id = some f' ∧ F f f' := by
  obtain ⟨hid, hplace⟩ := fragment?_eq_some.mp hf
  cases hf' : c'.fragments[place id]? with
  | none =>
    have hout := Array.getElem?_eq_none_iff.mp hf'
    have hin := (Array.getElem?_eq_some_iff.mp hplace).1
    rw [h.size] at hout
    omega
  | some f' =>
    obtain ⟨f₀, hf₀, hF⟩ := h.fragment _ _ hf'
    rw [hplace] at hf₀
    cases hf₀
    exact ⟨f', fragment?_eq_some.mpr ⟨hid, hf'⟩, hF⟩

theorem Filed.reduced (h : Filed V B own c)
    (hr : Reduced Fragment.Faded c c') : Filed V B own c' := by
  refine ⟨fun hf => ?_, fun hf => ?_, fun hid => ?_, fun hf j hj => ?_, hr.exits ▸ h.exits,
    h.region.tended hr.region⟩
  · obtain ⟨f, hf₀, hfaded⟩ := hr.back hf
    exact hfaded.id.trans (h.numbered hf₀)
  · obtain ⟨f, hf₀, hfaded⟩ := hr.back hf
    exact hr.size ▸ (h.fragments hf₀).faded hfaded
  · obtain ⟨f, hf, hkind, hkey⟩ := h.roots (hr.roots _ _ hid)
    obtain ⟨f', hf', hfaded⟩ := hr.forth hf
    exact ⟨f', hf', hfaded.kind.trans hkind, hfaded.key.trans hkey⟩
  · obtain ⟨f, hf₀, hfaded⟩ := hr.back hf
    obtain ⟨q, hq, hkind, hkey⟩ := h.peers hf₀ j (hfaded.peers hj)
    obtain ⟨q', hq', hfaded'⟩ := hr.forth hq
    exact ⟨q', hq', hfaded'.kind.trans hkind, hfaded'.key.trans (hkey.trans hfaded.key.symm)⟩

/-- One fragment is changed. -/
theorem Filed.update (h : Filed V B own c) (hf : c.fragment? id = some f) (hg : f.Revised (g f))
    (hpeers : ∀ j ∈ (g f).peers, j ∈ f.peers ∨ ∃ q, c.fragment? j = some q ∧
      q.kind = .peer ∧ q.key = f.key)
    (hnew : (g f).Filed V B own c.fragments.size) : Filed V B own (c.update id g) := by
  have hid := (fragment?_eq_some.mp hf).1
  have hback : ∀ {j q}, (c.update id g).fragment? j = some q →
      j = id ∧ q = g f ∨ c.fragment? j = some q := by
    intro j q hq
    rw [fragment?_update hid] at hq
    split at hq
    · next hj =>
      rw [hj, hf] at hq
      exact .inl ⟨hj, (Option.some.inj hq).symm⟩
    · exact .inr hq
  have hforth : ∀ {j q}, c.fragment? j = some q → ∃ q', (c.update id g).fragment? j = some q' ∧
      q'.kind = q.kind ∧ q'.key = q.key := by
    intro j q hq
    rw [fragment?_update hid]
    split
    · next hj =>
      rw [hj, hf] at hq
      cases hq
      exact ⟨g f, by rw [hj, hf]; rfl, hg.kind, hg.key⟩
    · exact ⟨q, hq, rfl, rfl⟩
  have hold : ∀ {j : FragmentId} {key : LoopKey},
    (∃ q, c.fragment? j = some q ∧ q.kind = .peer ∧ q.key = key) →
      ∃ q, (c.update id g).fragment? j = some q ∧ q.kind = .peer ∧ q.key = key := by
    rintro j key ⟨q, hq, hkind, hkey⟩
    obtain ⟨q', hq', hkind', hkey'⟩ := hforth hq
    exact ⟨q', hq', hkind'.trans hkind, hkey'.trans hkey⟩
  refine ⟨fun hq => ?_, fun hq => ?_, fun hkey => ?_, fun hq j hj => ?_, h.exits, h.region⟩
  · rcases hback hq with ⟨rfl, rfl⟩ | hq
    · exact hg.id.trans (h.numbered hf)
    · exact h.numbered hq
  · rw [update_size]
    rcases hback hq with ⟨-, rfl⟩ | hq
    · exact hnew
    · exact h.fragments hq
  · obtain ⟨q, hq, hkind, hkey⟩ := h.roots hkey
    obtain ⟨q', hq', hkind', hkey'⟩ := hforth hq
    exact ⟨q', hq', hkind'.trans hkind, hkey'.trans hkey⟩
  · rcases hback hq with ⟨-, rfl⟩ | hq
    · rw [hg.key]
      exact hold ((hpeers j hj).elim (h.peers hf j) fun hq => hq)
    · exact hold (h.peers hq j hj)

theorem nextId_lt (hsize : c.fragments.size < 2 ^ 32) (h : c.nextId ≠ 0) :
    c.fragments.size + 1 < 2 ^ 32 := by
  refine Nat.lt_of_le_of_ne hsize fun hfull => h ?_
  rw [nextId, show c.fragments.size + 1 = 2 ^ 32 from hfull]
  rfl

theorem ne_nextId (hroom : c.fragments.size + 1 < 2 ^ 32)
    (hf : c.fragment? id = some f) : id ≠ c.nextId := by
  rintro rfl
  rw [fragment?_nextId hroom] at hf
  cases hf

/-- A fragment that is not compiled yet is added. -/
theorem Filed.add (h : Filed V B own c) (hsize : c.fragments.size + 1 < 2 ^ 32) (new : Fragment)
    (hid : new.id = c.nextId)
    (hstate : new.state ≠ .compiled) (htrace : new.trace = none) (htarget : new.treeTarget = none)
    (hpeers : new.peers = []) (hchildren : new.children = []) : Filed V B own (c.add new) := by
  have hback : ∀ {j q}, (c.add new).fragment? j = some q →
      j = c.nextId ∧ q = new ∨ c.fragment? j = some q := by
    intro j q hq
    rw [fragment?_add hsize] at hq
    split at hq
    · next hj => exact .inl ⟨hj, (Option.some.inj hq).symm⟩
    · exact .inr hq
  have hforth : ∀ {j q}, c.fragment? j = some q → (c.add new).fragment? j = some q := by
    intro j q hq
    rw [fragment?_add hsize, if_neg (ne_nextId hsize hq), hq]
  refine ⟨fun hq => ?_, fun hq => ?_, fun hkey => ?_, fun hq j hj => ?_, h.exits, h.region⟩
  · rcases hback hq with ⟨rfl, rfl⟩ | hq
    · exact hid
    · exact h.numbered hq
  · rw [add_size]
    rcases hback hq with ⟨-, rfl⟩ | hq
    · refine ⟨fun _ _ => ⟨htrace, htarget⟩, fun hs => absurd hs hstate, fun _ ht => ?_,
        fun b hb => ?_, fun j hj => ?_⟩
      · rw [htrace] at ht
        cases ht
      · rw [htrace] at hb
        cases hb
      · rw [hchildren] at hj
        cases hj
    · exact { h.fragments hq
        with children := fun j hj => Nat.le_succ_of_le ((h.fragments hq).children j hj) }
  · obtain ⟨q, hq, hkind, hkey⟩ := h.roots hkey
    exact ⟨q, hforth hq, hkind, hkey⟩
  · rcases hback hq with ⟨-, rfl⟩ | hq
    · rw [hpeers] at hj
      cases hj
    · obtain ⟨q', hq', hkind, hkey⟩ := h.peers hq j hj
      exact ⟨q', hforth hq', hkind, hkey⟩

/-- Exits are noted; the places of their values are accounted for. -/
theorem Filed.withExits (h : Filed V B own c) {exits : Array ExitRecord} (he : Placed V exits) :
    Filed V B own { c with exits } :=
  ⟨h.numbered, h.fragments, h.roots, h.peers, he, h.region⟩

theorem filed_new (b : Backend) {r : CodePages} (hr : r.Ruled) :
    Filed V B own { backend := b, region := r } := by
  have hnone : ∀ {id f}, ({ backend := b, region := r } : FragmentCache).fragment? id ≠ some f := by
    intro id f hf
    have := (fragment?_eq_some.mp hf).2
    simp at this
  refine ⟨fun hf => absurd hf hnone, fun hf => absurd hf hnone, fun hid => ?_,
    fun hf => absurd hf hnone,
    ⟨fun e he => absurd he (Array.not_mem_empty e), fun e he => absurd he (Array.not_mem_empty e)⟩,
    hr⟩
  simp at hid

theorem Filed.mono {V' : Immediate → Prop} {B' : FragmentId → LoopKey → Prop} (h : Filed V B own c)
    (hV : ∀ v, V v → V' v) (hB : ∀ id key, B id key → B' id key) : Filed V' B' own c where
  numbered := h.numbered
  fragments hf :=
    let hf := h.fragments hf
    ⟨hf.blank, hf.traced, fun hkind ht => hB _ _ (hf.begun hkind ht),
      fun b hb i hi => (hf.vouched b hb i hi).mono hV,
      hf.children⟩
  roots := h.roots
  peers := h.peers
  exits := ⟨h.exits.kinds, fun e he l hl v hv hptr => hV v (h.exits.places e he l hl v hv hptr)⟩
  region := h.region

/-- The trace of one fragment is put off for a while. -/
theorem Filed.exempt (h : Filed V B none c) : Filed V B own c :=
  { h with fragments := fun hf => { h.fragments hf
    with blank := fun _ => (h.fragments hf).blank nofun } }

theorem Filed.settle (h : Filed V B (some id) c)
    (hblank : ∀ f, c.fragment? id = some f → f.state = .counting ∨ f.state = .recording ∨
      f.state = .failed →
      f.trace = none ∧ f.treeTarget = none) : Filed V B none c := by
  refine { h with fragments := fun {j f} hf => { h.fragments hf with blank := fun _ hstate => ?_ } }
  by_cases hj : j = id
  · exact hblank f (hj ▸ hf) hstate
  · exact (h.fragments hf).blank
      (fun hown => hj ((h.numbered hf).symm.trans (Option.some.inj hown).symm)) hstate

/-! ### Operations that add something -/

theorem getOrCreate_filed (h : Filed V B own c) (hsize : c.fragments.size < 2 ^ 32)
    {key : LoopKey} {made : Bool}
    (hget : c.getOrCreate key = (c', id, made)) (hid : id ≠ 0) :
    Filed V B own c' ∧ c'.fragments.size < 2 ^ 32 ∧ ∃ f, c'.fragment? id = some f ∧
    f.kind = .root ∧ f.key = key := by
  unfold getOrCreate at hget
  cases hroot : c.lookup? key with
  | some j =>
    rw [hroot] at hget
    cases hget
    exact ⟨h, hsize, h.roots hroot⟩
  | none =>
    rw [hroot] at hget
    cases hget
    have hroom := nextId_lt hsize hid
    let new : Fragment := { id := c.nextId, key, kind := .root, root := c.nextId }
    have hadd := h.add hroom new rfl nofun rfl rfl rfl rfl
    have hnew : (c.add new).fragment? c.nextId = some new := by rw [fragment?_add hroom, if_pos rfl]
    refine ⟨{ hadd with roots := fun {key' j} hj => ?_ }, by simpa using hroom, new, hnew, rfl, rfl⟩
    replace hj : (c.roots.insert key c.nextId)[key']? = some j := hj
    rw [Std.TreeMap.getElem?_insert] at hj
    split at hj
    · next heq =>
      cases hj
      exact ⟨_, hnew, rfl, Std.compare_eq_iff_eq.mp heq⟩
    · exact hadd.roots hj

theorem addPeer_filed (h : Filed V B own c) (hsize : c.fragments.size < 2 ^ 32)
    {root : Fragment} {types : TypeMap}
    (hroot : c.fragment? root.id = some root)
    (hadd : addPeer root types c = .ok id c') (hid : id ≠ 0) :
    Filed V B own c' ∧ c'.fragments.size < 2 ^ 32 ∧ ∃ f, c'.fragment? id = some f ∧ f.kind = .peer ∧
    f.key = root.key := by
  unfold addPeer at hadd
  split at hadd
  · cases hadd
  · cases hadd
    have hroom := nextId_lt hsize hid
    let new : Fragment :=
      { id := c.nextId, key := root.key, kind := .peer, root := root.id,
        entryTypes := knownTypes types }
    have hfiled := h.add hroom new rfl nofun rfl rfl rfl rfl
    have hne := ne_nextId hroom hroot
    have hold : (c.add new).fragment? root.id = some root := by
      rw [fragment?_add hroom, if_neg hne, hroot]
    have hnew : (c.add new).fragment? c.nextId = some new := by rw [fragment?_add hroom, if_pos rfl]
    refine ⟨hfiled.update hold ⟨rfl, rfl, rfl⟩ (fun j hj => ?_) ?_, ?_, new, ?_, rfl, rfl⟩
    · rcases List.mem_append.mp hj with hj | hj
      · exact .inl hj
      · rw [List.mem_singleton.mp hj]
        exact .inr ⟨new, hnew, rfl, rfl⟩
    · have hroot := hfiled.fragments hold
      exact ⟨hroot.blank, hroot.traced, hroot.begun, hroot.vouched, hroot.children⟩
    · simpa using hroom
    · rw [fragment?_update (fragment?_eq_some.mp hold).1, if_neg hne.symm]
      exact hnew

theorem attachChild_filed (h : Filed V B own c) (hsize : c.fragments.size < 2 ^ 32)
    {parent : Fragment} {r : Guard}
    (hparent : c.fragment? parent.id = some f)
    (hattach : attachChild parent r c = .ok id c') (hid : id ≠ 0) :
    Filed V B own c' ∧ c'.fragments.size < 2 ^ 32 ∧
      ∃ f, c'.fragment? id = some f ∧ f.kind = .branch ∧ f.trace = none ∧ f.treeTarget = none := by
  unfold attachChild at hattach
  split at hattach
  · cases hattach
  · cases hattach
    have hroom := nextId_lt hsize hid
    let new : Fragment :=
      { id := c.nextId, key := parent.key, kind := .branch, root := parent.root,
        parent := some parent.id
        anchor := some r.id, entryTypes := some (c.exitOf r).exit.types }
    have hfiled := h.add hroom new rfl nofun rfl rfl rfl rfl
    have hne := ne_nextId hroom hparent
    have hold : (c.add new).fragment? parent.id = some f := by
      rw [fragment?_add hroom, if_neg hne, hparent]
    have hnew : (c.add new).fragment? c.nextId = some new := by rw [fragment?_add hroom, if_pos rfl]
    refine ⟨hfiled.update hold ⟨rfl, rfl, rfl⟩ (fun j hj => .inl hj) ?_, ?_, new, ?_, rfl, rfl, rfl⟩
    · have hparent := hfiled.fragments hold
      refine ⟨hparent.blank, hparent.traced, hparent.begun, hparent.vouched, fun j hj => ?_⟩
      rcases List.mem_append.mp hj with hj | hj
      · exact hparent.children j hj
      · exact Nat.le_of_eq (by rw [List.mem_singleton.mp hj, toNat_nextId hroom, add_size])
    · simpa using hroom
    · rw [fragment?_update (fragment?_eq_some.mp hold).1, if_neg hne.symm]
      exact hnew

/-- The exits of a trace are put behind the others. -/
theorem exits_attachTrace (c : FragmentCache) (id : FragmentId) (b : Buffer)
    (target : Option FragmentId) :
    (c.attachTrace id b target).exits.toList =
      c.exits.toList ++ (exitsOf b).map fun exit => ({ exit } : ExitRecord) := by
  show (b.insts.foldl _ c.exits).toList = _
  rw [← Array.foldl_toList]
  unfold exitsOf
  generalize b.insts.toList = l
  generalize c.exits = exits
  induction l generalizing exits with
  | nil => exact (List.append_nil _).symm
  | cons i l ih =>
    rw [List.foldl_cons, ih]
    cases hi : i.exit with
    | none => rw [List.filterMap_cons_none hi]
    | some exit => rw [List.filterMap_cons_some hi, Array.toList_push, List.append_assoc]; rfl

theorem exits_attachTrace_below (c : FragmentCache) (id : FragmentId) (b : Buffer)
    (target : Option FragmentId) {n : Nat}
    (hn : n < c.exits.size) : (c.attachTrace id b target).exits[n]? = c.exits[n]? := by
  rw [← Array.getElem?_toList, exits_attachTrace, List.getElem?_append_left (by simpa using hn),
    Array.getElem?_toList]

/-- The exits of a trace are noted before anybody knows where their values will be. -/
theorem attachTrace_placed {l : List Inst} (hl : ∀ i ∈ l, i.Vouched V) {exits : Array ExitRecord}
    (h : Placed V exits) :
    Placed V (l.foldl (fun all i => match i.exit with
      | some exit => all.push { exit }
      | none => all) exits) := by
  induction l generalizing exits with
  | nil => exact h
  | cons i l ih =>
    refine ih (fun j hj => hl j (List.mem_cons_of_mem i hj)) ?_
    dsimp only
    split
    · next exit hexit =>
      refine ⟨fun e he => ?_, fun e he => ?_⟩
      · rcases Array.mem_push.mp he with he | rfl
        · exact h.kinds e he
        · exact (hl i List.mem_cons_self).exit exit hexit
      · rcases Array.mem_push.mp he with he | rfl
        · exact h.places e he
        · nofun
    · exact h

/-- A trace is given to a fragment. -/
theorem attachTrace_filed (h : Filed V B none c) (hf : c.fragment? id = some f) {b : Buffer}
    (target : Option FragmentId)
    (hopen : f.state ≠ .compiled) (hbegun : f.kind ≠ .branch → B f.id f.key)
    (hb : ∀ i ∈ b.insts, i.Vouched V) : Filed V B (some id) (c.attachTrace id b target) := by
  unfold attachTrace
  dsimp only
  have hexits := attachTrace_placed (V := V) (l := b.insts.toList)
    (fun i hi => hb i (Array.mem_toList_iff.mp hi)) h.exits
  rw [Array.foldl_toList] at hexits
  have hold := h.fragments hf
  refine (h.exempt.withExits hexits).update (f := f) hf ⟨rfl, rfl, rfl⟩ (fun j hj => .inl hj) ?_
  refine ⟨fun hown => ?_, fun hs => absurd hs hopen, fun hkind _ => hbegun hkind,
    fun b' hb' => ?_, hold.children⟩
  · exact absurd (congrArg some (h.numbered hf).symm) hown
  · cases hb'
    exact hb

/-- Compiling leaves the cache in order, whatever comes of it. -/
theorem Filed.rebased (h : Filed V B own c) (hf : c.fragment? id = some f) {shop shop' : Workshop}
    (hregion : shop.region = c.region) (hexits : shop.exits = c.exits)
    (hr : Restocked f shop shop') :
    Filed V B own (c.rebased shop') := by
  refine ⟨h.numbered, h.fragments, h.roots, h.peers,
    ⟨fun e' he' => ?_, fun e' he' l hl v hv hptr => ?_⟩,
    h.region.tended (hregion ▸ hr.region)⟩
  all_goals
    obtain ⟨n, hn⟩ := Array.mem_iff_getElem?.mp he'
    obtain ⟨e, locations, he, rfl, hlocations⟩ := hr.exits.record n e' hn
  · exact h.exits.kinds e (Array.mem_of_getElem? (hexits ▸ he))
  rcases hlocations l hl with hl | hl
  · exact h.exits.places e (Array.mem_of_getElem? (hexits ▸ he)) l hl v hv hptr
  · have hmention := hl v hv
    cases htrace : f.trace with
    | none =>
      rw [htrace] at hmention
      obtain ⟨i, hi, -⟩ := hmention
      exact absurd hi (Array.not_mem_empty i)
    | some b =>
      rw [htrace] at hmention
      obtain ⟨i, hi, rfl⟩ := hmention
      exact ((h.fragments hf).vouched b htrace i hi).handle hptr

end FragmentCache

end LoopTracer
