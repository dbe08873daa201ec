import LoopTracer.Proofs.Fragment.Housing

/-! Guards and the jumps they end in.

The guards of compiled fragments, and no others, are registered (`Armed`), each guard that was given
out belongs to one fragment (`Issued`), and the exit of a registered guard ends in a jump to where
the guard says it leads (`Wired`). Guards are numbered with 32 bits, so what tells them apart by
their numbers holds as long as fewer than that were made. `Sound` is all that holds of a cache. -/
namespace LoopTracer

open Trace Compile Machine

/-- What may change about a fragment while its code stays. -/
structure Notes where
  entryTypes : Option TypeMap
  trace : Option Buffer
  exitBase : Nat
  peers : List FragmentId
  children : List FragmentId
  hits : Nat
  exits : Nat
  attempts : Nat

/-- A fragment with other notes. -/
def Fragment.note (f : Fragment) (n : Notes) : Fragment :=
  { f with
    entryTypes := n.entryTypes
    trace := n.trace
    exitBase := n.exitBase
    peers := n.peers
    children := n.children
    hits := n.hits
    exits := n.exits
    attempts := n.attempts }

namespace Compile

variable {b : Backend} {r r' : CodePages} {pages l : List Nat} {site target : CodeAddr}

/-- The layout does not depend on the table of pages. -/
theorem CodePages.Laid.alike (h : r.Laid) (halike : CodePages.Alike r r') : r'.Laid where
  positive := halike.pageSize ▸ h.positive
  size := by
    rw [halike.mem, halike.size, halike.pageSize]
    exact h.size
  whole := halike.mem ▸ h.whole
  valid := halike.mem ▸ h.valid
  small := halike.mem ▸ h.small

/-- A jump does not depend on the table of pages. -/
theorem Hosted.alike (h : Hosted b r pages site target) (halike : CodePages.Alike r r') :
    Hosted b r' pages site target := by
  unfold Hosted CodePages.bytes
  rw [halike.mem, halike.pageSize]
  exact h

/-- A jump outlives what is written to other pages. -/
theorem Hosted.beside (h : Hosted b r pages site target) (hr : r.Laid)
    (hb : CodePages.Beside l r r')
    (hpages : ∀ h ∈ pages, h ∉ l) : Hosted b r' pages site target := by
  obtain ⟨⟨p, hp, hlow, hhigh⟩, hjumps⟩ := h
  obtain ⟨hsize, -, hsame⟩ := hb.memory hr
  refine ⟨⟨p, hp, ?_⟩, hjumps.congr hsize fun a ha ha' => hsame a ?_⟩
  · unfold CodePages.bytes at hlow hhigh ⊢
    rw [hb.pageSize]
    exact ⟨hlow, hhigh⟩
  · rw [Code.div_eq_page (h := p) (by omega) (by omega)]
    exact hpages p hp

/-- A jump outlives the patching of one that shares no byte with it. -/
theorem Hosted.patched (h : Hosted b r pages site target) {mem : Memory} {place : CodeAddr}
    (hsize : mem.size = r.mem.size)
    (hsame : ∀ a, a < place.toNat ∨ place.toNat + b.jumpLength ≤ a → mem.get? a = r.mem.get? a)
    (hapart : Apart b site place) : Hosted b { r with mem } pages site target := by
  refine ⟨h.1, h.2.congr hsize fun a ha ha' => hsame a ?_⟩
  rcases hapart with hapart | hapart
  · exact .inl (by omega)
  · exact .inr (by omega)

/-- Jumps on different pages share no byte. -/
theorem Hosted.apart {pages' : List Nat} {site' target' : CodeAddr}
    (h : Hosted b r pages site target)
    (h' : Hosted b r pages' site' target')
    (hpages : ∀ h ∈ pages, h ∉ pages') : Apart b site site' := by
  obtain ⟨⟨p, hp, hlow, hhigh⟩, -⟩ := h
  obtain ⟨⟨p', hp', hlow', hhigh'⟩, -⟩ := h'
  have hne : p ≠ p' := fun heq => hpages p hp (heq ▸ hp')
  unfold Apart
  rcases Nat.lt_or_gt_of_ne hne with hlt | hlt
  · have := Nat.mul_le_mul_right r.bytes (Nat.succ_le_of_lt hlt)
    rw [Nat.succ_eq_add_one] at this
    omega
  · have := Nat.mul_le_mul_right r.bytes (Nat.succ_le_of_lt hlt)
    rw [Nat.succ_eq_add_one] at this
    omega

end Compile

namespace FragmentCache

/-- The guards of cached fragments are registered, and no others are. -/
structure Armed (c : FragmentCache) : Prop where
  ready : ∀ {id f g}, c.cached? id = some f → g ∈ f.guards → g ∈ c.registered
  only : ∀ {g}, g ∈ c.registered → ∃ id f, c.cached? id = some f ∧ g ∈ f.guards
  one : ∀ {id j f q g}, c.cached? id = some f → c.cached? j = some q → g ∈ f.guards →
    g ∈ q.guards → id = j

/-- Every guard of a fragment is known as one of that fragment. -/
def Issued (c : FragmentCache) : Prop :=
  ∀ id f g, c.fragment? id = some f → g ∈ f.guards → ∃ r, c.guards[g]? = some r ∧ r.source = id

/-- The address of what an exit leads to. -/
def address? (c : FragmentCache) : ExitTarget → Option CodeAddr
  | .bailout => some c.region.bailout
  | .fragment k => (c.cached? k).map (·.entry)

/-- The jumps of compiled code lead to where they should: the exit of a guard to the shared exit code
or into a branch that starts at the guard, and the end of a branch to the top of its target. -/
structure Wired (c : FragmentCache) : Prop where
  laid : c.region.Laid
  site : ∀ {g : GuardId} {r : Guard}, c.guards[g]? = some r → g ∈ c.registered →
    ∃ a, c.address? r.target = some a ∧
    Hosted c.backend c.region (c.pagesOf r.source .exits) r.site a
  child : ∀ {g : GuardId} {r : Guard} {k}, c.guards[g]? = some r → g ∈ c.registered →
    r.target = .fragment k →
    ∃ q, c.cached? k = some q ∧ q.kind = .branch ∧ q.state = .compiled ∧
      q.parent = some r.source ∧ q.anchor = some g
  apart : ∀ {g g' : GuardId} {r r' : Guard}, c.guards[g]? = some r → c.guards[g']? = some r' →
    g ∈ c.registered →
    g' ∈ c.registered → g ≠ g' → r.source = r'.source → Apart c.backend r.site r'.site
  final : ∀ {id f t q}, c.cached? id = some f → f.kind = .branch → f.state = .compiled →
    f.treeTarget = some t →
    c.cached? t = some q → q.state = .compiled → ∃ range, f.mainCode.head? = some range ∧
      Hosted c.backend c.region (c.pagesOf id .main)
        (c.backend.branchSite range.stop (.jump q.loopTop)) q.loopTop

/-- What holds of a cache; if `p`, even when guards run out of numbers, and if `q`, with the jumps. -/
structure Sound (p q : Prop) (c : FragmentCache) : Prop where
  trees : c.Trees
  housed : c.Housed
  armed : p ∨ c.guardCount < 2 ^ 32 → c.Armed
  issued : c.guardCount < 2 ^ 32 → c.Issued
  wired : q → c.guardCount < 2 ^ 32 → c.Wired

variable {c c' : FragmentCache} {id : FragmentId} {f f' : Fragment} {p q : Prop}

theorem Armed.congr (h : Armed c) (hregistered : c'.registered = c.registered)
    (hforth : ∀ {id f}, c.cached? id = some f → ∃ f', c'.cached? id = some f' ∧
      f'.guards = f.guards)
    (hback : ∀ {id f'}, c'.cached? id = some f' → f'.guards = [] ∨
      ∃ f, c.cached? id = some f ∧ f'.guards = f.guards) :
    Armed c' := by
  have hguard : ∀ {id f' g}, c'.cached? id = some f' → g ∈ f'.guards →
      ∃ f, c.cached? id = some f ∧ g ∈ f.guards := by
    intro id f' g hf' hg
    rcases hback hf' with hnil | ⟨f, hf, hguards⟩
    · rw [hnil] at hg
      cases hg
    · exact ⟨f, hf, hguards ▸ hg⟩
  refine ⟨fun hf' hg => ?_, fun hg => ?_, fun hf' hq' hg hg' => ?_⟩
  · obtain ⟨f, hf, hg⟩ := hguard hf' hg
    rw [hregistered]
    exact h.ready hf hg
  · rw [hregistered] at hg
    obtain ⟨id, f, hf, hg⟩ := h.only hg
    obtain ⟨f', hf', hguards⟩ := hforth hf
    exact ⟨id, f', hf', hguards ▸ hg⟩
  · obtain ⟨f, hf, hg⟩ := hguard hf' hg
    obtain ⟨q, hq, hg'⟩ := hguard hq' hg'
    exact h.one hf hq hg hg'

theorem Issued.congr (h : Issued c)
    (hback : ∀ {id f' g}, c'.fragment? id = some f' → g ∈ f'.guards →
      ∃ f, c.fragment? id = some f ∧ g ∈ f.guards)
    (hguards : ∀ {g : GuardId} {r : Guard}, c.guards[g]? = some r →
      ∃ target, c'.guards[g]? = some { r with target }) :
    Issued c' := by
  intro id f' g hf' hg
  obtain ⟨f, hf, hg⟩ := hback hf' hg
  obtain ⟨r, hr, hsource⟩ := h id f g hf hg
  obtain ⟨target, hr'⟩ := hguards hr
  exact ⟨_, hr', hsource⟩

/-- Code stays where it is while guards and fragments go that no jump of it leads to. -/
theorem Wired.congr (h : Wired c) (hbackend : c'.backend = c.backend)
    (hregion : CodePages.Alike c.region c'.region)
    (hregistered : ∀ {g}, g ∈ c'.registered → g ∈ c.registered)
    (hguards : ∀ {g : GuardId} {r : Guard}, g ∈ c'.registered → c'.guards[g]? = some r →
      c.guards[g]? = some r)
    (hcode : ∀ {id f'}, c'.cached? id = some f' → f'.state = .compiled →
      ∃ f n, c.cached? id = some f ∧ f' = f.note n)
    (htargets : ∀ {g : GuardId} {r : Guard} {k}, g ∈ c'.registered → c'.guards[g]? = some r →
      r.target = .fragment k →
      ∃ f', c'.cached? k = some f' ∧ f'.state = .compiled)
    (hsources : ∀ {g : GuardId} {r : Guard}, g ∈ c'.registered → c'.guards[g]? = some r →
      c'.pagesOf r.source .exits = c.pagesOf r.source .exits) : Wired c' where
  laid := h.laid.alike hregion
  site := fun {g r} hr hg => by
    obtain ⟨a, ha, hhosted⟩ := h.site (hguards hg hr) (hregistered hg)
    refine ⟨a, ?_, ?_⟩
    · cases htarget : r.target with
      | bailout =>
        rw [htarget] at ha
        rw [← ha]
        exact congrArg some hregion.bailout
      | fragment k =>
        rw [htarget] at ha
        obtain ⟨f', hf', hstate⟩ := htargets hg hr htarget
        obtain ⟨f, n, hf, rfl⟩ := hcode hf' hstate
        rw [← ha, address?, address?, hf, hf']
        rfl
    · rw [hbackend, hsources hg hr]
      exact hhosted.alike hregion
  child := fun {g r k} hr hg htarget => by
    obtain ⟨q, hq, hkind, hstate, hparent, hanchor⟩ :=
      h.child (hguards hg hr) (hregistered hg) htarget
    obtain ⟨f', hf', hstate'⟩ := htargets hg hr htarget
    obtain ⟨f, n, hf, rfl⟩ := hcode hf' hstate'
    rw [hq] at hf
    cases hf
    exact ⟨_, hf', hkind, hstate, hparent, hanchor⟩
  apart hr hr' hg hg' hne hsource := by
    rw [hbackend]
    exact h.apart (hguards hg hr) (hguards hg' hr') (hregistered hg) (hregistered hg') hne hsource
  final := fun {id f' t q'} hf' hkind hstate htarget hq' hstate' => by
    obtain ⟨f, n, hf, rfl⟩ := hcode hf' hstate
    obtain ⟨q, n', hq, rfl⟩ := hcode hq' hstate'
    obtain ⟨range, hhead, hhosted⟩ := h.final hf hkind hstate htarget hq hstate'
    refine ⟨range, hhead, ?_⟩
    have hpages : c'.pagesOf id .main = c.pagesOf id .main := by
      rw [pagesOf_eq (fragment?_of_cached hf), pagesOf_eq (fragment?_of_cached hf')]
      rfl
    rw [hbackend, hpages]
    exact hhosted.alike hregion

/-- The guard that a branch starts at is registered. -/
theorem Sound.anchored (hs : Sound p q c) (hcount : p ∨ c.guardCount < 2 ^ 32)
    (hf : c.cached? id = some f)
    (hkind : f.kind = .branch) :
    ∃ g r, f.anchor = some g ∧ c.guards[g]? = some r ∧ f.parent = some r.source ∧
      g ∈ c.registered := by
  obtain ⟨g, r, hg, hr, hparent⟩ := hs.trees.anchored hf hkind
  obtain ⟨p', q', hp', -, hq', -⟩ := hs.trees.branch hf hkind
  obtain ⟨-, q'', hq'', hmem, -⟩ := hs.trees.records hr
  rw [hparent] at hp'
  cases hp'
  rw [fragment?_of_cached hq'] at hq''
  cases hq''
  exact ⟨g, r, hg, hr, hparent, (hs.armed hcount).ready hq' hmem⟩

/-! ### Notes -/

/-- Something was noted about a fragment: a compiled one has the same code, another one is still not
compiled. -/
structure Noted (c : FragmentCache) (f f' : Fragment) : Prop where
  mild : Mild c f f'
  guards : f'.guards = f.guards
  pages : ∀ side, f'.pages side = f.pages side
  open_ : f.state ≠ .compiled → f'.state ≠ .compiled
  code : f.state = .compiled → ∃ n, f' = f.note n

/-- Something was noted about fragments. -/
structure Noting (c c' : FragmentCache) : Prop where
  backend : c'.backend = c.backend
  region : c'.region = c.region
  size : c'.fragments.size = c.fragments.size
  fragments : ∀ id, Option.Rel (Noted c) (c.fragment? id) (c'.fragment? id)
  roots : c'.roots = c.roots
  guards : c'.guards = c.guards
  registered : c'.registered = c.registered
  count : c'.guardCount = c.guardCount

theorem Noted.refl (c : FragmentCache) (f : Fragment) : Noted c f f :=
  ⟨.refl c f, rfl, fun _ => rfl, id, fun _ => ⟨{ f with }, rfl⟩⟩

/-- Counters and entry types are notes. -/
theorem noted_counts (c : FragmentCache) (f : Fragment) (entryTypes : Option TypeMap)
    (hits exits attempts : Nat) :
    Noted c f { f with entryTypes, hits, exits, attempts } :=
  ⟨⟨{ f.content with entryTypes, hits, exits, attempts }, rfl, fun h => ⟨h, rfl⟩,
    fun _ => rfl, fun h => h, .inl,
    fun _ => .inl⟩, rfl, fun side => by cases side <;> rfl, fun h => h,
    fun _ => ⟨{ f with entryTypes, hits, exits, attempts }, rfl⟩⟩

/-- The state and the trace of a fragment that is not compiled. -/
theorem noted_open (hf : f.state ≠ .compiled) (state : FragmentState)
    (hcompiled : state ≠ .compiled)
    (hinvalidated : state ≠ .invalidated) {treeTarget : Option FragmentId}
    (htarget : ∀ t, treeTarget = some t → f.treeTarget = some t ∨
      ∃ q, c.cached? t = some q ∧ q.state = .compiled)
    (trace : Option Buffer) (exitBase hits attempts : Nat) :
    Noted c f { f with state, treeTarget, trace, exitBase, hits, attempts } :=
  ⟨⟨{ f.content with state, treeTarget, trace, exitBase, hits, attempts }, rfl,
    fun h => absurd h hf, fun _ => rfl,
    fun h => absurd h hinvalidated, fun h => absurd h hcompiled, htarget⟩, rfl, fun side => by
      cases side <;> rfl,
    fun _ => hcompiled, fun h => absurd h hf⟩

theorem noting_update (hf : c.fragment? id = some f) {g : Fragment → Fragment}
    (hm : Noted c f (g f)) :
    Noting c (c.update id g) := by
  refine ⟨rfl, rfl, update_size c g, fun j => ?_, rfl, rfl, rfl, rfl⟩
  rw [fragment?_update (fragment?_eq_some.mp hf).1]
  by_cases hj : j = id
  · rw [if_pos hj, hj, hf]
    exact .some hm
  · rw [if_neg hj]
    cases c.fragment? j with
    | none => exact .none
    | some q => exact .some (.refl c q)

/-- The table of exits is nobody's business. -/
theorem Noting.exits (h : Noting c c') (exits : Array ExitRecord) : Noting c { c' with exits } :=
  ⟨h.backend, h.region, h.size, h.fragments, h.roots, h.guards, h.registered, h.count⟩

theorem Noting.refl (c : FragmentCache) : Noting c c := by
  refine ⟨rfl, rfl, rfl, fun j => ?_, rfl, rfl, rfl, rfl⟩
  cases c.fragment? j with
  | none => exact .none
  | some f => exact .some (.refl c f)

section Noting

variable (h : Noting c c')

include h

theorem Noting.fragment (hf : c.fragment? id = some f) :
    ∃ f', c'.fragment? id = some f' ∧ Noted c f f' := by
  have hrel := h.fragments id
  rw [hf] at hrel
  cases hf' : c'.fragment? id with
  | none =>
    rw [hf'] at hrel
    cases hrel
  | some f' =>
    rw [hf'] at hrel
    cases hrel with
    | some hnoted => exact ⟨f', rfl, hnoted⟩

theorem Noting.fragment_back (hf : c'.fragment? id = some f') :
    ∃ f, c.fragment? id = some f ∧ Noted c f f' := by
  have hrel := h.fragments id
  rw [hf] at hrel
  cases hf' : c.fragment? id with
  | none =>
    rw [hf'] at hrel
    cases hrel
  | some f =>
    rw [hf'] at hrel
    cases hrel with
    | some hnoted => exact ⟨f, rfl, hnoted⟩

theorem Noting.cached (hf : c.cached? id = some f) :
    ∃ f', c'.cached? id = some f' ∧ Noted c f f' := by
  obtain ⟨hf, hcached⟩ := cached?_eq_some.mp hf
  obtain ⟨f', hf', hn⟩ := h.fragment hf
  exact ⟨f', cached?_eq_some.mpr ⟨hf', hn.mild.cached.trans hcached⟩, hn⟩

theorem Noting.cached_back (hf : c'.cached? id = some f') :
    ∃ f, c.cached? id = some f ∧ Noted c f f' := by
  obtain ⟨hf, hcached⟩ := cached?_eq_some.mp hf
  obtain ⟨f, hf', hn⟩ := h.fragment_back hf
  exact ⟨f, cached?_eq_some.mpr ⟨hf', hn.mild.cached.symm.trans hcached⟩, hn⟩

theorem Noting.pagesOf (id : FragmentId) (side : Side) :
    c'.pagesOf id side = c.pagesOf id side := by
  cases hf : c.fragment? id with
  | none =>
    cases hf' : c'.fragment? id with
    | none => rw [FragmentCache.pagesOf, FragmentCache.pagesOf, hf, hf']
    | some f' =>
      obtain ⟨f, hf'', -⟩ := h.fragment_back hf'
      rw [hf] at hf''
      cases hf''
  | some f =>
    obtain ⟨f', hf', hn⟩ := h.fragment hf
    rw [pagesOf_eq hf, pagesOf_eq hf', hn.pages side]

theorem Noting.alike : Alike c c' where
  backend := h.backend
  size := h.size
  fragments id := by
    have hrel := h.fragments id
    cases hf : c.fragment? id with
    | none =>
      rw [hf] at hrel
      cases hf' : c'.fragment? id with
      | none => exact .none
      | some f' =>
        rw [hf'] at hrel
        cases hrel
    | some f =>
      obtain ⟨f', hf', hn⟩ := h.fragment hf
      rw [hf']
      exact .some hn.mild
  roots := h.roots
  count := Nat.le_of_eq h.count.symm
  old := fun {g r} hr => ⟨r.target, by rw [h.guards, hr]⟩
  new := fun {g r} hr => .inl ⟨r, by rw [← h.guards, hr]⟩

theorem Sound.noting (hs : Sound p q c) : Sound p q c' where
  trees := hs.trees.alike h.alike
  housed := by
    refine hs.housed.congr ?_ h.pagesOf fun {id f'} hf' f hf hcached hstate => ?_
    · rw [h.region]
      exact hs.housed.held
    · obtain ⟨f₀, hf₀, hn⟩ := h.fragment_back hf'
      rw [hf] at hf₀
      cases hf₀
      exact ⟨hn.mild.cached.trans hcached, hn.mild.compiled hstate⟩
  armed hp := by
    rw [h.count] at hp
    refine (hs.armed hp).congr h.registered (fun hf => ?_) fun hf' => .inr ?_
    · obtain ⟨f', hf', hn⟩ := h.cached hf
      exact ⟨f', hf', hn.guards⟩
    · obtain ⟨f, hf, hn⟩ := h.cached_back hf'
      exact ⟨f, hf, hn.guards⟩
  issued hcount := by
    rw [h.count] at hcount
    refine (hs.issued hcount).congr (fun hf' hg => ?_) fun {g r} hr =>
      ⟨r.target, by rw [h.guards, hr]⟩
    obtain ⟨f, hf, hn⟩ := h.fragment_back hf'
    exact ⟨f, hf, hn.guards ▸ hg⟩
  wired hq hcount := by
    rw [h.count] at hcount
    have hw := hs.wired hq hcount
    have hregion : CodePages.Alike c.region c'.region := h.region ▸ .refl _
    refine hw.congr h.backend hregion (fun hg => h.registered ▸ hg) (fun _ hr => h.guards ▸ hr)
      (fun hf' hstate => ?_)
      (fun {g r k} hg hr htarget => ?_) fun _ _ => h.pagesOf _ _
    · obtain ⟨f, hf, hn⟩ := h.cached_back hf'
      obtain ⟨n, hn⟩ := hn.code (Classical.byContradiction fun hopen => hn.open_ hopen hstate)
      exact ⟨f, n, hf, hn⟩
    · rw [h.guards] at hr
      rw [h.registered] at hg
      obtain ⟨q, hq, -, hstate, -⟩ := hw.child hr hg htarget
      obtain ⟨q', hq', hn⟩ := h.cached hq
      exact ⟨q', hq', hn.mild.compiled hstate⟩

end Noting

/-! ### New fragments -/

section Grown

variable {n : FragmentId} {new : Fragment} (h : Grown n new c c')

include h

theorem Grown.bare : new.guards = [] ∧ ∀ side, new.pages side = [] := by
  obtain ⟨_, _, _, _, _, _, rfl⟩ := h.sprout.blank
  exact ⟨rfl, fun side => by cases side <;> rfl⟩

theorem Grown.pagesOf (id : FragmentId) (side : Side) : c'.pagesOf id side = c.pagesOf id side := by
  by_cases hid : id = n
  · subst hid
    rw [pagesOf_eq h.fresh, h.bare.2 side]
    cases hf : c.fragment? id with
    | none => rw [FragmentCache.pagesOf, hf]; rfl
    | some f => exact absurd rfl (h.ne hf)
  · rw [FragmentCache.pagesOf, FragmentCache.pagesOf, h.old id hid]
    cases c.fragment? id with
    | none => rfl
    | some f => cases side <;> rfl

theorem Sound.grown (hs : Sound p q c) : Sound p q c' where
  trees := hs.trees.grown h
  housed := by
    refine hs.housed.congr ?_ h.pagesOf fun {id f'} hf' f hf hcached hstate => ?_
    · rw [h.region]
      exact hs.housed.held
    · rw [h.fragment hf] at hf'
      cases hf'
      exact ⟨hcached, hstate⟩
  armed hp := by
    rw [h.count] at hp
    refine (hs.armed hp).congr h.registered (fun hf => ⟨_, h.cached hf, rfl⟩) fun hf' => ?_
    rcases h.cached_back hf' with ⟨-, rfl⟩ | ⟨f, hf, rfl⟩
    · exact .inl h.bare.1
    · exact .inr ⟨f, hf, rfl⟩
  issued hcount := by
    rw [h.count] at hcount
    refine (hs.issued hcount).congr (fun hf' hg => ?_) fun {g r} hr =>
      ⟨r.target, by rw [h.guards, hr]⟩
    rcases h.fragment_back hf' with ⟨-, rfl⟩ | ⟨f, hf, rfl⟩
    · rw [h.bare.1] at hg
      cases hg
    · exact ⟨f, hf, hg⟩
  wired hq hcount := by
    rw [h.count] at hcount
    have hw := hs.wired hq hcount
    have hregion : CodePages.Alike c.region c'.region := h.region ▸ .refl _
    refine hw.congr h.backend hregion (fun hg => h.registered ▸ hg) (fun _ hr => h.guards ▸ hr)
      (fun hf' hstate => ?_)
      (fun {g r k} hg hr htarget => ?_) fun _ _ => h.pagesOf _ _
    · rcases h.cached_back hf' with ⟨-, rfl⟩ | ⟨f, hf, rfl⟩
      · obtain ⟨_, _, _, _, _, _, rfl⟩ := h.sprout.blank
        cases hstate
      · exact ⟨f, { enlist n new _ f with }, hf, rfl⟩
    · rw [h.guards] at hr
      rw [h.registered] at hg
      obtain ⟨q, hq, -, hstate, -⟩ := hw.child hr hg htarget
      exact ⟨_, h.cached hq, hstate⟩

end Grown

/-! ### A new cache -/

theorem sound_new (b : Machine.Backend) {r : CodePages} (hheld : r.Held fun _ _ => [])
    (hlaid : q → r.Laid) :
    Sound p q { backend := b, region := r } := by
  let c : FragmentCache := { backend := b, region := r }
  have hfragment : ∀ {id f}, ¬ c.fragment? id = some f := fun {id f} => by simp [c, fragment?]
  have hcached : ∀ {id f}, ¬ c.cached? id = some f := fun hf => hfragment (fragment?_of_cached hf)
  have hguard : ∀ {g : GuardId} {r : Guard}, ¬ c.guards[g]? = some r := by simp [c]
  have hregistered : ∀ {g : GuardId}, ¬ g ∈ c.registered := Std.TreeSet.not_mem_emptyc
  have hpages : c.pagesOf = fun _ _ => [] := by
    funext id side
    simp [FragmentCache.pagesOf, c, fragment?]
  refine ⟨?_, ⟨?_, ?_⟩, fun _ => ⟨?_, ?_, ?_⟩, fun _ => ?_, fun hq _ => ⟨hlaid hq, ?_, ?_, ?_, ?_⟩⟩
  · constructor
    case size => exact Nat.two_pow_pos 32
    case roots => simp
    case records => exact fun hr => (hguard hr).elim
    case numbers => exact fun hr => (hguard hr).elim
    case numbered => exact fun hf => (hfragment hf).elim
    case lineage => exact fun hf => (hfragment hf).elim
    all_goals exact fun hf => (hcached hf).elim
  · rw [hpages]
    exact hheld
  · exact fun hf => (hfragment hf).elim
  · exact fun hf => (hcached hf).elim
  · exact fun hg => (hregistered hg).elim
  · exact fun hf => (hcached hf).elim
  · exact fun _ _ _ hf => (hfragment hf).elim
  · exact fun hr => (hguard hr).elim
  · exact fun hr => (hguard hr).elim
  · exact fun hr => (hguard hr).elim
  · exact fun hf => (hcached hf).elim

/-! ### New fragments

A root is made where a loop has none, a peer beside a root and a branch at a guard of compiled code;
each is added as `Grown` says as long as there are numbers, and gets the number zero afterwards. -/

variable {new : Fragment}

theorem lt_nextId (hsize : c.fragments.size + 1 < 2 ^ 32)
    (hf : c.fragment? id = some f) : id < c.nextId := by
  have hplace := (Array.getElem?_eq_some_iff.mp (fragment?_eq_some.mp hf).2).1
  rw [UInt32.lt_iff_toNat_lt, toNat_nextId hsize]
  unfold place at hplace
  omega

theorem Trees.nextId_eq_zero (ht : Trees c)
    (hsize : ¬ c.fragments.size + 1 < 2 ^ 32) : c.nextId = 0 := by
  have hfull : c.fragments.size + 1 = 2 ^ 32 := Nat.le_antisymm ht.size (Nat.le_of_not_lt hsize)
  rw [nextId, hfull]
  rfl

/-- Adding a fragment and entering it in the lists where it belongs. -/
theorem grown_add (hsize : c.fragments.size + 1 < 2 ^ 32) (hs : Sprout c c.nextId new)
    (hsame : c' = { c.add new with fragments := c'.fragments, roots := c'.roots })
    (hcount : c'.fragments.size = c.fragments.size + 1)
    (hfragment : ∀ j, c'.fragment? j = ((c.add new).fragment? j).map fun f => if j = c.nextId then f
      else enlist c.nextId new j f)
    (hroots : ∀ {k : LoopKey} {id : FragmentId}, c'.roots[k]? = some id →
      c.roots[k]? = some id ∨ id = c.nextId ∧ new.kind = .root ∧
      new.key = k) : Grown c.nextId new c c' where
  backend := by rw [hsame, add_backend]
  region := by rw [hsame, add_region]
  size := hcount ▸ hsize
  last := lt_nextId hsize
  sprout := hs
  fresh := by
    rw [hfragment, fragment?_add hsize, if_pos rfl]
    simp
  old j hj := by
    rw [hfragment, fragment?_add hsize, if_neg hj]
    simp [hj]
  roots := hroots
  guards := by rw [hsame, add_guards]
  registered := by rw [hsame, add_registered]
  count := by rw [hsame, add_guardCount]

/-- The cache that has a root of the loop. -/
theorem getOrCreate_cases (ht : Trees c) (key : LoopKey) :
    (∃ id f, c.getOrCreate key = (c, id, false) ∧ c.cached? id = some f ∧
      f.kind = .root ∧ f.key = key) ∨
    (∃ c', c.getOrCreate key = (c', 0, true)) ∨
    ∃ c', c.getOrCreate key = (c', c.nextId, true) ∧
      Grown c.nextId { id := c.nextId, key, kind := .root, root := c.nextId } c c' := by
  unfold getOrCreate lookup?
  cases hid : c.roots[key]? with
  | some id =>
    obtain ⟨f, hf, hkind, hkey⟩ := ht.roots hid
    exact .inl ⟨id, f, rfl, hf, hkind, hkey⟩
  | none =>
    by_cases hsize : c.fragments.size + 1 < 2 ^ 32
    · refine .inr (.inr ⟨_, rfl, ?_⟩)
      refine grown_add hsize ⟨⟨_, _, _, _, _, _, rfl⟩, fun _ => rfl, fun h => absurd rfl h,
        fun _ => rfl, nofun, nofun⟩ rfl
        (add_size c _) (fun j => ?_) fun {k id} hk => ?_
      · have hsame : ∀ f, enlist c.nextId { id := c.nextId, key, kind := .root,
                                            root := c.nextId } j f = f := fun f => by
          simp [enlist]
        show (c.add _).fragment? j = _
        cases (c.add { id := c.nextId, key, kind := .root, root := c.nextId }).fragment? j <;>
          simp [hsame]
      · change (c.roots.insert key c.nextId)[k]? = some id at hk
        rw [Std.TreeMap.getElem?_insert] at hk
        split at hk
        · next hkey =>
          cases hk
          exact .inr ⟨rfl, rfl, Std.compare_eq_iff_eq.mp hkey⟩
        · exact .inl hk
    · exact .inr (.inl ⟨_, by rw [ht.nextId_eq_zero hsize]⟩)

/-- A peer is added, unless there is no number for it. -/
theorem addPeer_ensures (ht : Trees c) {root : Fragment} (hroot : c.cached? root.id = some root)
    (types : TypeMap) :
    Ensures Harmless (addPeer root types) c fun id c' => id = 0 ∨ ∃ new, Grown id new c c' := by
  unfold Ensures addPeer
  by_cases hkind : root.kind = .root
  · rw [if_neg (not_not_intro hkind)]
    dsimp only
    by_cases hsize : c.fragments.size + 1 < 2 ^ 32
    · have hsprout : Sprout c c.nextId
          { id := c.nextId, key := root.key, kind := .peer, root := root.id,
            entryTypes := knownTypes types } :=
        ⟨⟨_, _, _, _, _, _, rfl⟩, (fun h => by cases h), fun _ => ⟨root, hroot, hkind, rfl⟩,
          fun _ => rfl, (fun h => by cases h),
          fun h => by cases h⟩
      refine .inr ⟨_, grown_add hsize hsprout rfl ?_ (fun j => ?_) fun hk => .inl hk⟩
      · rw [update_size, add_size]
      · rw [fragment?_update (fragment?_eq_some.mp (fragment?_of_cached hroot)).1]
        have hne := UInt32.ne_of_lt (lt_nextId hsize (fragment?_of_cached hroot))
        by_cases hj : j = root.id
        · subst hj
          simp [hne, enlist]
        · rw [if_neg hj]
          generalize (c.add _).fragment? j = found
          cases found <;> simp [enlist, Ne.symm hj]
    · exact .inl (ht.nextId_eq_zero hsize)
  · rw [if_pos hkind]
    rintro _ _ ⟨⟩

/-- A branch is added at a guard, unless there is no number for it. -/
theorem attachChild_ensures (ht : Trees c) {parent q : Fragment} {g : Guard}
    (hq : c.cached? parent.id = some q)
    (hstate : q.state = .compiled) (hroot : q.root = parent.root) (hkey : q.key = parent.key)
    (hg : c.guards[g.id]? = some g) :
    Ensures Harmless (attachChild parent g) c fun id c' => id = 0 ∨
      ∃ new, Grown id new c c' ∧ new.kind = .branch ∧ new.anchor = some g.id := by
  unfold Ensures attachChild
  by_cases hsource : g.source = parent.id
  · rw [if_neg (not_not_intro hsource)]
    dsimp only
    by_cases hsize : c.fragments.size + 1 < 2 ^ 32
    · obtain ⟨r, hr, hkind, hrkey⟩ := ht.root hq
      have hsprout : Sprout c c.nextId
          { id := c.nextId, key := parent.key, kind := .branch, root := parent.root
            parent := some parent.id, anchor := some g.id, entryTypes :=
                some (c.exitOf g).exit.types } :=
        ⟨⟨_, _, _, _, _, _, rfl⟩, (fun h => by cases h),
          fun _ => ⟨r, hroot ▸ hr, hkind, hrkey.trans hkey⟩, fun h => absurd rfl h,
          fun _ => ⟨parent.id, q, rfl, hq, hstate, hroot⟩, fun _ =>
            ⟨g.id, g, rfl, hg, by rw [hsource]⟩⟩
      refine .inr ⟨_, grown_add hsize hsprout rfl ?_ (fun j => ?_) (fun hk => .inl hk), rfl, rfl⟩
      · rw [update_size, add_size]
      · rw [fragment?_update (fragment?_eq_some.mp (fragment?_of_cached hq)).1]
        have hne := UInt32.ne_of_lt (lt_nextId hsize (fragment?_of_cached hq))
        by_cases hj : j = parent.id
        · subst hj
          simp [hne, enlist]
        · rw [if_neg hj]
          generalize (c.add _).fragment? j = found
          cases found <;> simp [enlist, Ne.symm hj]
    · exact .inl (ht.nextId_eq_zero hsize)
  · rw [if_pos hsource]
    rintro _ _ ⟨⟩

end FragmentCache

end LoopTracer
