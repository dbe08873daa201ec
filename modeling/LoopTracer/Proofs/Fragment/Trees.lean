import Mathlib.Algebra.Group.Int.Defs
import Mathlib.Algebra.GroupWithZero.Nat
import LoopTracer.Fragment.Cache
import LoopTracer.Proofs.Computation

/-! Trees of fragments.

`Trees` is what holds of the fragments of a cache whatever was done to it: a cached fragment has a
cached root, a peer is listed by its root, a branch is listed by a compiled parent and starts at a
guard of it, and a trace that goes on in another fragment finds that one compiled. There are four
ways in which the fragments change, and each keeps this: what nobody else relies on changes
(`Alike`), a fragment is added (`Grown`), a fragment gets its code (`Installed`), and fragments are
dropped together with all that depend on them (`Pruned`). -/
namespace LoopTracer

open Trace Compile

/-! ### Looking up fragments

All that matters of the table of fragments is which fragment has which number. Changing a fragment
and adding one do to the numbers what one expects; fragments are added as long as numbers last. -/

namespace FragmentCache

variable {c : FragmentCache} {id j : FragmentId} {f : Fragment} {g : Fragment → Fragment}

theorem fragment?_eq_some : c.fragment? id = some f ↔ id ≠ 0 ∧ c.fragments[place id]? = some f := by
  unfold fragment?
  split <;> simp_all

theorem cached?_eq_some : c.cached? id = some f ↔ c.fragment? id = some f ∧ f.cached = true := by
  unfold cached?
  rw [Option.filter_eq_some_iff]

theorem guard?_eq_some {g : GuardId} {r : Guard} :
    c.guard? g = some r ↔ g ∈ c.registered ∧ c.guards[g]? = some r := by
  unfold guard?
  split
  · next hmem => exact ⟨fun h => ⟨Std.TreeSet.mem_iff_contains.mpr hmem, h⟩, And.right⟩
  · next hnot => exact ⟨nofun, fun h => absurd (Std.TreeSet.mem_iff_contains.mp h.1) hnot⟩

theorem fragment?_of_cached (h : c.cached? id = some f) : c.fragment? id = some f :=
  (cached?_eq_some.mp h).1

theorem place_inj (hid : id ≠ 0) (hj : j ≠ 0) (h : place id = place j) : id = j := by
  have hid' : id.toNat ≠ 0 := fun h => hid (UInt32.toNat.inj h)
  have hj' : j.toNat ≠ 0 := fun h => hj (UInt32.toNat.inj h)
  unfold place at h
  exact UInt32.toNat.inj (by omega)

/-! ### The steps of dropping a fragment -/

/-- The parent loses a fragment that is dropped, unless the parent goes too. -/
def parentless (mask : Array Bool) (f : Fragment) (c : FragmentCache) : FragmentCache :=
  match f.parent with
  | some p =>
    if marked mask p then c else c.update p fun q => { q with children := q.children.erase f.id }
  | none => c

/-- The parent loses a fragment that is given up before it has code. -/
def orphaned (f : Fragment) (c : FragmentCache) : FragmentCache :=
  match f.parent with
  | some p => c.update p fun q => { q with children := q.children.erase f.id }
  | none => c

/-- The root loses a peer that is dropped, unless the root goes too. -/
def peerless (mask : Array Bool) (f : Fragment) (c : FragmentCache) : FragmentCache :=
  if f.kind = .peer && !marked mask f.root then c.update f.root fun q =>
    { q with peers := q.peers.erase f.id } else c

/-- The loop loses a root that is dropped. -/
def rootless (f : Fragment) (c : FragmentCache) : FragmentCache :=
  if f.kind = .root && c.roots[f.key]? = some f.id
    then { c with roots := c.roots.erase f.key } else c

/-! ### Changing a fragment -/

section update

variable (c g)

@[simp] theorem update_backend : (c.update id g).backend = c.backend := rfl
@[simp] theorem update_region : (c.update id g).region = c.region := rfl
@[simp] theorem update_roots : (c.update id g).roots = c.roots := rfl
@[simp] theorem update_guards : (c.update id g).guards = c.guards := rfl
@[simp] theorem update_registered : (c.update id g).registered = c.registered := rfl
@[simp] theorem update_guardCount : (c.update id g).guardCount = c.guardCount := rfl
@[simp] theorem update_exits : (c.update id g).exits = c.exits := rfl
@[simp] theorem update_size : (c.update id g).fragments.size = c.fragments.size := by simp [update]

end update

theorem fragment?_update (hid : id ≠ 0) :
    (c.update id g).fragment? j = if j = id then (c.fragment? j).map g else c.fragment? j := by
  unfold fragment? update
  by_cases hj : j = 0
  · simp [hj]
  · rw [if_neg hj, if_neg hj]
    dsimp only
    rw [Array.getElem?_modify]
    by_cases hsame : j = id
    · rw [if_pos hsame, if_pos (by rw [hsame])]
    · rw [if_neg hsame, if_neg fun h => hsame (place_inj hid hj h).symm]

/-! ### Adding a fragment -/

section add

variable (c f)

@[simp] theorem add_backend : (c.add f).backend = c.backend := rfl
@[simp] theorem add_region : (c.add f).region = c.region := rfl
@[simp] theorem add_roots : (c.add f).roots = c.roots := rfl
@[simp] theorem add_guards : (c.add f).guards = c.guards := rfl
@[simp] theorem add_registered : (c.add f).registered = c.registered := rfl
@[simp] theorem add_guardCount : (c.add f).guardCount = c.guardCount := rfl
@[simp] theorem add_size : (c.add f).fragments.size = c.fragments.size + 1 := by simp [add]

end add

theorem toNat_nextId (hsize : c.fragments.size + 1 < 2 ^ 32) :
    c.nextId.toNat = c.fragments.size + 1 :=
  UInt32.toNat_ofNat_of_lt' hsize

theorem nextId_ne_zero (hsize : c.fragments.size + 1 < 2 ^ 32) : c.nextId ≠ 0 := by
  intro h
  have := toNat_nextId hsize
  rw [h] at this
  exact Nat.succ_ne_zero _ this.symm

theorem place_nextId (hsize : c.fragments.size + 1 < 2 ^ 32) :
    place c.nextId = c.fragments.size := by
  rw [place, toNat_nextId hsize, Nat.add_sub_cancel]

theorem fragment?_nextId (hsize : c.fragments.size + 1 < 2 ^ 32) : c.fragment? c.nextId = none := by
  rw [fragment?, if_neg (nextId_ne_zero hsize), place_nextId hsize]
  simp

theorem fragment?_add (hsize : c.fragments.size + 1 < 2 ^ 32) :
    (c.add f).fragment? j = if j = c.nextId then some f else c.fragment? j := by
  have hplace := place_nextId hsize
  have hne := nextId_ne_zero hsize
  unfold fragment? add
  by_cases hj : j = 0
  · simp [hj, Ne.symm hne]
  · rw [if_neg hj, if_neg hj]
    dsimp only
    rw [Array.getElem?_push]
    by_cases hsame : j = c.nextId
    · rw [if_pos hsame, if_pos (by rw [hsame, hplace])]
    · rw [if_neg hsame, if_neg fun h => hsame (place_inj hj hne (h.trans hplace.symm))]

end FragmentCache

/-! ### Trees -/

/-- What changes while a fragment keeps its place in its tree. -/
structure Content where
  state : FragmentState
  entryTypes : Option TypeMap
  trace : Option Buffer
  exitBase : Nat
  entry : Machine.CodeAddr
  loopTop : Machine.CodeAddr
  guards : List GuardId
  mainPages : List Nat
  exitPages : List Nat
  mainCode : List CodeRange
  exitCode : List CodeRange
  treeTarget : Option FragmentId
  hits : Nat
  exits : Nat
  attempts : Nat

/-- A fragment with another content. -/
def Fragment.fill (f : Fragment) (n : Content) : Fragment :=
  { f with
    state := n.state
    entryTypes := n.entryTypes
    trace := n.trace
    exitBase := n.exitBase
    entry := n.entry
    loopTop := n.loopTop
    guards := n.guards
    mainPages := n.mainPages
    exitPages := n.exitPages
    mainCode := n.mainCode
    exitCode := n.exitCode
    treeTarget := n.treeTarget
    hits := n.hits
    exits := n.exits
    attempts := n.attempts }

def Fragment.content (f : Fragment) : Content :=
  { f with }

namespace FragmentCache

structure Trees (c : FragmentCache) : Prop where
  size : c.fragments.size < 2 ^ 32
  numbered : ∀ {id f}, c.fragment? id = some f → f.id = id
  live : ∀ {id f}, c.cached? id = some f → f.state ≠ .invalidated
  root : ∀ {id f}, c.cached? id = some f → ∃ r, c.cached? f.root = some r ∧
    r.kind = .root ∧ r.key = f.key
  self : ∀ {id f}, c.cached? id = some f → f.kind = .root → f.root = id
  peer : ∀ {id f}, c.cached? id = some f → f.kind = .peer →
    ∃ r, c.cached? f.root = some r ∧ id ∈ r.peers
  branch : ∀ {id f}, c.cached? id = some f → f.kind = .branch → ∃ p q, f.parent = some p ∧ p < id ∧
    c.cached? p = some q ∧ q.state = .compiled ∧ q.root = f.root ∧ id ∈ q.children
  anchored : ∀ {id f}, c.cached? id = some f → f.kind = .branch →
    ∃ g r, f.anchor = some g ∧ c.guards[g]? = some r ∧ f.parent = some r.source
  children : ∀ {id f}, c.cached? id = some f → f.children.Nodup ∧ ∀ k ∈ f.children,
    ∃ q, c.cached? k = some q ∧ q.kind = .branch ∧ q.parent = some id
  peers : ∀ {id f}, c.cached? id = some f → f.peers.Nodup ∧ ∀ k ∈ f.peers,
    ∃ q, c.cached? k = some q ∧ q.kind = .peer ∧ q.root = id
  target : ∀ {id f t}, c.cached? id = some f → f.treeTarget = some t →
    ∃ q, c.cached? t = some q ∧ q.state = .compiled
  ends : ∀ {id f}, c.cached? id = some f → f.kind = .branch → f.state = .compiled →
    ∃ t, f.treeTarget = some t
  bare : ∀ {id f}, c.cached? id = some f → f.state ≠ .compiled → f.guards = []
  lineage : ∀ {id f}, c.fragment? id = some f → f.root ≠ 0 ∧ f.parent ≠ some 0
  roots : ∀ {k : LoopKey} {id : FragmentId}, c.roots[k]? = some id →
    ∃ f, c.cached? id = some f ∧ f.kind = .root ∧ f.key = k
  records : ∀ {g : GuardId} {r : Guard}, c.guards[g]? = some r → r.id = g ∧
    ∃ f, c.fragment? r.source = some f ∧ g ∈ f.guards ∧ (f.cached = true → f.state = .compiled)
  numbers : ∀ {g : GuardId} {r : Guard}, c.guards[g]? = some r →
    ∃ k, 0 < k ∧ k ≤ c.guardCount ∧ g = k.toUInt32

/-! ### Fragments that stay -/

/-- Only the content of a fragment has changed, and nothing that others rely on: what is compiled
stays so, with its guards and its target, and what becomes compiled has a target if it is a branch. -/
def Mild (c : FragmentCache) (f f' : Fragment) : Prop :=
  ∃ n : Content, f' = f.fill n ∧
    (f.state = .compiled → n.state = .compiled ∧ n.treeTarget = f.treeTarget) ∧
    (f.state = .compiled ∨ f.cached = false ∨ n.state ≠ .compiled → n.guards = f.guards) ∧
    (n.state = .invalidated → f.state = .invalidated) ∧
    (n.state = .compiled → f.state = .compiled ∨ (f.kind = .branch → ∃ t, n.treeTarget = some t)) ∧
    ∀ t, n.treeTarget = some t → f.treeTarget = some t ∨
      ∃ q, c.cached? t = some q ∧ q.state = .compiled

/-- No fragment has come or gone. A guard may lead elsewhere, and new guards belong to compiled
fragments. -/
structure Alike (c c' : FragmentCache) : Prop where
  backend : c'.backend = c.backend
  size : c'.fragments.size = c.fragments.size
  fragments : ∀ id, Option.Rel (Mild c) (c.fragment? id) (c'.fragment? id)
  roots : c'.roots = c.roots
  count : c.guardCount ≤ c'.guardCount
  old : ∀ {g : GuardId} {r : Guard}, c.guards[g]? = some r →
    ∃ target, c'.guards[g]? = some { r with target }
  new : ∀ {g : GuardId} {r : Guard}, c'.guards[g]? = some r → (∃ r₀, c.guards[g]? = some r₀) ∨
    r.id = g ∧ (∃ f, c'.fragment? r.source = some f ∧ g ∈ f.guards ∧ f.state = .compiled) ∧
      ∃ k, 0 < k ∧ k ≤ c'.guardCount ∧ g = k.toUInt32

variable {c c' : FragmentCache} {id : FragmentId} {f f' : Fragment}

theorem Mild.refl (c : FragmentCache) (f : Fragment) : Mild c f f :=
  ⟨f.content, rfl, fun h => ⟨h, rfl⟩, fun _ => rfl, fun h => h, .inl, fun _ => .inl⟩

theorem Mild.compiled (h : Mild c f f') (hf : f.state = .compiled) : f'.state = .compiled := by
  obtain ⟨n, rfl, hcompiled, -⟩ := h
  exact (hcompiled hf).1

theorem Mild.cached (h : Mild c f f') : f'.cached = f.cached := by
  obtain ⟨n, rfl, -⟩ := h
  rfl

theorem Alike.fragment (h : Alike c c') (hf : c.fragment? id = some f) :
    ∃ f', c'.fragment? id = some f' ∧ Mild c f f' := by
  have hrel := h.fragments id
  rw [hf] at hrel
  cases hf' : c'.fragment? id with
  | none =>
    rw [hf'] at hrel
    cases hrel
  | some f' =>
    rw [hf'] at hrel
    cases hrel with
    | some hmild => exact ⟨f', rfl, hmild⟩

theorem Alike.fragment_back (h : Alike c c') (hf : c'.fragment? id = some f') :
    ∃ f, c.fragment? id = some f ∧ Mild c f f' := by
  have hrel := h.fragments id
  rw [hf] at hrel
  cases hf' : c.fragment? id with
  | none =>
    rw [hf'] at hrel
    cases hrel
  | some f =>
    rw [hf'] at hrel
    cases hrel with
    | some hmild => exact ⟨f, rfl, hmild⟩

theorem Alike.cached (h : Alike c c') (hf : c.cached? id = some f) :
    ∃ f', c'.cached? id = some f' ∧ Mild c f f' := by
  obtain ⟨hf, hcached⟩ := cached?_eq_some.mp hf
  obtain ⟨f', hf', hm⟩ := h.fragment hf
  exact ⟨f', cached?_eq_some.mpr ⟨hf', hm.cached.trans hcached⟩, hm⟩

theorem Alike.cached_back (h : Alike c c') (hf : c'.cached? id = some f') :
    ∃ f, c.cached? id = some f ∧ Mild c f f' := by
  obtain ⟨hf, hcached⟩ := cached?_eq_some.mp hf
  obtain ⟨f, hf', hm⟩ := h.fragment_back hf
  exact ⟨f, cached?_eq_some.mpr ⟨hf', hm.cached.symm.trans hcached⟩, hm⟩

/-- A compiled fragment stays compiled. -/
theorem Alike.compiled (h : Alike c c') (hf : ∃ q, c.cached? id = some q ∧ q.state = .compiled) :
    ∃ q, c'.cached? id = some q ∧ q.state = .compiled := by
  obtain ⟨q, hq, hstate⟩ := hf
  obtain ⟨q', hq', hm⟩ := h.cached hq
  exact ⟨q', hq', hm.compiled hstate⟩

theorem Trees.alike (ht : Trees c) (h : Alike c c') : Trees c' where
  size := h.size ▸ ht.size
  numbered hf := by
    obtain ⟨f, hf₀, n, rfl, -⟩ := h.fragment_back hf
    have hid := ht.numbered hf₀
    exact hid
  live hf hinvalid := by
    obtain ⟨f, hf₀, n, rfl, -, -, hlive, -⟩ := h.cached_back hf
    exact ht.live hf₀ (hlive hinvalid)
  root hf := by
    obtain ⟨f, hf₀, n, rfl, -⟩ := h.cached_back hf
    obtain ⟨r, hr, hkind, hkey⟩ := ht.root hf₀
    obtain ⟨r', hr', n', rfl, -⟩ := h.cached hr
    exact ⟨_, hr', hkind, hkey⟩
  self hf := by
    obtain ⟨f, hf₀, n, rfl, -⟩ := h.cached_back hf
    have hself := ht.self hf₀
    exact hself
  peer hf hkind := by
    obtain ⟨f, hf₀, n, rfl, -⟩ := h.cached_back hf
    obtain ⟨r, hr, hmem⟩ := ht.peer hf₀ hkind
    obtain ⟨r', hr', n', rfl, -⟩ := h.cached hr
    exact ⟨_, hr', hmem⟩
  branch hf hkind := by
    obtain ⟨f, hf₀, n, rfl, -⟩ := h.cached_back hf
    obtain ⟨p, q, hp, hlt, hq, hstate, hroot, hmem⟩ := ht.branch hf₀ hkind
    obtain ⟨q', hq', hm⟩ := h.cached hq
    have hstate' := hm.compiled hstate
    obtain ⟨n', rfl, -⟩ := hm
    exact ⟨p, _, hp, hlt, hq', hstate', hroot, hmem⟩
  anchored hf hkind := by
    obtain ⟨f, hf₀, n, rfl, -⟩ := h.cached_back hf
    obtain ⟨g, r, hg, hr, hparent⟩ := ht.anchored hf₀ hkind
    obtain ⟨target, hr'⟩ := h.old hr
    exact ⟨g, _, hg, hr', hparent⟩
  children hf := by
    obtain ⟨f, hf₀, n, rfl, -⟩ := h.cached_back hf
    refine ⟨(ht.children hf₀).1, fun k hk => ?_⟩
    obtain ⟨q, hq, hkind, hparent⟩ := (ht.children hf₀).2 k hk
    obtain ⟨q', hq', n', rfl, -⟩ := h.cached hq
    exact ⟨_, hq', hkind, hparent⟩
  peers hf := by
    obtain ⟨f, hf₀, n, rfl, -⟩ := h.cached_back hf
    refine ⟨(ht.peers hf₀).1, fun k hk => ?_⟩
    obtain ⟨q, hq, hkind, hroot⟩ := (ht.peers hf₀).2 k hk
    obtain ⟨q', hq', n', rfl, -⟩ := h.cached hq
    exact ⟨_, hq', hkind, hroot⟩
  target hf htarget := by
    obtain ⟨f, hf₀, n, rfl, -, -, -, -, htargets⟩ := h.cached_back hf
    rcases htargets _ htarget with hsame | hnew
    · exact h.compiled (ht.target hf₀ hsame)
    · exact h.compiled hnew
  ends hf hkind hstate := by
    obtain ⟨f, hf₀, n, rfl, hkeeps, -, -, hends, -⟩ := h.cached_back hf
    rcases hends hstate with hcompiled | hends
    · obtain ⟨t, ht'⟩ := ht.ends hf₀ hkind hcompiled
      exact ⟨t, (hkeeps hcompiled).2.trans ht'⟩
    · exact hends hkind
  bare hf hstate := by
    obtain ⟨f, hf₀, n, rfl, hkeeps, hguards, -⟩ := h.cached_back hf
    have hbare : f.guards = [] := ht.bare hf₀ fun hcompiled => hstate (hkeeps hcompiled).1
    exact (hguards (.inr (.inr hstate))).trans hbare
  lineage hf := by
    obtain ⟨f, hf₀, n, rfl, -⟩ := h.fragment_back hf
    have hlineage := ht.lineage hf₀
    exact hlineage
  roots hk := by
    rw [h.roots] at hk
    obtain ⟨f, hf, hkind, hkey⟩ := ht.roots hk
    obtain ⟨f', hf', n, rfl, -⟩ := h.cached hf
    exact ⟨_, hf', hkind, hkey⟩
  records hg := by
    rcases h.new hg with ⟨r₀, hr₀⟩ | ⟨hid, ⟨f, hf, hmem, hstate⟩, -⟩
    · obtain ⟨target, hg'⟩ := h.old hr₀
      rw [hg] at hg'
      cases hg'
      obtain ⟨hid, f, hf, hmem, hstate⟩ := ht.records hr₀
      obtain ⟨f', hf', n, rfl, hkeeps, hguards, -⟩ := h.fragment hf
      refine ⟨hid, _, hf', ?_, fun hcached => (hkeeps (hstate hcached)).1⟩
      show _ ∈ n.guards
      rw [hguards]
      · exact hmem
      · cases hc : f.cached with
        | true => exact .inl (hstate hc)
        | false => exact .inr (.inl rfl)
    · exact ⟨hid, f, hf, hmem, fun _ => hstate⟩
  numbers hg := by
    rcases h.new hg with ⟨r₀, hr₀⟩ | ⟨-, -, hk⟩
    · obtain ⟨k, hpos, hle, hk⟩ := ht.numbers hr₀
      exact ⟨k, hpos, Nat.le_trans hle h.count, hk⟩
    · exact hk

/-! ### A new fragment -/

/-- A fragment that may be added under the number `n`: it has nothing of its own yet, and a peer has
a root, a branch a compiled parent and a guard of it. -/
structure Sprout (c : FragmentCache) (n : FragmentId) (f : Fragment) : Prop where
  blank : ∃ key kind root parent anchor entryTypes,
    f = { id := n, key, kind, root, parent, anchor, entryTypes }
  root : f.kind = .root → f.root = n
  rooted : f.kind ≠ .root → ∃ r, c.cached? f.root = some r ∧ r.kind = .root ∧ r.key = f.key
  parent : f.kind ≠ .branch → f.parent = none
  branch : f.kind = .branch → ∃ p q, f.parent = some p ∧ c.cached? p = some q ∧
    q.state = .compiled ∧ q.root = f.root
  anchored : f.kind = .branch → ∃ g r, f.anchor = some g ∧ c.guards[g]? = some r ∧
    f.parent = some r.source

theorem Sprout.lineage {n : FragmentId} (h : Sprout c n f) (hn : n ≠ 0) :
    f.root ≠ 0 ∧ f.parent ≠ some 0 := by
  constructor
  · by_cases hkind : f.kind = .root
    · rwa [h.root hkind]
    · obtain ⟨r, hr, -⟩ := h.rooted hkind
      exact (fragment?_eq_some.mp (fragment?_of_cached hr)).1
  · by_cases hkind : f.kind = .branch
    · obtain ⟨p, q, hp, hq, -⟩ := h.branch hkind
      rw [hp]
      exact fun hzero => (fragment?_eq_some.mp (fragment?_of_cached hq)).1 (Option.some.inj hzero)
    · rw [h.parent hkind]
      nofun

/-- A fragment in whose lists the new one is entered if it belongs there. -/
def enlist (n : FragmentId) (new : Fragment) (id : FragmentId) (f : Fragment) : Fragment :=
  { f with
    children := if new.parent = some id then f.children ++ [n] else f.children
    peers := if new.kind = .peer ∧ new.root = id then f.peers ++ [n] else f.peers }

/-- A fragment was added. -/
structure Grown (n : FragmentId) (new : Fragment) (c c' : FragmentCache) : Prop where
  backend : c'.backend = c.backend
  region : c'.region = c.region
  size : c'.fragments.size < 2 ^ 32
  last : ∀ {id f}, c.fragment? id = some f → id < n
  sprout : Sprout c n new
  fresh : c'.fragment? n = some new
  old : ∀ id, id ≠ n → c'.fragment? id = (c.fragment? id).map (enlist n new id)
  roots : ∀ {k : LoopKey} {id : FragmentId}, c'.roots[k]? = some id →
    c.roots[k]? = some id ∨ id = n ∧ new.kind = .root ∧ new.key = k
  guards : c'.guards = c.guards
  registered : c'.registered = c.registered
  count : c'.guardCount = c.guardCount

variable {n : FragmentId} {new : Fragment}

theorem Grown.ne (h : Grown n new c c') (hf : c.fragment? id = some f) : id ≠ n :=
  fun hid => UInt32.lt_irrefl n (hid ▸ h.last hf)

theorem Grown.fragment (h : Grown n new c c') (hf : c.fragment? id = some f) :
    c'.fragment? id = some (enlist n new id f) := by
  rw [h.old id (h.ne hf), hf]
  rfl

theorem Grown.cached (h : Grown n new c c') (hf : c.cached? id = some f) :
    c'.cached? id = some (enlist n new id f) := by
  obtain ⟨hf, hcached⟩ := cached?_eq_some.mp hf
  exact cached?_eq_some.mpr ⟨h.fragment hf, hcached⟩

theorem Grown.fragment_back (h : Grown n new c c') (hf : c'.fragment? id = some f') :
    id = n ∧ f' = new ∨ ∃ f, c.fragment? id = some f ∧ f' = enlist n new id f := by
  by_cases hid : id = n
  · rw [hid, h.fresh] at hf
    exact .inl ⟨hid, (Option.some.inj hf).symm⟩
  · rw [h.old id hid, Option.map_eq_some_iff] at hf
    obtain ⟨f, hf, rfl⟩ := hf
    exact .inr ⟨f, hf, rfl⟩

theorem Grown.cached_back (h : Grown n new c c') (hf : c'.cached? id = some f') :
    id = n ∧ f' = new ∨ ∃ f, c.cached? id = some f ∧ f' = enlist n new id f := by
  obtain ⟨hf, hcached⟩ := cached?_eq_some.mp hf
  refine (h.fragment_back hf).imp_right fun ⟨f, hf, heq⟩ => ⟨f, cached?_eq_some.mpr ⟨hf, ?_⟩, heq⟩
  subst heq
  exact hcached

theorem Grown.cached_new (h : Grown n new c c') : c'.cached? n = some new := by
  refine cached?_eq_some.mpr ⟨h.fresh, ?_⟩
  obtain ⟨_, _, _, _, _, _, rfl⟩ := h.sprout.blank
  rfl

/-- A root that is there stays one, with the new fragment among its peers if it is one. -/
theorem Grown.rooted (h : Grown n new c c') {key : LoopKey}
    (hr : ∃ r, c.cached? id = some r ∧ r.kind = .root ∧ r.key = key) :
    ∃ r, c'.cached? id = some r ∧ r.kind = .root ∧ r.key = key :=
  let ⟨_, hr, hkind, hkey⟩ := hr
  ⟨_, h.cached hr, hkind, hkey⟩

theorem Trees.grown (ht : Trees c) (h : Grown n new c c') : Trees c' where
  size := h.size
  numbered hf := by
    rcases h.fragment_back hf with ⟨rfl, rfl⟩ | ⟨f, hf₀, rfl⟩
    · obtain ⟨_, _, _, _, _, _, rfl⟩ := h.sprout.blank
      rfl
    · have hid := ht.numbered hf₀
      exact hid
  live hf := by
    rcases h.cached_back hf with ⟨rfl, rfl⟩ | ⟨f, hf₀, rfl⟩
    · obtain ⟨_, _, _, _, _, _, rfl⟩ := h.sprout.blank
      nofun
    · have hlive := ht.live hf₀
      exact hlive
  root := fun {id f'} hf => by
    rcases h.cached_back hf with ⟨rfl, heq⟩ | ⟨f, hf₀, rfl⟩
    · rw [heq]
      by_cases hkind : new.kind = .root
      · rw [h.sprout.root hkind]
        exact ⟨_, h.cached_new, hkind, rfl⟩
      · exact h.rooted (h.sprout.rooted hkind)
    · have hroot := h.rooted (ht.root hf₀)
      exact hroot
  self hf hkind := by
    rcases h.cached_back hf with ⟨rfl, rfl⟩ | ⟨f, hf₀, rfl⟩
    · exact h.sprout.root hkind
    · have hself := ht.self hf₀ hkind
      exact hself
  peer := fun {id f'} hf hkind => by
    rcases h.cached_back hf with ⟨rfl, rfl⟩ | ⟨f, hf₀, rfl⟩
    · obtain ⟨r, hr, -⟩ := h.sprout.rooted (by rw [hkind]; nofun)
      refine ⟨_, h.cached hr, ?_⟩
      simp [enlist, hkind]
    · obtain ⟨r, hr, hmem⟩ := ht.peer hf₀ hkind
      refine ⟨_, h.cached hr, ?_⟩
      unfold enlist
      dsimp only
      split
      · exact List.mem_append_left _ hmem
      · exact hmem
  branch := fun {id f'} hf hkind => by
    rcases h.cached_back hf with ⟨rfl, rfl⟩ | ⟨f, hf₀, rfl⟩
    · obtain ⟨p, q, hp, hq, hstate, hroot⟩ := h.sprout.branch hkind
      refine ⟨p, _, hp, h.last (fragment?_of_cached hq), h.cached hq, hstate, hroot, ?_⟩
      simp [enlist, hp]
    · obtain ⟨p, q, hp, hlt, hq, hstate, hroot, hmem⟩ := ht.branch hf₀ hkind
      refine ⟨p, _, hp, hlt, h.cached hq, hstate, hroot, ?_⟩
      unfold enlist
      dsimp only
      split
      · exact List.mem_append_left _ hmem
      · exact hmem
  anchored hf hkind := by
    rw [h.guards]
    rcases h.cached_back hf with ⟨rfl, rfl⟩ | ⟨f, hf₀, rfl⟩
    · exact h.sprout.anchored hkind
    · have hanchor := ht.anchored hf₀ hkind
      exact hanchor
  children := fun {id f'} hf => by
    rcases h.cached_back hf with ⟨rfl, rfl⟩ | ⟨f, hf₀, rfl⟩
    · obtain ⟨_, _, _, _, _, _, rfl⟩ := h.sprout.blank
      exact ⟨.nil, nofun⟩
    · obtain ⟨hnodup, hmem⟩ := ht.children hf₀
      have hold : ∀ k ∈ f.children, ∃ q, c'.cached? k = some q ∧ q.kind = .branch ∧
          q.parent = some id :=
        fun k hk => let ⟨q, hq, hkind, hparent⟩ := hmem k hk; ⟨_, h.cached hq, hkind, hparent⟩
      unfold enlist
      dsimp only
      split
      · next hparent =>
        refine ⟨List.nodup_append.mpr ⟨hnodup, List.pairwise_singleton _ n, fun k hk k' hk' => ?_⟩,
          fun k hk => ?_⟩
        · obtain ⟨q, hq, -⟩ := hmem k hk
          rw [List.mem_singleton.mp hk']
          exact h.ne (fragment?_of_cached hq)
        · rcases List.mem_append.mp hk with hk | hk
          · exact hold k hk
          · rw [List.mem_singleton.mp hk]
            refine ⟨_, h.cached_new, Classical.byContradiction fun hkind => ?_, hparent⟩
            rw [h.sprout.parent hkind] at hparent
            cases hparent
      · exact ⟨hnodup, hold⟩
  peers := fun {id f'} hf => by
    rcases h.cached_back hf with ⟨rfl, rfl⟩ | ⟨f, hf₀, rfl⟩
    · obtain ⟨_, _, _, _, _, _, rfl⟩ := h.sprout.blank
      exact ⟨.nil, nofun⟩
    · obtain ⟨hnodup, hmem⟩ := ht.peers hf₀
      have hold : ∀ k ∈ f.peers, ∃ q, c'.cached? k = some q ∧ q.kind = .peer ∧ q.root = id :=
        fun k hk => let ⟨q, hq, hkind, hroot⟩ := hmem k hk; ⟨_, h.cached hq, hkind, hroot⟩
      unfold enlist
      dsimp only
      split
      · next hpeer =>
        refine ⟨List.nodup_append.mpr ⟨hnodup, List.pairwise_singleton _ n, fun k hk k' hk' => ?_⟩,
          fun k hk => ?_⟩
        · obtain ⟨q, hq, -⟩ := hmem k hk
          rw [List.mem_singleton.mp hk']
          exact h.ne (fragment?_of_cached hq)
        · rcases List.mem_append.mp hk with hk | hk
          · exact hold k hk
          · rw [List.mem_singleton.mp hk]
            exact ⟨_, h.cached_new, hpeer.1, hpeer.2⟩
      · exact ⟨hnodup, hold⟩
  target hf htarget := by
    rcases h.cached_back hf with ⟨rfl, rfl⟩ | ⟨f, hf₀, rfl⟩
    · obtain ⟨_, _, _, _, _, _, rfl⟩ := h.sprout.blank
      cases htarget
    · obtain ⟨q, hq, hstate⟩ := ht.target hf₀ htarget
      exact ⟨_, h.cached hq, hstate⟩
  ends hf hkind hstate := by
    rcases h.cached_back hf with ⟨rfl, rfl⟩ | ⟨f, hf₀, rfl⟩
    · obtain ⟨_, _, _, _, _, _, rfl⟩ := h.sprout.blank
      cases hstate
    · have hends := ht.ends hf₀ hkind hstate
      exact hends
  bare hf := by
    rcases h.cached_back hf with ⟨rfl, rfl⟩ | ⟨f, hf₀, rfl⟩
    · obtain ⟨_, _, _, _, _, _, rfl⟩ := h.sprout.blank
      exact fun _ => rfl
    · have hbare := ht.bare hf₀
      exact hbare
  lineage hf := by
    rcases h.fragment_back hf with ⟨rfl, rfl⟩ | ⟨f, hf₀, rfl⟩
    · exact h.sprout.lineage (fragment?_eq_some.mp h.fresh).1
    · have hlineage := ht.lineage hf₀
      exact hlineage
  roots hk := by
    rcases h.roots hk with hk | ⟨rfl, hkind, hkey⟩
    · exact h.rooted (ht.roots hk)
    · exact ⟨_, h.cached_new, hkind, hkey⟩
  records hg := by
    rw [h.guards] at hg
    obtain ⟨hid, f, hf, hmem, hstate⟩ := ht.records hg
    exact ⟨hid, _, h.fragment hf, hmem, hstate⟩
  numbers hg := by
    rw [h.guards] at hg
    rw [h.count]
    exact ht.numbers hg

/-! ### Fragments that go -/

/-- Some fragments and all that depend on them. -/
structure Closed (c : FragmentCache) (D : FragmentId → Bool) : Prop where
  children : ∀ {id f k}, c.cached? id = some f → D id = true → k ∈ f.children → D k = true
  peers : ∀ {id f k}, c.cached? id = some f → D id = true → f.kind = .root →
    k ∈ f.peers → D k = true
  target : ∀ {id f t}, c.cached? id = some f → f.treeTarget = some t → D t = true → D id = true

/-- A fragment that was dropped. -/
structure Gone (f f' : Fragment) : Prop where
  id : f'.id = f.id
  key : f'.key = f.key
  guards : f'.guards = f.guards
  root : f'.root = f.root
  parent : f'.parent = f.parent
  mainPages : f'.mainPages = []
  exitPages : f'.exitPages = []
  cached : f'.cached = false
  state : f'.state = .invalidated

/-- Some fragments were dropped, and no other one lists them. -/
structure Pruned (D : FragmentId → Bool) (c c' : FragmentCache) : Prop where
  backend : c'.backend = c.backend
  size : c'.fragments.size = c.fragments.size
  none : ∀ {id}, c.fragment? id = none → c'.fragment? id = none
  gone : ∀ {id f}, c.fragment? id = some f → D id = true →
    ∃ f', c'.fragment? id = some f' ∧ Gone f f'
  kept : ∀ {id f}, c.fragment? id = some f → D id = false → ∃ children peers,
    c'.fragment? id = some { f with children, peers } ∧ (f.cached = true →
      children = f.children.filter (fun k => !D k) ∧ peers = f.peers.filter fun k => !D k)
  roots : ∀ {k : LoopKey} {id : FragmentId}, c'.roots[k]? = some id →
    c.roots[k]? = some id ∧ D id = false
  old : ∀ {g : GuardId} {r : Guard}, c.guards[g]? = some r →
    ∃ target, c'.guards[g]? = some { r with target }
  new : ∀ {g : GuardId} {r : Guard}, c'.guards[g]? = some r → ∃ r₀, c.guards[g]? = some r₀
  count : c'.guardCount = c.guardCount

variable {D : FragmentId → Bool}

theorem Pruned.cached (h : Pruned D c c') (hf : c.cached? id = some f) (hD : D id = false) :
    c'.cached? id = some { f with
      children := f.children.filter fun k => !D k
      peers := f.peers.filter fun k => !D k } := by
  obtain ⟨hf, hcached⟩ := cached?_eq_some.mp hf
  obtain ⟨children, peers, hf', hlists⟩ := h.kept hf hD
  obtain ⟨rfl, rfl⟩ := hlists hcached
  exact cached?_eq_some.mpr ⟨hf', hcached⟩

theorem Pruned.fragment_back (h : Pruned D c c') (hf : c'.fragment? id = some f') :
    ∃ f, c.fragment? id = some f ∧ (D id = true ∧ Gone f f' ∨ D id = false ∧
      ∃ children peers, f' = { f with children, peers } ∧ (f.cached = true →
        children = f.children.filter (fun k => !D k) ∧ peers = f.peers.filter fun k => !D k)) := by
  cases hf₀ : c.fragment? id with
  | none =>
    rw [h.none hf₀] at hf
    cases hf
  | some f =>
    refine ⟨f, rfl, ?_⟩
    cases hD : D id with
    | true =>
      obtain ⟨f'', hf'', hgone⟩ := h.gone hf₀ hD
      rw [hf''] at hf
      cases hf
      exact .inl ⟨rfl, hgone⟩
    | false =>
      obtain ⟨children, peers, hf'', hlists⟩ := h.kept hf₀ hD
      rw [hf''] at hf
      cases hf
      exact .inr ⟨rfl, children, peers, rfl, hlists⟩

theorem Pruned.cached_back (h : Pruned D c c') (hf : c'.cached? id = some f') :
    ∃ f, c.cached? id = some f ∧ D id = false ∧ f' = { f with
      children := f.children.filter fun k => !D k
      peers := f.peers.filter fun k => !D k } := by
  obtain ⟨hf, hcached⟩ := cached?_eq_some.mp hf
  obtain ⟨f, hf₀, ⟨-, hgone⟩ | ⟨hD, children, peers, rfl, hlists⟩⟩ := h.fragment_back hf
  · rw [hgone.cached] at hcached
    cases hcached
  · obtain ⟨rfl, rfl⟩ := hlists hcached
    exact ⟨f, cached?_eq_some.mpr ⟨hf₀, hcached⟩, hD, rfl⟩

/-- With a root its whole tree goes. -/
theorem Closed.root (hc : Closed c D) (ht : Trees c) (hf : c.cached? id = some f)
    (hD : D f.root = true) :
    D id = true := by
  induction hn : id.toNat using Nat.strongRecOn generalizing id f with
  | ind n ih =>
    subst hn
    cases hkind : f.kind with
    | root => rwa [ht.self hf hkind] at hD
    | peer =>
      obtain ⟨r, hr, hmem⟩ := ht.peer hf hkind
      obtain ⟨r', hr', hroot, -⟩ := ht.root hf
      rw [hr] at hr'
      cases hr'
      exact hc.peers hr hD hroot hmem
    | branch =>
      obtain ⟨p, q, -, hlt, hq, -, hroot, hmem⟩ := ht.branch hf hkind
      have hp : D p = true := ih p.toNat (UInt32.lt_iff_toNat_lt.mp hlt) hq (hroot ▸ hD) rfl
      exact hc.children hq hp hmem

theorem mem_filter_not {l : List FragmentId} {k : FragmentId} (hk : k ∈ l) (hD : D k = false) :
    k ∈ l.filter fun k => !D k := List.mem_filter.mpr ⟨hk, by simp [hD]⟩

theorem Trees.pruned (ht : Trees c) (hc : Closed c D) (h : Pruned D c c') : Trees c' where
  size := h.size ▸ ht.size
  numbered hf := by
    obtain ⟨f, hf₀, ⟨-, hgone⟩ | ⟨-, children, peers, rfl, -⟩⟩ := h.fragment_back hf
    · exact hgone.id.trans (ht.numbered hf₀)
    · have hid := ht.numbered hf₀
      exact hid
  live hf := by
    obtain ⟨f, hf₀, -, rfl⟩ := h.cached_back hf
    have hlive := ht.live hf₀
    exact hlive
  root hf := by
    obtain ⟨f, hf₀, hD, rfl⟩ := h.cached_back hf
    obtain ⟨r, hr, hkind, hkey⟩ := ht.root hf₀
    have hDr : D f.root = false := by
      rw [← Bool.not_eq_true]
      exact fun hDr => Bool.false_ne_true (hD.symm.trans (hc.root ht hf₀ hDr))
    exact ⟨_, h.cached hr hDr, hkind, hkey⟩
  self hf := by
    obtain ⟨f, hf₀, -, rfl⟩ := h.cached_back hf
    have hself := ht.self hf₀
    exact hself
  peer hf hkind := by
    obtain ⟨f, hf₀, hD, rfl⟩ := h.cached_back hf
    obtain ⟨r, hr, hmem⟩ := ht.peer hf₀ hkind
    have hDr : D f.root = false := by
      rw [← Bool.not_eq_true]
      exact fun hDr => Bool.false_ne_true (hD.symm.trans (hc.root ht hf₀ hDr))
    exact ⟨_, h.cached hr hDr, mem_filter_not hmem hD⟩
  branch hf hkind := by
    obtain ⟨f, hf₀, hD, rfl⟩ := h.cached_back hf
    obtain ⟨p, q, hp, hlt, hq, hstate, hroot, hmem⟩ := ht.branch hf₀ hkind
    have hDp : D p = false := by
      rw [← Bool.not_eq_true]
      exact fun hDp => Bool.false_ne_true (hD.symm.trans (hc.children hq hDp hmem))
    exact ⟨p, _, hp, hlt, h.cached hq hDp, hstate, hroot, mem_filter_not hmem hD⟩
  anchored hf hkind := by
    obtain ⟨f, hf₀, -, rfl⟩ := h.cached_back hf
    obtain ⟨g, r, hg, hr, hparent⟩ := ht.anchored hf₀ hkind
    obtain ⟨target, hr'⟩ := h.old hr
    exact ⟨g, _, hg, hr', hparent⟩
  children hf := by
    obtain ⟨f, hf₀, -, rfl⟩ := h.cached_back hf
    obtain ⟨hnodup, hmem⟩ := ht.children hf₀
    refine ⟨hnodup.filter _, fun k hk => ?_⟩
    obtain ⟨hk, hDk⟩ := List.mem_filter.mp hk
    obtain ⟨q, hq, hkind, hparent⟩ := hmem k hk
    exact ⟨_, h.cached hq (by simpa using hDk), hkind, hparent⟩
  peers hf := by
    obtain ⟨f, hf₀, -, rfl⟩ := h.cached_back hf
    obtain ⟨hnodup, hmem⟩ := ht.peers hf₀
    refine ⟨hnodup.filter _, fun k hk => ?_⟩
    obtain ⟨hk, hDk⟩ := List.mem_filter.mp hk
    obtain ⟨q, hq, hkind, hroot⟩ := hmem k hk
    exact ⟨_, h.cached hq (by simpa using hDk), hkind, hroot⟩
  target := fun {id f' t} hf htarget => by
    obtain ⟨f, hf₀, hD, rfl⟩ := h.cached_back hf
    obtain ⟨q, hq, hstate⟩ := ht.target hf₀ htarget
    have hDt : D t = false := by
      rw [← Bool.not_eq_true]
      exact fun hDt => Bool.false_ne_true (hD.symm.trans (hc.target hf₀ htarget hDt))
    exact ⟨_, h.cached hq hDt, hstate⟩
  ends hf := by
    obtain ⟨f, hf₀, -, rfl⟩ := h.cached_back hf
    have hends := ht.ends hf₀
    exact hends
  bare hf := by
    obtain ⟨f, hf₀, -, rfl⟩ := h.cached_back hf
    have hbare := ht.bare hf₀
    exact hbare
  lineage hf := by
    obtain ⟨f, hf₀, ⟨-, hgone⟩ | ⟨-, children, peers, rfl, -⟩⟩ := h.fragment_back hf
    · rw [hgone.root, hgone.parent]
      exact ht.lineage hf₀
    · have hlineage := ht.lineage hf₀
      exact hlineage
  roots hk := by
    obtain ⟨hk, hD⟩ := h.roots hk
    obtain ⟨f, hf, hkind, hkey⟩ := ht.roots hk
    exact ⟨_, h.cached hf hD, hkind, hkey⟩
  records hg := by
    obtain ⟨r₀, hr₀⟩ := h.new hg
    obtain ⟨target, hg'⟩ := h.old hr₀
    rw [hg] at hg'
    cases hg'
    obtain ⟨hid, f, hf, hmem, hstate⟩ := ht.records hr₀
    cases hD : D r₀.source with
    | true =>
      obtain ⟨f', hf', hgone⟩ := h.gone hf hD
      refine ⟨hid, f', hf', hgone.guards ▸ hmem, fun hcached => ?_⟩
      rw [hgone.cached] at hcached
      cases hcached
    | false =>
      obtain ⟨children, peers, hf', -⟩ := h.kept hf hD
      exact ⟨hid, _, hf', hmem, hstate⟩
  numbers hg := by
    obtain ⟨r₀, hr₀⟩ := h.new hg
    rw [h.count]
    exact ht.numbers hr₀

end FragmentCache

end LoopTracer
