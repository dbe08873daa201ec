import LoopTracer.Proofs.Fragment.Eviction
import LoopTracer.Proofs.Fragment.Guards

/-! Which fragment is found for a loop and for types.

The `Directory` of a cache tells what looking up depends on: the root of each loop, and of every root
and peer its types, its peers and whether it is cached. Branches are not in it, and most operations do
nothing to it. Where it is `Consistent`, every cached root is found by its loop, a cached peer by a
cached root that lists it, and the fragments of a loop have different types. This is kept when a
fragment is entered, when a root gets its types, and when fragments are struck off together with all
that depend on them. -/
namespace LoopTracer

open Trace Compile

/-- What the directory tells of a root or a peer. -/
structure Listing where
  key : LoopKey
  kind : FragmentKind
  root : FragmentId
  entryTypes : Option TypeMap
  peers : List FragmentId
  cached : Bool

/-- The types that it is entered with, none as the empty map. -/
def Listing.types (e : Listing) : TypeMap := e.entryTypes.getD []

/-- More peers are told of a fragment; the types of a peer stay. -/
structure Listing.Extended (e e' : Listing) : Prop where
  key : e'.key = e.key
  kind : e'.kind = e.kind
  root : e'.root = e.root
  cached : e'.cached = e.cached
  peers : e.peers ⊆ e'.peers
  types : e.kind = .peer → e'.types = e.types

theorem Listing.Extended.refl (e : Listing) : e.Extended e :=
  ⟨rfl, rfl, rfl, rfl, List.Subset.refl _, fun _ => rfl⟩

theorem knownTypes_ne (types : TypeMap) : knownTypes types ≠ some [] := by
  unfold knownTypes
  split
  · nofun
  · next hne => exact fun h => hne (by rw [Option.some.inj h]; rfl)

structure Directory where
  roots : LoopKey → Option FragmentId
  listing : FragmentId → Option Listing

namespace Directory

open FragmentCache

variable {x x' : Directory} {D : FragmentId → Bool} {rest : List FragmentId}
  {id k r : FragmentId} {e : Listing}
  {key : LoopKey}

/-- What is told of one fragment agrees with the rest: a root that is cached is the root of its
loop, a peer has a root that lists it, and a root lists peers of its own whose types differ from
each other and from its types. -/
structure Proper (x : Directory) (id : FragmentId) (e : Listing) : Prop where
  found : e.cached = true → e.kind = .root → x.roots e.key = some id
  home : e.kind = .root ∧ e.root = id ∨ e.kind = .peer ∧
    ∃ r, x.listing e.root = some r ∧ r.kind = .root ∧
    r.key = e.key ∧ (e.cached = true → r.cached = true ∧ id ∈ r.peers)
  listed : ∀ k ∈ e.peers, e.kind = .root ∧ e.entryTypes ≠ none ∧
    ∃ q, x.listing k = some q ∧ q.kind = .peer ∧
    q.root = id ∧ q.types ≠ e.types ∧ (e.cached = true → q.cached = true)
  nodup : e.peers.Nodup
  typed : e.entryTypes ≠ some []
  unlike : ∀ k ∈ e.peers, ∀ k' ∈ e.peers, ∀ q q', x.listing k = some q → x.listing k' = some q' →
    q.types = q'.types → k = k'

structure Consistent (x : Directory) : Prop where
  roots : ∀ {key id}, x.roots key = some id →
    ∃ e, x.listing id = some e ∧ e.cached = true ∧ e.kind = .root ∧ e.key = key
  proper : ∀ {id e}, x.listing id = some e → x.Proper id e

theorem Proper.self (h : x.Proper id e) (hkind : e.kind = .root) : e.root = id := by
  rcases h.home with ⟨-, hself⟩ | ⟨hpeer, -⟩
  · exact hself
  · exact absurd (hkind.symm.trans hpeer) nofun

/-! ### Looking up -/

/-- A fragment that is cached is the root of its loop or one of that root's peers. -/
theorem Consistent.housed (h : Consistent x) (he : x.listing id = some e)
    (hcached : e.cached = true) :
    ∃ r q, x.roots e.key = some r ∧ x.listing r = some q ∧ q.cached = true ∧ q.kind = .root ∧
      (id = r ∧ e.kind = .root ∨ e.kind = .peer ∧ id ∈ q.peers) := by
  rcases (h.proper he).home with ⟨hkind, -⟩ | ⟨hkind, q, hq, hroot, hkey, hlists⟩
  · exact ⟨id, e, (h.proper he).found hcached hkind, he, hcached, hkind, .inl ⟨rfl, hkind⟩⟩
  · obtain ⟨hcached', hmem⟩ := hlists hcached
    exact ⟨e.root, q, hkey ▸ (h.proper hq).found hcached' hroot, hq, hcached', hroot,
      .inr ⟨hkind, hmem⟩⟩

/-- No two cached fragments of a loop have the same types. -/
theorem Consistent.unlike (h : Consistent x) {e' : Listing} (he : x.listing id = some e)
    (hcached : e.cached = true)
    (he' : x.listing k = some e') (hcached' : e'.cached = true) (hkey : e'.key = e.key)
    (htypes : e'.types = e.types) :
    k = id := by
  obtain ⟨r, q, hr, hq, -, -, hhome⟩ := h.housed he hcached
  obtain ⟨r', q', hr', hq', -, -, hhome'⟩ := h.housed he' hcached'
  obtain rfl : r' = r := by
    rw [hkey, hr] at hr'
    exact (Option.some.inj hr').symm
  obtain rfl : q' = q := Option.some.inj (hq'.symm.trans hq)
  have hapart : ∀ {j p}, j ∈ q'.peers → x.listing j = some p → p.types ≠ q'.types := by
    intro j p hj hp
    obtain ⟨-, -, p', hp', -, -, hne, -⟩ := (h.proper hq).listed j hj
    rw [hp] at hp'
    cases hp'
    exact hne
  rcases hhome with ⟨rfl, -⟩ | ⟨-, hmem⟩ <;> rcases hhome' with ⟨rfl, -⟩ | ⟨-, hmem'⟩
  · rfl
  · obtain rfl : e = q' := Option.some.inj (he.symm.trans hq)
    exact absurd htypes (hapart hmem' he')
  · obtain rfl : e' = q' := Option.some.inj (he'.symm.trans hq)
    exact absurd htypes.symm (hapart hmem he)
  · exact (h.proper hq).unlike k hmem' id hmem e' e he' he htypes

/-! ### Entering -/

/-- More is told than before. -/
structure Grown (x x' : Directory) : Prop where
  roots : ∀ {key id}, x.roots key = some id → x'.roots key = some id
  listing : ∀ {id e}, x.listing id = some e → ∃ e', x'.listing id = some e' ∧ e.Extended e'

/-- The types of a peer are the same as before. -/
theorem Grown.types {e' : Listing} (h : Grown x x') (he : x.listing id = some e)
    (hkind : e.kind = .peer)
    (he' : x'.listing id = some e') : e'.types = e.types := by
  obtain ⟨e'', he'', hextended⟩ := h.listing he
  rw [he'] at he''
  cases he''
  exact hextended.types hkind

theorem Proper.grown (h : x.Proper id e) (hg : Grown x x') : x'.Proper id e where
  found hcached hkind := hg.roots (h.found hcached hkind)
  home := by
    refine h.home.imp_right fun ⟨hkind, r, hr, hroot, hkey, hlists⟩ => ⟨hkind, ?_⟩
    obtain ⟨r', hr', hextended⟩ := hg.listing hr
    exact ⟨r', hr', hextended.kind.trans hroot, hextended.key.trans hkey, fun hcached =>
      ⟨hextended.cached.trans (hlists hcached).1, hextended.peers (hlists hcached).2⟩⟩
  listed k hk := by
    obtain ⟨hkind, htyped, q, hq, hpeer, hroot, htypes, hcached⟩ := h.listed k hk
    obtain ⟨q', hq', hextended⟩ := hg.listing hq
    exact ⟨hkind, htyped, q', hq', hextended.kind.trans hpeer, hextended.root.trans hroot,
      hextended.types hpeer ▸ htypes, fun hc => hextended.cached.trans (hcached hc)⟩
  nodup := h.nodup
  typed := h.typed
  unlike k hk k' hk' q q' hq hq' hsame := by
    obtain ⟨-, -, p, hp, hpeer, -⟩ := h.listed k hk
    obtain ⟨-, -, p', hp', hpeer', -⟩ := h.listed k' hk'
    rw [hg.types hp hpeer hq, hg.types hp' hpeer' hq'] at hsame
    exact h.unlike k hk k' hk' p p' hp hp' hsame

/-- A new loop gets its root. -/
def addRoot (x : Directory) (key : LoopKey) (id : FragmentId) : Directory where
  roots k := if k = key then some id else x.roots k
  listing j := if j = id then
    some { key, kind := .root, root := id, entryTypes := none, peers := [], cached := true }
      else x.listing j

theorem Consistent.addRoot (h : Consistent x) (hfresh : x.listing id = none)
    (hkey : x.roots key = none) :
    Consistent (x.addRoot key id) := by
  have hgrown : Grown x (x.addRoot key id) := by
    refine ⟨fun {k j} hj => ?_, fun {j e} he => ⟨e, ?_, .refl e⟩⟩
    · refine (if_neg ?_).trans hj
      rintro rfl
      rw [hkey] at hj
      cases hj
    · refine (if_neg ?_).trans he
      rintro rfl
      rw [hfresh] at he
      cases he
  refine ⟨fun {k j} hj => ?_, fun {j e} he => ?_⟩
  · change (if k = key then some id else x.roots k) = some j at hj
    split at hj
    · next hk =>
      cases hj
      exact ⟨_, if_pos rfl, rfl, rfl, hk.symm⟩
    · obtain ⟨e, he, hcached, hkind, hkey⟩ := h.roots hj
      obtain ⟨e', he', hextended⟩ := hgrown.listing he
      exact ⟨e', he', hextended.cached.trans hcached, hextended.kind.trans hkind,
        hextended.key.trans hkey⟩
  · change (if j = id then _ else x.listing j) = some e at he
    split at he
    · next hj =>
      subst hj
      cases he
      exact ⟨fun _ _ => if_pos rfl, .inl ⟨rfl, rfl⟩, nofun, List.nodup_nil, nofun, nofun⟩
    · exact (h.proper he).grown hgrown

/-- What is told of a fragment is changed. -/
def amend (x : Directory) (id : FragmentId) (g : Listing → Listing) : Directory :=
  { x with listing := fun j => if j = id then (x.listing j).map g else x.listing j }

theorem listing_amend {g : Listing → Listing} (he : x.listing id = some e) :
    (x.amend id g).listing k = if k = id then some (g e) else x.listing k := by
  unfold amend
  dsimp only
  split
  · next hk => rw [hk, he, Option.map_some]
  · rfl

theorem grown_amend {g : Listing → Listing} (he : x.listing id = some e)
    (hg : e.Extended (g e)) : Grown x (x.amend id g) := by
  refine ⟨fun h => h, fun {j q} hq => ?_⟩
  rw [listing_amend he]
  split
  · next hj =>
    rw [hj, he] at hq
    cases hq
    exact ⟨g e, rfl, hg⟩
  · exact ⟨q, hq, .refl q⟩

/-- One fragment is told more of. -/
theorem Consistent.amend (h : Consistent x) {g : Listing → Listing} (he : x.listing id = some e)
    (hg : e.Extended (g e))
    (hproper : (x.amend id g).Proper id (g e)) : Consistent (x.amend id g) := by
  have hgrown := grown_amend he hg
  refine ⟨fun hj => ?_, fun {j q} hq => ?_⟩
  · obtain ⟨q, hq, hcached, hkind, hkey⟩ := h.roots hj
    obtain ⟨q', hq', hextended⟩ := hgrown.listing hq
    exact ⟨q', hq', hextended.cached.trans hcached, hextended.kind.trans hkind,
      hextended.key.trans hkey⟩
  · rw [listing_amend he] at hq
    split at hq
    · next hj =>
      subst hj
      cases hq
      exact hproper
    · exact (h.proper hq).grown hgrown

/-- A root that has no types gets some. -/
theorem Consistent.typing (h : Consistent x) (he : x.listing id = some e) (hkind : e.kind = .root)
    (huntyped : e.entryTypes = none) (types : TypeMap) :
    Consistent (x.amend id ({ · with entryTypes := knownTypes types })) := by
  have hnone : ∀ k, k ∉ e.peers := fun k hk => ((h.proper he).listed k hk).2.1 huntyped
  have hextended : e.Extended { e with entryTypes := knownTypes types } :=
    ⟨rfl, rfl, rfl, rfl, List.Subset.refl _, fun hpeer => absurd (hkind.symm.trans hpeer) nofun⟩
  have hproper :=
    (h.proper he).grown
      (grown_amend (g := ({ · with entryTypes := knownTypes types })) he hextended)
  exact h.amend he hextended ⟨hproper.found, .inl ⟨hkind, (h.proper he).self hkind⟩,
    fun k hk => absurd hk (hnone k),
    hproper.nodup, knownTypes_ne types, fun k hk => absurd hk (hnone k)⟩

/-- A root gets one more peer. -/
def addPeer (x : Directory) (r : FragmentId) (key : LoopKey) (id : FragmentId)
    (types : TypeMap) : Directory :=
  let new : Listing :=
    { key, kind := .peer, root := r, entryTypes := knownTypes types, peers := [], cached := true }
  Directory.amend { x with listing := fun j => if j = id then some new else x.listing j } r
    fun e => { e with peers := e.peers ++ [id] }

/-- The new peer is told of. -/
theorem listing_addPeer (he : x.listing r = some e) (hfresh : x.listing id = none) (key : LoopKey)
    (types : TypeMap) :
    ∃ q, (x.addPeer r key id types).listing id = some q ∧ q.cached = true := by
  have hne : id ≠ r := by
    rintro rfl
    rw [hfresh] at he
    cases he
  unfold addPeer amend
  dsimp only
  rw [if_neg hne, if_pos rfl]
  exact ⟨_, rfl, rfl⟩

theorem Consistent.addPeer {types : TypeMap} (h : Consistent x) (he : x.listing r = some e)
    (hkind : e.kind = .root)
    (hcached : e.cached = true) (htyped : e.entryTypes ≠ none) (hfresh : x.listing id = none)
    (hroot : e.types ≠ types)
    (hpeers : ∀ k ∈ e.peers, ∀ q, x.listing k = some q → q.types ≠ types) :
    Consistent (x.addPeer r e.key id types) := by
  let new : Listing := { key := e.key, kind := .peer, root := r, entryTypes := knownTypes types,
                         peers := [], cached := true }
  let e' : Listing := { e with peers := e.peers ++ [id] }
  have htypes : new.types = types := getD_knownTypes types
  have hfar : ∀ {k q}, x.listing k = some q → k ≠ id := by
    rintro k q hq rfl
    rw [hfresh] at hq
    cases hq
  have hlisting : ∀ k, (x.addPeer r e.key id types).listing k =
      if k = r then some e' else if k = id then some new else x.listing k := fun k =>
    listing_amend (x := { x with listing := fun j => if j = id then some new else x.listing j })
      (g := fun e => { e with peers := e.peers ++ [id] }) ((if_neg (hfar he)).trans he)
  have hnew : (x.addPeer r e.key id types).listing id = some new := by
    rw [hlisting, if_neg (hfar he).symm, if_pos rfl]
  have hgrown : Grown x (x.addPeer r e.key id types) := by
    refine ⟨fun h => h, fun {k q} hq => ?_⟩
    rw [hlisting]
    split
    · next hk =>
      rw [hk, he] at hq
      cases hq
      exact ⟨e', rfl, rfl, rfl, rfl, rfl, List.subset_append_left _ _, fun _ => rfl⟩
    · rw [if_neg (hfar hq)]
      exact ⟨q, hq, .refl q⟩
  have hold := (h.proper he).grown hgrown
  have hapart : ∀ k ∈ e.peers, ∀ q, (x.addPeer r e.key id types).listing k = some q →
      q.types ≠ new.types := by
    intro k hk q hq
    obtain ⟨-, -, p, hp, hpeer, -⟩ := (h.proper he).listed k hk
    rw [hgrown.types hp hpeer hq, htypes]
    exact hpeers k hk p hp
  refine ⟨fun hj => ?_, fun {j q} hq => ?_⟩
  · obtain ⟨q, hq, hcached, hkind, hkey⟩ := h.roots hj
    obtain ⟨q', hq', hextended⟩ := hgrown.listing hq
    exact ⟨q', hq', hextended.cached.trans hcached, hextended.kind.trans hkind,
      hextended.key.trans hkey⟩
  rw [hlisting] at hq
  split at hq
  · next hj =>
    subst hj
    cases hq
    refine ⟨hold.found, .inl ⟨hkind, hold.self hkind⟩, fun k hk => ⟨hkind, htyped, ?_⟩,
      ?_, hold.typed, ?_⟩
    · rcases List.mem_append.mp hk with hk | hk
      · exact (hold.listed k hk).2.2
      · obtain rfl := List.mem_singleton.mp hk
        exact ⟨new, hnew, rfl, rfl, fun hsame => hroot (hsame.symm.trans htypes), fun _ => rfl⟩
    · refine List.nodup_append.mpr ⟨hold.nodup, List.nodup_singleton id, fun a ha b hb => ?_⟩
      obtain rfl := List.mem_singleton.mp hb
      obtain ⟨-, -, q, hq, -⟩ := (h.proper he).listed a ha
      exact hfar hq
    · intro k hk k' hk' q q' hq hq' hsame
      rcases List.mem_append.mp hk with hmem | hlast <;>
        rcases List.mem_append.mp hk' with hmem' | hlast'
      · exact hold.unlike k hmem k' hmem' q q' hq hq' hsame
      · obtain rfl := List.mem_singleton.mp hlast'
        rw [hnew] at hq'
        cases hq'
        exact absurd hsame (hapart k hmem q hq)
      · obtain rfl := List.mem_singleton.mp hlast
        rw [hnew] at hq
        cases hq
        exact absurd hsame.symm (hapart k' hmem' q' hq')
      · rw [List.mem_singleton.mp hlast, List.mem_singleton.mp hlast']
  · next hjr =>
    split at hq
    · next hj =>
      subst hj
      cases hq
      refine ⟨nofun, .inr ⟨rfl, e', ?_, hkind, rfl, fun _ => ⟨hcached, ?_⟩⟩, nofun, List.nodup_nil,
        knownTypes_ne types, nofun⟩
      · exact (hlisting r).trans (if_pos rfl)
      · exact List.mem_append_right _ (List.mem_singleton_self _)
    · exact (h.proper hq).grown hgrown

/-! ### Striking off -/

/-- What is told of fragment `id` when of those in `D` only the ones in `rest` are still there. -/
def struck (D : FragmentId → Bool) (rest : List FragmentId) (id : FragmentId)
    (e : Listing) : Listing :=
  { e with
    peers := if D id then e.peers else e.peers.filter (stays D rest)
    cached := e.cached && stays D rest id }

/-- Of the fragments in `D` those in `rest` are still there, and the others were struck off. -/
def strike (x : Directory) (D : FragmentId → Bool) (rest : List FragmentId) : Directory where
  roots key := (x.roots key).filter (stays D rest)
  listing id := (x.listing id).map (struck D rest id)

/-- Only what is told of matters. -/
theorem strike_congr (h : Consistent x) {rest' : List FragmentId}
    (hsame : ∀ k q, x.listing k = some q → stays D rest k = stays D rest' k) :
    x.strike D rest = x.strike D rest' := by
  unfold strike
  congr 1
  · funext key
    cases hid : x.roots key with
    | none => rfl
    | some id =>
      obtain ⟨e, he, -⟩ := h.roots hid
      rw [Option.filter_some, Option.filter_some, hsame id e he]
  · funext id
    cases he : x.listing id with
    | none => rfl
    | some e =>
      have hpeers : e.peers.filter (stays D rest) = e.peers.filter (stays D rest') :=
        List.filter_congr fun k hk => by
        obtain ⟨-, -, q, hq, -⟩ := (h.proper he).listed k hk
        exact hsame k q hq
      rw [Option.map_some, Option.map_some, struck, struck, hpeers, hsame id e he]

/-- Nothing was struck off yet. -/
theorem strike_all (h : Consistent x)
    (hall : ∀ k q, x.listing k = some q → D k = true → k ∈ rest) : x.strike D rest = x := by
  have hstays : ∀ k q, x.listing k = some q → stays D rest k = true := fun k q hq => by
    unfold stays
    cases hD : D k with
    | false => rfl
    | true => simpa using hall k q hq hD
  unfold strike
  congr 1
  · funext key
    cases hid : x.roots key with
    | none => rfl
    | some id =>
      obtain ⟨e, he, -⟩ := h.roots hid
      rw [Option.filter_some, if_pos (hstays id e he)]
  · funext id
    cases he : x.listing id with
    | none => rfl
    | some e =>
      have hpeers : e.peers.filter (stays D rest) = e.peers :=
        List.filter_eq_self.mpr fun k hk => by
        obtain ⟨-, -, q, hq, -⟩ := (h.proper he).listed k hk
        exact hstays k q hq
      rw [Option.map_some, struck, hpeers, ite_self, hstays id e he, Bool.and_true]

/-- What is told of fragment `k` when `id` is struck off; its root forgets it unless it is to be
struck off, too. -/
def dropped (D : FragmentId → Bool) (id : FragmentId) (e : Listing) (k : FragmentId)
    (q : Listing) : Listing :=
  { q with
    peers := if e.kind = .peer ∧ D e.root = false ∧ k = e.root then q.peers.erase id else q.peers
    cached := if k = id then false else q.cached }

/-- A fragment is struck off. -/
def drop (x : Directory) (D : FragmentId → Bool) (id : FragmentId) (e : Listing) : Directory where
  roots key := if e.kind = .root ∧ x.roots e.key = some id ∧ key = e.key then none else x.roots key
  listing k := (x.listing k).map (dropped D id e k)

/-- First the root forgets it, then its loop has no root any more if it was one. -/
theorem drop_eq (x x₁ : Directory) (e : Listing)
    (hx₁ : x₁ = if e.kind = .peer ∧ D e.root = false
      then x.amend e.root fun r => { r with peers := r.peers.erase id } else x) :
    Directory.amend
      { x₁ with roots := fun key =>
          if e.kind = .root ∧ x₁.roots e.key = some id ∧ key = e.key then none
          else x₁.roots key }
      id ({ · with cached := false }) = x.drop D id e := by
  have hroots : x₁.roots = x.roots := by
    rw [hx₁]
    split <;> rfl
  have hlisting : ∀ k, x₁.listing k = (x.listing k).map fun q => { q with
      peers := if e.kind = .peer ∧ D e.root = false ∧ k = e.root then q.peers.erase id
            else q.peers } := by
    intro k
    rw [hx₁]
    by_cases hpeer : e.kind = .peer ∧ D e.root = false
    · rw [if_pos hpeer]
      show (if k = e.root then _ else _) = _
      by_cases hk : k = e.root
      · simp [hpeer, hk]
      · simp [hk]
    · rw [if_neg hpeer]
      have hnot : ¬(e.kind = .peer ∧ D e.root = false ∧ k = e.root) := fun h => hpeer ⟨h.1, h.2.1⟩
      simp [hnot]
  unfold amend drop
  rw [hroots]
  refine congrArg (Directory.mk _) (funext fun k => ?_)
  dsimp only
  rw [hlisting]
  unfold dropped
  by_cases hk : k = id
  · rw [if_pos hk, Option.map_map]
    simp only [if_pos hk]
    rfl
  · simp only [if_neg hk]

theorem dropped_struck (h : Consistent x) (he : x.listing id = some e) (hD : D id = true)
    (hrest : id ∉ rest) {q : Listing}
    (hq : x.listing k = some q) :
    dropped D id e k (struck D (id :: rest) k q) = struck D rest k q := by
  have hcached : (if k = id then false
      else q.cached && stays D (id :: rest) k) = (q.cached && stays D rest k) := by
    by_cases hk : k = id
    · simp [hk, stays, hD, hrest]
    · simp [hk, stays]
  have hpeers : (if e.kind = .peer ∧ D e.root = false ∧ k = e.root then
      (if D k then q.peers else q.peers.filter (stays D (id :: rest))).erase id else
      if D k then q.peers else q.peers.filter (stays D (id :: rest))) = if D k then q.peers
          else q.peers.filter (stays D rest) := by
    cases hDk : D k with
    | true =>
      refine if_neg ?_
      rintro ⟨-, hroot, rfl⟩
      rw [hDk] at hroot
      cases hroot
    | false =>
      refine filter_stays (h.proper hq).nodup hD hrest _ fun hmem => ?_
      obtain ⟨-, -, p, hp, hpeer, hroot, -⟩ := (h.proper hq).listed id hmem
      rw [he] at hp
      cases hp
      exact ⟨hpeer, hroot ▸ hDk, hroot.symm⟩
  unfold dropped struck
  dsimp only
  rw [hcached, hpeers]

/-- The fragments in `D` are struck off one by one. -/
theorem drop_strike (h : Consistent x) (he : x.listing id = some e) (hD : D id = true)
    (hrest : id ∉ rest) :
    (x.strike D (id :: rest)).drop D id e = x.strike D rest := by
  have hroots : ∀ key,
    (if e.kind = .root ∧ (x.roots e.key).filter (stays D (id :: rest)) = some id ∧ key = e.key
      then none
      else (x.roots key).filter (stays D (id :: rest))) = (x.roots key).filter (stays D rest) := by
    intro key
    cases hj : x.roots key with
    | none => exact ite_self none
    | some j =>
      rw [Option.filter_some, Option.filter_some]
      by_cases hid : j = id
      · -- the root of the loop is the one that is struck off
        subst hid
        obtain ⟨e', he', -, hkind, rfl⟩ := h.roots hj
        rw [he] at he'
        cases he'
        rw [hj, Option.filter_some]
        simp [hkind, stays, hD, hrest]
      · have hsame : stays D (id :: rest) j = stays D rest j := by simp [stays, hid]
        rw [hsame, if_neg]
        rintro ⟨-, hfound, rfl⟩
        obtain ⟨hfound, -⟩ := Option.filter_eq_some_iff.mp hfound
        rw [hj] at hfound
        exact hid (Option.some.inj hfound)
  unfold drop strike
  congr 1
  · funext key
    exact hroots key
  · funext k
    rw [Option.map_map]
    exact Option.map_congr fun q hq => dropped_struck h he hD hrest hq

/-- A fragment that is not told of makes no difference. -/
theorem strike_skip (h : Consistent x) (hnone : x.listing id = none) :
    x.strike D (id :: rest) = x.strike D rest := by
  refine strike_congr h fun k q hq => ?_
  have hk : k ≠ id := by
    rintro rfl
    rw [hnone] at hq
    cases hq
  simp [stays, hk]

/-- What is left when fragments are struck off, with a root all its peers. -/
theorem Consistent.strike (h : Consistent x)
    (hD : ∀ id e k, x.listing id = some e → D id = true → k ∈ e.peers → D k = true) :
    Consistent (x.strike D []) := by
  have hstays : ∀ k, stays D [] k = !D k := fun k => by simp [stays]
  have hforth : ∀ {k q}, x.listing k = some q →
      (x.strike D []).listing k = some (struck D [] k q) := fun hq =>
    congrArg (Option.map _) hq
  have hback : ∀ {k q'}, (x.strike D []).listing k = some q' →
      ∃ q, x.listing k = some q ∧ q' = struck D [] k q := by
    intro k q' hq'
    obtain ⟨q, hq, rfl⟩ := Option.map_eq_some_iff.mp hq'
    exact ⟨q, hq, rfl⟩
  have hlive : ∀ {k q}, (struck D [] k q).cached = true → q.cached = true ∧ D k = false := by
    intro k q hc
    simpa [struck, hstays] using hc
  have hkept : ∀ {k q}, D k = false → (struck D [] k q).cached = q.cached ∧
      (struck D [] k q).peers = q.peers.filter (stays D []) := by
    intro k q hDk
    simp [struck, hstays, hDk]
  have hsub : ∀ {k q}, (struck D [] k q).peers ⊆ q.peers := by
    intro k q j hj
    unfold struck at hj
    dsimp only at hj
    split at hj
    · exact hj
    · exact List.mem_of_mem_filter hj
  refine ⟨fun {key id} hid => ?_, fun {id e'} he' => ?_⟩
  · obtain ⟨hid, hstay⟩ := Option.filter_eq_some_iff.mp hid
    obtain ⟨e, he, hcached, hkind, hkey⟩ := h.roots hid
    exact ⟨_, hforth he, by rw [struck, hcached, hstay]; rfl, hkind, hkey⟩
  · obtain ⟨e, he, rfl⟩ := hback he'
    have hold := h.proper he
    refine ⟨fun hc hkind => ?_, ?_, fun k hk => ?_, ?_, hold.typed,
      fun k hk k' hk' q q' hq hq' => ?_⟩
    · obtain ⟨hcached, hDid⟩ := hlive hc
      refine Option.filter_eq_some_iff.mpr ⟨hold.found hcached hkind, ?_⟩
      rw [hstays, hDid]
      rfl
    · refine hold.home.imp_right fun hhome => ?_
      obtain ⟨hpeer, r, hr, hroot, hkey, hlists⟩ := hhome
      refine ⟨hpeer, _, hforth hr, hroot, hkey, fun hc => ?_⟩
      obtain ⟨hcached, hDid⟩ := hlive hc
      obtain ⟨hrcached, hmem⟩ := hlists hcached
      -- a peer goes with its root
      have hDr : D e.root = false := Bool.eq_false_iff.mpr fun hDr => by
        rw [hD _ _ id hr hDr hmem] at hDid
        cases hDid
      obtain ⟨hcached', hpeers'⟩ := hkept hDr
      exact ⟨hcached'.trans hrcached,
        hpeers' ▸ List.mem_filter.mpr ⟨hmem, by rw [hstays, hDid]; rfl⟩⟩
    · obtain ⟨hroot, htyped, q, hq, hpeer, hqroot, hapart, hlists⟩ := hold.listed k (hsub hk)
      refine ⟨hroot, htyped, _, hforth hq, hpeer, hqroot, hapart, fun hc => ?_⟩
      obtain ⟨hcached, hDid⟩ := hlive hc
      rw [(hkept hDid).2, List.mem_filter, hstays] at hk
      exact (hkept (by simpa using hk.2)).1.trans (hlists hcached)
    · unfold struck
      dsimp only
      split
      · exact hold.nodup
      · exact hold.nodup.filter _
    · obtain ⟨p, hp, rfl⟩ := hback hq
      obtain ⟨p', hp', rfl⟩ := hback hq'
      exact hold.unlike k (hsub hk) k' (hsub hk') p p' hp hp'

/-- Nothing is cached any more. -/
def clear (x : Directory) : Directory where
  roots _ := none
  listing id := (x.listing id).map ({ · with cached := false })

theorem Consistent.clear (h : Consistent x) : Consistent x.clear := by
  have hforth : ∀ {k q}, x.listing k = some q →
      x.clear.listing k = some { q with cached := false } := fun hq =>
    congrArg (Option.map _) hq
  have hback : ∀ {k q'}, x.clear.listing k = some q' →
      ∃ q, x.listing k = some q ∧ q' = { q with cached := false } := by
    intro k q' hq'
    obtain ⟨q, hq, rfl⟩ := Option.map_eq_some_iff.mp hq'
    exact ⟨q, hq, rfl⟩
  refine ⟨nofun, fun {id e'} he' => ?_⟩
  obtain ⟨e, he, rfl⟩ := hback he'
  have hold := h.proper he
  refine ⟨nofun, hold.home.imp_right fun ⟨hpeer, r, hr, hroot, hkey, _⟩ =>
    ⟨hpeer, _, hforth hr, hroot, hkey, nofun⟩,
    fun k hk => ?_, hold.nodup, hold.typed, fun k hk k' hk' q q' hq hq' => ?_⟩
  · obtain ⟨hkind, htyped, q, hq, hpeer, hroot, hapart, -⟩ := hold.listed k hk
    exact ⟨hkind, htyped, _, hforth hq, hpeer, hroot, hapart, nofun⟩
  · obtain ⟨p, hp, rfl⟩ := hback hq
    obtain ⟨p', hp', rfl⟩ := hback hq'
    exact hold.unlike k hk k' hk' p p' hp hp'

end Directory

end LoopTracer
