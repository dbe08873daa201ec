import LoopTracer.Proofs.Fragment.Directory
import LoopTracer.Proofs.Fragment.Filing

/-! How the directory of a cache changes.

Most operations leave the directory alone (`Calm`). Making a root or a peer enters it, and dropping
a fragment strikes off what depends on it: with a root its peers go, but a root or a peer goes only
on its own account or with its root (`dependents_loops`). So the directory stays consistent
(`Sorted`). -/
namespace LoopTracer

open Trace Compile

/-- What the directory tells of a fragment that is no branch. -/
def Fragment.listing? (f : Fragment) : Option Listing :=
  if f.kind = .branch then none
  else some { key := f.key, kind := f.kind, root := f.root, entryTypes := f.entryTypes,
              peers := f.peers, cached := f.cached }

namespace FragmentCache

/-- What looking up depends on. -/
def directory (c : FragmentCache) : Directory where
  roots key := c.roots[key]?
  listing id := (c.fragment? id).bind Fragment.listing?

/-- The directory is consistent, only branches are branches of others, and only they go on in
other traces. -/
structure Sorted (c : FragmentCache) : Prop where
  consistent : c.directory.Consistent
  children : ∀ {id f k}, c.fragment? id = some f → k ∈ f.children →
    ∃ q, c.fragment? k = some q ∧ q.kind = .branch
  target : ∀ {id f}, c.fragment? id = some f → f.treeTarget.isSome = true → f.kind = .branch

variable {V : Immediate → Prop} {B : FragmentId → LoopKey → Prop} {own : Option FragmentId}
  {c c' : FragmentCache}
  {id k : FragmentId} {f : Fragment} {g : Fragment → Fragment} {e : Listing}

theorem listing_eq_some : c.directory.listing id = some e ↔
    ∃ f, c.fragment? id = some f ∧ f.kind ≠ .branch ∧
    e = { key := f.key, kind := f.kind, root := f.root, entryTypes := f.entryTypes,
          peers := f.peers, cached := f.cached } := by
  show (c.fragment? id).bind Fragment.listing? = some e ↔ _
  rw [Option.bind_eq_some_iff]
  refine exists_congr fun f => and_congr_right fun _ => ?_
  unfold Fragment.listing?
  split
  · next hbranch => exact iff_of_false nofun fun h => h.1 hbranch
  · next hloop =>
      exact ⟨fun h => ⟨hloop, (Option.some.inj h).symm⟩, fun h => congrArg some h.2.symm⟩

theorem listing_of_fragment (hf : c.fragment? id = some f) (hkind : f.kind ≠ .branch) :
    c.directory.listing id =
    some { key := f.key, kind := f.kind, root := f.root, entryTypes := f.entryTypes,
           peers := f.peers, cached := f.cached } :=
  listing_eq_some.mpr ⟨f, hf, hkind, rfl⟩

theorem listing_branch (hf : c.fragment? id = some f) (hkind : f.kind = .branch) :
    c.directory.listing id = none := by
  show (c.fragment? id).bind Fragment.listing? = none
  rw [hf, Option.bind_some, Fragment.listing?, if_pos hkind]

theorem listing_nextId (hroom : c.fragments.size + 1 < 2 ^ 32) :
    c.directory.listing c.nextId = none := by
  show (c.fragment? c.nextId).bind Fragment.listing? = none
  rw [fragment?_nextId hroom]
  rfl

/-! ### Leaving the directory alone -/

end FragmentCache

/-- A fragment changes, but not what the directory tells of it. -/
structure Fragment.Calm (f f' : Fragment) : Prop where
  kind : f'.kind = f.kind
  entry : f'.listing? = f.listing?
  children : f'.children ⊆ f.children
  target : f'.treeTarget.isSome = true → f.treeTarget.isSome = true ∨ f.kind = .branch

theorem Fragment.Calm.refl (f : Fragment) : f.Calm f := ⟨rfl, rfl, List.Subset.refl _, .inl⟩

namespace FragmentCache

/-- The directory does not change. -/
structure Calm (c c' : FragmentCache) : Prop where
  roots : c'.roots = c.roots
  forth : ∀ {id f}, c.fragment? id = some f → ∃ f', c'.fragment? id = some f' ∧ f.Calm f'
  back : ∀ {id f'}, c'.fragment? id = some f' → ∃ f, c.fragment? id = some f ∧ f.Calm f'

variable {V : Immediate → Prop} {B : FragmentId → LoopKey → Prop} {own : Option FragmentId}
  {c c' : FragmentCache}
  {id k : FragmentId} {f : Fragment} {g : Fragment → Fragment} {e : Listing}

instance : IsPreorder FragmentCache Calm where
  refl _ := ⟨rfl, fun {_ f} hf => ⟨f, hf, .refl f⟩, fun {_ f} hf => ⟨f, hf, .refl f⟩⟩
  trans _ _ _ h h' := by
    have hcalm : ∀ {f f₁ f₂ : Fragment}, f.Calm f₁ → f₁.Calm f₂ → f.Calm f₂ := fun h h' =>
      ⟨h'.kind.trans h.kind, h'.entry.trans h.entry,
          List.Subset.trans h'.children h.children, fun ht =>
        (h'.target ht).elim h.target fun hkind => .inr (h.kind ▸ hkind)⟩
    refine ⟨h'.roots.trans h.roots, fun hf => ?_, fun hf₂ => ?_⟩
    · obtain ⟨f₁, hf₁, hcalm₁⟩ := h.forth hf
      obtain ⟨f₂, hf₂, hcalm₂⟩ := h'.forth hf₁
      exact ⟨f₂, hf₂, hcalm hcalm₁ hcalm₂⟩
    · obtain ⟨f₁, hf₁, hcalm₂⟩ := h'.back hf₂
      obtain ⟨f, hf, hcalm₁⟩ := h.back hf₁
      exact ⟨f, hf, hcalm hcalm₁ hcalm₂⟩

theorem Calm.directory (h : Calm c c') : c'.directory = c.directory := by
  unfold FragmentCache.directory
  rw [h.roots]
  congr 1
  funext id
  cases hf : c.fragment? id with
  | none =>
    cases hf' : c'.fragment? id with
    | none => rfl
    | some f' =>
      obtain ⟨f, hf₀, -⟩ := h.back hf'
      rw [hf] at hf₀
      cases hf₀
  | some f =>
    obtain ⟨f', hf', hcalm⟩ := h.forth hf
    rw [hf']
    exact hcalm.entry

theorem Sorted.calm (h : Sorted c) (hc : Calm c c') : Sorted c' where
  consistent := hc.directory ▸ h.consistent
  children hf' hk := by
    obtain ⟨f, hf, hcalm⟩ := hc.back hf'
    obtain ⟨q, hq, hkind⟩ := h.children hf (hcalm.children hk)
    obtain ⟨q', hq', hcalm'⟩ := hc.forth hq
    exact ⟨q', hq', hcalm'.kind.trans hkind⟩
  target hf' ht := by
    obtain ⟨f, hf, hcalm⟩ := hc.back hf'
    exact hcalm.kind.trans ((hcalm.target ht).elim (h.target hf) fun hkind => hkind)

theorem fragment?_at (c : FragmentCache) (id : FragmentId) (g : Fragment → Fragment)
    (j : FragmentId) :
    (c.update id g).fragment? j = (c.fragment? j).map fun f =>
    if place id = place j then g f else f := by
  unfold fragment?
  split
  · rfl
  · rw [getElem?_update]
    split
    · rfl
    · exact Option.map_id'.symm

theorem calm_update (c : FragmentCache) (id : FragmentId)
    (hg : ∀ f, c.fragments[place id]? = some f → f.Calm (g f)) :
    Calm c (c.update id g) := by
  have hone : ∀ {j f}, c.fragment? j = some f → f.Calm (if place id = place j then g f else f) := by
    intro j f hf
    split
    · next hplace => exact hg f (hplace ▸ (fragment?_eq_some.mp hf).2)
    · exact .refl f
  refine ⟨rfl, fun {j f} hf => ⟨_, ?_, hone hf⟩, fun {j f'} hf' => ?_⟩
  · rw [fragment?_at, hf, Option.map_some]
  · rw [fragment?_at] at hf'
    obtain ⟨f, hf, rfl⟩ := Option.map_eq_some_iff.mp hf'
    exact ⟨f, hf, hone hf⟩

/-- Something is changed that the directory does not tell. -/
theorem calm_tacit (c : FragmentCache) (id : FragmentId)
    (hg : ∀ f : Fragment, f.Calm (g f)) : Calm c (c.update id g) :=
  calm_update c id fun f _ => hg f

theorem calm_congr (hfragments : c'.fragments = c.fragments)
    (hroots : c'.roots = c.roots) : Calm c c' := by
  have hfragment : ∀ id, c'.fragment? id = c.fragment? id := fun id => by
    rw [fragment?, fragment?, hfragments]
  exact ⟨hroots, fun {id f} hf => ⟨f, (hfragment id).trans hf, .refl f⟩,
    fun {id f} hf => ⟨f, hfragment id ▸ hf, .refl f⟩⟩

theorem paged_calm {α : Type} (x : CodePages.Paged α) : Keeps Calm (fun _ => True) (paged x) := by
  intro c
  unfold KeepsAt paged
  dsimp only
  cases x c.region with
  | ok a r => exact calm_congr rfl rfl
  | error e r => exact ⟨calm_congr rfl rfl, trivial⟩

theorem register_calm (r : Guard) : Keeps Calm (fun _ => True) (register r) := by
  intro c
  unfold KeepsAt register
  by_cases hregistered : c.registered.contains r.id = true
  · rw [if_pos hregistered]
    exact ⟨refl_of Calm c, trivial⟩
  · rw [if_neg hregistered]
    exact calm_congr rfl rfl

theorem redirect_calm (r : Guard) (target : ExitTarget) (address : Machine.CodeAddr) :
    Keeps Calm (fun _ => True) (redirect r target address) := by
  intro c
  unfold KeepsAt redirect
  dsimp only
  cases c.backend.patch c.region.mem r.site address with
  | ok mem => exact calm_congr rfl rfl
  | error e => exact ⟨calm_congr rfl rfl, trivial⟩

theorem promote_calm (r : Guard) (child : Fragment) :
    Keeps Calm (fun _ => True) (promote r child) := by
  unfold promote
  split
  · exact .throw trivial
  · exact redirect_calm _ _ _

theorem install_calm (id : FragmentId) (a : Assembly) :
    Keeps Calm (fun _ => True) (install id a) := by
  refine .bind (.modify fun c => calm_tacit c id fun f =>
      ⟨rfl, rfl, List.Subset.refl _, .inl⟩) fun _ =>
    .bind (paged_calm _) fun _ => .bind (paged_calm _) fun _ =>
      .bind (.forM (fun r => register_calm r) _) fun _ => ?_
  exact .modify fun c => calm_tacit c id fun f => ⟨rfl, rfl, List.Subset.refl _, .inl⟩

theorem assemble_calm (limits : Limits) (helpers : HelperTable) (f : Fragment) :
    Keeps Calm (fun _ => True) (assemble limits helpers f) := by
  intro c
  unfold KeepsAt
  rw [assemble_eq]
  cases Compile.assemble limits helpers f (f.treeTarget.bind c.fragment?)
    { region := c.region, guardCount := c.guardCount, exits := c.exits } with
  | ok a shop => exact calm_congr rfl rfl
  | error e shop => exact ⟨calm_congr rfl rfl, trivial⟩

/-- Only the trace of a branch goes on in another one. -/
theorem attachTrace_calm (hf : c.fragment? id = some f) (b : Buffer) {target : Option FragmentId}
    (ht : f.kind ≠ .branch → target = none) : Calm c (c.attachTrace id b target) := by
  unfold attachTrace
  dsimp only
  have hexits : ∀ exits, Calm c { c with exits } := fun _ => calm_congr rfl rfl
  refine trans_of Calm (hexits _) (calm_update _ id fun q hq => ?_)
  obtain rfl : f = q := Option.some.inj ((fragment?_eq_some.mp hf).2.symm.trans hq)
  refine ⟨rfl, rfl, List.Subset.refl _,
    fun hsome => .inr (Decidable.byContradiction fun hkind => ?_)⟩
  rw [show target = none from ht hkind] at hsome
  cases hsome

theorem discard_calm (hf : c.fragment? f.id = some f)
    (h : discard f c = .ok () c') : Calm c c' := by
  unfold discard at h
  split at h
  · cases h
  · next hopen =>
    have hkind : f.kind = .branch := by
      simp only [Bool.or_eq_true, decide_eq_true_eq, not_or, Decidable.not_not] at hopen
      exact hopen.1
    cases h
    have hparent : Calm c (orphaned f c) := by
      unfold orphaned
      split
      · exact calm_tacit c _ fun q => ⟨rfl, rfl, List.erase_subset, .inl⟩
      · exact refl_of Calm c
    refine trans_of Calm hparent (calm_update _ f.id fun q hq => ?_)
    obtain ⟨q', hq', hcalm⟩ :=
      hparent.back (fragment?_eq_some.mpr ⟨(fragment?_eq_some.mp hf).1, hq⟩)
    rw [hf] at hq'
    cases hq'
    have hbranch : q.kind = .branch := hcalm.kind.trans hkind
    refine ⟨rfl, ?_, List.Subset.refl _, .inl⟩
    simp only [Fragment.listing?, hbranch, if_true]

/-! ### Entering -/

theorem directory_add (hroom : c.fragments.size + 1 < 2 ^ 32) (new : Fragment) :
    (c.add new).directory =
    { c.directory
      with listing := fun j => if j = c.nextId then new.listing? else c.directory.listing j } := by
  unfold directory
  congr 1
  funext j
  rw [fragment?_add hroom]
  dsimp only
  split <;> rfl

/-- Something is changed that the directory does not tell. -/
theorem directory_tacit (c : FragmentCache) (id : FragmentId)
    (hg : ∀ f, (g f).listing? = f.listing?) :
    (c.update id g).directory = c.directory := by
  unfold directory
  congr 1
  funext j
  rw [fragment?_at]
  cases c.fragment? j with
  | none => rfl
  | some f =>
    rw [Option.map_some, Option.bind_some, Option.bind_some]
    split
    · exact hg f
    · rfl

theorem directory_amend (hid : id ≠ 0) {h : Listing → Listing}
    (hg : ∀ f, (g f).listing? = f.listing?.map h) :
    (c.update id g).directory = c.directory.amend id h := by
  unfold directory Directory.amend
  congr 1
  funext j
  rw [fragment?_update hid]
  dsimp only
  split
  · cases c.fragment? j with
    | none => rfl
    | some f => exact hg f
  · rfl

/-- Fragments keep their kinds; nothing goes on in another trace that did not, and what is new among
the branches of one is a branch. -/
structure Follows (c c' : FragmentCache) : Prop where
  forth : ∀ {id f}, c.fragment? id = some f → ∃ f', c'.fragment? id = some f' ∧ f'.kind = f.kind
  target : ∀ {id f'}, c'.fragment? id = some f' → f'.treeTarget.isSome = true →
    ∃ f, c.fragment? id = some f ∧ f'.kind = f.kind ∧ f.treeTarget.isSome = true
  children : ∀ {id f' k}, c'.fragment? id = some f' → k ∈ f'.children →
    (∃ f, c.fragment? id = some f ∧ k ∈ f.children) ∨
      ∃ q, c'.fragment? k = some q ∧ q.kind = .branch

theorem Follows.branch (h : Follows c c') (hq : ∃ q, c.fragment? k = some q ∧ q.kind = .branch) :
    ∃ q, c'.fragment? k = some q ∧ q.kind = .branch := by
  obtain ⟨q, hq, hkind⟩ := hq
  obtain ⟨q', hq', hkind'⟩ := h.forth hq
  exact ⟨q', hq', hkind'.trans hkind⟩

instance : IsPreorder FragmentCache Follows where
  refl _ := ⟨fun hf => ⟨_, hf, rfl⟩, fun hf ht => ⟨_, hf, rfl, ht⟩, fun hf hk => .inl ⟨_, hf, hk⟩⟩
  trans _ _ _ h h' := by
    refine ⟨fun hf => ?_, fun hf₂ ht => ?_, fun hf₂ hk => ?_⟩
    · obtain ⟨f₁, hf₁, hkind⟩ := h.forth hf
      obtain ⟨f₂, hf₂, hkind'⟩ := h'.forth hf₁
      exact ⟨f₂, hf₂, hkind'.trans hkind⟩
    · obtain ⟨f₁, hf₁, hkind', ht₁⟩ := h'.target hf₂ ht
      obtain ⟨f, hf, hkind, ht⟩ := h.target hf₁ ht₁
      exact ⟨f, hf, hkind'.trans hkind, ht⟩
    · rcases h'.children hf₂ hk with ⟨f₁, hf₁, hk₁⟩ | hnew
      · exact (h.children hf₁ hk₁).imp_right h'.branch
      · exact .inr hnew

theorem Sorted.follows (h : Sorted c) (hf : Follows c c')
    (hconsistent : c'.directory.Consistent) : Sorted c' where
  consistent := hconsistent
  children hf' hk := by
    rcases hf.children hf' hk with ⟨f, hf₀, hk⟩ | hnew
    · exact hf.branch (h.children hf₀ hk)
    · exact hnew
  target hf' ht := by
    obtain ⟨f, hf₀, hkind, ht⟩ := hf.target hf' ht
    exact hkind.trans (h.target hf₀ ht)

theorem follows_add (hroom : c.fragments.size + 1 < 2 ^ 32) {new : Fragment}
    (hchildren : new.children = [])
    (htarget : new.treeTarget = none) : Follows c (c.add new) := by
  have hback : ∀ {j q}, (c.add new).fragment? j = some q → q = new ∨ c.fragment? j = some q := by
    intro j q hq
    rw [fragment?_add hroom] at hq
    split at hq
    · exact .inl (Option.some.inj hq).symm
    · exact .inr hq
  refine ⟨fun {j q} hq => ⟨q, ?_, rfl⟩, fun hq ht => ?_, fun hq hk => ?_⟩
  · rw [fragment?_add hroom, if_neg (ne_nextId hroom hq), hq]
  · rcases hback hq with rfl | hq
    · rw [htarget] at ht
      cases ht
    · exact ⟨_, hq, rfl, ht⟩
  · rcases hback hq with rfl | hq
    · rw [hchildren] at hk
      cases hk
    · exact .inl ⟨_, hq, hk⟩

theorem follows_update (c : FragmentCache) (id : FragmentId)
    (hg : ∀ f, (g f).kind = f.kind ∧ (g f).treeTarget = f.treeTarget ∧
      ∀ k ∈ (g f).children, k ∈ f.children ∨ ∃ q, c.fragment? k = some q ∧
      q.kind = .branch) : Follows c (c.update id g) := by
  have hone : ∀ (j : FragmentId) (q : Fragment),
    (if place id = place j then g q else q).kind = q.kind ∧
      (if place id = place j then g q else q).treeTarget = q.treeTarget ∧
      ∀ k ∈ (if place id = place j then g q else q).children, k ∈ q.children ∨
        ∃ p, c.fragment? k = some p ∧ p.kind = .branch := by
    intro j q
    split
    · exact hg q
    · exact ⟨rfl, rfl, fun k hk => .inl hk⟩
  have hforth : ∀ {j q}, c.fragment? j = some q → ∃ q', (c.update id g).fragment? j = some q' ∧
      q'.kind = q.kind := by
    intro j q hq
    exact ⟨_, by rw [fragment?_at, hq, Option.map_some], (hone j q).1⟩
  refine ⟨hforth, fun {j f'} hf' ht => ?_, fun {j f' k} hf' hk => ?_⟩
  all_goals
    rw [fragment?_at] at hf'
    obtain ⟨q, hq, rfl⟩ := Option.map_eq_some_iff.mp hf'
    obtain ⟨hkind, htarget, hchildren⟩ := hone j q
  · exact ⟨q, hq, hkind, htarget ▸ ht⟩
  · refine (hchildren k hk).imp (fun hk => ⟨q, hq, hk⟩) fun ⟨p, hp, hbranch⟩ => ?_
    obtain ⟨p', hp', hkind'⟩ := hforth hp
    exact ⟨p', hp', hkind'.trans hbranch⟩

theorem Reduced.follows (h : Reduced Fragment.Shrunk c c') : Follows c c' := by
  refine ⟨fun hf => ?_, fun hf' ht => ?_, fun hf' hk => ?_⟩
  · obtain ⟨f', hf', hshrunk⟩ := h.forth hf
    exact ⟨f', hf', hshrunk.kind⟩
  · obtain ⟨f, hf, hshrunk⟩ := h.back hf'
    exact ⟨f, hf, hshrunk.kind, hshrunk.treeTarget ▸ ht⟩
  · obtain ⟨f, hf, hshrunk⟩ := h.back hf'
    exact .inl ⟨f, hf, hshrunk.children hk⟩

theorem getOrCreate_sorted (h : Sorted c) (hsize : c.fragments.size < 2 ^ 32)
    {key : LoopKey} {made : Bool}
    (hget : c.getOrCreate key = (c', id, made)) (hid : id ≠ 0) :
    Sorted c' ∧ ∃ e, c'.directory.listing id = some e ∧ e.cached = true ∧
    e.kind = .root ∧ e.key = key := by
  unfold getOrCreate at hget
  cases hroot : c.lookup? key with
  | some j =>
    rw [hroot] at hget
    cases hget
    exact ⟨h, h.consistent.roots hroot⟩
  | none =>
    rw [hroot] at hget
    cases hget
    have hroom := nextId_lt hsize hid
    let new : Fragment := { id := c.nextId, key, kind := .root, root := c.nextId }
    have hdirectory : ({ c.add new
      with roots := c.roots.insert key c.nextId } : FragmentCache).directory =
        c.directory.addRoot key c.nextId := by
      have hadd := directory_add hroom new
      unfold directory Directory.addRoot at *
      congr 1
      · funext k
        show (c.roots.insert key c.nextId)[k]? = _
        rw [Std.TreeMap.getElem?_insert]
        by_cases hk : k = key
        · simp [hk]
        · rw [if_neg (by simpa using Ne.symm hk), if_neg hk]
      · exact congrArg Directory.listing hadd
    have hconsistent := h.consistent.addRoot (listing_nextId hroom) hroot
    have hadded : Follows c (c.add new) := follows_add hroom rfl rfl
    refine ⟨h.follows (trans_of Follows hadded ⟨?_, ?_, ?_⟩) (hdirectory ▸ hconsistent), _,
      (congrFun (congrArg Directory.listing hdirectory) c.nextId).trans (if_pos rfl), rfl, rfl, rfl⟩
    · exact fun hf => ⟨_, hf, rfl⟩
    · exact fun hf ht => ⟨_, hf, rfl, ht⟩
    · exact fun hf hk => .inl ⟨_, hf, hk⟩

theorem update_typed_sorted (h : Sorted c) (hf : c.fragment? id = some f) (hkind : f.kind = .root)
    (huntyped : f.entryTypes = none) (types : TypeMap) :
    Sorted (c.update id ({ · with entryTypes := knownTypes types })) ∧
      (c.update id ({ · with entryTypes := knownTypes types })).directory =
        c.directory.amend id ({ · with entryTypes := knownTypes types }) := by
  have hid := (fragment?_eq_some.mp hf).1
  have hdirectory : (c.update id ({ · with entryTypes := knownTypes types })).directory =
      c.directory.amend id ({ · with entryTypes := knownTypes types }) :=
        directory_amend hid fun f => by
    unfold Fragment.listing?
    dsimp only
    split <;> rfl
  have hlisting := listing_of_fragment hf (by rw [hkind]; nofun)
  refine ⟨h.follows (follows_update c id fun f => ⟨rfl, rfl, fun k hk => .inl hk⟩) ?_, hdirectory⟩
  exact hdirectory ▸ h.consistent.typing hlisting hkind huntyped types

/-- The fragment that is looked up, if there is none for the types. -/
theorem findPeer?_eq_none {types : TypeMap}
    (hnone : c.findPeer? f types = none) : f.entryTypes ≠ some types ∧
      ∀ k ∈ f.peers, ∀ q, c.directory.listing k = some q → q.types ≠ types := by
  unfold findPeer? at hnone
  split at hnone
  · cases hnone
  · next hne =>
    refine ⟨hne, fun k hk q hq hsame => ?_⟩
    obtain ⟨p, hp, -, rfl⟩ := listing_eq_some.mp hq
    have hskip := List.findSome?_eq_none_iff.mp hnone k hk
    rw [hp, Option.filter_some, if_pos (decide_eq_true (show p.types = types from hsame))] at hskip
    cases hskip

theorem addPeer_sorted (h : Sorted c) (hsize : c.fragments.size < 2 ^ 32)
    {root : Fragment} {types : TypeMap}
    (hroot : c.fragment? root.id = some root) (hcached : root.cached = true)
    (htyped : root.entryTypes ≠ none)
    (hnone : c.findPeer? root types = none)
    (hadd : addPeer root types c = .ok id c') (hid : id ≠ 0) :
    Sorted c' ∧ ∃ e, c'.directory.listing id = some e ∧ e.cached = true := by
  unfold addPeer at hadd
  split at hadd
  · cases hadd
  · next hkind =>
    replace hkind : root.kind = .root := Decidable.not_not.mp hkind
    cases hadd
    have hroom := nextId_lt hsize hid
    let new : Fragment :=
      { id := c.nextId, key := root.key, kind := .peer, root := root.id,
        entryTypes := knownTypes types }
    have hlisting := listing_of_fragment hroot (by rw [hkind]; nofun)
    obtain ⟨hne, hpeers⟩ := findPeer?_eq_none hnone
    have hdirectory : ((c.add new).update root.id fun f =>
      { f with peers := f.peers ++ [c.nextId] }).directory =
        c.directory.addPeer root.id root.key c.nextId types := by
      rw [directory_amend (fragment?_eq_some.mp hroot).1
        (h := fun e => { e with peers := e.peers ++ [c.nextId] }) fun f => ?_,
        directory_add hroom]
      · rfl
      · unfold Fragment.listing?
        dsimp only
        split <;> rfl
    have hapart : root.entryTypes.getD [] ≠ types := by
      intro hsame
      cases hentry : root.entryTypes with
      | none => exact htyped hentry
      | some t =>
        rw [hentry] at hsame
        exact hne (hentry.trans (congrArg some hsame))
    have hconsistent :=
      h.consistent.addPeer hlisting hkind hcached htyped (listing_nextId hroom) hapart hpeers
    have hadded : Follows c (c.add new) := follows_add hroom rfl rfl
    refine ⟨h.follows (trans_of Follows hadded (follows_update _ _ fun f => ?_))
      (hdirectory ▸ hconsistent), ?_⟩
    · exact ⟨rfl, rfl, fun k hk => .inl hk⟩
    · rw [hdirectory]
      exact Directory.listing_addPeer hlisting (listing_nextId hroom) root.key types

/-- A branch is not told of. -/
theorem attachChild_sorted (h : Sorted c) (hsize : c.fragments.size < 2 ^ 32)
    {parent : Fragment} {r : Guard}
    (hattach : attachChild parent r c = .ok id c') (hid : id ≠ 0) :
    Sorted c' ∧ c'.directory = c.directory := by
  unfold attachChild at hattach
  split at hattach
  · cases hattach
  · cases hattach
    have hroom := nextId_lt hsize hid
    let new : Fragment :=
      { id := c.nextId, key := parent.key, kind := .branch, root := parent.root,
        parent := some parent.id
        anchor := some r.id, entryTypes := some (c.exitOf r).exit.types }
    have hnew : (c.add new).fragment? c.nextId = some new := by rw [fragment?_add hroom, if_pos rfl]
    have hadd : (c.add new).directory = c.directory := by
      rw [directory_add hroom]
      refine congrArg (Directory.mk _) (funext fun j => ?_)
      split
      · next hj => exact hj ▸ (listing_nextId hroom).symm
      · rfl
    have hdirectory : ((c.add new).update parent.id fun f =>
      { f with children := f.children ++ [c.nextId] }).directory =
        c.directory :=
      (directory_tacit (c.add new) parent.id
        (g := fun f => { f with children := f.children ++ [c.nextId] }) fun _ => rfl).trans hadd
    have hfollows : Follows c ((c.add new).update parent.id fun f =>
        { f with children := f.children ++ [c.nextId] }) := by
      have hadded : Follows c (c.add new) := follows_add hroom rfl rfl
      refine trans_of Follows hadded (follows_update _ _ fun f => ?_)
      refine ⟨rfl, rfl, fun k hk => ?_⟩
      rcases List.mem_append.mp hk with hk | hk
      · exact .inl hk
      · rw [List.mem_singleton.mp hk]
        exact .inr ⟨new, hnew, rfl⟩
    exact ⟨h.follows hfollows (hdirectory ▸ h.consistent), hdirectory⟩

/-! ### Dropping -/

theorem drop_directory {mask : Array Bool} (hf : f.id ≠ 0) (hroot : f.kind = .peer → f.root ≠ 0)
    (hbranch : f.kind = .branch → c.directory.listing f.id = none) (h : drop mask f c = .ok () c') :
    c'.directory = match f.listing? with
      | some e => c.directory.drop (marked mask) f.id e
      | none => c.directory := by
  unfold drop at h
  obtain ⟨_, c₁, hfirst, hrest⟩ := bind_eq_ok h
  obtain ⟨_, c₂, hmain, hrest⟩ := bind_eq_ok hrest
  obtain ⟨_, c₃, hexits, hlast⟩ := bind_eq_ok hrest
  cases hlast
  cases hfirst
  have hpages : c₃.directory = c.directory :=
    (trans_of Calm ((paged_calm _).ok hmain) ((paged_calm _).ok hexits)).directory
  have hparent : ∀ x : FragmentCache, (parentless mask f x).directory = x.directory := by
    intro x
    unfold parentless
    split
    · split
      · rfl
      · exact directory_tacit x _
          (g := fun q => { q with children := q.children.erase f.id }) fun _ => rfl
    · rfl
  have hpeerless : ∀ x : FragmentCache, (peerless mask f x).directory =
    if f.kind = .peer ∧ marked mask f.root = false then
      x.directory.amend f.root fun e => { e with peers := e.peers.erase f.id }
          else x.directory := by
    intro x
    unfold peerless
    by_cases hpeer : f.kind = .peer ∧ marked mask f.root = false
    · rw [if_pos hpeer, if_pos (by simpa using hpeer)]
      refine directory_amend (hroot hpeer.1) fun q => ?_
      unfold Fragment.listing?
      dsimp only
      split <;> rfl
    · rw [if_neg hpeer, if_neg (by simpa using hpeer)]
  have hrootless : ∀ x : FragmentCache, (rootless f x).directory = { x.directory with
      roots := fun k => if f.kind = .root ∧ x.directory.roots f.key = some f.id ∧ k = f.key
            then none else x.directory.roots k } := by
    intro x
    unfold rootless
    by_cases hkey : f.kind = .root ∧ x.roots[f.key]? = some f.id
    · rw [if_pos (by simpa using hkey)]
      refine congrArg (Directory.mk · _) (funext fun k => ?_)
      show (x.roots.erase f.key)[k]? = if f.kind = .root ∧ x.roots[f.key]? = some f.id ∧ k = f.key
        then none else x.roots[k]?
      rw [Std.TreeMap.getElem?_erase]
      by_cases hk : k = f.key
      · rw [if_pos (by simpa using hk.symm), if_pos ⟨hkey.1, hkey.2, hk⟩]
      · rw [if_neg (by simpa using Ne.symm hk), if_neg fun h => hk h.2.2]
    · rw [if_neg (by simpa using hkey)]
      refine congrArg (Directory.mk · _) (funext fun k => ?_)
      exact (if_neg fun h => hkey ⟨h.1, h.2.1⟩).symm
  have hgone : ∀ x : FragmentCache, (x.update f.id fun f => { f with
      mainPages := [], exitPages := [], mainCode := [], exitCode := [], cached := false, state :=
          .invalidated }).directory =
        x.directory.amend f.id ({ · with cached := false }) :=
          fun x => directory_amend hf fun q => by
    unfold Fragment.listing?
    dsimp only
    split <;> rfl
  refine (hgone (rootless f (peerless mask f (parentless mask f c₃)))).trans ?_
  rw [hrootless, hpeerless, (hparent c₃).trans hpages]
  unfold Fragment.listing?
  by_cases hkind : f.kind = .branch
  · rw [if_pos hkind, if_neg (by simp [hkind])]
    refine congr (congrArg Directory.mk (funext fun k => if_neg (by simp [hkind])))
      (funext fun k => ?_)
    dsimp only
    split
    · next hk =>
      rw [hk, hbranch hkind, Option.map_none]
      exact (hbranch hkind).symm
    · rfl
  · rw [if_neg hkind]
    exact Directory.drop_eq (D := marked mask) c.directory _
      { key := f.key, kind := f.kind, root := f.root, entryTypes := f.entryTypes, peers := f.peers,
        cached := f.cached } rfl

/-- Those of a list are struck off one by one, and with the last one all that are marked are gone. -/
theorem dropAll_directory {c₀ : FragmentCache} (h : Sorted c₀) {mask : Array Bool}
    {l : List Fragment}
    (hl : ∀ f ∈ l, c₀.fragment? f.id = some f ∧ marked mask f.id = true)
    (hnodup : (l.map (·.id)).Nodup)
    (hc : c.directory = c₀.directory.strike (marked mask) (l.map (·.id)))
    (hdrop : l.forM (drop mask) c = .ok () c') :
    c'.directory = c₀.directory.strike (marked mask) [] := by
  induction l generalizing c with
  | nil =>
    cases hdrop
    exact hc
  | cons f l ih =>
    obtain ⟨_, c₁, hfirst, hrest⟩ := bind_eq_ok hdrop
    obtain ⟨hf, hD⟩ := hl f List.mem_cons_self
    obtain ⟨hrest₀, hnodup⟩ := List.nodup_cons.mp hnodup
    refine ih (fun q hq => hl q (List.mem_cons_of_mem f hq)) hnodup ?_ hrest
    have hlisting : c₀.directory.listing f.id = f.listing? := by
      show (c₀.fragment? f.id).bind Fragment.listing? = f.listing?
      rw [hf, Option.bind_some]
    have hroot : f.kind = .peer → f.root ≠ 0 := by
      intro hpeer hzero
      have he := listing_of_fragment hf (by rw [hpeer]; nofun)
      rcases (h.consistent.proper he).home with ⟨hkind, -⟩ | ⟨-, r, hr, -⟩
      · exact nomatch hpeer.symm.trans hkind
      · obtain ⟨q, hq, -⟩ := listing_eq_some.mp hr
        exact (fragment?_eq_some.mp hq).1 hzero
    have hbranch : f.kind = .branch → c.directory.listing f.id = none := by
      intro hkind
      rw [hc]
      show (c₀.directory.listing f.id).map _ = none
      rw [listing_branch hf hkind, Option.map_none]
    rw [drop_directory (fragment?_eq_some.mp hf).1 hroot hbranch hfirst, hc]
    cases hentry : f.listing? with
    | none => exact Directory.strike_skip h.consistent (hlisting.trans hentry)
    | some e => exact Directory.drop_strike h.consistent (hlisting.trans hentry) hD hrest₀

/-- With a root go its peers. -/
theorem dependents_peers (h : Sorted c)
    (hnumbered : ∀ {k f}, c.fragment? k = some f → f.id = k) {on : FragmentId}
    (he : c.directory.listing id = some e) (hmarked : marked (c.dependents on) id = true)
    (hk : k ∈ e.peers) :
    marked (c.dependents on) k = true := by
  obtain ⟨hroot, -, q, hq, -⟩ := (h.consistent.proper he).listed k hk
  obtain ⟨f, hf, -, rfl⟩ := listing_eq_some.mp he
  obtain ⟨p, hp, -⟩ := listing_eq_some.mp hq
  rw [marked_iff, ← spread_dependents]
  refine ((spread_marks c _).2 _).mpr (.inr ⟨?_, f, mem_of_fragment? hf, .inr ⟨?_, k, ?_, rfl⟩⟩)
  · rw [size_dependents]
    exact place_lt hp
  · rw [hnumbered hf]
    exact hmarked
  · rw [listed, if_pos (show f.kind = .root from hroot)]
    exact List.mem_append_right _ hk

/-- A root or a peer goes only on its own account or with its root. -/
theorem dependents_loops (h : Sorted c)
    (hnumbered : ∀ f ∈ c.fragments.toList, c.fragment? f.id = some f) {on : FragmentId}
    (hon : on ≠ 0) (hf : c.fragment? id = some f) (hkind : f.kind ≠ .branch)
    (hmarked : marked (c.dependents on) id = true) :
    id = on ∨ f.root = on := by
  have hsame : ∀ {j k q p}, c.fragment? j = some q → c.fragment? k = some p → place j = place k →
      j = k := fun hq hp hplace =>
    place_inj (fragment?_eq_some.mp hq).1 (fragment?_eq_some.mp hp).1 hplace
  have hall : ∀ id f, c.fragment? id = some f → f.kind ≠ .branch →
    (c.dependents on)[place id]? = some true →
      id = on ∨ f.root = on := by
    refine spreadAll_induction (P := fun mask => ∀ id f, c.fragment? id = some f →
      f.kind ≠ .branch →
      mask[place id]? = some true → id = on ∨ f.root = on) (fun mask ih id f hf hkind hmark => ?_) _
      fun id f hf hkind hmark => ?_
    · obtain hmark | ⟨-, q, hq, hpull⟩ := ((spread_marks c mask).2 _).mp hmark
      · exact ih id f hf hkind hmark
      replace hq := hnumbered q hq
      rcases hpull with ⟨⟨-, htarget⟩, hplace⟩ | ⟨hmarked, k, hk, hplace⟩
      · -- only branches go on in other traces
        obtain rfl := hsame hf hq hplace
        rw [hf] at hq
        cases hq
        exact absurd (h.target hf (Option.isSome_of_any htarget)) hkind
      · unfold listed at hk
        rcases List.mem_append.mp hk with hk | hk
        · obtain ⟨p, hp, hbranch⟩ := h.children hq hk
          obtain rfl := hsame hf hp hplace
          rw [hf] at hp
          cases hp
          exact absurd hbranch hkind
        · split at hk
          · next hroot =>
            have he := listing_of_fragment hq (by rw [hroot]; nofun)
            obtain ⟨-, -, e, hpeer, hpeerKind, hhome, -⟩ := (h.consistent.proper he).listed k hk
            obtain ⟨p, hp, -, rfl⟩ := listing_eq_some.mp hpeer
            obtain rfl := hsame hf hp hplace
            rw [hf] at hp
            cases hp
            have hself := (h.consistent.proper he).self hroot
            rcases ih q.id q hq (by rw [hroot]; nofun) (marked_iff.mp hmarked) with hon | hon
            · exact .inr (hhome.trans hon)
            · exact .inr (hhome.trans (hself.symm.trans hon))
          · cases hk
    · obtain hmark | ⟨-, hplace⟩ := getElem?_set!_true.mp hmark
      · rw [Array.getElem?_replicate] at hmark
        split at hmark <;> cases hmark
      · exact .inl (place_inj (fragment?_eq_some.mp hf).1 hon hplace)
  exact hall id f hf hkind (marked_iff.mp hmarked)

section Filed

theorem Filed.of_mem (hc : c.Filed V B own) (hsize : c.fragments.size < 2 ^ 32)
    (hf : f ∈ c.fragments.toList) :
    c.fragment? f.id = some f := by
  obtain ⟨k, hk⟩ := Array.mem_iff_getElem?.mp (Array.mem_toList_iff.mp hf)
  exact (hc.id_at hsize hk).2.2

theorem Filed.nodup_ids (hc : c.Filed V B own) (hsize : c.fragments.size < 2 ^ 32) :
    (c.fragments.toList.map (·.id)).Nodup := by
  rw [List.Nodup, List.pairwise_map, List.pairwise_iff_getElem]
  intro i j hi hj hlt hsame
  have hfst := (hc.id_at hsize (k := i) (f := c.fragments.toList[i]) (by simp)).1
  have hsnd := (hc.id_at hsize (k := j) (f := c.fragments.toList[j]) (by simp)).1
  rw [hsame] at hfst
  omega

theorem invalidate_directory (h : Sorted c) (hc : c.Filed V B own)
    (hsize : c.fragments.size < 2 ^ 32) {on : FragmentId}
    {gone : List FragmentId} (hinvalidate : invalidate on c = .ok gone c') :
    c'.directory = c.directory.strike (marked (c.dependents on)) [] := by
  unfold invalidate at hinvalidate
  obtain ⟨_, _, hget, hrest⟩ := bind_eq_ok hinvalidate
  cases hget
  obtain ⟨_, c₁, hunpatch, hrest⟩ := bind_eq_ok hrest
  obtain ⟨_, c₂, hdrop, hlast⟩ := bind_eq_ok hrest
  cases hlast
  have hcalm : Calm c c₁ :=
    (Keeps.forM (fun g => .bind .get fun _ => redirect_calm g _ _) _).ok hunpatch
  refine dropAll_directory h (fun f hf => ?_) ?_ ?_ hdrop
  · obtain ⟨hf, hmarked⟩ := List.mem_filter.mp hf
    exact ⟨hc.of_mem hsize hf, hmarked⟩
  · exact (hc.nodup_ids hsize).sublist (List.filter_sublist.map _)
  · rw [hcalm.directory]
    refine (Directory.strike_all h.consistent fun k q hq hmarked => ?_).symm
    obtain ⟨f, hf, -⟩ := listing_eq_some.mp hq
    obtain rfl := hc.numbered hf
    exact List.mem_map.mpr ⟨f, List.mem_filter.mpr ⟨mem_of_fragment? hf, hmarked⟩, rfl⟩

theorem invalidate_sorted (h : Sorted c) (hc : c.Filed V B own)
    (hsize : c.fragments.size < 2 ^ 32) {on : FragmentId}
    {gone : List FragmentId} (hinvalidate : invalidate on c = .ok gone c') : Sorted c' := by
  refine h.follows ((invalidate_reduces on).ok hinvalidate).follows ?_
  rw [invalidate_directory h hc hsize hinvalidate]
  exact h.consistent.strike fun _ _ _ he hmarked hk => dependents_peers h hc.numbered he hmarked hk

/-- A root or a peer that does not depend on what is dropped stays cached. -/
theorem invalidate_spares (h : Sorted c) (hc : c.Filed V B own)
    (hsize : c.fragments.size < 2 ^ 32) {on : FragmentId}
    (hon : on ≠ 0) {gone : List FragmentId} (hinvalidate : invalidate on c = .ok gone c')
    (hf : c.cached? id = some f)
    (hkind : f.kind ≠ .branch) (hid : id ≠ on) (hroot : f.root ≠ on) :
    ∃ f', c'.cached? id = some f' := by
  obtain ⟨hf, hcached⟩ := cached?_eq_some.mp hf
  have hdirectory :=
    congrFun (congrArg Directory.listing (invalidate_directory h hc hsize hinvalidate)) id
  have hstay : marked (c.dependents on) id = false := Bool.eq_false_iff.mpr fun hmarked =>
    (dependents_loops h (fun _ hmem => hc.of_mem hsize hmem) hon hf hkind hmarked).elim hid hroot
  have hlisting : c'.directory.listing id = _ :=
    hdirectory.trans (congrArg (Option.map _) (listing_of_fragment hf hkind))
  obtain ⟨f', hf', -, he⟩ := listing_eq_some.mp hlisting
  refine ⟨f', cached?_eq_some.mpr ⟨hf', ?_⟩⟩
  have hlive := congrArg Listing.cached he
  rw [← show _ = f'.cached from hlive]
  simp [Directory.struck, hcached, stays, hstay]

theorem invalidateRoots_sorted (l : List FragmentId) (h : Sorted c) (hc : c.Filed V B own)
    (hsize : c.fragments.size < 2 ^ 32) :
    Ensures Anyhow (invalidateRoots l) c fun _ c' => Sorted c' := by
  induction l generalizing c with
  | nil => exact .pure h
  | cons id l ih =>
    unfold invalidateRoots
    refine .get ?_
    extract_lets rest
    have hrest : ∀ {c₁ : FragmentCache} (gone), Sorted c₁ → c₁.Filed V B own →
      c₁.fragments.size < 2 ^ 32 →
        Ensures Anyhow (rest gone) c₁ fun _ c' => Sorted c' := fun _ h₁ hc₁ hsize₁ =>
      .bind (ih h₁ hc₁ hsize₁) fun _ _ h' => .pure h'
    split
    · split
      · exact .pure_bind (hrest _ h hc hsize)
      · refine .bind (Q := fun gone c₁ => invalidate id c = .ok gone c₁) ?_ fun gone c₁ hdrop => ?_
        · unfold Ensures
          split
          · next h => exact h
          · trivial
        · have hreduced := ((invalidate_reduces id).ok hdrop).faded
          exact hrest gone (invalidate_sorted h hc hsize hdrop) (hc.reduced hreduced)
            (hreduced.size ▸ hsize)
    · exact .pure_bind (hrest _ h hc hsize)

theorem flush_sorted (h : Sorted c) (hc : c.Filed V B own) (hsize : c.fragments.size < 2 ^ 32)
    {gone : List FragmentId}
    (hflush : flush c = .ok gone c') : Sorted c' := by
  have hfollows := (flush_reduces.ok hflush).follows
  unfold flush at hflush
  obtain ⟨_, _, hget, hrest⟩ := bind_eq_ok hflush
  cases hget
  obtain ⟨_, c₁, hroots, hrest⟩ := bind_eq_ok hrest
  have h₁ := (ensures_ok hroots).mp (invalidateRoots_sorted _ h hc hsize)
  cases hrest
  refine h.follows hfollows (Eq.subst (motive := Directory.Consistent) ?_ h₁.consistent.clear)
  refine congr (congrArg Directory.mk (funext fun key => ?_)) (funext fun id => ?_)
  · exact Std.TreeMap.getElem?_emptyc.symm
  · show ((c₁.fragment? id).bind Fragment.listing?).map _ =
      Option.bind (fragment? { c₁ with fragments := _ } id) _
    unfold fragment?
    dsimp only
    split
    · rfl
    · rw [Array.getElem?_map]
      cases c₁.fragments[place id]? with
      | none => rfl
      | some f =>
        show f.listing?.map _ = Fragment.listing? { f with cached := false }
        unfold Fragment.listing?
        dsimp only
        split <;> rfl

end Filed

theorem sorted_new (b : Machine.Backend) (r : CodePages) :
    Sorted { backend := b, region := r } := by
  have hnone : ∀ id, ({ backend := b, region := r } : FragmentCache).fragment? id = none :=
    fun id => by
    unfold fragment?
    split
    · rfl
    · exact Array.getElem?_empty
  refine ⟨⟨fun {key id} hid => ?_, fun {id e} he => ?_⟩, fun {id f k} hf => ?_, fun {id f} hf => ?_⟩
  · replace hid : (∅ : Std.TreeMap LoopKey FragmentId)[key]? = some id := hid
    rw [Std.TreeMap.getElem?_emptyc] at hid
    cases hid
  · obtain ⟨f, hf, -⟩ := listing_eq_some.mp he
    rw [hnone] at hf
    cases hf
  · rw [hnone] at hf
    cases hf
  · rw [hnone] at hf
    cases hf

/-! ### Looking up -/

/-- A root or a peer that is cached is found for its types, unless it is a root that is
entered with none. -/
theorem Sorted.found (h : Sorted c) (hf : c.cached? id = some f)
    (hkind : f.kind ≠ .branch) : ∃ r root,
    c.lookup? f.key = some r ∧ c.fragment? r = some root ∧
      c.findPeer? root f.types = if f.kind = .root ∧ f.types = [] then none else some f := by
  obtain ⟨hf, hcached⟩ := cached?_eq_some.mp hf
  have he := listing_of_fragment hf hkind
  obtain ⟨r, q, hr, hq, -, hroot, hhome⟩ := h.consistent.housed he hcached
  obtain ⟨root, hroot', -, rfl⟩ := listing_eq_some.mp hq
  have hproper := h.consistent.proper hq
  refine ⟨r, root, hr, hroot', ?_⟩
  unfold findPeer?
  rcases hhome with ⟨rfl, hroot⟩ | ⟨hpeer, hmem⟩
  · rw [hf] at hroot'
    cases hroot'
    cases htypes : f.entryTypes with
    | none =>
      -- a root without types has no peers
      have hpeers : f.peers = [] := List.eq_nil_iff_forall_not_mem.mpr fun k hk =>
        (hproper.listed k hk).2.1 htypes
      have hnil : f.types = [] := by rw [Fragment.types, htypes]; rfl
      rw [if_neg nofun, hpeers, if_pos ⟨hroot, hnil⟩]
      rfl
    | some t =>
      have hsome : f.types = t := by rw [Fragment.types, htypes]; rfl
      have hne : ¬(f.kind = .root ∧ f.types = []) := fun ⟨_, hnil⟩ =>
        hproper.typed (htypes.trans (congrArg some (hsome.symm.trans hnil)))
      rw [hsome, if_pos rfl, if_neg (hsome ▸ hne)]
  · obtain ⟨-, -, p, hp, -, -, hapart, -⟩ := hproper.listed id hmem
    rw [he] at hp
    cases hp
    have hother : root.entryTypes ≠ some f.types := fun hsame => hapart (by
      show f.types = root.entryTypes.getD []
      rw [hsame]
      rfl)
    have hnot : ¬(f.kind = .root ∧ f.types = []) := fun ⟨hroot, _⟩ => nomatch hroot.symm.trans hpeer
    rw [if_neg hother, if_neg hnot]
    have hself : (c.fragment? id).filter (fun p => p.types = f.types) = some f := by
      rw [hf]
      exact if_pos (decide_eq_true rfl)
    cases hfound : root.peers.findSome? fun k => (c.fragment? k).filter fun p =>
        p.types = f.types with
    | none =>
      rw [List.findSome?_eq_none_iff.mp hfound id hmem] at hself
      cases hself
    | some p =>
      obtain ⟨k, hk, hpeer⟩ := List.exists_of_findSome?_eq_some hfound
      obtain ⟨hp, htypes⟩ := Option.filter_eq_some_iff.mp hpeer
      obtain ⟨-, -, e, hlisted, -⟩ := hproper.listed k hk
      obtain ⟨p', hp', -, rfl⟩ := listing_eq_some.mp hlisted
      rw [hp] at hp'
      cases hp'
      obtain rfl := hproper.unlike k hk id hmem _ _ hlisted he (of_decide_eq_true htypes)
      rw [hf] at hp
      exact congrArg some (Option.some.inj hp).symm

/-- What is found for a root is cached if the root is. -/
theorem findPeer?_listed (h : Sorted c)
    (hnumbered : ∀ {k f}, c.fragment? k = some f → f.id = k) {root : Fragment}
    (hroot : c.fragment? id = some root) (hkind : root.kind = .root)
    (hcached : root.cached = true) {types : TypeMap}
    (hf : c.findPeer? root types = some f) :
    ∃ e, c.directory.listing f.id = some e ∧ e.cached = true := by
  have he := listing_of_fragment hroot (by rw [hkind]; nofun)
  unfold findPeer? at hf
  split at hf
  · cases hf
    rw [hnumbered hroot]
    exact ⟨_, he, hcached⟩
  · obtain ⟨k, hk, hpeer⟩ := List.exists_of_findSome?_eq_some hf
    obtain ⟨hp, -⟩ := Option.filter_eq_some_iff.mp hpeer
    obtain ⟨-, -, e, hlisted, -, -, -, hlives⟩ := (h.consistent.proper he).listed k hk
    rw [hnumbered hp]
    exact ⟨e, hlisted, hlives hcached⟩

/-- No two cached roots or peers of a loop have the same types. -/
theorem Sorted.unlike (h : Sorted c) (hf : c.cached? id = some f)
    (hkind : f.kind ≠ .branch) {q : Fragment}
    (hq : c.cached? k = some q) (hkind' : q.kind ≠ .branch) (hkey : q.key = f.key)
    (htypes : q.types = f.types) : k = id := by
  obtain ⟨hf, hcached⟩ := cached?_eq_some.mp hf
  obtain ⟨hq, hcached'⟩ := cached?_eq_some.mp hq
  exact h.consistent.unlike (listing_of_fragment hf hkind) hcached
    (listing_of_fragment hq hkind') hcached' hkey htypes

end FragmentCache

end LoopTracer
