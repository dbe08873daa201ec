import LoopTracer.Proofs.Fragment.Filing

/-! Attempts to record, as the cache keeps them.

A fragment counts the recordings of its loop that failed, and an exit those of branches from it;
after `loops` of them a fragment is left alone, and after `sides` of them an exit. What an operation
on the cache does to these counters is nothing, for nearly all operations: a fragment keeps its
counter, and one that is added begins with zero (`Moved`). The counters stay in bounds on the way
(`Temperate`), and a recording in progress can always be counted once more (`Willing`). -/
namespace LoopTracer

open Trace Compile Machine

/-! ### Counters -/

/-- A fragment was tried no more than `most` times, and is left alone after the last one. -/
structure Fragment.Tried (most : Int) (f : Fragment) : Prop where
  few : (f.attempts : Int) ≤ most
  last : f.state = .blacklisted → (f.attempts : Int) = most
  spent : (f.attempts : Int) = most → f.state = .blacklisted ∨ f.state = .invalidated
  live : f.cached = true → f.state ≠ .invalidated

/-- Branches from an exit were tried no more than `most` times, and no more after the last one. -/
structure Trace.ExitRecord.Tried (most : Int) (e : ExitRecord) : Prop where
  few : (e.attempts : Int) ≤ most
  spent : e.blacklisted = true ↔ (e.attempts : Int) = most

/-- A fragment that was not tried yet. -/
theorem Fragment.tried_new {most : Int} (hmost : 0 < most) {f : Fragment}
    (hattempts : f.attempts = 0)
    (hstate : f.state = .counting) : f.Tried most := by
  refine ⟨by omega, fun hs => ?_, fun hs => by omega, fun _ => ?_⟩
  · rw [hstate] at hs
    cases hs
  · rw [hstate]
    nofun

/-- A fragment changes, but not how often it was tried. -/
structure Fragment.Eased (most : Int) (f f' : Fragment) : Prop where
  key : f'.key = f.key
  root : f'.root = f.root
  attempts : f'.attempts = f.attempts
  cached : f'.cached = true → f.cached = true
  tried : f.Tried most → f'.Tried most

instance (most : Int) : IsPreorder Fragment (Fragment.Eased most) where
  refl _ := ⟨rfl, rfl, rfl, id, id⟩
  trans _ _ _ h h' :=
    ⟨h'.key.trans h.key, h'.root.trans h.root, h'.attempts.trans h.attempts, h.cached ∘ h'.cached,
    h'.tried ∘ h.tried⟩

/-- Something else about a fragment changes. -/
theorem Fragment.eased_congr {most : Int} {f f' : Fragment} (hkey : f'.key = f.key)
    (hroot : f'.root = f.root)
    (hattempts : f'.attempts = f.attempts) (hstate : f'.state = f.state)
    (hcached : f'.cached = f.cached) :
    f.Eased most f' :=
  ⟨hkey, hroot, hattempts, fun h => hcached ▸ h,
    fun h => ⟨hattempts ▸ h.few, fun hs => hattempts ▸ h.last (hstate ▸ hs),
    fun hs => hstate ▸ h.spent (hattempts ▸ hs), fun hc => hstate ▸ h.live (hcached ▸ hc)⟩⟩

theorem Fragment.Shrunk.eased {most : Int} {f f' : Fragment}
    (h : f.Shrunk f') : f.Eased most f' := by
  refine ⟨h.key, h.root, h.attempts, fun hc => (h.cached hc).1, fun ht => ?_⟩
  refine ⟨h.attempts ▸ ht.few, fun hs => ?_, fun hs => ?_, fun hc => ?_⟩
  · rcases h.state with heq | heq
    · exact h.attempts ▸ ht.last (heq ▸ hs)
    · rw [heq] at hs
      cases hs
  · rcases h.state with heq | heq
    · exact heq ▸ ht.spent (h.attempts ▸ hs)
    · exact .inr heq
  · obtain ⟨hcached, hstate⟩ := h.cached hc
    exact hstate ▸ ht.live hcached

/-- A fragment that may be tried again is recorded, or its code is in use. -/
theorem Fragment.eased_state {most : Int} {f : Fragment} (hmore : (f.attempts : Int) < most)
    {state : FragmentState}
    (hstate : state ≠ .blacklisted ∧ state ≠ .invalidated) : f.Eased most { f with state } := by
  refine ⟨rfl, rfl, rfl, fun h => h,
    fun ht => ⟨ht.few, fun hs => absurd hs hstate.1, fun hs => ?_, fun _ => hstate.2⟩⟩
  replace hs : (f.attempts : Int) = most := hs
  omega

/-! ### Tables of exits -/

/-- Exits are added that were not tried, and the others were tried as often as before. -/
structure Enlarged (x x' : Array ExitRecord) : Prop where
  back : ∀ (k : Nat) e', x'[k]? = some e' →
    (∃ e, x[k]? = some e ∧ e'.attempts = e.attempts ∧ e'.blacklisted = e.blacklisted) ∨
    e'.attempts = 0 ∧ e'.blacklisted = false
  kept : ∀ (k : Nat) e, x[k]? = some e → ∃ e', x'[k]? = some e' ∧ e'.attempts = e.attempts ∧
    e'.blacklisted = e.blacklisted

instance : IsPreorder (Array ExitRecord) Enlarged where
  refl _ := ⟨fun _ e he => .inl ⟨e, he, rfl, rfl⟩, fun _ e he => ⟨e, he, rfl, rfl⟩⟩
  trans _ _ _ h h' := by
    refine ⟨fun k e₂ he₂ => ?_, fun k e he => ?_⟩
    · rcases h'.back k e₂ he₂ with ⟨e₁, he₁, hattempts, hlast⟩ | hnew
      · rw [hattempts, hlast]
        exact h.back k e₁ he₁
      · exact .inr hnew
    · obtain ⟨e₁, he₁, hattempts, hlast⟩ := h.kept k e he
      obtain ⟨e₂, he₂, hattempts', hlast'⟩ := h'.kept k e₁ he₁
      exact ⟨e₂, he₂, hattempts'.trans hattempts, hlast'.trans hlast⟩

theorem enlarged_modify (x : Array ExitRecord) (n : Nat) {g : ExitRecord → ExitRecord}
    (hg : ∀ e, (g e).attempts = e.attempts ∧ (g e).blacklisted = e.blacklisted) :
    Enlarged x (x.modify n g) := by
  refine ⟨fun k e' he' => ?_, fun k e he => ?_⟩
  · rw [Array.getElem?_modify] at he'
    split at he'
    · obtain ⟨e, he, rfl⟩ := Option.map_eq_some_iff.mp he'
      exact .inl ⟨e, he, hg e⟩
    · exact .inl ⟨e', he', rfl, rfl⟩
  · rw [Array.getElem?_modify, he]
    split
    · exact ⟨g e, rfl, hg e⟩
    · exact ⟨e, rfl, rfl, rfl⟩

theorem enlarged_push (x : Array ExitRecord) (exit : SideExit) : Enlarged x (x.push { exit }) := by
  refine ⟨fun k e' he' => ?_, fun k e he => ⟨e, ?_, rfl, rfl⟩⟩
  · rw [Array.getElem?_push] at he'
    split at he'
    · cases he'
      exact .inr ⟨rfl, rfl⟩
    · exact .inl ⟨e', he', rfl, rfl⟩
  · rw [Array.getElem?_push, if_neg, he]
    have := (Array.getElem?_eq_some_iff.mp he).1
    omega

theorem Compile.Relocated.enlarged {low : Nat} {b : Buffer} {x x' : Array ExitRecord}
    (h : Relocated low b x x') : Enlarged x x' := by
  refine ⟨fun k e' he' => ?_, fun k e he => ?_⟩
  · obtain ⟨e, locations, he, rfl, -⟩ := h.record k e' he'
    exact .inl ⟨e, he, rfl, rfl⟩
  · obtain ⟨e', he'⟩ : ∃ e', x'[k]? = some e' := by
      have hlt := (Array.getElem?_eq_some_iff.mp he).1
      exact ⟨_, Array.getElem?_eq_getElem (h.size ▸ hlt)⟩
    obtain ⟨e₀, locations, he₀, rfl, -⟩ := h.record k e' he'
    rw [he] at he₀
    cases he₀
    exact ⟨_, he', rfl, rfl⟩

/-- The exits of a trace were not tried. -/
theorem enlarged_trace (l : List Inst) (x : Array ExitRecord) :
    Enlarged x (l.foldl (fun all i => match i.exit with
    | some exit => all.push { exit }
    | none => all) x) := by
  induction l generalizing x with
  | nil => exact refl_of Enlarged x
  | cons i l ih =>
    refine trans_of Enlarged ?_ (ih _)
    dsimp only
    split
    · exact enlarged_push x _
    · exact refl_of Enlarged x

namespace FragmentCache

/-! ### Caches -/

/-- How often fragments and exits were tried does not change. Fragments are added only for loops
that are `fresh`, each below a root of its loop. -/
structure Moved (most : Int) (fresh : LoopKey → Prop) (c c' : FragmentCache) : Prop where
  back : ∀ {id : FragmentId} {f'}, c'.fragment? id = some f' →
    (∃ f, c.fragment? id = some f ∧ f.Eased most f') ∨
    f'.attempts = 0 ∧ f'.Tried most ∧ fresh f'.key ∧
      ∃ r, c'.fragment? f'.root = some r ∧ r.key = f'.key
  forth : ∀ {id : FragmentId} {f}, c.fragment? id = some f →
    ∃ f', c'.fragment? id = some f' ∧ f'.key = f.key
  exits : Enlarged c.exits c'.exits
  guards : Steered c c'

variable {most loops sides : Int} {fresh : LoopKey → Prop} {n : LoopKey → Nat}
  {c c' : FragmentCache} {id : FragmentId}
  {f : Fragment} {g : Fragment → Fragment} {key : LoopKey}

instance : IsPreorder FragmentCache (Moved most fresh) where
  refl _ := ⟨fun hf => .inl ⟨_, hf, refl_of _ _⟩, fun hf => ⟨_, hf, rfl⟩, refl_of _ _, refl_of _ _⟩
  trans _ _ _ h h' := by
    refine ⟨fun {id f₂} hf₂ => ?_, fun hf => ?_, trans_of _ h.exits h'.exits,
      trans_of _ h.guards h'.guards⟩
    · rcases h'.back hf₂ with ⟨f₁, hf₁, heased⟩ | hnew
      · rcases h.back hf₁ with ⟨f, hf, heased'⟩ | ⟨hattempts, htried, hfresh, r, hr, hkey⟩
        · exact .inl ⟨f, hf, trans_of _ heased' heased⟩
        · obtain ⟨r', hr', hkey'⟩ := h'.forth hr
          exact .inr ⟨heased.attempts.trans hattempts, heased.tried htried, heased.key ▸ hfresh, r',
            heased.root ▸ hr',
            hkey'.trans (hkey.trans heased.key.symm)⟩
      · exact .inr hnew
    · obtain ⟨f₁, hf₁, hkey⟩ := h.forth hf
      obtain ⟨f₂, hf₂, hkey'⟩ := h'.forth hf₁
      exact ⟨f₂, hf₂, hkey'.trans hkey⟩

theorem Reduced.moved {F : Fragment → Fragment → Prop} (h : Reduced F c c')
    (hF : ∀ f f', F f f' → f.Eased most f') :
    Moved most fresh c c' := by
  refine ⟨fun hf' => ?_, fun hf => ?_, h.exits ▸ refl_of Enlarged c.exits, h.guards⟩
  · obtain ⟨f, hf, heased⟩ := h.back hf'
    exact .inl ⟨f, hf, hF _ _ heased⟩
  · obtain ⟨f', hf', heased⟩ := h.forth hf
    exact ⟨f', hf', (hF _ _ heased).key⟩

theorem Reduced.shrunk_moved (h : Reduced Fragment.Shrunk c c') : Moved most fresh c c' :=
  h.moved fun _ _ h => h.eased

/-- One fragment is changed. -/
theorem moved_update (hf : c.fragment? id = some f) (hg : f.Eased most (g f)) :
    Moved most fresh c (c.update id g) := by
  have hid := (fragment?_eq_some.mp hf).1
  refine ⟨fun {j f'} hf' => ?_, fun {j q} hq => ?_, refl_of Enlarged c.exits, steered_congr rfl⟩
  · rw [fragment?_update hid] at hf'
    split at hf'
    · next hj =>
      subst hj
      rw [hf] at hf'
      cases hf'
      exact .inl ⟨f, hf, hg⟩
    · exact .inl ⟨f', hf', refl_of _ f'⟩
  · rw [fragment?_update hid]
    split
    · next hj =>
      subst hj
      rw [hf] at hq ⊢
      cases hq
      exact ⟨g f, rfl, hg.key⟩
    · exact ⟨q, hq, rfl⟩

/-- Whichever fragment it is, its counters may change and what it is used for. -/
theorem moved_counts (c : FragmentCache) (id : FragmentId)
    (hg : ∀ f : Fragment, f.Eased most (g f)) :
    Moved most fresh c (c.update id g) := (reduced_update c id hg).moved fun _ _ h => h

/-- Only the region and the exits are changed. -/
theorem moved_exits {exits : Array ExitRecord} (he : Enlarged c.exits exits)
    (hfragments : c'.fragments = c.fragments)
    (hexits : c'.exits = exits) (hguards : c'.guards = c.guards) : Moved most fresh c c' := by
  have hfragment : ∀ id, c'.fragment? id = c.fragment? id := fun id => by
    rw [fragment?, fragment?, hfragments]
  refine ⟨fun hf' => .inl ⟨_, hfragment _ ▸ hf', refl_of _ _⟩,
    fun hf => ⟨_, (hfragment _).trans hf, rfl⟩, hexits ▸ he,
    steered_congr hguards⟩

/-- A trace is given to a fragment. -/
theorem attachTrace_moved (c : FragmentCache) (id : FragmentId) (b : Buffer)
    (target : Option FragmentId) :
    Moved most fresh c (c.attachTrace id b target) := by
  unfold attachTrace
  dsimp only
  have henlarged := enlarged_trace b.insts.toList c.exits
  rw [Array.foldl_toList] at henlarged
  have hexits : ∀ exits, Enlarged c.exits exits → Moved most fresh c { c with exits } := fun _ he =>
    moved_exits he rfl rfl rfl
  refine trans_of (Moved most fresh) (hexits _ henlarged) (moved_counts _ id fun f => ?_)
  exact Fragment.eased_congr rfl rfl rfl rfl rfl

/-- A trace is compiled, or it is not. -/
theorem assemble_moved (limits : Limits) (helpers : HelperTable) (f : Fragment) :
    Keeps (Moved most fresh) (fun _ => True) (assemble limits helpers f) := by
  intro c
  unfold KeepsAt
  rw [assemble_eq]
  have hwork := assemble_restocks limits helpers f (f.treeTarget.bind c.fragment?)
    { region := c.region, guardCount := c.guardCount, exits := c.exits }
  unfold KeepsAt at hwork
  have hkeep : ∀ shop, Restocked f { region := c.region, guardCount := c.guardCount,
                                     exits := c.exits } shop →
      Moved most fresh c (c.rebased shop) := fun shop hshop =>
        moved_exits hshop.exits.enlarged rfl rfl rfl
  dsimp only
  split at hwork
  · next hok =>
    rw [hok]
    exact hkeep _ hwork
  · next herror =>
    rw [herror]
    exact ⟨hkeep _ hwork.1, trivial⟩

/-- A fragment is added. -/
theorem moved_add (hsize : c.fragments.size + 1 < 2 ^ 32) (new : Fragment) (hmost : 0 < most)
    (hattempts : new.attempts = 0)
    (hstate : new.state = .counting) (hfresh : fresh new.key)
    (hroot : ∃ r, (c.add new).fragment? new.root = some r ∧ r.key = new.key) :
    Moved most fresh c (c.add new) := by
  refine ⟨fun {j f'} hf' => ?_, fun {j q} hq => ?_, refl_of Enlarged c.exits, steered_congr rfl⟩
  · rw [fragment?_add hsize] at hf'
    split at hf'
    · cases hf'
      exact .inr ⟨hattempts, Fragment.tried_new hmost hattempts hstate, hfresh, hroot⟩
    · exact .inl ⟨f', hf', refl_of _ f'⟩
  · rw [fragment?_add hsize, if_neg (ne_nextId hsize hq)]
    exact ⟨q, hq, rfl⟩

theorem getOrCreate_moved (hmost : 0 < most) (hsize : c.fragments.size < 2 ^ 32) {made : Bool}
    (hget : c.getOrCreate key = (c', id, made)) (hid : id ≠ 0) : Moved most (· = key) c c' := by
  unfold getOrCreate at hget
  cases hroot : c.lookup? key with
  | some j =>
    rw [hroot] at hget
    cases hget
    exact refl_of _ c
  | none =>
    rw [hroot] at hget
    cases hget
    have hroom := nextId_lt hsize hid
    let new : Fragment := { id := c.nextId, key, kind := .root, root := c.nextId }
    have hadd : Moved most (· = key) c (c.add new) := moved_add hroom new hmost rfl rfl rfl
      ⟨new, by rw [fragment?_add hroom, if_pos rfl], rfl⟩
    refine trans_of _ hadd ?_
    exact moved_exits (refl_of Enlarged c.exits) rfl rfl rfl

theorem addPeer_moved (hmost : 0 < most) (hsize : c.fragments.size < 2 ^ 32)
    {root : Fragment} {types : TypeMap}
    (hroot : c.fragment? root.id = some root)
    (hadd : addPeer root types c = .ok id c') (hid : id ≠ 0) :
    Moved most (· = root.key) c c' := by
  unfold addPeer at hadd
  split at hadd
  · cases hadd
  · cases hadd
    have hroom := nextId_lt hsize hid
    let new : Fragment :=
      { id := c.nextId, key := root.key, kind := .peer, root := root.id,
        entryTypes := knownTypes types }
    have hold : (c.add new).fragment? root.id = some root := by
      rw [fragment?_add hroom, if_neg (ne_nextId hroom hroot), hroot]
    refine trans_of (Moved most (· = root.key))
      (moved_add hroom new hmost rfl rfl rfl ⟨root, hold, rfl⟩)
      (moved_update hold ?_)
    exact Fragment.eased_congr rfl rfl rfl rfl rfl

theorem attachChild_moved (hmost : 0 < most) (hsize : c.fragments.size < 2 ^ 32)
    {parent r : Fragment} {guard : Guard}
    (hparent : c.fragment? parent.id = some f) (hroot : c.fragment? parent.root = some r)
    (hkey : r.key = parent.key)
    (hattach : attachChild parent guard c = .ok id c') (hid : id ≠ 0) :
    Moved most (· = parent.key) c c' := by
  unfold attachChild at hattach
  split at hattach
  · cases hattach
  · cases hattach
    have hroom := nextId_lt hsize hid
    let new : Fragment :=
      { id := c.nextId, key := parent.key, kind := .branch, root := parent.root,
        parent := some parent.id
        anchor := some guard.id, entryTypes := some (c.exitOf guard).exit.types }
    have hold : ∀ {j q}, c.fragment? j = some q → (c.add new).fragment? j = some q := fun hq => by
      rw [fragment?_add hroom, if_neg (ne_nextId hroom hq), hq]
    refine trans_of (Moved most (· = parent.key))
      (moved_add hroom new hmost rfl rfl rfl ⟨r, hold hroot, hkey⟩)
      (moved_update (hold hparent) ?_)
    exact Fragment.eased_congr rfl rfl rfl rfl rfl

/-- A branch that was added was not tried. -/
theorem attachChild_untried (hsize : c.fragments.size < 2 ^ 32) {parent : Fragment} {guard : Guard}
    (hparent : c.fragment? parent.id = some f) (hattach : attachChild parent guard c = .ok id c')
    {child : Fragment} (hchild : c'.fragment? id = some child) :
    child.key = parent.key ∧ child.attempts = 0 := by
  unfold attachChild at hattach
  split at hattach
  · cases hattach
  · cases hattach
    have hroom := nextId_lt hsize (fragment?_eq_some.mp hchild).1
    have hne := ne_nextId hroom hparent
    rw [fragment?_update (fragment?_eq_some.mp hparent).1, if_neg hne.symm,
      fragment?_add hroom, if_pos rfl] at hchild
    cases hchild
    exact ⟨rfl, rfl⟩

/-- An exit at which no branch is tried any more stays such an exit. -/
def Lasting (c c' : FragmentCache) : Prop :=
  ∀ (k : Nat) e, c.exits[k]? = some e → e.blacklisted = true →
  ∃ e', c'.exits[k]? = some e' ∧ e'.blacklisted = true

instance : IsPreorder FragmentCache Lasting where
  refl _ := fun _ e he hlast => ⟨e, he, hlast⟩
  trans _ _ _ h h' := fun k e he hlast =>
    let ⟨e₁, he₁, hlast₁⟩ := h k e he hlast
    h' k e₁ he₁ hlast₁

theorem Moved.lasting (h : Moved most fresh c c') : Lasting c c' := fun k e he hlast =>
  let ⟨e', he', _, hlast'⟩ := h.exits.kept k e he
  ⟨e', he', hlast'.trans hlast⟩

/-! ### Bounds -/

/-- The counters of a cache are in bounds, where a trace of the loop `key` did not fit `n key`
times; only loops for which that did not happen too often have fragments that are cached. -/
structure Temperate (loops sides : Int) (n : LoopKey → Nat) (c : FragmentCache) : Prop where
  tried : ∀ {id : FragmentId} {f}, c.fragment? id = some f → f.Tried loops
  rooted : ∀ {id : FragmentId} {f}, c.fragment? id = some f →
    ∃ r, c.fragment? f.root = some r ∧ r.key = f.key
  room : ∀ {id : FragmentId} {f}, c.fragment? id = some f → f.cached = true →
    (n f.key : Int) < loops
  exits : ∀ e ∈ c.exits, e.Tried sides
  named : c.Named

theorem temperate_new (loops sides : Int) (n : LoopKey → Nat) (backend : Backend)
    (region : CodePages) :
    Temperate loops sides n { backend, region } := by
  have hnone : ∀ (id : FragmentId) f,
      ({ backend, region } : FragmentCache).fragment? id ≠ some f := by
    intro id f
    simp [fragment?]
  refine ⟨fun hf => absurd hf (hnone _ _), fun hf => absurd hf (hnone _ _),
    fun hf => absurd hf (hnone _ _), (fun _ h => absurd h (Array.not_mem_empty _)), ?_⟩
  intro g r hr
  change ({} : Std.TreeMap GuardId Guard)[g]? = some r at hr
  rw [Std.TreeMap.getElem?_emptyc] at hr
  cases hr

theorem Temperate.moved (h : Temperate loops sides n c) (hm : Moved loops fresh c c')
    (hfresh : ∀ key, fresh key → (n key : Int) < loops) (hsides : 0 < sides) :
    Temperate loops sides n c' := by
  refine ⟨fun hf' => ?_, fun hf' => ?_, fun hf' hcached => ?_, fun e' he' => ?_,
    hm.guards.named h.named⟩
  · rcases hm.back hf' with ⟨f, hf, heased⟩ | ⟨-, htried, -⟩
    · exact heased.tried (h.tried hf)
    · exact htried
  · rcases hm.back hf' with ⟨f, hf, heased⟩ | ⟨-, -, -, hroot⟩
    · obtain ⟨r, hr, hkey⟩ := h.rooted hf
      obtain ⟨r', hr', hkey'⟩ := hm.forth hr
      exact ⟨r', heased.root ▸ hr', hkey'.trans (hkey.trans heased.key.symm)⟩
    · exact hroot
  · rcases hm.back hf' with ⟨f, hf, heased⟩ | ⟨-, -, hkey, -⟩
    · exact heased.key ▸ h.room hf (heased.cached hcached)
    · exact hfresh _ hkey
  · obtain ⟨k, hk⟩ := Array.mem_iff_getElem?.mp he'
    rcases hm.exits.back k e' hk with ⟨e, he, hattempts, hlast⟩ | ⟨hattempts, hlast⟩
    · have htried := h.exits e (Array.mem_of_getElem? he)
      exact ⟨hattempts ▸ htried.few, by rw [hattempts, hlast]; exact htried.spent⟩
    · refine ⟨by omega, ?_⟩
      rw [hlast, hattempts]
      exact iff_of_false nofun (by omega)

/-- Nothing is tried and nothing is added. -/
theorem Temperate.shrunk (h : Temperate loops sides n c) (hr : Reduced Fragment.Shrunk c c')
    (hsides : 0 < sides) :
    Temperate loops sides n c' ∧ Lasting c c' :=
  have hm : Moved loops (fun _ => False) c c' := hr.shrunk_moved
  ⟨h.moved hm nofun hsides, hm.lasting⟩

/-- A fragment was tried once more. -/
theorem Temperate.update (h : Temperate loops sides n c) (hf : c.fragment? id = some f)
    (hkey : (g f).key = f.key)
    (hroot : (g f).root = f.root) (hcached : (g f).cached = true → f.cached = true)
    (htried : (g f).Tried loops) :
    Temperate loops sides n (c.update id g) := by
  have hid := (fragment?_eq_some.mp hf).1
  have hback : ∀ {j q'}, (c.update id g).fragment? j = some q' →
    ∃ q, c.fragment? j = some q ∧ q'.key = q.key ∧
      q'.root = q.root ∧ (q'.cached = true → q.cached = true) ∧ q'.Tried loops := by
    intro j q' hq'
    rw [fragment?_update hid] at hq'
    split at hq'
    · next hj =>
      rw [hj, hf] at hq'
      cases hq'
      exact ⟨f, hj ▸ hf, hkey, hroot, hcached, htried⟩
    · exact ⟨q', hq', rfl, rfl, fun h => h, h.tried hq'⟩
  refine ⟨fun hq' => ?_, fun hq' => ?_, fun hq' hc => ?_, h.exits, h.named⟩
  all_goals obtain ⟨q, hq, hkey', hroot', hcached', htried'⟩ := hback hq'
  · exact htried'
  · obtain ⟨r, hr, hrkey⟩ := h.rooted hq
    refine ⟨if q.root = id then g r else r, ?_, ?_⟩
    · rw [hroot', fragment?_update hid]
      split
      · rw [hr]
        rfl
      · exact hr
    · split
      · next hj =>
        rw [hj, hf] at hr
        cases hr
        exact hkey.trans (hrkey.trans hkey'.symm)
      · exact hrkey.trans hkey'.symm
  · exact hkey' ▸ h.room hq (hcached' hc)

/-- Nothing is cached any more. -/
theorem Temperate.emptied {n' : LoopKey → Nat} (h : Temperate loops sides n c)
    (hnone : ∀ {id : FragmentId} {f}, c.fragment? id = some f → f.cached = false) :
    Temperate loops sides n' c :=
  ⟨h.tried, h.rooted, fun hf hc => absurd ((hnone hf).symm.trans hc) nofun, h.exits, h.named⟩

/-- Dropping everything leaves nothing that is cached. -/
theorem flush_empties {gone : List FragmentId} (h : flush c = .ok gone c')
    (hf : c'.fragment? id = some f) :
    f.cached = false := by
  unfold flush at h
  obtain ⟨_, _, -, h⟩ := bind_eq_ok h
  obtain ⟨_, _, -, h⟩ := bind_eq_ok h
  obtain ⟨_, _, hmodify, h⟩ := bind_eq_ok h
  cases hmodify
  cases h
  have hplace := (fragment?_eq_some.mp hf).2
  simp only [Array.getElem?_map, Option.map_eq_some_iff] at hplace
  obtain ⟨q, -, rfl⟩ := hplace
  rfl

/-- A recording for a fragment, of a branch at the exit of `anchor`, may fail once more. -/
structure Willing (loops sides : Int) (n : LoopKey → Nat) (c : FragmentCache) (id : FragmentId)
    (anchor : Option GuardId) :
    Prop where
  loop : ∀ {f}, c.fragment? id = some f → (n f.key : Int) < loops ∧ (f.attempts : Int) < loops
  side : ∀ g, anchor = some g → ∃ r, c.guards[g]? = some r ∧ ∀ e, c.exits[r.exit]? = some e →
    (e.attempts : Int) < sides

theorem Willing.moved {anchor : Option GuardId} (h : Willing loops sides n c id anchor)
    (hm : Moved loops fresh c c')
    (hfresh : ∀ key, fresh key → (n key : Int) < loops) (hloops : 0 < loops) (hsides : 0 < sides) :
    Willing loops sides n c' id anchor := by
  refine ⟨fun hf' => ?_, fun g hg => ?_⟩
  · rcases hm.back hf' with ⟨f, hf, heased⟩ | ⟨hattempts, -, hkey, -⟩
    · rw [heased.key, heased.attempts]
      exact h.loop hf
    · exact ⟨hfresh _ hkey, by omega⟩
  · obtain ⟨r, hr, hopen⟩ := h.side g hg
    obtain ⟨r', hr', hexit, -⟩ := hm.guards.kept g r hr
    refine ⟨r', hr', fun e' he' => ?_⟩
    rcases hm.exits.back _ e' he' with ⟨e, he, hattempts, -⟩ | ⟨hattempts, -⟩
    · rw [hattempts]
      exact hopen e (hexit ▸ he)
    · omega

end FragmentCache

end LoopTracer
