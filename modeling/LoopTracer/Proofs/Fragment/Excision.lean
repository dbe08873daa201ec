import LoopTracer.Proofs.Fragment.Dependence
import LoopTracer.Proofs.Fragment.Eviction

/-! What an eviction does, and that it does nothing else.

Sending back exits that lead to registered jumps always succeeds and touches nothing but those jumps
(`retractAll_ok`), and then the fragments go without looking at any jump (`blind_drop`). So an
eviction succeeds, takes exactly what depends on the fragment, and leaves every other fragment,
guard and byte as it was (`invalidate_exact`). In whatever order marks are set and guards are
visited, what is left is the same (`sweep_same`). -/
namespace LoopTracer.FragmentCache

open Trace Compile Machine

variable {c c₁ c' c'' : FragmentCache} {id : FragmentId} {f : Fragment}
  {p q : Prop} {gs : List Guard}

/-! ### What does not look at jumps -/

/-- The cache with other records of where exits lead, and other code. -/
def rewired (c : FragmentCache) (guards : Std.TreeMap GuardId Guard)
    (mem : Memory) : FragmentCache :=
  { c with guards, region := { c.region with mem } }

/-- A computation does the same whatever code there is and wherever exits lead. -/
def Blind {α : Type} (x : Caching α) : Prop :=
  ∀ c guards mem, x (c.rewired guards mem) = match x c with
  | .ok a c' => .ok a (c'.rewired guards mem)
  | .error e c' => .error e (c'.rewired guards mem)

section Blind

variable {α β : Type} {x : Caching α} {y : α → Caching β}

theorem Blind.bind (hx : Blind x) (hy : ∀ a, Blind (y a)) : Blind (x >>= y) := by
  intro c guards mem
  have hfirst := hx c guards mem
  cases h : x c with
  | ok a c₁ =>
    rw [h] at hfirst
    rw [bind_ok h, bind_ok hfirst]
    exact hy a c₁ guards mem
  | error e c₁ =>
    rw [h] at hfirst
    rw [bind_error h, bind_error hfirst]

theorem blind_modify {g : FragmentCache → FragmentCache}
    (hg : ∀ c guards mem, g (c.rewired guards mem) = (g c).rewired guards mem) : Blind (modify g) :=
  fun c guards mem => congrArg (EStateM.Result.ok PUnit.unit) (hg c guards mem)

theorem Blind.forM {ι : Type} {g : ι → Caching PUnit} (hg : ∀ i, Blind (g i)) (l : List ι) :
    Blind (l.forM g) := by
  induction l with
  | nil => exact fun _ _ _ => rfl
  | cons i l ih => exact .bind (hg i) fun _ => ih

end Blind

theorem release_rewritten (h : Nat) (r : CodePages) (mem : Memory) :
    CodePages.release h { r with mem } = match CodePages.release h r with
      | .ok a r' => .ok a { r' with mem }
      | .error e r' => .error e { r' with mem } := by
  unfold CodePages.release
  dsimp only
  split
  · rfl
  · split <;> rfl

theorem releaseAll_rewritten (l : List Nat) (r : CodePages) (mem : Memory) :
    CodePages.releaseAll l { r with mem } = match CodePages.releaseAll l r with
      | .ok a r' => .ok a { r' with mem }
      | .error e r' => .error e { r' with mem } := by
  induction l generalizing r with
  | nil => rfl
  | cons h l ih =>
    have hfirst := release_rewritten h r mem
    show (CodePages.release h >>= fun _ => CodePages.releaseAll l) _ =
      match (CodePages.release h >>= fun _ => CodePages.releaseAll l) r with
      | .ok a r' => _
      | .error e r' => _
    cases hr : CodePages.release h r with
    | ok a r₁ =>
      rw [hr] at hfirst
      rw [bind_ok hr, bind_ok hfirst]
      exact ih r₁
    | error e r₁ =>
      rw [hr] at hfirst
      rw [bind_error hr, bind_error hfirst]

theorem blind_release (l : List Nat) : Blind (paged (CodePages.releaseAll l)) := by
  intro c guards mem
  have hregion := releaseAll_rewritten l c.region mem
  unfold paged
  dsimp only
  rw [show (c.rewired guards mem).region = { c.region with mem } from rfl, hregion]
  cases CodePages.releaseAll l c.region <;> rfl

/-- Dropping a fragment looks at no jump. -/
theorem blind_drop (mask : Array Bool) (f : Fragment) : Blind (drop mask f) := by
  refine .bind (blind_modify fun _ _ _ => rfl) fun _ => .bind (blind_release _) fun _ =>
    .bind (blind_release _) fun _ => blind_modify fun c guards mem => ?_
  extract_lets a₁ a₂ a₃ b₁ b₂ b₃
  have h₁ : a₁ = b₁.rewired guards mem := by
    unfold a₁ b₁
    split
    · split <;> rfl
    · rfl
  have h₂ : a₂ = b₂.rewired guards mem := by
    unfold a₂ b₂
    rw [h₁]
    split <;> rfl
  have h₃ : a₃ = b₃.rewired guards mem := by
    unfold a₃ b₃
    rw [h₂]
    show (if f.kind = .root && b₂.roots[f.key]? = some f.id then _ else _) = _
    split <;> rfl
  rw [h₃]
  rfl

/-! ### Exits that are sent back -/

/-- The exits of some guards were sent back to the interpreter, and nothing else was changed. -/
structure Retracted (gs : List Guard) (c c' : FragmentCache) : Prop where
  same : c' = c.rewired c'.guards c'.region.mem
  size : c'.region.mem.size = c.region.mem.size
  guards : ∀ k : GuardId, c'.guards[k]? =
    if k ∈ gs.map (·.id) then (c.guards[k]?).map ({ · with target := .bailout }) else c.guards[k]?
  bytes : ∀ a, (∀ g ∈ gs, a < g.site.toNat ∨ g.site.toNat + c.backend.jumpLength ≤ a) →
    c'.region.mem.get? a = c.region.mem.get? a

theorem Retracted.trans {g : Guard} (h : Retracted [g] c c₁) (h' : Retracted gs c₁ c') :
    Retracted (g :: gs) c c' where
  same := by
    rw [h'.same, h.same]
    rfl
  size := h'.size.trans h.size
  guards k := by
    rw [h'.guards, h.guards]
    by_cases hk : k = g.id
    · by_cases hin : k ∈ gs.map (·.id) <;> cases c.guards[k]? <;> simp_all
    · by_cases hin : k ∈ gs.map (·.id) <;> simp_all
  bytes a ha := by
    have hbackend : c₁.backend = c.backend := by rw [h.same]; rfl
    rw [h'.bytes a fun g' hg' => hbackend ▸ ha g' (List.mem_cons_of_mem _ hg'),
      h.bytes a fun g' hg' => List.mem_singleton.mp hg' ▸ ha g List.mem_cons_self]

/-- The exit of a registered guard can be sent back. -/
theorem retract_ok {g : Guard} (hw : Wired c) (hg : c.guards[g.id]? = some g)
    (hregistered : g.id ∈ c.registered) :
    ∃ mem, unpatch g c = .ok () (c.redirected g.id .bailout mem) ∧
      c.backend.patch c.region.mem g.site c.region.bailout = .ok mem ∧
      Retracted [g] c (c.redirected g.id .bailout mem) := by
  obtain ⟨a, -, -, hjumps⟩ := hw.site hg hregistered
  obtain ⟨mem, hpatch, -, -, hsize, hsame⟩ :=
    hjumps.patch hw.laid.valid (Nat.lt_trans hw.laid.small (by decide)) c.region.bailout
  refine ⟨mem, ?_, hpatch, rfl, hsize, fun k => ?_, fun a ha => hsame a (ha g List.mem_cons_self)⟩
  · show redirect g .bailout c.region.bailout c = _
    rw [redirect_eq, hpatch]
  · rw [getElem?_redirected]
    simp [eq_comm]

/-- The exits of registered guards can be sent back, one after the other. -/
theorem retractAll_ok (hs : Sound p q c) (hq : q) (hlt : c.guardCount < 2 ^ 32)
    (hgs : ∀ g ∈ gs, c.guards[g.id]? = some g ∧ g.id ∈ c.registered)
    (hnodup : (gs.map (·.id)).Nodup) :
    ∃ c', gs.forM unpatch c = .ok () c' ∧ Sound p q c' ∧ Retracted gs c c' := by
  induction gs generalizing c with
  | nil => exact ⟨c, rfl, hs, rfl, rfl, fun k => by simp, fun _ _ => rfl⟩
  | cons g gs ih =>
    obtain ⟨hg, hregistered⟩ := hgs g List.mem_cons_self
    rw [List.map_cons, List.nodup_cons] at hnodup
    obtain ⟨mem, hunpatch, hpatch, hretracted⟩ := retract_ok (hs.wired hq hlt) hg hregistered
    have hs₁ : Sound p q (c.redirected g.id .bailout mem) :=
      hs.redirected hg (fun _ _ => hregistered) rfl (fun k hk => nomatch hk) hpatch
    have hgs₁ : ∀ g' ∈ gs, (c.redirected g.id .bailout mem).guards[g'.id]? = some g' ∧
        g'.id ∈ c.registered := by
      intro g' hg'
      obtain ⟨hfound, hregistered'⟩ := hgs g' (List.mem_cons_of_mem _ hg')
      refine ⟨?_, hregistered'⟩
      rw [getElem?_redirected, if_neg]
      · exact hfound
      · exact fun heq => hnodup.1 (List.mem_map.mpr ⟨g', hg', heq.symm⟩)
    obtain ⟨c', hrest, hs', hretracted'⟩ := ih hs₁ hlt hgs₁ hnodup.2
    exact ⟨c', (bind_ok hunpatch).trans hrest, hs', hretracted.trans hretracted'⟩

/-! ### Evictions in any order -/

/-- Two caches are the same in all that can be looked at. -/
structure Same (c c' : FragmentCache) : Prop where
  rest : c' = c.rewired c'.guards c'.region.mem
  guards : ∀ g : GuardId, c'.guards[g]? = c.guards[g]?
  size : c'.region.mem.size = c.region.mem.size
  bytes : ∀ a, c'.region.mem.get? a = c.region.mem.get? a

/-- Drops the fragments that are marked; the registered guards are visited in the order of `gs`. -/
def sweep (mask : Array Bool) (gs : List Guard) : Caching (List FragmentId) := do
  let c ← get
  let gone := c.fragments.toList.filter fun f => marked mask f.id
  (gs.filter (c.mustUnpatch mask)).forM unpatch
  gone.forM (drop mask)
  return gone.map (·.id)

/-- An eviction visits the guards in the order of their numbers. -/
theorem invalidate_eq (c : FragmentCache) (id : FragmentId) :
    invalidate id c = sweep (c.dependents id) c.registeredGuards c := by
  unfold invalidate sweep
  rfl

theorem Trees.nodup_registeredGuards (ht : Trees c) : (c.registeredGuards.map (·.id)).Nodup := by
  have hids : c.registeredGuards.map (·.id) =
      c.registered.toList.filter fun id => (c.guards[id]?).isSome := by
    unfold registeredGuards
    induction c.registered.toList with
    | nil => rfl
    | cons g gs ih =>
      rw [List.filterMap_cons, List.filter_cons]
      cases hg : c.guards[g]? with
      | none => exact ih
      | some r =>
        rw [Option.isSome_some, if_pos rfl, List.map_cons, (ht.records hg).1, ih]
  rw [hids]
  exact List.Nodup.filter _ (Std.TreeSet.distinct_toList.imp fun hne => by simpa using hne)

/-- What was sent back depends on the guards, not on their order. -/
theorem Retracted.same_of_perm {gs' : List Guard} (hw : Wired c₁) (hw' : Wired c')
    (h : Retracted gs c c₁)
    (h' : Retracted gs' c c') (hgs : ∀ g ∈ gs, c.guards[g.id]? = some g ∧ g.id ∈ c.registered)
    (hperm : gs'.Perm gs) :
    Same c₁ c' := by
  have hguards : ∀ g : GuardId, c'.guards[g]? = c₁.guards[g]? := fun g => by
    rw [h.guards, h'.guards]
    simp only [(hperm.map (·.id)).mem_iff]
  have hsize := h'.size.trans h.size.symm
  have hbackend : c₁.backend = c.backend := by rw [h.same]; rfl
  have hbackend' : c'.backend = c.backend := by rw [h'.same]; rfl
  have hbailout : c₁.region.bailout = c.region.bailout := by rw [h.same]; rfl
  have hbailout' : c'.region.bailout = c.region.bailout := by rw [h'.same]; rfl
  refine ⟨?_, hguards, hsize, fun a => ?_⟩
  · rw [h.same]
    exact h'.same
  · by_cases ha : ∃ g ∈ gs, g.site.toNat ≤ a ∧ a < g.site.toNat + c.backend.jumpLength
    · -- both read a byte of the same jump
      obtain ⟨g, hg, hlow, hhigh⟩ := ha
      obtain ⟨hfound, hregistered⟩ := hgs g hg
      have hjump : ∀ {c₂ : FragmentCache} {gs₂ : List Guard}, Wired c₂ →
        Retracted gs₂ c c₂ → g ∈ gs₂ →
          Jumps c.backend c₂.region.mem g.site c.region.bailout := by
        intro c₂ gs₂ hw₂ h₂ hg₂
        have hr : c₂.guards[g.id]? = some { g with target := .bailout } := by
          rw [h₂.guards, if_pos (List.mem_map_of_mem hg₂), hfound]
          rfl
        obtain ⟨b, hb, hhosted⟩ := hw₂.site hr (by rw [h₂.same]; exact hregistered)
        cases hb
        have hjumps := hhosted.2
        rw [h₂.same] at hjumps
        exact hjumps
      have hshows := (hjump hw h hg).shows
      have hshows' := (hjump hw' h' (hperm.mem_iff.mpr hg)).shows
      have hlength := Backend.length_jumpBytes c.backend g.site c.region.bailout
      obtain ⟨b, hb⟩ : ∃ b, (c.backend.jumpBytes g.site c.region.bailout)[a - g.site.toNat]? =
          some b :=
        ⟨_, List.getElem?_eq_getElem (by omega)⟩
      have hplace : g.site.toNat + (a - g.site.toNat) = a := by omega
      have hread := hshows _ _ hb
      have hread' := hshows' _ _ hb
      rw [hplace] at hread hread'
      rw [hread, hread']
    · have hout : ∀ g ∈ gs, a < g.site.toNat ∨ g.site.toNat + c.backend.jumpLength ≤ a :=
        fun g hg =>
        Classical.byContradiction fun hin => ha ⟨g, hg, by omega⟩
      rw [h.bytes a hout, h'.bytes a fun g hg => hout g (hperm.mem_iff.mp hg)]

/-- In whatever order the registered guards are visited, the eviction succeeds. -/
theorem sweep_ok (hs : Sound p q c) (hq : q) (hlt : c.guardCount < 2 ^ 32) (id : FragmentId)
    (hgs : gs.Perm c.registeredGuards) :
    ∃ c₁ c', sweep (c.dependents id) gs c = .ok (c.casualties id) c' ∧ Sound p q c₁ ∧
      Retracted (gs.filter (c.mustUnpatch (c.dependents id))) c c₁ ∧
      (c.fragments.toList.filter fun f => marked (c.dependents id) f.id).forM
      (drop (c.dependents id)) c₁ = .ok () c' ∧
      Dropping (marked (c.dependents id)) [] c₁ c' := by
  have ht := hs.trees
  have hmem : ∀ g ∈ gs.filter (c.mustUnpatch (c.dependents id)), c.guards[g.id]? = some g ∧
      g.id ∈ c.registered :=
    fun g hg => ht.mem_registeredGuards.mp (hgs.mem_iff.mp (List.mem_filter.mp hg).1)
  have hnodup : ((gs.filter (c.mustUnpatch (c.dependents id))).map (·.id)).Nodup :=
    ((hgs.map (·.id)).nodup_iff.mpr ht.nodup_registeredGuards).sublist (List.filter_sublist.map _)
  obtain ⟨c₁, hunpatch, hs₁, hretracted⟩ := retractAll_ok hs hq hlt hmem hnodup
  have hfragment : ∀ j, c₁.fragment? j = c.fragment? j := fun j => by
    rw [hretracted.same]
    rfl
  generalize hgone : (c.fragments.toList.filter fun f => marked (c.dependents id) f.id) = gone
  have hin : ∀ f ∈ gone, c₁.fragment? f.id = some f ∧ marked (c.dependents id) f.id = true := by
    intro f hf
    rw [← hgone] at hf
    obtain ⟨hf, hD⟩ := List.mem_filter.mp hf
    exact ⟨(hfragment _).trans (ht.fragment?_of_mem hf), hD⟩
  have hids : (gone.map (·.id)).Nodup := hgone ▸ ht.nodup_ids.sublist (List.filter_sublist.map _)
  have hstart : Dropping (marked (c.dependents id)) (gone.map (·.id)) c₁ c₁ := by
    refine hs₁.trees.dropping hs₁.housed fun j f hf hD => ?_
    rw [hfragment] at hf
    have hj := ht.numbered hf
    exact List.mem_map.mpr ⟨f, hgone ▸ List.mem_filter.mpr ⟨mem_of_fragment? hf, hj ▸ hD⟩, hj⟩
  have hdropped := dropAll_ensures (E := fun _ _ => False) hs₁.trees hin hids hstart
  cases hrun : gone.forM (drop (c.dependents id)) c₁ with
  | error e c' => exact ((ensures_error hrun).mp hdropped).elim
  | ok u c' =>
    refine ⟨c₁, c', ?_, hs₁, hretracted, hrun, (ensures_ok hrun).mp hdropped⟩
    unfold sweep casualties
    rw [bind_ok (show (get : Caching FragmentCache) c = .ok c c from rfl), bind_ok hunpatch,
      hgone, bind_ok hrun]
    rfl

/-- The caches that evictions leave are the same, in whatever order the guards were visited. -/
theorem sweep_same {gs' : List Guard} (hs : Sound p q c) (hq : q)
    (hlt : c.guardCount < 2 ^ 32) (id : FragmentId)
    (hgs : gs.Perm c.registeredGuards) (hgs' : gs'.Perm c.registeredGuards)
    (h : sweep (c.dependents id) gs c = .ok (c.casualties id) c') :
    ∃ c'', sweep (c.dependents id) gs' c = .ok (c.casualties id) c'' ∧ Same c' c'' := by
  obtain ⟨c₁, c₂, hsweep, hs₁, hretracted, hdrop, hdropping⟩ := sweep_ok hs hq hlt id hgs
  obtain ⟨c₁', c'', hsweep', hs₁', hretracted', hdrop', -⟩ := sweep_ok hs hq hlt id hgs'
  rw [hsweep] at h
  cases h
  have hcount : ∀ {c₀ : FragmentCache} {gs₀ : List Guard}, Retracted gs₀ c c₀ →
      c₀.guardCount < 2 ^ 32 := fun h₀ => by
    rw [h₀.same]
    exact hlt
  have hsame := hretracted.same_of_perm (hs₁.wired hq (hcount hretracted))
    (hs₁'.wired hq (hcount hretracted')) hretracted'
    (fun g hg => hs.trees.mem_registeredGuards.mp (hgs.mem_iff.mp (List.mem_filter.mp hg).1))
    ((hgs'.trans hgs.symm).filter _)
  refine ⟨c'', hsweep', ?_⟩
  -- dropping goes on alike in both caches
  have hblind := (Blind.forM (blind_drop (c.dependents id))
    (c.fragments.toList.filter fun f => marked (c.dependents id) f.id)) c₁ c₁'.guards c₁'.region.mem
  rw [hdrop, ← hsame.rest, hdrop'] at hblind
  cases hblind
  have hmem : c'.region.mem = c₁.region.mem := hdropping.region.mem
  refine ⟨rfl, fun g => ?_, ?_, fun a => ?_⟩
  · rw [hdropping.guards]
    exact hsame.guards g
  · rw [hmem]
    exact hsame.size
  · rw [hmem]
    exact hsame.bytes a

/-! ### What an eviction leaves -/

/-- The fragments in `gone` were taken out of the cache, and nothing else was changed: other
fragments forget them, other guards that led to one of them lead back to the interpreter, and all
other guards and code bytes are as they were. -/
structure Excised (gone : List FragmentId) (c c' : FragmentCache) : Prop where
  cached : ∀ k f', c'.cached? k = some f' ↔ ∃ f, c.cached? k = some f ∧ k ∉ gone ∧ f' = { f with
    children := f.children.filter fun j => !gone.contains j
    peers := f.peers.filter fun j => !gone.contains j }
  registered : ∀ g, g ∈ c'.registered ↔ ∃ k f, c.cached? k = some f ∧ k ∉ gone ∧ g ∈ f.guards
  returned : ∀ (g : GuardId) r k, g ∈ c'.registered → c.guards[g]? = some r →
    r.target = .fragment k → k ∈ gone →
    c'.guards[g]? = some { r with target := .bailout } ∧
    c.backend.branchTarget c'.region.mem r.site = .ok c.region.bailout
  others : ∀ (g : GuardId) r, g ∈ c'.registered → c.guards[g]? = some r →
    (∀ k, r.target = .fragment k → k ∉ gone) → c'.guards[g]? = some r
  bytes : ∀ a, (∀ (g : GuardId) r k, g ∈ c'.registered → c.guards[g]? = some r →
    r.target = .fragment k → k ∈ gone →
    a < r.site.toNat + c.backend.distancePlace ∨ r.site.toNat + c.backend.distancePlace + 4 ≤ a) →
    c'.region.mem.get? a = c.region.mem.get? a

section Excised

variable (hs : Sound p q c) (hq : q) (hlt : c.guardCount < 2 ^ 32) (hf : c.cached? id = some f)

include hs hf

theorem marked_iff_casualty {k : FragmentId} {f' : Fragment} (hk : c.cached? k = some f') :
    marked (c.dependents id) k = true ↔ k ∈ c.casualties id := by
  rw [mem_casualties hs.trees hf]
  exact ⟨dependent_of_marked hs.trees hf (fragment?_of_cached hk), marked_of_dependent hs.trees hf⟩

include hq hlt in
/-- The exits that are sent back are those of fragments that stay into fragments that go. -/
theorem mustUnpatch_iff {g : GuardId} {r : Guard} (hr : c.guards[g]? = some r)
    (hg : g ∈ c.registered) :
    c.mustUnpatch (c.dependents id) r = true ↔
      ∃ k, r.target = .fragment k ∧ k ∈ c.casualties id ∧ r.source ∉ c.casualties id := by
  obtain ⟨j, f', hf', hmem⟩ := (hs.armed (.inr hlt)).only hg
  obtain ⟨r', hr', rfl⟩ := hs.issued hlt j f' g (fragment?_of_cached hf') hmem
  rw [hr] at hr'
  cases hr'
  have hany : ∀ {k q}, c.cached? k = some q →
      (c.cached? k).any (fun f => marked (c.dependents id) f.id) = marked (c.dependents id) k := by
    intro k q hk
    rw [hk, Option.any_some, hs.trees.numbered (fragment?_of_cached hk)]
  unfold mustUnpatch
  cases htarget : r.target with
  | bailout => simp
  | fragment k =>
    obtain ⟨q', hq', -⟩ := (hs.wired hq hlt).child hr hg htarget
    dsimp only
    rw [hany hf', hany hq', Bool.and_eq_true, Bool.not_eq_true', ← Bool.not_eq_true,
      marked_iff_casualty hs hf hf', marked_iff_casualty hs hf hq']
    constructor
    · rintro ⟨hsource, hk⟩
      exact ⟨k, rfl, hk, hsource⟩
    · rintro ⟨_, hsame, hk, hsource⟩
      cases hsame
      exact ⟨hsource, hk⟩

/-- What is cached after the eviction is what does not depend on the fragment. -/
theorem Pruned.cached_iff (hpruned : Pruned (marked (c.dependents id)) c c') (k : FragmentId)
    (f' : Fragment) :
    c'.cached? k = some f' ↔ ∃ f, c.cached? k = some f ∧ k ∉ c.casualties id ∧ f' = { f with
      children := f.children.filter fun j => !(c.casualties id).contains j
      peers := f.peers.filter fun j => !(c.casualties id).contains j } := by
  have ht := hs.trees
  have hmarked : ∀ {k q}, c.cached? k = some q →
      marked (c.dependents id) k = (c.casualties id).contains k := by
    intro k q hk
    rw [Bool.eq_iff_iff, List.contains_iff_mem, marked_iff_casualty hs hf hk]
  have hlists : ∀ {l : List FragmentId}, (∀ k ∈ l, ∃ q, c.cached? k = some q) →
      (l.filter fun k => !marked (c.dependents id) k) =
        l.filter fun k => !(c.casualties id).contains k :=
    fun hl => List.filter_congr fun k hk => let ⟨_, hq⟩ := hl k hk; by rw [hmarked hq]
  have hkept : ∀ {f₀}, c.cached? k = some f₀ → ({ f₀ with
      children := f₀.children.filter fun j => !marked (c.dependents id) j
      peers := f₀.peers.filter fun j => !marked (c.dependents id) j } : Fragment) = { f₀ with
      children := f₀.children.filter fun j => !(c.casualties id).contains j
      peers := f₀.peers.filter fun j => !(c.casualties id).contains j } := by
    intro f₀ hf₀
    rw [hlists fun j hj => ((ht.children hf₀).2 j hj).imp fun _ h => h.1,
      hlists fun j hj => ((ht.peers hf₀).2 j hj).imp fun _ h => h.1]
  constructor
  · intro hf'
    obtain ⟨f₀, hf₀, hD, rfl⟩ := hpruned.cached_back hf'
    refine ⟨f₀, hf₀, fun hk => ?_, hkept hf₀⟩
    rw [(marked_iff_casualty hs hf hf₀).mpr hk] at hD
    cases hD
  · rintro ⟨f₀, hf₀, hk, rfl⟩
    rw [← hkept hf₀]
    exact hpruned.cached hf₀ (Bool.not_eq_true _ ▸ mt (marked_iff_casualty hs hf hf₀).mp hk)

section

variable (hs' : Sound p q c') (hpruned : Pruned (marked (c.dependents id)) c c')
include hlt hs' hpruned

/-- The guards that are registered after the eviction are those of fragments that stay. -/
theorem registered_iff_stays (g : GuardId) : g ∈ c'.registered ↔
    ∃ k f, c.cached? k = some f ∧ k ∉ c.casualties id ∧ g ∈ f.guards := by
  have harmed := hs'.armed (.inr (hpruned.count ▸ hlt))
  constructor
  · intro hg
    obtain ⟨k, f', hf', hmem⟩ := harmed.only hg
    obtain ⟨f₀, hf₀, hk, rfl⟩ := (hpruned.cached_iff hs hf k f').mp hf'
    exact ⟨k, f₀, hf₀, hk, hmem⟩
  · rintro ⟨k, f₀, hf₀, hk, hmem⟩
    exact harmed.ready ((hpruned.cached_iff hs hf k _).mpr ⟨f₀, hf₀, hk, rfl⟩) hmem

/-- They were so before. -/
theorem registered_before {g : GuardId} {r : Guard} (hg : g ∈ c'.registered)
    (hr : c.guards[g]? = some r) :
    g ∈ c.registered ∧ r.id = g ∧ r.source ∉ c.casualties id := by
  obtain ⟨k, f₀, hf₀, hk, hmem⟩ := (registered_iff_stays hs hlt hf hs' hpruned g).mp hg
  obtain ⟨r', hr', rfl⟩ := hs.issued hlt k f₀ g (fragment?_of_cached hf₀) hmem
  rw [hr] at hr'
  cases hr'
  exact ⟨(hs.armed (.inr hlt)).ready hf₀ hmem, (hs.trees.records hr).1, hk⟩

variable {c₁ : FragmentCache}
  (hretracted : Retracted (c.registeredGuards.filter (c.mustUnpatch (c.dependents id))) c c₁)
  (hdropping : Dropping (marked (c.dependents id)) [] c₁ c')
include hretracted hdropping

/-- Only the targets of exits that had to be sent back were changed. -/
theorem guard_swept {g : GuardId} {r : Guard} (hg : g ∈ c'.registered)
    (hr : c.guards[g]? = some r) : c'.guards[g]? =
      if c.mustUnpatch (c.dependents id) r then some { r with target := .bailout } else some r := by
  obtain ⟨hg₀, rfl, -⟩ := registered_before hs hlt hf hs' hpruned hg hr
  have hin : r.id ∈ (c.registeredGuards.filter (c.mustUnpatch (c.dependents id))).map (·.id) ↔
      c.mustUnpatch (c.dependents id) r = true := by
    constructor
    · intro hin
      obtain ⟨r', hr', hid⟩ := List.mem_map.mp hin
      obtain ⟨hr', hmust⟩ := List.mem_filter.mp hr'
      have hfound := (hs.trees.mem_registeredGuards.mp hr').1
      rw [hid, hr] at hfound
      cases hfound
      exact hmust
    · exact fun hmust => List.mem_map_of_mem
        (List.mem_filter.mpr ⟨hs.trees.mem_registeredGuards.mpr ⟨hr, hg₀⟩, hmust⟩)
  rw [hdropping.guards, hretracted.guards, hr]
  simp only [hin]
  split <;> rfl

include hq

/-- Where an exit was sent back there is a jump to the shared exit code. -/
theorem jump_swept {g : GuardId} {r : Guard} {k : FragmentId} (hg : g ∈ c'.registered)
    (hr : c.guards[g]? = some r) (htarget : r.target = .fragment k) (hk : k ∈ c.casualties id) :
    c'.guards[g]? = some { r with target := .bailout } ∧
      Jumps c.backend c'.region.mem r.site c.region.bailout := by
  obtain ⟨hg₀, -, hsource⟩ := registered_before hs hlt hf hs' hpruned hg hr
  have hr' := guard_swept hs hlt hf hs' hpruned hretracted hdropping hg hr
  rw [if_pos ((mustUnpatch_iff hs hq hlt hf hr hg₀).mpr ⟨k, htarget, hk, hsource⟩)] at hr'
  obtain ⟨a, ha, hhosted⟩ := (hs'.wired hq (hpruned.count ▸ hlt)).site hr' hg
  cases ha
  have hbailout : c'.region.bailout = c.region.bailout := by
    rw [hdropping.region.bailout, hretracted.same]
    rfl
  have hjumps := hhosted.2
  rw [hpruned.backend, hbailout] at hjumps
  exact ⟨hr', hjumps⟩

/-- No other byte of the code was changed. -/
theorem bytes_swept {a : Nat}
    (ha : ∀ (g : GuardId) r k, g ∈ c'.registered → c.guards[g]? = some r →
      r.target = .fragment k → k ∈ c.casualties id →
      a < r.site.toNat + c.backend.distancePlace ∨
        r.site.toNat + c.backend.distancePlace + 4 ≤ a) :
    c'.region.mem.get? a = c.region.mem.get? a := by
  have hmem : c'.region.mem = c₁.region.mem := hdropping.region.mem
  rw [hmem]
  by_cases hin : ∃ g ∈ c.registeredGuards.filter (c.mustUnpatch (c.dependents id)),
      g.site.toNat ≤ a ∧ a < g.site.toNat + c.backend.jumpLength
  · obtain ⟨g, hg, hlow, hhigh⟩ := hin
    obtain ⟨hg, hmust⟩ := List.mem_filter.mp hg
    obtain ⟨hr, hg₀⟩ := hs.trees.mem_registeredGuards.mp hg
    obtain ⟨k, htarget, hk, hsource⟩ := (mustUnpatch_iff hs hq hlt hf hr hg₀).mp hmust
    have hg' : g.id ∈ c'.registered := by
      obtain ⟨j, f₀, hf₀, hmem⟩ := (hs.armed (.inr hlt)).only hg₀
      obtain ⟨r, hr', rfl⟩ := hs.issued hlt j f₀ g.id (fragment?_of_cached hf₀) hmem
      rw [hr] at hr'
      cases hr'
      exact (registered_iff_stays hs hlt hf hs' hpruned _).mpr ⟨_, f₀, hf₀, hsource, hmem⟩
    -- both jumps begin and end with the same bytes
    obtain ⟨b, -, -, hbefore⟩ := (hs.wired hq hlt).site hr hg₀
    obtain ⟨-, hafter⟩ :=
      jump_swept hs hq hlt hf hs' hpruned hretracted hdropping hg' hr htarget hk
    rw [hmem] at hafter
    have hlength := fun target => Backend.length_jumpBytes c.backend g.site target
    have hsame := c.backend.jumpBytes_congr g.site b c.region.bailout (i := a - g.site.toNat) (by
      have := ha _ _ _ hg' hr htarget hk
      omega)
    have hplace : g.site.toNat + (a - g.site.toNat) = a := by omega
    obtain ⟨byte, hbyte⟩ : ∃ byte,
        (c.backend.jumpBytes g.site b)[a - g.site.toNat]? = some byte :=
      ⟨_, List.getElem?_eq_getElem (by rw [hlength]; omega)⟩
    have hread := hbefore.shows _ _ hbyte
    have hread' := hafter.shows _ _ (hsame ▸ hbyte)
    rw [hplace] at hread hread'
    rw [hread, hread']
  · exact hretracted.bytes a fun g hg => Classical.byContradiction fun hout =>
      hin ⟨g, hg, by omega⟩

/-- Nothing but what depends on the fragment is taken out. -/
theorem excised_sweep : Excised (c.casualties id) c c' := by
  refine ⟨hpruned.cached_iff hs hf, registered_iff_stays hs hlt hf hs' hpruned,
    fun g r k hg hr htarget hk => ?_, fun g r hg hr hothers => ?_,
    fun a ha => bytes_swept hs hq hlt hf hs' hpruned hretracted hdropping ha⟩
  · obtain ⟨hr', hjumps⟩ :=
      jump_swept hs hq hlt hf hs' hpruned hretracted hdropping hg hr htarget hk
    have hlaid := (hs'.wired hq (hpruned.count ▸ hlt)).laid
    exact ⟨hr', hjumps.branchTarget (Nat.lt_trans hlaid.small (by decide))⟩
  · have hg₀ := (registered_before hs hlt hf hs' hpruned hg hr).1
    rw [guard_swept hs hlt hf hs' hpruned hretracted hdropping hg hr, if_neg]
    intro hmust
    obtain ⟨k, htarget, hk, -⟩ := (mustUnpatch_iff hs hq hlt hf hr hg₀).mp hmust
    exact hothers k htarget hk

end

end Excised

/-- An eviction succeeds and takes out what depends on the fragment, in the order of the numbers. In
whatever order marks are set and guards are visited, it leaves the same. -/
theorem invalidate_exact (hs : Sound p q c) (hq : q) (hlt : c.guardCount < 2 ^ 32)
    (hf : c.cached? id = some f) :
    ∃ c', invalidate id c = .ok (c.casualties id) c' ∧ Excised (c.casualties id) c c' ∧
      ∀ l, Marking c id l → (∀ k ∈ l, ∀ j, Depends c j k → j ∈ l) →
        ∀ gs : List Guard, gs.Perm c.registeredGuards →
          ∃ c'', sweep (c.marks l) gs c = .ok (c.casualties id) c'' ∧ Same c' c'' := by
  obtain ⟨c₁, c', hsweep, -, hretracted, -, hdropping⟩ :=
    sweep_ok hs hq hlt id (List.Perm.refl c.registeredGuards)
  have hrun := (invalidate_eq c id).trans hsweep
  obtain ⟨hs', hpruned⟩ :=
    (ensures_ok hrun).mp (invalidate_ensures hs fun _ => ⟨f, fragment?_of_cached hf,
    .inl (cached?_eq_some.mp hf).2⟩)
  refine ⟨c', hrun, excised_sweep hs hq hlt hf hs' hpruned hretracted hdropping,
    fun l hl hclosed gs hgs => ?_⟩
  rw [hl.marks_eq hs.trees hf hclosed]
  exact sweep_same hs hq hlt id (.refl _) hgs hsweep

end LoopTracer.FragmentCache
