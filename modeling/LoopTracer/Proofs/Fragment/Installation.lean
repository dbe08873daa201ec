import Mathlib.Data.List.Pairwise
import LoopTracer.Proofs.Fragment.Wiring

/-! Putting code into use.

A trace that could not be compiled leaves the cache as it was. One that was compiled gets its pages
and its guards, whose exits all lead to the shared exit code; then the exit of one guard may be sent
elsewhere, and all other jumps stay as they are. -/
namespace LoopTracer.FragmentCache

open Trace Compile Machine

variable {c c' : FragmentCache} {id : FragmentId} {f : Fragment} {p q : Prop} {l : List Nat}

/-! ### Exits that are sent elsewhere -/

/-- The cache after the exit of a guard was sent elsewhere. -/
def redirected (c : FragmentCache) (g : GuardId) (target : ExitTarget)
    (mem : Memory) : FragmentCache :=
  { c with
    guards := c.guards.modify g fun g => { g with target }
    region := { c.region with mem } }

theorem redirect_eq (g : Guard) (target : ExitTarget) (address : CodeAddr) (c : FragmentCache) :
    redirect g target address c = match c.backend.patch c.region.mem g.site address with
      | .ok mem => .ok () (c.redirected g.id target mem)
      | .error f => .error f (c.redirected g.id target c.region.mem) := by
  unfold redirect
  dsimp only
  cases c.backend.patch c.region.mem g.site address <;> rfl

section redirected

variable {g j : GuardId} {r : Guard} {target : ExitTarget} {mem : Memory}

theorem getElem?_redirected :
    (c.redirected g target mem).guards[j]? =
      if g = j then (c.guards[j]?).map fun r => { r with target } else c.guards[j]? := by
  show (c.guards.modify g _)[j]? = _
  rw [Std.TreeMap.getElem?_modify]
  by_cases hj : g = j
  · subst hj
    simp
  · simp [hj]

theorem redirected_back (hr : (c.redirected g target mem).guards[j]? = some r) :
    ∃ r₀, c.guards[j]? = some r₀ ∧ r = if g = j then { r₀ with target } else r₀ := by
  rw [getElem?_redirected] at hr
  split at hr
  · next hj =>
    rw [Option.map_eq_some_iff] at hr
    obtain ⟨r₀, hr₀, rfl⟩ := hr
    exact ⟨r₀, hr₀, by rw [if_pos hj]⟩
  · next hj => exact ⟨r, hr, by rw [if_neg hj]⟩

theorem alike_redirected (c : FragmentCache) (g : GuardId) (target : ExitTarget) (mem : Memory) :
    Alike c (c.redirected g target mem) where
  backend := rfl
  size := rfl
  fragments id := by
    show Option.Rel (Mild c) (c.fragment? id) (c.fragment? id)
    cases c.fragment? id with
    | none => exact .none
    | some f => exact .some (.refl c f)
  roots := rfl
  count := Nat.le_refl _
  old := fun {j r} hr => by
    rw [getElem?_redirected, hr]
    split
    · exact ⟨target, rfl⟩
    · exact ⟨r.target, rfl⟩
  new := fun {j r} hr => by
    obtain ⟨r₀, hr₀, -⟩ := redirected_back hr
    exact .inl ⟨r₀, hr₀⟩

/-- The exit of a registered guard is sent to the shared exit code or into a branch at that guard. -/
theorem Wired.redirected (hw : Wired c) (hh : Housed c) (hr : c.guards[g]? = some r)
    (hg : g ∈ c.registered)
    {address : CodeAddr} (haddress : c.address? target = some address)
    (hchild : ∀ k, target = .fragment k → ∃ q, c.cached? k = some q ∧ q.kind = .branch ∧
      q.state = .compiled ∧
      q.parent = some r.source ∧ q.anchor = some g)
    (hpatch : c.backend.patch c.region.mem r.site address = .ok mem) :
    Wired (c.redirected g target mem) := by
  obtain ⟨a, -, hhosted⟩ := hw.site hr hg
  have hl := hw.laid
  obtain ⟨mem', hpatch', hjumps, hvalid, hsize, hsame⟩ :=
    hhosted.2.patch hl.valid (Nat.lt_trans hl.small (by decide)) address
  rw [hpatch] at hpatch'
  cases hpatch'
  -- pages tell apart the jumps of different fragments, and main code from exits
  have hpages : ∀ {j side}, (j, side) ≠ (r.source, Side.exits) → ∀ h ∈ c.pagesOf j side,
      h ∉ c.pagesOf r.source .exits := by
    intro j side hne h hh₁ hh₂
    obtain ⟨rfl, rfl⟩ := hh.held.inj hh₁ hh₂
    exact hne rfl
  refine ⟨hl.rewritten hsize hvalid _, ?_, ?_, ?_, ?_⟩
  · intro j r' hr' hj
    obtain ⟨r₀, hr₀, rfl⟩ := redirected_back hr'
    split
    · next hgj =>
      subst hgj
      rw [hr] at hr₀
      cases hr₀
      refine ⟨address, ?_, hhosted.1, hjumps⟩
      rw [← haddress]
      cases target <;> rfl
    · next hgj =>
      obtain ⟨a', ha', hhosted'⟩ := hw.site hr₀ hj
      refine ⟨a', ?_, hhosted'.patched hsize hsame ?_⟩
      · rw [← ha']
        cases r₀.target <;> rfl
      · by_cases hsource : r₀.source = r.source
        · exact hw.apart hr₀ hr hj hg (Ne.symm hgj) hsource
        · exact hhosted'.apart hhosted (hpages fun heq => hsource (congrArg Prod.fst heq))
  · intro j r' k hr' hj htarget
    obtain ⟨r₀, hr₀, rfl⟩ := redirected_back hr'
    split at htarget
    · next hgj =>
      subst hgj
      rw [hr] at hr₀
      cases hr₀
      rw [if_pos rfl]
      exact hchild k htarget
    · next hgj =>
      rw [if_neg hgj]
      exact hw.child hr₀ hj htarget
  · intro j j' r₁ r₂ hr₁ hr₂ hj hj' hne hsource
    obtain ⟨r₁', hr₁', rfl⟩ := redirected_back hr₁
    obtain ⟨r₂', hr₂', rfl⟩ := redirected_back hr₂
    have hsource' : r₁'.source = r₂'.source := by
      split at hsource <;> split at hsource <;> exact hsource
    have hapart := hw.apart hr₁' hr₂' hj hj' hne hsource'
    split <;> split <;> exact hapart
  · intro j f t q hf hkind hstate htarget hq hstate'
    obtain ⟨range, hhead, hfinal⟩ := hw.final hf hkind hstate htarget hq hstate'
    refine ⟨range, hhead, hfinal.patched hsize hsame (hfinal.apart hhosted (hpages fun heq => ?_))⟩
    cases congrArg Prod.snd heq

theorem Sound.redirected (hs : Sound p q c) (hr : c.guards[g]? = some r)
    (hg : q → c.guardCount < 2 ^ 32 → g ∈ c.registered) {address : CodeAddr}
    (haddress : c.address? target = some address)
    (hchild : ∀ k, target = .fragment k → ∃ q, c.cached? k = some q ∧ q.kind = .branch ∧
      q.state = .compiled ∧
      q.parent = some r.source ∧ q.anchor = some g)
    (hpatch : c.backend.patch c.region.mem r.site address = .ok mem) :
    Sound p q (c.redirected g target mem) where
  trees := hs.trees.alike (alike_redirected c g target mem)
  housed := by
    obtain ⟨⟨hfirst, ⟨l, hf⟩, hused, hnodup, hall⟩, hlodged⟩ := hs.housed
    exact ⟨⟨hfirst, ⟨l, hf.linked, hf.nodup, hf.count, hf.all⟩, hused, hnodup, hall⟩, hlodged⟩
  armed hp := by
    obtain ⟨hready, honly, hone⟩ := hs.armed hp
    exact ⟨hready, honly, hone⟩
  issued hcount :=
    (hs.issued hcount).congr (fun hf hg => ⟨_, hf, hg⟩) (alike_redirected c g target mem).old
  wired hq hcount :=
    (hs.wired hq hcount).redirected hs.housed hr (hg hq hcount) haddress hchild hpatch

/-- A guard is sent into the branch that starts at it. -/
theorem promote_ensures (hs : Sound p q c) (hf : c.cached? id = some f) (hkind : f.kind = .branch)
    (hanchor : f.anchor = some g) (hr : c.guards[g]? = some r) :
    Ensures Harmless (promote r f) c fun _ c' =>
    Sound p q c' ∧ c'.backend = c.backend ∧ c'.fragments = c.fragments := by
  obtain ⟨rfl, -⟩ := hs.trees.records hr
  obtain rfl := hs.trees.numbered (fragment?_of_cached hf)
  unfold promote
  split
  · exact .throw nofun
  · next hexec =>
    have hstate : f.state = .compiled := by simpa [Fragment.executable] using hexec
    unfold Ensures
    rw [redirect_eq]
    cases hpatch : c.backend.patch c.region.mem r.site f.entry with
    | error e => exact tame_patch hpatch
    | ok mem =>
      have haddress : c.address? (.fragment f.id) = some f.entry := by
        rw [address?, hf]
        rfl
      refine ⟨hs.redirected hr (fun _ hlt => ?_) haddress (fun k hk => ?_) hpatch, rfl, rfl⟩
      · obtain ⟨g, r', hg, -, -, hmem⟩ := hs.anchored (.inr hlt) hf hkind
        rw [hanchor] at hg
        cases hg
        exact hmem
      · cases hk
        obtain ⟨g, r', hg, hr', hparent⟩ := hs.trees.anchored hf hkind
        rw [hanchor] at hg
        cases hg
        rw [hr] at hr'
        cases hr'
        exact ⟨f, hf, hkind, hstate, hparent, hanchor⟩

end redirected

/-! ### Compiling -/

/-- The cache after something was written to pages that were free. -/
def rebased (c : FragmentCache) (shop : Workshop) : FragmentCache :=
  { c with region := shop.region, guardCount := shop.guardCount, exits := shop.exits }

section rebased

variable {shop : Workshop}

theorem Trees.rebased (ht : Trees c)
    (hn : c.guardCount ≤ shop.guardCount) : Trees (c.rebased shop) := by
  refine ht.alike ⟨rfl, rfl, fun id => ?_, rfl, hn, fun {_ r} hr => ⟨r.target, hr⟩,
    fun {_ r} hr => .inl ⟨r, hr⟩⟩
  show Option.Rel (Mild c) (c.fragment? id) (c.fragment? id)
  cases c.fragment? id with
  | none => exact .none
  | some f => exact .some (.refl c f)

theorem Armed.rebased (ha : Armed c) : Armed (c.rebased shop) :=
  let ⟨hready, honly, hone⟩ := ha
  ⟨hready, honly, hone⟩

theorem Wired.rebased (hw : Wired c) (hheld : c.region.Held c.pagesOf) (hf : c.region.Frees l)
    (hb : CodePages.Beside l c.region shop.region) : Wired (c.rebased shop) := by
  have hkeep : ∀ {id side site a}, Hosted c.backend c.region (c.pagesOf id side) site a →
      Hosted c.backend shop.region (c.pagesOf id side) site a :=
    fun hhosted => hhosted.beside hw.laid hb fun _ hh => hheld.not_free hf hh
  refine ⟨hb.laid hw.laid, fun {g r'} hr' hg => ?_, hw.child, hw.apart,
    fun hf hkind hstate htarget hq' hstate' => ?_⟩
  · obtain ⟨a, ha, hhosted⟩ := hw.site hr' hg
    refine ⟨a, ?_, hkeep hhosted⟩
    rw [← ha]
    cases r'.target with
    | bailout => exact congrArg some hb.bailout
    | fragment k => rfl
  · obtain ⟨range, hhead, hhosted⟩ := hw.final hf hkind hstate htarget hq' hstate'
    exact ⟨range, hhead, hkeep hhosted⟩

/-- A trace that was not compiled leaves code and fragments as they were. -/
theorem Sound.rebased {l' : List Nat} (hs : Sound p q c) (hf : c.region.Frees l)
    (hb : CodePages.Beside l c.region shop.region) (hf' : shop.region.Frees l') (hperm : l'.Perm l)
    (hn : c.guardCount ≤ shop.guardCount) : Sound p q (c.rebased shop) where
  trees := hs.trees.rebased hn
  housed := hs.housed.congr (hs.housed.held.beside hf hb hf' hperm) (fun _ _ => rfl)
      fun {id f'} hf' f hf'' => by
    change c.fragment? id = some f' at hf'
    rw [hf''] at hf'
    cases hf'
    exact fun hcached hstate => ⟨hcached, hstate⟩
  armed hp := (hs.armed (hp.imp_right (Nat.lt_of_le_of_lt hn))).rebased
  issued hcount := hs.issued (Nat.lt_of_le_of_lt hn hcount)
  wired hq hcount := (hs.wired hq (Nat.lt_of_le_of_lt hn hcount)).rebased hs.housed.held hf hb

end rebased

/-! ### Guards that are registered -/

/-- Guards were registered that were not registered before. -/
structure Registered (l : List Guard) (c c' : FragmentCache) : Prop where
  same : c' = { c with registered := c'.registered, guards := c'.guards }
  registered : ∀ {g}, g ∈ c'.registered ↔ g ∈ c.registered ∨ g ∈ l.map (·.id)
  unknown : ∀ {g}, g ∈ l.map (·.id) → g ∉ c.registered
  old : ∀ {g : GuardId} {r : Guard}, c.guards[g]? = some r → c'.guards[g]? = some r
  new : ∀ {g : GuardId} {r : Guard}, c'.guards[g]? = some r →
    c.guards[g]? = some r ∨ r ∈ l ∧ r.id = g
  fresh : ∀ {g : Guard}, g ∈ l → c.guards[g.id]? = none → c'.guards[g.id]? = some g

theorem register_ensures (g : Guard) (c : FragmentCache) :
    Ensures Harmless (register g) c fun _ c' => Registered [g] c c' := by
  unfold Ensures register
  split
  · next hok =>
    split at hok
    · cases hok
    · next hnot =>
      cases hok
      have hnot' : g.id ∉ c.registered := fun hmem => hnot (Std.TreeSet.mem_iff_contains.mp hmem)
      refine ⟨rfl, fun {j} => ?_, fun {j} hj => ?_, fun {j r} hr => ?_, fun {j r} hr => ?_,
        fun {g'} hg' hnone => ?_⟩
      · simp only [Std.TreeSet.mem_insert, Std.compare_eq_iff_eq, List.map_cons,
          List.map_nil, List.mem_singleton]
        rw [or_comm, eq_comm]
      · rw [List.map_cons, List.map_nil, List.mem_singleton] at hj
        exact hj ▸ hnot'
      · rw [Std.TreeMap.getElem?_insertIfNew, if_neg, hr]
        rintro ⟨hj, hmem⟩
        rw [Std.compare_eq_iff_eq] at hj
        subst hj
        exact hmem (Std.TreeMap.mem_iff_isSome_getElem?.mpr (by rw [hr]; rfl))
      · rw [Std.TreeMap.getElem?_insertIfNew] at hr
        split at hr
        · next hj =>
          cases hr
          exact .inr ⟨List.mem_singleton.mpr rfl, Std.compare_eq_iff_eq.mp hj.1⟩
        · exact .inl hr
      · rw [List.mem_singleton] at hg'
        subst hg'
        rw [Std.TreeMap.getElem?_insertIfNew, if_pos]
        refine ⟨Std.compare_eq_iff_eq.mpr rfl, fun hmem => ?_⟩
        rw [Std.TreeMap.mem_iff_isSome_getElem?, hnone] at hmem
        cases hmem
  · next herror =>
    split at herror
    · cases herror
      nofun
    · cases herror

theorem Registered.cons {g : Guard} {l : List Guard} {c₁ : FragmentCache} (h : Registered [g] c c₁)
    (h' : Registered l c₁ c') : Registered (g :: l) c c' where
  same := by rw [h'.same, h.same]
  registered := fun {j} => by
    rw [h'.registered, h.registered, List.map_cons, List.map_nil, List.mem_singleton,
      List.map_cons, List.mem_cons,
      or_assoc]
  unknown := fun {j} hj => by
    rw [List.map_cons, List.mem_cons] at hj
    rcases hj with rfl | hj
    · exact h.unknown (List.mem_singleton.mpr rfl)
    · exact fun hmem => h'.unknown hj (h.registered.mpr (.inl hmem))
  old hr := h'.old (h.old hr)
  new hr := by
    rcases h'.new hr with hr | ⟨hmem, hid⟩
    · exact (h.new hr).imp_right fun ⟨hmem, hid⟩ =>
        ⟨List.mem_cons.mpr (.inl (List.mem_singleton.mp hmem)), hid⟩
    · exact .inr ⟨List.mem_cons_of_mem _ hmem, hid⟩
  fresh := fun {g'} hg' hnone => by
    rcases List.mem_cons.mp hg' with rfl | hmem
    · exact h'.old (h.fresh (List.mem_singleton.mpr rfl) hnone)
    · refine h'.fresh hmem ?_
      cases hr : c₁.guards[g'.id]? with
      | none => rfl
      | some r =>
        rcases h.new hr with hold | ⟨hr', hid⟩
        · rw [hnone] at hold
          cases hold
        · -- a guard with the number of the first one would already be registered
          refine absurd ?_ (h'.unknown (List.mem_map_of_mem hmem))
          rw [List.mem_singleton] at hr'
          exact h.registered.mpr (.inr (by rw [← hid, hr']; exact List.mem_singleton.mpr rfl))

theorem registerAll_ensures (l : List Guard) (c : FragmentCache) :
    Ensures Harmless (l.forM register) c fun _ c' => Registered l c c' := by
  induction l generalizing c with
  | nil => exact ⟨rfl, by simp, nofun, id, .inl, nofun⟩
  | cons g l ih =>
    exact .bind (register_ensures g c) fun _ c₁ h => (ih c₁).mono fun _ _ h' => h.cons h'

/-! ### Fragments that get their code -/

/-- A fragment with compiled code. -/
def equip (a : Assembly) (f : Fragment) : Fragment :=
  { f with
    state := .compiled
    entry := a.entry
    loopTop := a.loopTop
    mainPages := a.mainPages
    exitPages := a.exitPages
    mainCode := a.mainCode
    exitCode := a.exitCode
    guards := a.guards.map (·.id) }

theorem pages_equip (a : Assembly) (f : Fragment) (side : Side) :
    (equip a f).pages side = a.pages side := by
  cases side <;> rfl

/-- A fragment got its code, and the code pages `r` came with it. -/
structure Installed (id : FragmentId) (a : Assembly) (r : CodePages)
    (c c' : FragmentCache) : Prop where
  backend : c'.backend = c.backend
  size : c'.fragments.size = c.fragments.size
  roots : c'.roots = c.roots
  count : c'.guardCount = c.guardCount
  exits : c'.exits = c.exits
  region : c'.region = r
  fragment : ∀ j, c'.fragment? j = if j = id then (c.fragment? j).map (equip a) else c.fragment? j
  registered : ∀ {g}, g ∈ c'.registered ↔ g ∈ c.registered ∨ g ∈ a.guards.map (·.id)
  unknown : ∀ {g}, g ∈ a.guards.map (·.id) → g ∉ c.registered
  old : ∀ {g : GuardId} {r : Guard}, c.guards[g]? = some r → c'.guards[g]? = some r
  new : ∀ {g : GuardId} {r : Guard}, c'.guards[g]? = some r →
    c.guards[g]? = some r ∨ r ∈ a.guards ∧ r.id = g
  fresh : ∀ {g : Guard}, g ∈ a.guards → c.guards[g.id]? = none → c'.guards[g.id]? = some g

theorem paged_ok {α : Type} {x : CodePages.Paged α} {y : α} {r : CodePages}
    (h : x c.region = .ok y r) :
    paged x c = .ok y { c with region := r } := by
  unfold paged
  dsimp only
  rw [h]

theorem install_ensures (hid : id ≠ 0) (a : Assembly) {r₁ r₂ : CodePages}
    (hmain : CodePages.handOver id a.mainPages c.region = .ok () r₁)
    (hexits : CodePages.handOver id a.exitPages r₁ = .ok () r₂) :
    Ensures Harmless (install id a) c fun _ c' => Installed id a r₂ c c' := by
  unfold install
  refine .bind (.modify rfl) fun _ c₁ (hc₁ : c₁ = _) => ?_
  subst hc₁
  refine .bind ((ensures_ok (paged_ok (by exact hmain))).mpr rfl) fun _ c₂ (hc₂ : c₂ = _) => ?_
  subst hc₂
  refine .bind ((ensures_ok (paged_ok (by exact hexits))).mpr rfl) fun _ c₃ (hc₃ : c₃ = _) => ?_
  subst hc₃
  refine .bind (registerAll_ensures a.guards _) fun _ c₄ h => .modify ?_
  have hfragment : ∀ j, c₄.fragment? j = _ := fun j => congrArg (FragmentCache.fragment? · j) h.same
  refine ⟨?_, ?_, ?_, ?_, ?_, ?_, fun j => ?_, h.registered, h.unknown, h.old, h.new, h.fresh⟩
  · rw [update_backend, h.same, update_backend]
  · rw [update_size, h.same, update_size]
  · rw [update_roots, h.same, update_roots]
  · rw [update_guardCount, h.same, update_guardCount]
  · show c₄.exits = _
    rw [h.same]
    rfl
  · rw [update_region, h.same]
  · rw [fragment?_update hid, hfragment j]
    show (if j = id then ((c.update id _).fragment? j).map _ else (c.update id _).fragment? j) = _
    rw [fragment?_update hid]
    by_cases hj : j = id
    · rw [if_pos hj, if_pos hj, if_pos hj, Option.map_map]
      rfl
    · rw [if_neg hj, if_neg hj, if_neg hj]

section Installed

variable {a : Assembly} {r : CodePages} (h : Installed id a r c c')

include h

theorem Installed.fragment_self (hf : c.fragment? id = some f) :
    c'.fragment? id = some (equip a f) := by
  rw [h.fragment, if_pos rfl, hf]
  rfl

theorem Installed.fragment_other {j : FragmentId} (hj : j ≠ id) :
    c'.fragment? j = c.fragment? j := by
  rw [h.fragment, if_neg hj]

theorem Installed.cached_self (hf : c.cached? id = some f) : c'.cached? id = some (equip a f) := by
  obtain ⟨hf, hcached⟩ := cached?_eq_some.mp hf
  exact cached?_eq_some.mpr ⟨h.fragment_self hf, hcached⟩

theorem Installed.cached_other {j : FragmentId} (hj : j ≠ id) : c'.cached? j = c.cached? j := by
  rw [cached?, h.fragment_other hj, cached?]

theorem Installed.pagesOf (hf : c.fragment? id = some f) (j : FragmentId) (side : Side) :
    c'.pagesOf j side = if j = id then a.pages side else c.pagesOf j side := by
  by_cases hj : j = id
  · subst hj
    rw [if_pos rfl, pagesOf_eq (h.fragment_self hf), pages_equip]
  · rw [if_neg hj, FragmentCache.pagesOf, FragmentCache.pagesOf, h.fragment_other hj]

theorem Installed.alike (hf : c.cached? id = some f) (hstate : f.state ≠ .compiled)
    (hends : f.kind = .branch → ∃ t, f.treeTarget = some t)
    (hguards : ∀ g ∈ a.guards, g.source = id ∧ ∃ k, 0 < k ∧ k ≤ c.guardCount ∧
      g.id = k.toUInt32) : Alike c c' where
  backend := h.backend
  size := h.size
  fragments j := by
    by_cases hj : j = id
    · subst hj
      rw [fragment?_of_cached hf, h.fragment_self (fragment?_of_cached hf)]
      refine .some ⟨(equip a f).content, rfl, fun hcompiled => absurd hcompiled hstate,
        fun hsame => ?_, nofun,
        fun _ => .inr hends, fun _ => .inl⟩
      rcases hsame with hcompiled | hcached | hopen
      · exact absurd hcompiled hstate
      · rw [(cached?_eq_some.mp hf).2] at hcached
        cases hcached
      · exact absurd rfl hopen
    · rw [h.fragment_other hj]
      cases c.fragment? j with
      | none => exact .none
      | some q => exact .some (.refl c q)
  roots := h.roots
  count := Nat.le_of_eq h.count.symm
  old := fun {g r} hr => ⟨r.target, h.old hr⟩
  new := fun {g r} hr => by
    refine (h.new hr).imp (fun hr => ⟨r, hr⟩) fun ⟨hmem, hid⟩ => ⟨hid, ?_, ?_⟩
    · rw [(hguards r hmem).1]
      exact ⟨_, h.fragment_self (fragment?_of_cached hf), hid ▸ List.mem_map_of_mem hmem, rfl⟩
    · obtain ⟨k, hpos, hle, hk⟩ := (hguards r hmem).2
      exact ⟨k, hpos, Nat.le_trans hle (Nat.le_of_eq h.count.symm), hid ▸ hk⟩

theorem Armed.installed (ha : Armed c) (hf : c.cached? id = some f)
    (hbare : f.guards = []) : Armed c' := by
  -- a guard of a fragment is a new one of this fragment or an old one of another
  have hguard : ∀ {j q g}, c'.cached? j = some q → g ∈ q.guards → j = id ∧ g ∈ a.guards.map (·.id) ∨
      c.cached? j = some q := by
    intro j q g hq hg
    by_cases hj : j = id
    · subst hj
      rw [h.cached_self hf] at hq
      cases hq
      exact .inl ⟨rfl, hg⟩
    · rw [h.cached_other hj] at hq
      exact .inr hq
  refine ⟨fun hq hg => ?_, fun hg => ?_, fun hq hq' hg hg' => ?_⟩
  · rw [h.registered]
    rcases hguard hq hg with ⟨-, hnew⟩ | hq
    · exact .inr hnew
    · exact .inl (ha.ready hq hg)
  · rcases h.registered.mp hg with hg | hg
    · obtain ⟨j, q, hq, hg⟩ := ha.only hg
      refine ⟨j, q, ?_, hg⟩
      rw [h.cached_other]
      · exact hq
      · rintro rfl
        rw [hf] at hq
        cases hq
        rw [hbare] at hg
        cases hg
    · exact ⟨id, _, h.cached_self hf, hg⟩
  · rcases hguard hq hg with ⟨rfl, hnew⟩ | hq
    · rcases hguard hq' hg' with ⟨rfl, -⟩ | hq'
      · rfl
      · exact absurd (ha.ready hq' hg') (h.unknown hnew)
    · rcases hguard hq' hg' with ⟨rfl, hnew⟩ | hq'
      · exact absurd (ha.ready hq hg) (h.unknown hnew)
      · exact ha.one hq hq' hg hg'

theorem Issued.installed (hi : Issued c) (hf : c.fragment? id = some f)
    (hguards : ∀ g ∈ a.guards, g.source = id ∧ c.guards[g.id]? = none) : Issued c' := by
  intro j q g hq hg
  by_cases hj : j = id
  · subst hj
    rw [h.fragment_self hf] at hq
    cases hq
    obtain ⟨r, hr, rfl⟩ := List.mem_map.mp hg
    exact ⟨r, h.fresh hr (hguards r hr).2, (hguards r hr).1⟩
  · rw [h.fragment_other hj] at hq
    obtain ⟨r, hr, hsource⟩ := hi j q g hq hg
    exact ⟨r, h.old hr, hsource⟩

end Installed

theorem toUInt32_inj {k k' : Nat} (hk : k < 2 ^ 32) (hk' : k' < 2 ^ 32)
    (h : k.toUInt32 = k'.toUInt32) : k = k' := by
  have := congrArg UInt32.toNat h
  rwa [UInt32.toNat_ofNat_of_lt' hk, UInt32.toNat_ofNat_of_lt' hk'] at this

section install

variable {a : Assembly} {shop shop' : Workshop} {r : CodePages}

/-- A new guard has a number of its own. -/
theorem Trees.unissued (ht : Trees c) {k : Nat} (hlow : c.guardCount < k) (hhigh : k < 2 ^ 32) :
    c.guards[k.toUInt32]? = none := by
  cases hr : c.guards[k.toUInt32]? with
  | none => rfl
  | some r =>
    obtain ⟨k', -, hle, hk'⟩ := ht.numbers hr
    have := toUInt32_inj hhigh (by omega) hk'
    omega

section

variable (hf : c.cached? id = some f) (hstate : f.state ≠ .compiled)
include hf hstate

/-- What was compiled before is another fragment. -/
theorem ne_of_compiled {j : FragmentId} {q : Fragment} (hq : c.cached? j = some q)
    (hcompiled : q.state = .compiled) : j ≠ id := by
  rintro rfl
  rw [hf] at hq
  cases hq
  exact hstate hcompiled

/-- A fragment without code has no guards. -/
theorem Trees.source_ne (ht : Trees c) {g : GuardId} {r : Guard} (hr : c.guards[g]? = some r) :
    r.source ≠ id := by
  intro hsource
  obtain ⟨-, q, hq, -, hcompiled⟩ := ht.records hr
  rw [hsource, fragment?_of_cached hf] at hq
  cases hq
  exact hstate (hcompiled (cached?_eq_some.mp hf).2)

end

/-- A guard that is registered after a fragment got its code was so before, or is one of its. -/
theorem Installed.guard_cases {shop' : Workshop} (h : Installed id a r (c.rebased shop') c')
    (hfresh : ∀ g ∈ a.guards, c.guards[g.id]? = none) {g : GuardId} {r : Guard}
    (hr : c'.guards[g]? = some r) (hg : g ∈ c'.registered) :
    c.guards[g]? = some r ∧ g ∈ c.registered ∨ r ∈ a.guards ∧ r.id = g := by
  rcases h.new hr with hr' | ⟨hmem, hrid⟩
  · refine .inl ⟨hr', (h.registered.mp hg).resolve_right fun hnew => ?_⟩
    obtain ⟨r', hmem, rfl⟩ := List.mem_map.mp hnew
    exact Option.some_ne_none r (hr'.symm.trans (hfresh r' hmem))
  · exact .inr ⟨hmem, hrid⟩

/-- The jumps of a fragment that got its code lead to where they should, and all others still do. -/
theorem Wired.installed (hw : Wired (c.rebased shop')) (ht : Trees c) (hf : c.cached? id = some f)
    (hstate : f.state ≠ .compiled) (hregion : shop.region = c.region) (hlaid : c.region.Laid)
    (hb : Built c.backend f (f.treeTarget.bind c.fragment?) l shop shop' a)
    (hfresh : ∀ g ∈ a.guards, c.guards[g.id]? = none)
    (hends : f.kind = .branch → ∃ buffer, f.trace = some buffer ∧
      buffer.insts.back?.any (·.op == .jumpTree) = true)
    (h : Installed id a r (c.rebased shop') c')
    (halike : CodePages.Alike shop'.region r) : Wired c' := by
  have hid : f.id = id := ht.numbered (fragment?_of_cached hf)
  have hf₀ : (c.rebased shop').cached? id = some f := hf
  have hlaid' : shop.region.Laid := hregion ▸ hlaid
  have hbackend : c'.backend = c.backend := h.backend
  have hpages : ∀ side, c'.pagesOf id side = a.pages side := fun side => by
    rw [h.pagesOf (fragment?_of_cached hf₀), if_pos rfl]
  have hpages' : ∀ {j}, j ≠ id → ∀ side, c'.pagesOf j side = c.pagesOf j side := fun hj side => by
    rw [h.pagesOf (fragment?_of_cached hf₀), if_neg hj]
    rfl
  have hcompiled {j q} (hq : c.cached? j = some q) (hqstate : q.state = .compiled) : j ≠ id :=
    ne_of_compiled hf hstate hq hqstate
  have hsource {g : GuardId} {r : Guard} (hr : c.guards[g]? = some r) : r.source ≠ id :=
    ht.source_ne hf hstate hr
  have hown : ∀ r ∈ a.guards, r.source = id := fun r hmem => (hb.guards r hmem).1.trans hid
  have hmoved : ∀ {pages site target}, Hosted c.backend shop'.region pages site target →
      Hosted c.backend c'.region pages site target := by
    intro pages site target hhosted
    rw [h.region]
    exact hhosted.alike halike
  refine ⟨?_, fun {g r} hr hg => ?_, fun {g r k} hr hg htarget => ?_,
    fun {g g' r r'} hr hr' hg hg' hne hsame => ?_,
    fun {j q t q'} hq hkind hcompiled' htarget hq' hcompiled'' => ?_⟩
  · rw [h.region]
    exact hw.laid.alike halike
  · rcases h.guard_cases hfresh hr hg with ⟨hr', hg'⟩ | ⟨hmem, -⟩
    · obtain ⟨address, haddress, hhosted⟩ := hw.site (g := g) (r := r) hr' hg'
      refine ⟨address, ?_, ?_⟩
      · cases htarget : r.target with
        | bailout =>
          rw [htarget] at haddress
          rw [← haddress, address?, address?, h.region, halike.bailout]
          rfl
        | fragment k =>
          obtain ⟨q, hq, -, hqstate, -⟩ := hw.child (g := g) (r := r) hr' hg' htarget
          rw [htarget] at haddress
          rw [← haddress, address?, address?, h.cached_other (hcompiled hq hqstate)]
      · rw [hbackend, hpages' (hsource hr')]
        exact hmoved hhosted
    · refine ⟨c.region.bailout, ?_, ?_⟩
      · rw [(hb.guards r hmem).2, address?, h.region, halike.bailout, hb.beside.bailout, hregion]
      · rw [hbackend, hown r hmem, hpages]
        have hhosted := hb.sites hlaid' r hmem
        rw [hregion] at hhosted
        exact hmoved hhosted
  · rcases h.guard_cases hfresh hr hg with ⟨hr', hg'⟩ | ⟨hmem, -⟩
    · obtain ⟨q, hq, hkind, hqstate, hrest⟩ := hw.child (g := g) (r := r) hr' hg' htarget
      exact ⟨q, (h.cached_other (hcompiled hq hqstate)).trans hq, hkind, hqstate, hrest⟩
    · rw [(hb.guards r hmem).2] at htarget
      cases htarget
  · rw [hbackend]
    rcases h.guard_cases hfresh hr hg with ⟨hold, hold'⟩ | ⟨hmem, hrid⟩
    · rcases h.guard_cases hfresh hr' hg' with ⟨hold₁, hold₁'⟩ | ⟨hmem', -⟩
      · exact hw.apart hold hold₁ hold' hold₁' hne hsame
      · exact absurd (hsame.trans (hown r' hmem')) (hsource hold)
    · rcases h.guard_cases hfresh hr' hg' with ⟨hold₁, -⟩ | ⟨hmem', hrid'⟩
      · exact absurd (hsame.symm.trans (hown r hmem)) (hsource hold₁)
      · have : Std.Symm fun g g' : Guard => Apart c.backend g.site g'.site :=
          ⟨fun _ _ hapart => hapart.symm⟩
        refine (hb.apart hlaid').forall hmem hmem' ?_
        rintro rfl
        exact hne (hrid.symm.trans hrid')
  · by_cases hj : j = id
    · subst hj
      rw [h.cached_self hf₀] at hq
      cases hq
      obtain ⟨buffer, htrace, hlast⟩ := hends hkind
      obtain ⟨range, hhead, hhosted⟩ := hb.final hlaid' buffer htrace hlast
      obtain ⟨q, hqt, hqstate⟩ := ht.target hf htarget
      rw [h.cached_other (hcompiled hqt hqstate)] at hq'
      change c.cached? t = some q' at hq'
      rw [hqt] at hq'
      cases hq'
      have hbind : f.treeTarget.bind c.fragment? = some q' := by
        change f.treeTarget = some t at htarget
        rw [htarget]
        exact fragment?_of_cached hqt
      rw [hbind] at hhosted
      refine ⟨range, hhead, ?_⟩
      rw [hpages, hbackend]
      exact hmoved hhosted
    · rw [h.cached_other hj] at hq
      obtain ⟨q₀, hqt, hqstate⟩ := ht.target hq htarget
      rw [h.cached_other (hcompiled hqt hqstate)] at hq'
      obtain ⟨range, hhead, hhosted⟩ := hw.final hq hkind hcompiled' htarget hq' hcompiled''
      refine ⟨range, hhead, ?_⟩
      rw [hpages' hj, hbackend]
      exact hmoved hhosted

/-- A fragment that got its code. -/
theorem Sound.installed (hs : Sound p q c) (hf : c.cached? id = some f)
    (hstate : f.state ≠ .compiled)
    (hregion : shop.region = c.region) (hcount : shop.guardCount = c.guardCount)
    (hfrees : c.region.Frees l)
    (hb : Built c.backend f (f.treeTarget.bind c.fragment?) l shop shop' a)
    (hends : f.kind = .branch → (∃ t, f.treeTarget = some t) ∧
      ∃ buffer, f.trace = some buffer ∧ buffer.insts.back?.any (·.op == .jumpTree) = true)
    (h : Installed id a r (c.rebased shop') c') (halike : CodePages.Alike shop'.region r)
    (hheld : r.Held fun j side => if j = id then a.pages side
      else c.pagesOf j side) : Sound p q c' := by
  have hid : f.id = id := hs.trees.numbered (fragment?_of_cached hf)
  have hf₀ : (c.rebased shop').cached? id = some f := hf
  have hle : c.guardCount ≤ (c.rebased shop').guardCount := hcount ▸ hb.count
  have hguards : ∀ g ∈ a.guards, g.source = id := fun g hg => (hb.guards g hg).1.trans hid
  have hfresh : c'.guardCount < 2 ^ 32 → ∀ g ∈ a.guards, c.guards[g.id]? = none := by
    intro hlt g hg
    obtain ⟨k, hlow, hhigh, hk⟩ := hb.number hg
    rw [h.count] at hlt
    rw [hk]
    exact hs.trees.unissued (hcount ▸ hlow) (Nat.lt_of_le_of_lt hhigh hlt)
  refine ⟨(hs.trees.rebased hle).alike
    (h.alike hf₀ hstate (fun hkind => (hends hkind).1) fun g hg => ?_), ?_,
    fun hp => ?_, fun hlt => ?_, fun hq hlt => ?_⟩
  · obtain ⟨k, hlow, hhigh, hk⟩ := hb.number hg
    exact ⟨hguards g hg, k, by omega, hhigh, hk⟩
  · refine ⟨?_, fun {j f' side} hf' hne => ?_⟩
    · have hpages : c'.pagesOf = fun j side => if j = id then a.pages side else c.pagesOf j side :=
        funext fun j => funext fun side => h.pagesOf (fragment?_of_cached hf₀) j side
      rw [hpages, h.region]
      exact hheld
    · by_cases hj : j = id
      · subst hj
        rw [h.fragment_self (fragment?_of_cached hf₀)] at hf'
        cases hf'
        exact ⟨(cached?_eq_some.mp hf).2, rfl⟩
      · rw [h.fragment_other hj] at hf'
        exact hs.housed.lodged hf' hne
  · rw [h.count] at hp
    exact (hs.armed (hp.imp_right (Nat.lt_of_le_of_lt hle))).rebased.installed h hf₀
      (hs.trees.bare hf hstate)
  · have hi : Issued (c.rebased shop') := hs.issued (Nat.lt_of_le_of_lt hle (h.count ▸ hlt))
    exact hi.installed h (fragment?_of_cached hf₀) fun g hg => ⟨hguards g hg, hfresh hlt g hg⟩
  · have hw := hs.wired hq (Nat.lt_of_le_of_lt hle (h.count ▸ hlt))
    exact (hw.rebased hs.housed.held hfrees (hregion ▸ hb.beside)).installed hs.trees hf hstate
      hregion hw.laid hb
      (hfresh hlt) (fun hkind => (hends hkind).2) h halike

theorem assemble_eq (limits : Limits) (helpers : HelperTable) (f : Fragment) (c : FragmentCache) :
    c.assemble limits helpers f =
      match Compile.assemble limits helpers f (f.treeTarget.bind c.fragment?)
        { region := c.region, guardCount := c.guardCount, exits := c.exits } with
      | .ok a shop => .ok a (c.rebased shop)
      | .error e shop => .error e (c.rebased shop) := by
  unfold assemble
  dsimp only
  cases Compile.assemble limits helpers f (f.treeTarget.bind c.fragment?)
    { region := c.region, guardCount := c.guardCount, exits := c.exits } <;> rfl

variable {limits : Limits} {helpers : HelperTable} {c₁ : FragmentCache}

/-- A trace that was compiled is put into use. -/
theorem install_sound (hs : Sound p q c) (hf : c.cached? id = some f) (hstate : f.state ≠ .compiled)
    (hlimits : limits.backend = c.backend)
    (hends : f.kind = .branch → (∃ t, f.treeTarget = some t) ∧
      ∃ buffer, f.trace = some buffer ∧ buffer.insts.back?.any (·.op == .jumpTree) = true)
    (hok : c.assemble limits helpers f = .ok a c₁) :
    Ensures Harmless (install id a) c₁ fun _ c' =>
    Sound p q c' ∧ ∃ shop r, Installed id a r (c.rebased shop) c' := by
  obtain ⟨l, hfrees⟩ := hs.housed.held.frees
  rw [assemble_eq] at hok
  split at hok
  · next a' shop hok' =>
    cases hok
    have hb := assemble_ok hfrees hok'
    rw [hlimits] at hb
    have hnone : ∀ side, c.pagesOf id side = [] := hs.housed.bare (fragment?_of_cached hf) hstate
    have hnew : ∀ side, ∀ h ∈ a.pages side, shop.region.pages[h]? = some { kind := side.kind } :=
      fun side => by
      cases side
      · exact hb.main
      · exact hb.exit
    obtain ⟨r₁, r₂, hmain, hexits, halike, hheld⟩ :=
      hs.housed.held.occupy hfrees hb.beside hnew hb.frees hnone
    refine (install_ensures (c := c.rebased shop)
      (fragment?_eq_some.mp (fragment?_of_cached hf)).1 a hmain hexits).mono fun _ c' h => ?_
    exact ⟨hs.installed hf hstate rfl rfl hfrees hb hends h halike hheld, shop, r₂, h⟩
  · cases hok

/-- A trace that could not be compiled. -/
theorem assemble_failed (hs : Sound p q c) {e : AssembleError}
    (herror : c.assemble limits helpers f = .error e c₁) :
    (∃ fault, e = .fault fault ∧ Tame fault) ∨
      (∀ fault, e ≠ .fault fault) ∧ Sound p q c₁ ∧ ∃ shop, c₁ = c.rebased shop := by
  obtain ⟨l, hfrees⟩ := hs.housed.held.frees
  rw [assemble_eq] at herror
  split at herror
  · cases herror
  · next e' shop herror' =>
    cases herror
    refine (assemble_error hfrees herror').imp_right fun ⟨hfault, hb,
      ⟨l', hfrees', hperm⟩, hcount⟩ => ?_
    exact ⟨hfault, hs.rebased hfrees hb hfrees' hperm hcount, shop, rfl⟩

end install

end LoopTracer.FragmentCache
