import LoopTracer.Proofs.Fragment.Excision
import LoopTracer.Proofs.Fragment.Wiring

/-! Code that stays as it is.

Whatever happens to a cache, a fragment that is compiled afterwards was compiled before, with the
same trace and its code at the same place, and of its code no byte has changed but those of jumps
that can be redirected (`Persists`). A fragment that gets its code is excepted. -/
namespace LoopTracer

open Trace Compile Machine

/-- Only what has nothing to do with its code has changed about a fragment, and it is entered with
the types that it had, if it had any. -/
def Fragment.Kept (f f' : Fragment) : Prop :=
  (∃ entryTypes peers children hits exits attempts, f' =
    { f with entryTypes, peers, children, hits, exits, attempts }) ∧
    (f'.entryTypes = f.entryTypes ∨ f.entryTypes = none)

theorem Fragment.Kept.refl (f : Fragment) : f.Kept f := ⟨⟨_, _, _, _, _, _, rfl⟩, .inl rfl⟩

theorem Fragment.Kept.trans {f f' f'' : Fragment} (h : f.Kept f')
    (h' : f'.Kept f'') : f.Kept f'' := by
  obtain ⟨⟨_, _, _, _, _, _, rfl⟩, htypes⟩ := h
  obtain ⟨⟨_, _, _, _, _, _, rfl⟩, htypes'⟩ := h'
  refine ⟨⟨_, _, _, _, _, _, rfl⟩, htypes.elim (fun heq => ?_) .inr⟩
  dsimp only at heq htypes'
  exact heq ▸ htypes'

theorem Fragment.Kept.pages {f f' : Fragment} (h : f.Kept f') (side : Side) :
    f'.pages side = f.pages side := by
  obtain ⟨⟨_, _, _, _, _, _, rfl⟩, -⟩ := h
  cases side <;> rfl

namespace FragmentCache

variable {c c' c'' : FragmentCache} {id n : FragmentId} {f f' new : Fragment} {p q : Prop}
  {N : FragmentId → Prop}

/-- A byte of the shared exit code or of compiled code, but none of a jump that can be redirected. -/
def Fixed (N : FragmentId → Prop) (c : FragmentCache) (a : Nat) : Prop :=
  a / c.region.bytes = 0 ∨ ∃ id f side, c.cached? id = some f ∧ f.state = .compiled ∧ ¬ N id ∧
    a / c.region.bytes ∈ f.pages side ∧
      (side = .exits → ∀ g ∈ f.guards, ∀ r, c.guards[g]? = some r →
      ¬ (r.site.toNat ≤ a ∧ a < r.site.toNat + c.backend.jumpLength))

/-- What is compiled in `c'` was so in `c`, but for the fragments in `N`. -/
structure Persists (N : FragmentId → Prop) (c c' : FragmentCache) : Prop where
  backend : c'.backend = c.backend
  size : c'.region.mem.size = c.region.mem.size
  pageSize : c'.region.pageSize = c.region.pageSize
  bailout : c'.region.bailout = c.region.bailout
  fragment : ∀ {id f'}, c'.cached? id = some f' → f'.state = .compiled → ¬ N id →
    ∃ f, c.cached? id = some f ∧ f.Kept f'
  guards : ∀ {g : GuardId} {r : Guard}, c.guards[g]? = some r →
    ∃ target, c'.guards[g]? = some { r with target }
  count : c.guardCount ≤ c'.guardCount
  bytes : ∀ a, Fixed N c' a → c'.region.mem.get? a = c.region.mem.get? a

theorem Persists.page (h : Persists N c c') : c'.region.bytes = c.region.bytes :=
  congrArg Int.toNat h.pageSize

theorem Persists.mono {N' : FragmentId → Prop} (h : Persists N c c')
    (hN : ∀ id, N id → N' id) : Persists N' c c' := by
  refine ⟨h.backend, h.size, h.pageSize, h.bailout,
    fun hf hs hid => h.fragment hf hs (mt (hN _) hid), h.guards,
    h.count, fun a ha => h.bytes a (ha.imp_right ?_)⟩
  rintro ⟨id, f, side, hf, hs, hid, hrest⟩
  exact ⟨id, f, side, hf, hs, mt (hN id) hid, hrest⟩

/-- What is fixed was so before. -/
theorem Persists.fixed (h : Persists N c c') {a : Nat} (ha : Fixed N c' a) : Fixed N c a := by
  refine ha.imp (fun ha => h.page ▸ ha) ?_
  rintro ⟨id, f', side, hf', hs, hid, hpage, hout⟩
  obtain ⟨f, hf, hkept⟩ := h.fragment hf' hs hid
  refine ⟨id, f, side, hf, ?_, hid, ?_, fun hside g hg r hr => ?_⟩
  · obtain ⟨⟨_, _, _, _, _, _, rfl⟩, -⟩ := hkept
    exact hs
  · rw [← h.page, ← hkept.pages]
    exact hpage
  · obtain ⟨target, hr'⟩ := h.guards hr
    have hmem : g ∈ f'.guards := by
      obtain ⟨⟨_, _, _, _, _, _, rfl⟩, -⟩ := hkept
      exact hg
    have hsite := hout hside g hmem _ hr'
    rw [h.backend] at hsite
    exact hsite

theorem Persists.refl (N : FragmentId → Prop) (c : FragmentCache) : Persists N c c :=
  ⟨rfl, rfl, rfl, rfl, fun hf _ _ => ⟨_, hf, .refl _⟩, fun {_ r} hr => ⟨r.target, hr⟩,
    Nat.le_refl _, fun _ _ => rfl⟩

theorem Persists.trans (h : Persists N c c') (h' : Persists N c' c'') : Persists N c c'' where
  backend := h'.backend.trans h.backend
  size := h'.size.trans h.size
  pageSize := h'.pageSize.trans h.pageSize
  bailout := h'.bailout.trans h.bailout
  fragment hf hs hid := by
    obtain ⟨f', hf', hkept'⟩ := h'.fragment hf hs hid
    obtain ⟨f, hf, hkept⟩ :=
      h.fragment hf' (by obtain ⟨⟨_, _, _, _, _, _, rfl⟩, -⟩ := hkept'; exact hs) hid
    exact ⟨f, hf, hkept.trans hkept'⟩
  guards hr := by
    obtain ⟨_, hr'⟩ := h.guards hr
    obtain ⟨target, hr''⟩ := h'.guards hr'
    exact ⟨target, hr''⟩
  count := Nat.le_trans h.count h'.count
  bytes a ha := (h'.bytes a ha).trans (h.bytes a (h'.fixed ha))

/-! ### Changes that touch no code -/

/-- The code region has changed in its table of pages at most. -/
theorem persists_congr (hbackend : c'.backend = c.backend)
    (hregion : CodePages.Alike c.region c'.region)
    (hguards : c'.guards = c.guards) (hcount : c'.guardCount = c.guardCount)
    (hfragment : ∀ {id f'}, c'.cached? id = some f' → f'.state = .compiled → ¬ N id →
      ∃ f, c.cached? id = some f ∧ f.Kept f') :
    Persists N c c' :=
  ⟨hbackend, by rw [hregion.mem], hregion.pageSize, hregion.bailout, hfragment,
    fun {_ r} hr => ⟨r.target, by rw [hguards, hr]⟩, Nat.le_of_eq hcount.symm,
    fun a _ => by rw [hregion.mem]⟩

/-- The table of exits is nobody's business. -/
theorem persists_exits (N : FragmentId → Prop) (c : FragmentCache) (exits : Array ExitRecord) :
    Persists N c { c with exits } :=
  persists_congr rfl (.refl _) rfl rfl fun hf _ _ => ⟨_, hf, .refl _⟩

/-- A fragment is changed: a compiled one keeps its code, and another one does not become compiled. -/
theorem persists_update (N : FragmentId → Prop) (c : FragmentCache) (hid : id ≠ 0)
    {g : Fragment → Fragment}
    (hg : ∀ f, c.fragment? id = some f → (g f).cached = true →
      (g f).state = .compiled → f.Kept (g f)) :
    Persists N c (c.update id g) := by
  refine persists_congr rfl (.refl _) rfl rfl fun {j f'} hf' hs _ => ?_
  obtain ⟨hfound, hcached⟩ := cached?_eq_some.mp hf'
  rw [fragment?_update hid] at hfound
  split at hfound
  · next hj =>
    subst hj
    obtain ⟨f, hf, rfl⟩ := Option.map_eq_some_iff.mp hfound
    have hkept := hg f hf hcached hs
    refine ⟨f, cached?_eq_some.mpr ⟨hf, ?_⟩, hkept⟩
    obtain ⟨⟨_, _, _, _, _, _, heq⟩, -⟩ := hkept
    rw [heq] at hcached
    exact hcached
  · exact ⟨f', cached?_eq_some.mpr ⟨hfound, hcached⟩, .refl f'⟩

/-- A fragment that is not compiled stays so. -/
theorem persists_open (N : FragmentId → Prop) (c : FragmentCache) (hid : id ≠ 0)
    {g : Fragment → Fragment}
    (hg : ∀ f, c.fragment? id = some f → (g f).state ≠ .compiled) : Persists N c (c.update id g) :=
  persists_update N c hid fun f hf _ hs => absurd hs (hg f hf)

/-- A fragment that is not compiled is added. -/
theorem persists_add (N : FragmentId → Prop) (c : FragmentCache) (hnew : new.state ≠ .compiled) :
    Persists N c (c.add new) := by
  refine persists_congr rfl (.refl _) rfl rfl fun {j f'} hf' hs _ => ?_
  obtain ⟨hfound, hcached⟩ := cached?_eq_some.mp hf'
  obtain ⟨hj, hplace⟩ := fragment?_eq_some.mp hfound
  change (c.fragments.push new)[place j]? = some f' at hplace
  rw [Array.getElem?_push] at hplace
  split at hplace
  · cases hplace
    exact absurd hs hnew
  · exact ⟨f', cached?_eq_some.mpr ⟨fragment?_eq_some.mpr ⟨hj, hplace⟩, hcached⟩, .refl f'⟩

theorem getOrCreate_persists (N : FragmentId → Prop) (c : FragmentCache) (key : LoopKey) :
    Persists N c (c.getOrCreate key).1 := by
  unfold getOrCreate
  split
  · exact .refl N c
  · exact (persists_add N c (by nofun)).trans
      (persists_congr rfl (.refl _) rfl rfl fun hf' _ _ => ⟨_, hf', .refl _⟩)

theorem addPeer_persists {root : Fragment} (hid : root.id ≠ 0) (types : TypeMap) :
    Ensures Anyhow (addPeer root types) c fun _ c' => Persists N c c' := by
  unfold Ensures addPeer
  split
  · next hok =>
    split at hok
    · cases hok
    · cases hok
      exact (persists_add N c (by nofun)).trans
        (persists_update N _ hid fun f _ _ _ => ⟨⟨_, _, _, _, _, _, rfl⟩, .inl rfl⟩)
  · trivial

theorem attachChild_persists {parent : Fragment} (hid : parent.id ≠ 0) (g : Guard) :
    Ensures Anyhow (attachChild parent g) c fun _ c' => Persists N c c' := by
  unfold Ensures attachChild
  split
  · next hok =>
    split at hok
    · cases hok
    · cases hok
      exact (persists_add N c (by nofun)).trans
        (persists_update N _ hid fun f _ _ _ => ⟨⟨_, _, _, _, _, _, rfl⟩, .inl rfl⟩)
  · trivial

/-- A branch that is not compiled is dropped. -/
theorem discard_persists (hid : f.id ≠ 0) (hparent : f.parent ≠ some 0) :
    Ensures Anyhow (discard f) c fun _ c' => Persists N c c' := by
  unfold Ensures discard
  split
  · next hok =>
    split at hok
    · cases hok
    · cases hok
      have hgone : ∀ c₁, Persists N c₁
          (c₁.update f.id fun f => { f with cached := false, state := .invalidated }) :=
        fun c₁ => persists_open N c₁ hid fun _ _ => by nofun
      refine .trans ?_ (hgone _)
      split
      · next p hp =>
        have hne : p ≠ 0 := fun hzero => hparent (hp.trans (congrArg some hzero))
        exact persists_update N c hne fun f _ _ _ => ⟨⟨_, _, _, _, _, _, rfl⟩, .inl rfl⟩
      · exact .refl N c
  · trivial

/-- Fragments are dropped. -/
theorem Dropping.persists {D : FragmentId → Bool} (h : Dropping D [] c c') : Persists N c c' := by
  refine persists_congr h.backend h.region h.guards h.count fun {id f'} hf' hs _ => ?_
  obtain ⟨f, hf, -, rfl⟩ := h.pruned.cached_back hf'
  exact ⟨f, hf, ⟨_, _, _, _, _, _, rfl⟩, .inl rfl⟩

/-! ### Changes of code -/

/-- Jumps of registered guards are redirected. -/
theorem Wired.persists (hw : Wired c) (hh : Housed c) (ha : Armed c) (hi : Issued c)
    {guards : Std.TreeMap GuardId Guard}
    {mem : Memory} (hsize : mem.size = c.region.mem.size)
    (hguards : ∀ {g : GuardId} {r : Guard}, c.guards[g]? = some r →
      ∃ target, guards[g]? = some { r with target })
    (hbytes : ∀ a, (∀ (g : GuardId) (r : Guard), g ∈ c.registered → c.guards[g]? = some r →
      ¬ (r.site.toNat ≤ a ∧ a < r.site.toNat + c.backend.jumpLength)) →
      mem.get? a = c.region.mem.get? a) :
    Persists N c (c.rewired guards mem) := by
  refine ⟨rfl, hsize, rfl, rfl, fun hf _ _ => ⟨_, hf, .refl _⟩, hguards, Nat.le_refl _,
    fun a hfixed => hbytes a fun g r hg hr hin => ?_⟩
  -- the jump lies on a page of its fragment, where only what is not redirected is fixed
  obtain ⟨-, -, ⟨page, hpage, hlow, hhigh⟩, -⟩ := hw.site hr hg
  have hdiv : a / c.region.bytes = page := Code.div_eq_page (by omega) (by omega)
  rcases hfixed with hzero | ⟨id, f, side, hf, hs, -, hside, hout⟩
  · exact hh.held.ne hpage (hdiv.symm.trans hzero)
  · replace hf : c.cached? id = some f := hf
    have hmine : page ∈ c.pagesOf id side := by
      rw [pagesOf_eq (fragment?_of_cached hf), ← hdiv]
      exact hside
    obtain ⟨rfl, rfl⟩ := hh.held.inj hmine hpage
    obtain ⟨j, f', hf', hmem⟩ := ha.only hg
    obtain ⟨r', hr', hsource⟩ := hi j f' g (fragment?_of_cached hf') hmem
    rw [hr] at hr'
    cases hr'
    rw [hsource] at hf
    have hsame : f' = f := Option.some.inj (hf'.symm.trans hf)
    subst hsame
    obtain ⟨target, hr'⟩ := hguards hr
    exact hout rfl g hmem _ hr' hin

/-- Exits are sent back to the interpreter. -/
theorem Retracted.persists {gs : List Guard} (h : Retracted gs c c') (hw : Wired c)
    (hh : Housed c) (ha : Armed c)
    (hi : Issued c)
    (hgs : ∀ g ∈ gs, c.guards[g.id]? = some g ∧ g.id ∈ c.registered) : Persists N c c' := by
  rw [h.same]
  refine hw.persists hh ha hi h.size (fun {g r} hr => ?_) fun a ha => h.bytes a fun g hg => ?_
  · rw [h.guards, hr]
    split
    · exact ⟨.bailout, rfl⟩
    · exact ⟨r.target, rfl⟩
  · obtain ⟨hfound, hregistered⟩ := hgs g hg
    have := ha g.id g hregistered hfound
    omega

/-- The exit of a guard is sent elsewhere. -/
theorem redirected_persists (hw : Wired c) (hh : Housed c) (ha : Armed c) (hi : Issued c)
    {g : GuardId} {r : Guard}
    (hr : c.guards[g]? = some r) (hg : g ∈ c.registered) {target : ExitTarget}
    {address : CodeAddr} {mem : Memory}
    (hpatch : c.backend.patch c.region.mem r.site address = .ok mem) :
    Persists N c (c.redirected g target mem) := by
  obtain ⟨a, -, -, hjumps⟩ := hw.site hr hg
  obtain ⟨mem', hpatch', -, -, hsize, hsame⟩ :=
    hjumps.patch hw.laid.valid (Nat.lt_trans hw.laid.small (by decide)) address
  rw [hpatch] at hpatch'
  cases hpatch'
  refine hw.persists hh ha hi hsize (fun {j r'} hr' => ?_) fun a ha => hsame a ?_
  · have hj : (c.redirected g target mem).guards[j]? = _ := getElem?_redirected
    rw [hr'] at hj
    split at hj
    · exact ⟨target, hj⟩
    · exact ⟨r'.target, hj⟩
  · have := ha g r hg hr
    omega

/-- Something is written to pages that are free. -/
theorem rebased_persists {shop : Workshop} {l : List Nat} (hlaid : c.region.Laid) (hh : Housed c)
    (hf : c.region.Frees l)
    (hb : CodePages.Beside l c.region shop.region) (hle : c.guardCount ≤ shop.guardCount) :
    Persists N c (c.rebased shop) := by
  obtain ⟨hsize, -, hsame⟩ := hb.memory hlaid
  refine ⟨rfl, hsize, hb.pageSize, hb.bailout, fun hf _ _ => ⟨_, hf, .refl _⟩,
    fun {_ r} hr => ⟨r.target, hr⟩,
    hle, fun a hfixed => hsame a ?_⟩
  have hbytes : (c.rebased shop).region.bytes = c.region.bytes := congrArg Int.toNat hb.pageSize
  rcases hfixed with hzero | ⟨id, f, side, hf', -, -, hpage, -⟩
  · rw [hbytes] at hzero
    rw [hzero]
    exact hh.held.zero_not_free hf
  · rw [hbytes] at hpage
    have hcached : c.cached? id = some f := hf'
    rw [← pagesOf_eq (fragment?_of_cached hcached)] at hpage
    exact hh.held.not_free hf hpage

/-- A fragment gets its code. -/
theorem Installed.persists {a : Assembly} {r : CodePages} (h : Installed id a r c c')
    (halike : CodePages.Alike c.region r) :
    Persists (· = id) c c' := by
  refine ⟨h.backend, by rw [h.region, halike.mem], by rw [h.region, halike.pageSize],
    by rw [h.region, halike.bailout],
    fun {j f'} hf' _ hj => ⟨f', ?_, .refl _⟩, fun {_ r} hr => ⟨r.target, h.old hr⟩,
    Nat.le_of_eq h.count.symm, fun a _ => by rw [h.region, halike.mem]⟩
  rw [h.cached_other hj] at hf'
  exact hf'

/-! ### Dropping fragments -/

/-- A fragment is dropped, with all that depends on it. -/
theorem invalidate_persists (hs : Sound False q c) (hq : q) (hlt : c.guardCount < 2 ^ 32)
    (id : FragmentId) :
    Ensures Anyhow (invalidate id) c fun _ c' =>
    Sound False q c' ∧ c'.guardCount = c.guardCount ∧ Persists N c c' := by
  obtain ⟨c₁, c', hsweep, -, hretracted, -, hdropping⟩ :=
    sweep_ok hs hq hlt id (List.Perm.refl c.registeredGuards)
  have hrun := (invalidate_eq c id).trans hsweep
  obtain ⟨hs', hpruned⟩ := (ensures_ok hrun).mp (invalidate_ensures hs False.elim)
  refine (ensures_ok hrun).mpr ⟨hs', hpruned.count,
    .trans (hretracted.persists (hs.wired hq hlt) hs.housed (hs.armed (.inr hlt))
    (hs.issued hlt) fun g hg => ?_) hdropping.persists⟩
  exact hs.trees.mem_registeredGuards.mp (List.mem_filter.mp hg).1

theorem invalidateRoots_persists (hs : Sound False q c) (hq : q) (hlt : c.guardCount < 2 ^ 32)
    (l : List FragmentId) :
    Ensures Anyhow (invalidateRoots l) c fun _ c' =>
    Sound False q c' ∧ c'.guardCount = c.guardCount ∧ Persists N c c' := by
  induction l generalizing c with
  | nil => exact ⟨hs, rfl, .refl N c⟩
  | cons id l ih =>
    unfold invalidateRoots
    refine .get ?_
    extract_lets next
    have hnext : ∀ gone c₁, Sound False q c₁ → c₁.guardCount = c.guardCount → Persists N c c₁ →
      Ensures Anyhow (next gone) c₁
        fun _ c' => Sound False q c' ∧ c'.guardCount = c.guardCount ∧ Persists N c c' := by
      intro gone c₁ hs₁ hcount₁ h₁
      refine .bind (ih hs₁ (hcount₁ ▸ hlt)) fun _ c' hafter => ?_
      obtain ⟨hs', hcount', h'⟩ := hafter
      exact .pure ⟨hs', hcount'.trans hcount₁, h₁.trans h'⟩
    split
    · split
      · exact hnext [] c hs rfl (.refl N c)
      · exact .bind (invalidate_persists hs hq hlt id) fun gone c₁ h₁ =>
          hnext gone c₁ h₁.1 h₁.2.1 h₁.2.2
    · exact hnext [] c hs rfl (.refl N c)

/-- Everything is dropped, but the shared exit code stays. -/
theorem flush_persists (hs : Sound False q c) (hq : q) (hlt : c.guardCount < 2 ^ 32) :
    Ensures Anyhow flush c fun _ c' => Persists N c c' := by
  unfold flush
  refine .get (.bind (invalidateRoots_persists hs hq hlt _) fun gone c₁ ⟨_, _, h₁⟩ =>
    .modify_bind (.pure (h₁.trans ?_)))
  refine persists_congr rfl (CodePages.alike_reset _) rfl rfl fun hf' _ _ => ?_
  have hnone : c₁.emptied.cached? _ = some _ := hf'
  exact (not_cached_emptied hnone).elim

end FragmentCache

end LoopTracer
