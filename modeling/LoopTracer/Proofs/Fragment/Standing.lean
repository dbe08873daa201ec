import LoopTracer.Proofs.Compile.Standing
import LoopTracer.Proofs.Fragment.Persistence

/-! The code that a cache has in use.

The shared exit code stands in memory, and so does the code of every compiled fragment: it does what
the trace of the fragment says and ends where the trace ends (`Standing`). Whatever leaves compiled
fragments alone keeps this, and a fragment that gets its code joins them. -/
namespace LoopTracer.FragmentCache

open Trace Compile Machine

variable {c c' : FragmentCache} {id : FragmentId} {f f' : Fragment} {p q : Prop}
  {N : FragmentId → Prop} {maxSlots : Int}

/-- Where the parts of a compiled fragment are. -/
def placesOf (c : FragmentCache) (f : Fragment) : Places where
  main := f.mainPages
  exits := f.exitPages
  entry := f.entry
  loopTop := f.loopTop
  base := f.exitBase
  guards := f.guards.map fun g => ((c.guards[g]?).map stubOf).getD ⟨g, 0, 0⟩

/-- The code of a fragment stands, and it leads on to the top of its own trace or that of its
target. -/
def Served (maxSlots : Int) (c : FragmentCache) (f : Fragment) : Prop := ∃ b top targetTop,
  f.trace = some b ∧ Coded c.region (c.placesOf f) maxSlots (introOf f maxSlots) top b ∧
    Closes b f.loopTop targetTop top ∧ ∀ t q, f.treeTarget = some t → c.cached? t = some q →
      q.state = .compiled →
      targetTop = q.loopTop

/-- All compiled code stands, and so does the shared exit code. -/
structure Standing (maxSlots : Int) (c : FragmentCache) : Prop where
  shared : ∃ stop, Stands c.region [0] (fun _ => False) c.region.bailout.toNat stop [.bailout]
  served : ∀ {id f}, c.cached? id = some f → f.state = .compiled → Served maxSlots c f

/-- The jumps of a fragment are where they were. -/
theorem Persists.placesOf (h : Persists N c c') (hi : Issued c) (hf : c.fragment? id = some f)
    (hkept : f.Kept f') :
    c'.placesOf f' = c.placesOf f := by
  obtain ⟨⟨_, _, _, _, _, _, rfl⟩, -⟩ := hkept
  have hguards : ∀ g ∈ f.guards, ((c'.guards[g]?).map stubOf).getD ⟨g, 0, 0⟩ =
      ((c.guards[g]?).map stubOf).getD ⟨g, 0, 0⟩ := by
    intro g hg
    obtain ⟨r, hr, -⟩ := hi id f g hf hg
    obtain ⟨target, hr'⟩ := h.guards hr
    rw [hr, hr']
    rfl
  unfold FragmentCache.placesOf
  congr 1
  exact List.map_congr_left fun g hg => by rw [hguards g hg]

/-- The shared exit code is left alone. -/
theorem Persists.shared (h : Persists N c c')
    (hc : ∃ stop, Stands c.region [0] (fun _ => False) c.region.bailout.toNat stop [.bailout]) :
    ∃ stop, Stands c'.region [0] (fun _ => False) c'.region.bailout.toNat stop [.bailout] := by
  obtain ⟨stop, hstands⟩ := hc
  refine ⟨stop, h.bailout ▸ hstands.congr h.size h.page fun a ha _ => h.bytes a (.inl ?_)⟩
  rw [h.page]
  exact List.mem_singleton.mp ha

/-- The code of a fragment that stays. -/
theorem Persists.served (h : Persists N c c') (hb : c.backend = .virtual) (hi : Issued c)
    (hf' : c'.cached? id = some f')
    (hstate : f'.state = .compiled) (hid : ¬ N id) (htarget : ∀ t, f'.treeTarget = some t → ¬ N t)
    (hserved : ∀ {f}, c.cached? id = some f → f.state = .compiled →
      Served maxSlots c f) : Served maxSlots c' f' := by
  obtain ⟨f, hf, hkept⟩ := h.fragment hf' hstate hid
  have hplaces := h.placesOf hi (fragment?_of_cached hf) hkept
  have hpages : ∀ side, ∀ a, a / c.region.bytes ∈ f.pages side →
      (side = .exits → ¬ (c.placesOf f).Patched a) → Fixed N c' a := by
    intro side a ha hout
    refine .inr ⟨id, f', side, hf', hstate, hid, ?_, fun hside g hg r hr hin => hout hside ?_⟩
    · rw [h.page, hkept.pages]
      exact ha
    · rw [h.backend, hb] at hin
      rw [← hplaces]
      refine ⟨stubOf r, List.mem_map.mpr ⟨g, hg, ?_⟩, hin⟩
      rw [hr]
      rfl
  have hsame : f'.trace = f.trace ∧ f'.kind = f.kind ∧ f'.loopTop = f.loopTop ∧
      f'.treeTarget = f.treeTarget ∧ f'.state = f.state := by
    obtain ⟨⟨_, _, _, _, _, _, rfl⟩, -⟩ := hkept
    exact ⟨rfl, rfl, rfl, rfl, rfl⟩
  obtain ⟨htrace, hkind, hloopTop, htreeTarget, hsame⟩ := hsame
  obtain ⟨b, top, targetTop, hb', hcoded, hcloses, htop⟩ := hserved hf (hsame ▸ hstate)
  refine ⟨b, top, targetTop, htrace.trans hb', ?_, hloopTop ▸ hcloses,
    fun t q' ht hq' hstate' => ?_⟩
  · rw [hplaces]
    unfold introOf
    rw [hkind]
    refine hcoded.congr h.size h.page (fun a ha => h.bytes a (hpages .main a ha nofun))
      fun a ha hout => ?_
    exact h.bytes a (hpages .exits a ha fun _ => hout)
  · obtain ⟨q, hq, hkept'⟩ := h.fragment hq' hstate' (htarget t ht)
    rw [htop t q (htreeTarget ▸ ht) hq]
    · obtain ⟨⟨_, _, _, _, _, _, rfl⟩, -⟩ := hkept'
      rfl
    · obtain ⟨⟨_, _, _, _, _, _, rfl⟩, -⟩ := hkept'
      exact hstate'

theorem Standing.persists (hs : Standing maxSlots c) (h : Persists (fun _ => False) c c')
    (hb : c.backend = .virtual)
    (hi : Issued c) : Standing maxSlots c' where
  shared := h.shared hs.shared
  served hf' hstate := h.served hb hi hf' hstate id (fun _ _ => id) hs.served

/-! ### A fragment that gets its code -/

section installed

variable {a : Assembly} {r : CodePages} {shop : Workshop} {l : List Nat}

/-- The code of a fragment that was compiled is put into use. -/
theorem Standing.installed (hs : Standing maxSlots c) (hsound : Sound p q c) (hq : q)
    (hlt : c'.guardCount < 2 ^ 32) (hb : c.backend = .virtual) (hf : c.cached? id = some f)
    (hopen : f.state ≠ .compiled)
    (hfrees : c.region.Frees l) (hbeside : CodePages.Beside l c.region shop.region)
    (hle : c.guardCount ≤ shop.guardCount)
    (halike : CodePages.Alike shop.region r) (h : Installed id a r (c.rebased shop) c')
    (hguards : ∀ g ∈ a.guards, c'.guards[g.id]? = some g) {b : Buffer} {top : CodeAddr}
    (htrace : f.trace = some b)
    (hcoded : Coded shop.region ⟨a.mainPages, a.exitPages, a.entry, a.loopTop, f.exitBase,
      a.guards.map stubOf⟩
      maxSlots (introOf f maxSlots) top b)
    (hcloses : Closes b a.loopTop
      ((f.treeTarget.bind c.fragment?).elim 0 (·.loopTop)) top) : Standing maxSlots c' := by
  have hlt₀ : c.guardCount < 2 ^ 32 :=
    Nat.lt_of_le_of_lt (Nat.le_trans hle (Nat.le_of_eq h.count.symm)) hlt
  have hw := hsound.wired hq hlt₀
  have hrebased : Persists (· = id) c (c.rebased shop) :=
    rebased_persists hw.laid hsound.housed hfrees hbeside hle
  have hpersists := hrebased.trans (h.persists halike)
  refine ⟨hpersists.shared hs.shared, fun {j f'} hf' hstate => ?_⟩
  by_cases hj : j = id
  · subst hj
    have hself : c'.cached? j = some (equip a f) := h.cached_self hf
    rw [hf'] at hself
    cases hself
    refine ⟨b, top, _, htrace, ?_, hcloses, fun t q' ht hq' _ => ?_⟩
    · have hplaces : c'.placesOf (equip a f) =
          ⟨a.mainPages, a.exitPages, a.entry, a.loopTop, f.exitBase, a.guards.map stubOf⟩ := by
        unfold placesOf
        congr 1
        show (a.guards.map (·.id)).map _ = _
        rw [List.map_map]
        refine List.map_congr_left fun g hg => ?_
        show (Option.map stubOf c'.guards[g.id]?).getD _ = _
        rw [hguards g hg]
        rfl
      have hregion : c'.region.mem = shop.region.mem := by rw [h.region, halike.mem]
      have hbytes : c'.region.bytes = shop.region.bytes := by
        rw [h.region]
        exact congrArg Int.toNat halike.pageSize
      rw [hplaces]
      exact hcoded.congr (by rw [hregion]) hbytes (fun a _ => by rw [hregion]) fun a _ _ => by
        rw [hregion]
    · obtain ⟨q, hqt, hqstate⟩ := hsound.trees.target hf ht
      have hne : t ≠ j := by
        rintro rfl
        rw [hf] at hqt
        cases hqt
        exact hopen hqstate
      rw [h.cached_other hne] at hq'
      change c.cached? t = some q' at hq'
      have hbind : f.treeTarget.bind c.fragment? = some q' := by
        change f.treeTarget = some t at ht
        rw [ht]
        exact fragment?_of_cached hq'
      rw [hbind]
      rfl
  · refine hpersists.served hb (hsound.issued hlt₀) hf' hstate hj (fun t ht heq => ?_) hs.served
    obtain ⟨f₀, hf₀, hkept⟩ := hpersists.fragment hf' hstate hj
    have ht₀ : f₀.treeTarget = some t := by
      obtain ⟨⟨_, _, _, _, _, _, rfl⟩, -⟩ := hkept
      exact ht
    obtain ⟨q, hqt, hqstate⟩ := hsound.trees.target hf₀ ht₀
    rw [heq, hf] at hqt
    cases hqt
    exact hopen hqstate

/-- A trace that was recorded is compiled and put into use. -/
theorem install_stands {limits : Limits} {c₁ : FragmentCache} (hs : Standing limits.maxSpillSlots c)
    (hsound : Sound p q c) (hq : q)
    (hp : limits.Portable) (hbackend : limits.backend = c.backend)
    (hpage : 1024 ≤ c.region.pageSize)
    (hf : c.cached? id = some f) (hopen : f.state ≠ .compiled) {b : Buffer}
    (htrace : f.trace = some b)
    (hsupplied : b.Supplied) (hends : b.insts.back?.any (·.op.isTerminal) = true)
    (hok : c.assemble limits .standard f = .ok a c₁) :
    Ensures Anyhow (install id a) c₁ fun _ c' => c'.guardCount < 2 ^ 32 →
    Standing limits.maxSpillSlots c' := by
  obtain ⟨l, hfrees⟩ := hsound.housed.held.frees
  rw [assemble_eq] at hok
  split at hok
  · next a' shop hok' =>
    cases hok
    have hb := assemble_ok hfrees hok'
    have hnone : ∀ side, c.pagesOf id side = [] := hsound.housed.bare (fragment?_of_cached hf) hopen
    have hnew : ∀ side, ∀ h ∈ a.pages side, shop.region.pages[h]? = some { kind := side.kind } :=
      fun side => by
      cases side
      · exact hb.main
      · exact hb.exit
    obtain ⟨r₁, r₂, hmain, hexits, halike, -⟩ :=
      hsound.housed.held.occupy hfrees hb.beside hnew hb.frees hnone
    have hinstall :=
      install_ensures (c := c.rebased shop)
        (fragment?_eq_some.mp (fragment?_of_cached hf)).1 a hmain hexits
    refine hinstall.anyhow.mono fun _ c' h hlt => ?_
    have hlt₀ : shop.guardCount < 2 ^ 32 := Nat.lt_of_le_of_lt (Nat.le_of_eq h.count.symm) hlt
    have hw' := hsound.wired hq (Nat.lt_of_le_of_lt hb.count hlt₀)
    obtain ⟨top, hcoded, hcloses⟩ :=
      assemble_coded hp hfrees hw'.laid hpage htrace hsupplied hends hok'
    refine hs.installed hsound hq hlt (hbackend.symm.trans hp.backend) hf hopen hfrees hb.beside
      hb.count halike h (fun g hg => ?_)
      htrace hcoded hcloses
    obtain ⟨k, hlow, hhigh, hk⟩ := hb.number hg
    refine h.fresh hg ?_
    rw [hk]
    exact hsound.trees.unissued hlow (Nat.lt_of_le_of_lt hhigh hlt₀)
  · cases hok

end installed

/-- The exit of a guard is sent into the branch that starts there. -/
theorem promote_persists (hs : Sound p q c) (hq : q) (hlt : c.guardCount < 2 ^ 32) {g : Guard}
    {child : Fragment}
    (hg : c.guards[g.id]? = some g) (hregistered : g.id ∈ c.registered) :
    Ensures Anyhow (promote g child) c fun _ c' => Persists N c c' := by
  unfold promote
  split
  · exact .throw trivial
  · unfold Ensures
    rw [redirect_eq]
    cases hpatch : c.backend.patch c.region.mem g.site child.entry with
    | error e => trivial
    | ok mem =>
      exact redirected_persists (hs.wired hq hlt) hs.housed (hs.armed (.inr hlt))
        (hs.issued hlt) hg hregistered hpatch

end LoopTracer.FragmentCache
