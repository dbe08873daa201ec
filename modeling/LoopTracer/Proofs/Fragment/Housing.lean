import LoopTracer.Proofs.Compile.Assembled
import LoopTracer.Proofs.Fragment.Trees

/-! Who has which page.

Every page but the first is free or belongs to one fragment, which lists it once, under what it is
used for (`Held`). Only compiled fragments that are cached have pages (`Housed`). Compiling takes
pages off the free ones, dropping a fragment gives its pages back, and nothing else moves a page. -/
namespace LoopTracer

open Trace Compile

/-- The pages of a fragment's main code, or those of its exits. -/
def Fragment.pages (f : Fragment) : Side → List Nat
  | .main => f.mainPages
  | .exits => f.exitPages

/-- The pages of a compiled trace. -/
def Compile.Assembly.pages (a : Assembly) : Side → List Nat
  | .main => a.mainPages
  | .exits => a.exitPages

/-- The first page holds the shared exit code, and each other page is free or in one of the lists of
pages, once. -/
structure Compile.CodePages.Held (r : CodePages) (who : FragmentId → Side → List Nat) : Prop where
  first : ∃ p, r.pages[0]? = some p ∧ p.kind = .bailout
  frees : ∃ l, r.Frees l
  used : ∀ {id side h}, h ∈ who id side → r.pages[h]? = some { kind := side.kind, owner := id }
  nodup : ∀ id side, (who id side).Nodup
  all : ∀ {h : Nat} {p}, r.pages[h]? = some p → p.kind = .free ∨ h = 0 ∨ ∃ id side, h ∈ who id side

namespace Compile.CodePages

variable {r r' : CodePages} {who : FragmentId → Side → List Nat} {id j : FragmentId}
  {side side' : Side} {h : Nat}
  {l : List Nat}

theorem Held.ne (hr : r.Held who) (hh : h ∈ who id side) : h ≠ 0 := by
  rintro rfl
  obtain ⟨p, hp, hkind⟩ := hr.first
  rw [hr.used hh] at hp
  cases hp
  exact (Side.kind_ne side).2 hkind

theorem Held.inj (hr : r.Held who) (hh : h ∈ who id side)
    (hh' : h ∈ who j side') : id = j ∧ side = side' := by
  have hsame := (hr.used hh).symm.trans (hr.used hh')
  injection hsame with hsame
  injection hsame with hkind howner
  exact ⟨howner, Side.kind_inj hkind⟩

/-- A page that somebody has is not free. -/
theorem Held.not_free (hr : r.Held who) (hf : r.Frees l) (hh : h ∈ who id side) : h ∉ l :=
  fun hl => (Side.kind_ne side).1 ((hf.mem_iff (hr.used hh)).mp hl)

theorem Held.zero_not_free (hr : r.Held who) (hf : r.Frees l) : 0 ∉ l := by
  intro hl
  obtain ⟨p, hp, hkind⟩ := hr.first
  have hfree := (hf.mem_iff hp).mp hl
  rw [hkind] at hfree
  cases hfree

/-- Nothing was taken. -/
theorem Held.beside {l' : List Nat} (hr : r.Held who) (hf : r.Frees l) (hb : Beside l r r')
    (hf' : r'.Frees l')
    (hperm : l'.Perm l) : r'.Held who where
  first := by
    rw [hb.others 0 (hr.zero_not_free hf)]
    exact hr.first
  frees := ⟨l', hf'⟩
  used hh := by
    rw [hb.others _ (hr.not_free hf hh)]
    exact hr.used hh
  nodup := hr.nodup
  all := fun {h p} hp => by
    by_cases hl : h ∈ l
    · exact .inl ((hf'.mem_iff hp).mp (hperm.mem_iff.mpr hl))
    · rw [hb.others h hl] at hp
      exact hr.all hp

/-- A fragment gives all its pages back. -/
theorem Held.vacate (hr : r.Held who) (id : FragmentId) :
    ∃ r₁ r₂, releaseAll (who id .main) r = .ok () r₁ ∧
    releaseAll (who id .exits) r₁ = .ok () r₂ ∧ Alike r r₂ ∧
      r₂.Held fun j side => if j = id then [] else who j side := by
  obtain ⟨l, hf⟩ := hr.frees
  have hused : ∀ side, ∀ h ∈ who id side, ∃ p, r.pages[h]? = some p ∧ p.kind ≠ .free ∧
      p.kind ≠ .bailout :=
    fun side h hh => ⟨_, hr.used hh, Side.kind_ne side⟩
  obtain ⟨r₁, hmain, hf₁, halike₁, hothers₁⟩ := releaseAll_ok hf (hr.nodup id .main) (hused .main)
  have hdisjoint : ∀ h ∈ who id .exits, h ∉ who id .main := fun h hh hh' => by
    cases (hr.inj hh hh').2
  obtain ⟨r₂, hexits, hf₂, halike₂, hothers₂⟩ :=
    releaseAll_ok hf₁ (hr.nodup id .exits) fun h hh => by
    rw [hothers₁ h (hdisjoint h hh)]
    exact hused .exits h hh
  have hothers : ∀ h, (∀ side, h ∉ who id side) → r₂.pages[h]? = r.pages[h]? := fun h hh => by
    rw [hothers₂ h (hh .exits), hothers₁ h (hh .main)]
  have hfreed : ∀ h side, h ∈ who id side →
      h ∈ (who id .exits).reverse ++ ((who id .main).reverse ++ l) := by
    intro h side hh
    cases side <;> simp [hh]
  refine ⟨r₁, r₂, hmain, hexits, halike₁.trans halike₂, ?_, ⟨_, hf₂⟩, ?_, fun j side => ?_,
    fun {h p} hp => ?_⟩
  · rw [hothers 0 fun side hh => hr.ne hh rfl]
    exact hr.first
  · intro j side h hh
    split at hh
    · cases hh
    · next hj =>
      rw [hothers h fun side' hh' => hj (hr.inj hh hh').1]
      exact hr.used hh
  · split
    · exact .nil
    · exact hr.nodup j side
  · by_cases hmine : ∃ side, h ∈ who id side
    · obtain ⟨side, hh⟩ := hmine
      exact .inl ((hf₂.mem_iff hp).mp (hfreed h side hh))
    · have hmine' : ∀ side, h ∉ who id side := fun side hh => hmine ⟨side, hh⟩
      rw [hothers h hmine'] at hp
      refine (hr.all hp).imp_right fun hused => hused.imp_right fun ⟨j, side, hh⟩ => ⟨j, side, ?_⟩
      rwa [if_neg]
      exact fun hj => hmine' side (hj ▸ hh)

/-- A fragment that had no pages gets some that were free. -/
theorem Held.occupy (hr : r.Held who) (hf : r.Frees l) (hb : Beside l r r') {new : Side → List Nat}
    (hnew : ∀ side, ∀ h ∈ new side, r'.pages[h]? = some { kind := side.kind })
    (hfrees : ∃ l', r'.Frees l' ∧ (new .main ++ new .exits ++ l').Perm l)
    (hnone : ∀ side, who id side = []) :
    ∃ r₁ r₂, handOver id (new .main) r' = .ok () r₁ ∧
    handOver id (new .exits) r₁ = .ok () r₂ ∧ Alike r' r₂ ∧
      r₂.Held fun j side => if j = id then new side else who j side := by
  obtain ⟨l', hf', hperm⟩ := hfrees
  have hlt : ∀ side, ∀ h ∈ new side, h < r'.pages.size := fun side h hh =>
    (Array.getElem?_eq_some_iff.mp (hnew side h hh)).1
  obtain ⟨r₁, hmain, halike₁, hfree₁, hcount₁, hpages₁⟩ := handOver_ok id (hlt .main)
  have hlt₁ : ∀ h ∈ new .exits, h < r₁.pages.size := fun h hh => by
    rw [halike₁.size]
    exact hlt .exits h hh
  obtain ⟨r₂, hexits, halike₂, hfree₂, hcount₂, hpages₂⟩ := handOver_ok id hlt₁
  have hmem : ∀ side, ∀ h ∈ new side, h ∈ l := fun side h hh =>
    hperm.mem_iff.mp (by cases side <;> simp [hh])
  have hnodup := hperm.nodup_iff.mpr hf.nodup
  rw [List.nodup_append, List.nodup_append] at hnodup
  obtain ⟨⟨hnodupM, hnodupE, -⟩, -, -⟩ := hnodup
  -- only the owners have changed
  have hmine : ∀ side, ∀ h ∈ new side, r₂.pages[h]? = some { kind := side.kind, owner := id } := by
    intro side h hh
    rw [hpages₂ h, hpages₁ h, hnew side h hh]
    cases side
    · rw [if_pos hh]
      split <;> rfl
    · rw [if_pos hh]
      split <;> rfl
  have hothers : ∀ h, (∀ side, h ∉ new side) → r₂.pages[h]? = r'.pages[h]? := fun h hh => by
    rw [hpages₂ h, if_neg (hh .exits), hpages₁ h, if_neg (hh .main)]
  have hf₂ : r₂.Frees l' := by
    refine hf'.congr (hfree₂.trans hfree₁) (hcount₂.trans hcount₁)
      (halike₂.size.trans halike₁.size) fun h p hp => ?_
    rw [hpages₂ h, hpages₁ h, hp]
    split <;> split <;> exact ⟨_, rfl, rfl, rfl⟩
  have hout : ∀ h, h ∉ l → r₂.pages[h]? = r.pages[h]? := fun h hh => by
    rw [hothers h fun side hh' => hh (hmem side h hh'), hb.others h hh]
  refine ⟨r₁, r₂, hmain, hexits, halike₁.trans halike₂, ?_, ⟨l', hf₂⟩, ?_, fun j side => ?_,
    fun {h p} hp => ?_⟩
  · rw [hout 0 (hr.zero_not_free hf)]
    exact hr.first
  · intro j side h hh
    split at hh
    · next hj =>
      rw [hj]
      exact hmine side h hh
    · rw [hout h (hr.not_free hf hh)]
      exact hr.used hh
  · split
    · cases side
      · exact hnodupM
      · exact hnodupE
    · exact hr.nodup j side
  · by_cases hl : h ∈ l
    · rw [← hperm.mem_iff, List.mem_append, List.mem_append] at hl
      rcases hl with (hh | hh) | hh
      · exact .inr (.inr ⟨id, .main, by rwa [if_pos rfl]⟩)
      · exact .inr (.inr ⟨id, .exits, by rwa [if_pos rfl]⟩)
      · exact .inl ((hf₂.mem_iff hp).mp hh)
    · rw [hout h hl] at hp
      refine (hr.all hp).imp_right fun hused => hused.imp_right fun ⟨j, side, hh⟩ => ⟨j, side, ?_⟩
      rwa [if_neg]
      intro hj
      rw [hj, hnone side] at hh
      cases hh

/-- After a reset nobody has a page. -/
theorem held_reset (r : CodePages) (hsize : 0 < r.pages.size) : r.reset.Held fun _ _ => [] where
  first := ⟨{ kind := .bailout }, getElem?_fresh hsize, rfl⟩
  frees := ⟨_, frees_reset r⟩
  used := nofun
  nodup _ _ := .nil
  all := fun {h p} hp => by
    have hlt : h < r.pages.size := by
      simpa [reset, fresh_size] using (Array.getElem?_eq_some_iff.mp hp).1
    by_cases hzero : h = 0
    · exact .inr (.inl hzero)
    · refine .inl (((frees_reset r).mem_iff hp).mp ?_)
      rw [List.mem_range'_1]
      omega

end Compile.CodePages

namespace FragmentCache

variable {c c' : FragmentCache} {id : FragmentId} {f f' : Fragment}

/-- The pages that a fragment has. -/
def pagesOf (c : FragmentCache) (id : FragmentId) (side : Side) : List Nat :=
  (c.fragment? id).elim [] (·.pages side)

/-- Each page is free or is had by one compiled fragment. -/
structure Housed (c : FragmentCache) : Prop where
  held : c.region.Held c.pagesOf
  lodged : ∀ {id f side}, c.fragment? id = some f → f.pages side ≠ [] →
    f.cached = true ∧ f.state = .compiled

theorem pagesOf_eq (hf : c.fragment? id = some f) (side : Side) :
    c.pagesOf id side = f.pages side := by
  rw [pagesOf, hf]
  rfl

/-- A fragment that is not compiled has no pages. -/
theorem Housed.bare (h : Housed c) (hf : c.fragment? id = some f)
    (hstate : f.state ≠ .compiled) (side : Side) :
    c.pagesOf id side = [] := by
  rw [pagesOf_eq hf]
  exact Classical.byContradiction fun hpages => hstate (h.lodged hf hpages).2

/-- The pages of fragments are the same, and those that have some are as they were. -/
theorem Housed.congr (h : Housed c) (hheld : c'.region.Held c.pagesOf)
    (hpages : ∀ id side, c'.pagesOf id side = c.pagesOf id side)
    (hsame : ∀ {id f'}, c'.fragment? id = some f' → ∀ f, c.fragment? id = some f → f.cached = true →
      f.state = .compiled → f'.cached = true ∧ f'.state = .compiled) : Housed c' where
  held := by
    have hfun : c'.pagesOf = c.pagesOf := funext fun id => funext fun side => hpages id side
    rwa [hfun]
  lodged := fun {id f' side} hf' hne => by
    rw [← pagesOf_eq hf', hpages] at hne
    cases hf : c.fragment? id with
    | none =>
      rw [pagesOf, hf] at hne
      exact absurd rfl hne
    | some f =>
      rw [pagesOf_eq hf] at hne
      obtain ⟨hcached, hstate⟩ := h.lodged hf hne
      exact hsame hf' f hf hcached hstate

end FragmentCache

end LoopTracer
