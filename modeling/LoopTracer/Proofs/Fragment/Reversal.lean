import LoopTracer.Proofs.Fragment.Filing

/-! Taking back what was done for a recording.

A trace that does not compile is taken away from its fragment again (`detach_restored`), and a
branch that is given up is taken away from its parent (`discard_attached`). What is left is what was
there before, but for places in tables that nothing refers to. Pages that are in use keep their
bytes, and the free pages are the same, in another order perhaps (`Unspoilt`). -/
namespace LoopTracer

open Trace Compile

/-! ### Pages -/

/-- Pages that are in use are left alone, and others are in use neither before nor after. -/
structure Compile.CodePages.Unspoilt (r r' : CodePages) : Prop where
  size : r'.pages.size = r.pages.size
  pageSize : r'.pageSize = r.pageSize
  bailout : r'.bailout = r.bailout
  last : r'.last = r.last
  used : ∀ (h : Nat) p, p.kind ≠ .free → (r'.pages[h]? = some p ↔ r.pages[h]? = some p)
  free : ∀ h : Nat, (∃ p, r'.pages[h]? = some p ∧ p.kind = .free) ↔
    ∃ p, r.pages[h]? = some p ∧ p.kind = .free
  memory : r'.mem.size = r.mem.size
  bytes : r.Sized → ∀ a p, r.pages[a / r.bytes]? = some p → p.kind ≠ .free →
    r'.mem.get? a = r.mem.get? a

namespace Compile.CodePages

theorem Unspoilt.refl (r : CodePages) : Unspoilt r r :=
  ⟨rfl, rfl, rfl, rfl, fun _ _ _ => Iff.rfl, fun _ => Iff.rfl, rfl, fun _ _ _ _ _ => rfl⟩

variable {r r' : CodePages} {l l' : List Nat}

/-- The free pages are those on the chain. -/
theorem Frees.free_iff (hf : r.Frees l) (h : Nat) :
    (∃ p, r.pages[h]? = some p ∧ p.kind = .free) ↔ h ∈ l :=
  ⟨fun ⟨p, hp, hkind⟩ => hf.all h p hp hkind, fun hh => hf.linked.kind hh⟩

/-- Nothing has changed outside of the free pages, and they are free again. -/
theorem Beside.unspoilt (hb : Beside l r r') (hf : r.Frees l) (hf' : r'.Frees l')
    (hperm : l'.Perm l)
    (hsize : r'.mem.size = r.mem.size)
    (hbytes : r.Sized → ∀ a, a / r.bytes ∉ l → r'.mem.get? a = r.mem.get? a) :
    Unspoilt r r' := by
  refine ⟨hb.size, hb.pageSize, hb.bailout, hb.last, fun h p hkind => ?_, fun h => ?_, hsize,
    fun hr a p hp hkind => ?_⟩
  · by_cases hh : h ∈ l
    · refine iff_of_false (fun hp => hkind ?_) fun hp => hkind ((hf.mem_iff hp).mp hh)
      exact (hf'.mem_iff hp).mp (hperm.mem_iff.mpr hh)
    · rw [hb.others h hh]
  · rw [hf.free_iff, hf'.free_iff, hperm.mem_iff]
  · exact hbytes hr a fun ha => hkind ((hf.mem_iff hp).mp ha)

end Compile.CodePages

/-- Unless it ran out of pages, a compilation that failed has left the pages alone. -/
theorem Compile.assemble_unspoilt {limits : Limits} {helpers : HelperTable} {f : Fragment}
    {target : Option Fragment}
    {shop shop' : Workshop} {e : AssembleError} (hf : ∃ l, shop.region.Frees l)
    (h : Compile.assemble limits helpers f target shop = .error e shop')
    (hfault : ∀ fault, e ≠ .fault fault)
    (hspace : ∀ e', e = .compile e' → e'.kind ≠ .outOfSpace) :
    CodePages.Unspoilt shop.region shop'.region := by
  obtain ⟨l, hf⟩ := hf
  have htended := ((assemble_restocks limits helpers f target).error h).1.region
  rcases assemble_error hf h with ⟨fault, heq, -⟩ | ⟨-, hbeside, ⟨l', hf', hperm⟩, -⟩
  · exact absurd heq (hfault fault)
  · exact hbeside.unspoilt hf hf' hperm htended.memory.size fun hr a ha =>
      assemble_spares hf hr h hfault hspace a ha

namespace FragmentCache

variable {V : Immediate → Prop} {B : FragmentId → LoopKey → Prop} {own : Option FragmentId}
  {c c' c₁ c₂ : FragmentCache}
  {id : FragmentId} {f : Fragment}

/-! ### Traces -/

/-- A cache in which a trace was taken away from a fragment again: where its exits began is all
that tells. -/
structure Undone (id : FragmentId) (c c' : FragmentCache) : Prop where
  fragments : ∃ exitBase, ∀ k, c'.fragment? k = (c.fragment? k).map fun f =>
    if k = id then { f with exitBase } else f
  backend : c'.backend = c.backend
  roots : c'.roots = c.roots
  guards : c'.guards = c.guards
  registered : c'.registered = c.registered
  exits : ∀ n < c.exits.size, c'.exits[n]? = c.exits[n]?
  region : CodePages.Unspoilt c.region c'.region

theorem Undone.refl (hf : c.fragment? id = some f) : Undone id c c := by
  refine ⟨⟨f.exitBase, fun k => ?_⟩, rfl, rfl, rfl, rfl, fun _ _ => rfl, .refl _⟩
  by_cases hk : k = id
  · subst hk
    rw [hf, Option.map_some, if_pos rfl]
  · simp only [if_neg hk, Option.map_id']

/-- A trace that did not compile is taken away again. -/
theorem detach_restored (hc : c.region.Ruled) (hf : c.fragment? id = some f)
    (htrace : f.trace = none)
    (htarget : f.treeTarget = none) {limits : Limits} {helpers : HelperTable} {b : Buffer}
    {target : Option FragmentId}
    {e : AssembleError}
    (h : (c.attachTrace id b target).assemble limits helpers
      { f with trace := some b, exitBase := c.exits.size, treeTarget := target } = .error e c')
    (hfault : ∀ fault, e ≠ .fault fault) (hspace : ∀ e', e = .compile e' → e'.kind ≠ .outOfSpace) :
    Undone id c (c'.update id ({ · with trace := none, treeTarget := none })) := by
  have hid := (fragment?_eq_some.mp hf).1
  rw [assemble_eq] at h
  split at h
  · cases h
  next e' shop hshop =>
  cases h
  refine ⟨⟨c.exits.size, fun k => ?_⟩, rfl, rfl, rfl, rfl, fun n hn => ?_,
    assemble_unspoilt hc.frees hshop hfault hspace⟩
  · have hattached : (c.attachTrace id b target).fragment? k = if k = id then
        (c.fragment? k).map ({ · with trace := some b, exitBase := c.exits.size,
                                      treeTarget := target }) else c.fragment? k :=
      fragment?_update hid
    rw [fragment?_update hid]
    by_cases hk : k = id
    · subst hk
      rw [if_pos rfl]
      refine (congrArg (Option.map _) hattached).trans ?_
      rw [if_pos rfl, hf]
      simp only [Option.map_some, if_pos, ← htrace, ← htarget]
    · rw [if_neg hk]
      refine hattached.trans ?_
      simp only [if_neg hk, Option.map_id']
  · exact ((((assemble_restocks limits helpers _ _).error hshop).1.exits.below n hn)).trans
      (exits_attachTrace_below c id b target hn)

/-! ### Branches -/

theorem discard_frame (h : discard f c = .ok () c') :
    c' = { c with fragments := c'.fragments } := by
  unfold discard at h
  split at h
  · cases h
  · cases h
    split <;> rfl

theorem attachChild_frame {parent : Fragment} {r : Guard} (h : attachChild parent r c = .ok id c') :
    c' = { c with fragments := c'.fragments } := by
  unfold attachChild at h
  split at h
  · cases h
  · cases h
    rfl

/-- A branch is added below its parent. -/
theorem attachChild_fragment (hsize : c.fragments.size < 2 ^ 32) {parent q : Fragment} {r : Guard}
    (hq : c.fragment? parent.id = some q) (h : attachChild parent r c = .ok id c') (hid : id ≠ 0) :
    c.fragment? id = none ∧ id = c.nextId ∧ id ≠ parent.id ∧
    (∃ new, c'.fragment? id = some new ∧ new.id = id ∧
      new.kind = .branch ∧ new.parent = some parent.id) ∧
      ∀ k, k ≠ id → c'.fragment? k =
        (c.fragment? k).map fun f => if k = parent.id
        then { f with children := f.children ++ [id] } else f := by
  unfold attachChild at h
  split at h
  · cases h
  · cases h
    have hroom := nextId_lt hsize hid
    have hne := (ne_nextId hroom hq).symm
    have hparent := (fragment?_eq_some.mp hq).1
    let new : Fragment := { id := c.nextId, key := parent.key, kind := .branch, root := parent.root
                            parent := some parent.id, anchor := some r.id, entryTypes :=
                                some (c.exitOf r).exit.types }
    refine ⟨fragment?_nextId hroom, rfl, hne, ⟨new, ?_, rfl, rfl, rfl⟩, fun k hk => ?_⟩
    · rw [fragment?_update hparent, if_neg hne, fragment?_add hroom, if_pos rfl]
    · rw [fragment?_update hparent, fragment?_add hroom, if_neg hk]
      split
      · rfl
      · simp

/-- A branch that is given up leaves its parent as it was. -/
theorem discard_attached (hc : c.Filed V B own) (hsize : c.fragments.size < 2 ^ 32)
    {parent q child : Fragment} {r : Guard}
    (hq : c.fragment? parent.id = some q)
    (hattach : attachChild parent r c = .ok id c₁) (hid : id ≠ 0)
    (hchild : child.id = id) (hparent : child.parent = some parent.id)
    (hc₂ : ∀ k, c₂.fragment? k = if k = id then some child else c₁.fragment? k)
    (hdiscard : discard child c₂ = .ok () c') : ∀ k, c'.cached? k = c.cached? k := by
  subst hchild
  obtain ⟨hnone, hnext, hne, -, hothers⟩ := attachChild_fragment hsize hq hattach hid
  -- the number of the branch is a new one
  have hnew : child.id ∉ q.children := by
    intro hmem
    have hle := (hc.fragments hq).children child.id hmem
    rw [hnext] at hid hle
    rw [toNat_nextId (nextId_lt hsize hid)] at hle
    omega
  have hdropped : ∀ k, c'.fragment? k = if k = child.id
    then some { child with cached := false, state := .invalidated }
      else c.fragment? k := by
    unfold discard at hdiscard
    split at hdiscard
    · cases hdiscard
    rw [hparent] at hdiscard
    cases hdiscard
    intro k
    rw [fragment?_update hid, fragment?_update (fragment?_eq_some.mp hq).1, hc₂]
    by_cases hk : k = child.id
    · rw [if_pos hk, if_pos hk, if_pos hk, if_neg (hk ▸ hne)]
      rfl
    · rw [if_neg hk, if_neg hk, if_neg hk, hothers k hk]
      by_cases hkp : k = parent.id
      · subst hkp
        rw [if_pos rfl, hq]
        simp only [if_pos, Option.map_some]
        rw [List.erase_append_right _ hnew, List.erase_cons_head, List.append_nil]
      · simp only [if_neg hkp, Option.map_id']
  intro k
  unfold cached?
  rw [hdropped]
  split
  · next hk => rw [hk, hnone, Option.filter_some, if_neg Bool.false_ne_true, Option.filter_none]
  · rfl

end FragmentCache

end LoopTracer
