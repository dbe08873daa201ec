import Mathlib.Data.List.Nodup
import Mathlib.Data.List.Perm.Subperm
import LoopTracer.Proofs.Fragment.Dependents

/-! The least set of fragments that have to go together.

A branch depends on the fragment it leaves, a peer on its root, and a cached fragment whose trace goes
on in another one depends on that one (`Depends`). What depends on a fragment through any number of
such links is all that has to go with it, and no less than what marking in rounds finds
(`mem_casualties`). Marking may go on in any order, one fragment at a time: it comes to an end, and
always with the same marks (`Marking.complete`). -/
namespace LoopTracer.FragmentCache

variable {c : FragmentCache} {id j k : FragmentId} {f : Fragment} {l : List FragmentId}

/-- The fragment `j` depends directly on the fragment `k`. -/
inductive Depends (c : FragmentCache) (j k : FragmentId) : Prop where
  | branch {f : Fragment} (hf : c.fragment? k = some f) (hj : j ∈ f.children)
  | peer {f : Fragment} (hf : c.fragment? k = some f) (hroot : f.kind = .root) (hj : j ∈ f.peers)
  | target {f : Fragment} (hf : c.cached? j = some f) (htarget : f.treeTarget = some k)

/-- The least set that has the fragment `id` in it and whatever depends on one of its members. -/
inductive Dependent (c : FragmentCache) (id : FragmentId) : FragmentId → Prop where
  | self : Dependent c id id
  | step {j k : FragmentId} (hk : Dependent c id k) (hj : Depends c j k) : Dependent c id j

/-- The fragments that go with a fragment, in the order of their numbers. -/
def casualties (c : FragmentCache) (id : FragmentId) : List FragmentId :=
  (c.fragments.toList.filter fun f => marked (c.dependents id) f.id).map (·.id)

/-! ### What rounds find -/

theorem Depends.cached (ht : Trees c) (hk : ∃ q, c.cached? k = some q) (h : Depends c j k) :
    ∃ q, c.cached? j = some q := by
  obtain ⟨q, hq⟩ := hk
  cases h with
  | branch hf hj =>
    rw [fragment?_of_cached hq] at hf
    cases hf
    obtain ⟨q', hq', -⟩ := (ht.children hq).2 j hj
    exact ⟨q', hq'⟩
  | peer hf _ hj =>
    rw [fragment?_of_cached hq] at hf
    cases hf
    obtain ⟨q', hq', -⟩ := (ht.peers hq).2 j hj
    exact ⟨q', hq'⟩
  | target hf => exact ⟨_, hf⟩

/-- Only cached fragments depend on a cached fragment, through any number of links. -/
theorem Dependent.cached (ht : Trees c) (hf : c.cached? id = some f) (h : Dependent c id j) :
    ∃ q, c.cached? j = some q := by
  induction h with
  | self => exact ⟨f, hf⟩
  | step _ hj ih => exact hj.cached ht ih

theorem Closed.depends {D : FragmentId → Bool} (hc : Closed c D) (hk : ∃ q, c.cached? k = some q)
    (h : Depends c j k) (hD : D k = true) : D j = true := by
  obtain ⟨q, hq⟩ := hk
  cases h with
  | branch hf hj =>
    rw [fragment?_of_cached hq] at hf
    cases hf
    exact hc.children hq hD hj
  | peer hf hroot hj =>
    rw [fragment?_of_cached hq] at hf
    cases hf
    exact hc.peers hq hD hroot hj
  | target hf htarget => exact hc.target hf htarget hD

theorem depends_of_listed (hf : c.fragment? k = some f) (hj : j ∈ listed f) : Depends c j k := by
  rcases List.mem_append.mp hj with hj | hj
  · exact .branch hf hj
  · split at hj
    · next hroot => exact .peer hf hroot hj
    · cases hj

/-- Rounds mark no more than has to go. -/
theorem dependent_of_marked (ht : Trees c) (hid : c.cached? id = some f) {q : Fragment}
    (hq : c.fragment? j = some q) (hD : marked (c.dependents id) j = true) : Dependent c id j := by
  have hall : ∀ k q, c.fragment? k = some q → (c.dependents id)[place k]? = some true →
      Dependent c id k := by
    refine spreadAll_induction (P := fun mask => ∀ k q, c.fragment? k = some q →
      mask[place k]? = some true →
      Dependent c id k) (fun mask ih k q hk hmark => ?_) _ fun k q hk hmark => ?_
    · obtain hmark | ⟨-, f', hf', hpull⟩ := ((spread_marks c mask).2 _).mp hmark
      · exact ih k q hk hmark
      have hf' := ht.fragment?_of_mem hf'
      obtain ⟨j, t, hj, hmarked, hdepends, hplace⟩ : ∃ j t, (∃ q, c.fragment? t = some q) ∧
        marked mask t = true ∧
          Depends c j t ∧ place k = place j := by
        rcases hpull with ⟨⟨hcached, htarget⟩, hplace⟩ | ⟨hmarked, k', hk', hplace⟩
        · cases ht' : f'.treeTarget with
          | none =>
            rw [ht'] at htarget
            cases htarget
          | some t =>
            rw [ht'] at htarget
            have hc := cached?_eq_some.mpr ⟨hf', hcached⟩
            obtain ⟨q', hq', -⟩ := ht.target hc ht'
            exact ⟨f'.id, t, ⟨q', fragment?_of_cached hq'⟩, htarget, .target hc ht', hplace⟩
        · exact ⟨k', f'.id, ⟨f', hf'⟩, hmarked, depends_of_listed hf' hk', hplace⟩
      obtain ⟨q', hq'⟩ := hj
      have hdependent := Dependent.step (ih t q' hq' (marked_iff.mp hmarked)) hdepends
      obtain ⟨q'', hq''⟩ := hdependent.cached ht hid
      rwa [place_inj (fragment?_eq_some.mp hk).1
        (fragment?_eq_some.mp (fragment?_of_cached hq'')).1 hplace]
    · obtain hmark | ⟨-, hplace⟩ := getElem?_set!_true.mp hmark
      · rw [Array.getElem?_replicate] at hmark
        split at hmark <;> cases hmark
      · rw [place_inj (fragment?_eq_some.mp hk).1
          (fragment?_eq_some.mp (fragment?_of_cached hid)).1 hplace]
        exact .self
  exact hall j q hq (marked_iff.mp hD)

/-- Rounds mark all that has to go. -/
theorem marked_of_dependent (ht : Trees c) (hid : c.cached? id = some f) (h : Dependent c id j) :
    marked (c.dependents id) j = true := by
  induction h with
  | self => exact marked_dependents_self (fragment?_of_cached hid)
  | step hk hj ih => exact (closed_dependents ht id).depends (hk.cached ht hid) hj ih

/-- What goes with a fragment is what depends on it. -/
theorem mem_casualties (ht : Trees c) (hid : c.cached? id = some f) :
    j ∈ c.casualties id ↔ Dependent c id j := by
  unfold casualties
  rw [List.mem_map]
  constructor
  · rintro ⟨q, hq, rfl⟩
    obtain ⟨hq, hD⟩ := List.mem_filter.mp hq
    exact dependent_of_marked ht hid (ht.fragment?_of_mem hq) hD
  · intro h
    obtain ⟨q, hq⟩ := h.cached ht hid
    have hj := ht.numbered (fragment?_of_cached hq)
    refine ⟨q, List.mem_filter.mpr ⟨mem_of_fragment? (fragment?_of_cached hq), ?_⟩, hj⟩
    rw [hj]
    exact marked_of_dependent ht hid h

/-- Fragments go in the order of their numbers. -/
theorem sorted_casualties (ht : Trees c) (id : FragmentId) :
    (c.casualties id).Pairwise (· < ·) := by
  have hsorted : c.fragments.toList.Pairwise fun f f' => f.id < f'.id := by
    rw [List.pairwise_iff_getElem]
    intro i j hi hj hlt
    have hfst := (ht.getElem? (i := i) (f := c.fragments.toList[i]) (by simp)).1
    have hsnd := (ht.getElem? (i := j) (f := c.fragments.toList[j]) (by simp)).1
    exact UInt32.lt_iff_toNat_lt.mpr (by omega)
  exact List.pairwise_map.mpr (hsorted.sublist List.filter_sublist)

/-! ### Any order -/

/-- Marks that were set one after the other, the last one first, each because of one that was
set before. -/
inductive Marking (c : FragmentCache) (id : FragmentId) : List FragmentId → Prop where
  | start : Marking c id [id]
  | next {l : List FragmentId} {j k : FragmentId} (h : Marking c id l) (hk : k ∈ l)
      (hj : Depends c j k) (hnew : j ∉ l) :
      Marking c id (j :: l)

theorem Marking.dependent (h : Marking c id l) : ∀ j ∈ l, Dependent c id j := by
  induction h with
  | start =>
    intro j hj
    rw [List.mem_singleton.mp hj]
    exact .self
  | next _ hk hdepends _ ih =>
    intro j hj
    rcases List.mem_cons.mp hj with rfl | hj
    · exact .step (ih _ hk) hdepends
    · exact ih j hj

theorem Marking.nodup (h : Marking c id l) : l.Nodup := by
  induction h with
  | start => exact List.nodup_singleton id
  | next _ _ _ hnew ih => exact List.nodup_cons.mpr ⟨hnew, ih⟩

theorem Marking.self (h : Marking c id l) : id ∈ l := by
  induction h with
  | start => exact List.mem_singleton_self id
  | next _ _ _ _ ih => exact List.mem_cons_of_mem _ ih

/-- Marking comes to an end: there are no more marks than cached fragments. -/
theorem Marking.length_le (ht : Trees c) (hid : c.cached? id = some f)
    (h : Marking c id l) : l.length ≤ c.size := by
  have hsize : c.size = (c.toList.map (·.id)).length := by
    rw [List.length_map, size, toList, ← Array.countP_toList, List.countP_eq_length_filter]
  rw [hsize]
  refine (List.Nodup.subperm h.nodup fun j hj => ?_).length_le
  obtain ⟨q, hq⟩ := (h.dependent j hj).cached ht hid
  exact List.mem_map.mpr ⟨q,
    List.mem_filter.mpr ⟨mem_of_fragment? (fragment?_of_cached hq), (cached?_eq_some.mp hq).2⟩,
    ht.numbered (fragment?_of_cached hq)⟩

/-- When nothing is left to mark, whatever depends on the fragment is marked, and nothing else. -/
theorem Marking.complete (h : Marking c id l) (hclosed : ∀ k ∈ l, ∀ j, Depends c j k → j ∈ l) :
    j ∈ l ↔ Dependent c id j := by
  refine ⟨h.dependent j, fun hj => ?_⟩
  induction hj with
  | self => exact h.self
  | step _ hj ih => exact hclosed _ ih _ hj

/-- The table of marks of some fragments. -/
def marks (c : FragmentCache) (l : List FragmentId) : Array Bool :=
  Array.ofFn fun i : Fin c.fragments.size => l.contains (i.val + 1).toUInt32

/-- In whatever order marks were set, the table is the one that rounds find. -/
theorem Marking.marks_eq (ht : Trees c) (hid : c.cached? id = some f) (h : Marking c id l)
    (hclosed : ∀ k ∈ l, ∀ j, Depends c j k → j ∈ l) : c.marks l = c.dependents id := by
  have hsize := size_dependents c id
  refine Array.ext (by simp [marks, hsize]) fun i hi hi' => ?_
  have hlt : i < c.fragments.size := hsize ▸ hi'
  obtain ⟨hnat, hfound⟩ := ht.getElem? (Array.getElem?_eq_getElem hlt)
  have hplace : place c.fragments[i].id = i := by rw [place, hnat, Nat.add_sub_cancel]
  have hnumber : (i + 1).toUInt32 = c.fragments[i].id := UInt32.toNat.inj (by
    rw [hnat]
    exact UInt32.toNat_ofNat_of_lt' (Nat.lt_of_le_of_lt hlt ht.size))
  have hmarked : (c.dependents id)[i] = marked (c.dependents id) c.fragments[i].id := by
    rw [marked, hplace, Array.getElem?_eq_getElem hi']
    rfl
  have hmark : (c.marks l)[i] = l.contains (i + 1).toUInt32 := Array.getElem_ofFn _
  rw [hmark, hmarked, hnumber, Bool.eq_iff_iff, List.contains_iff_mem, h.complete hclosed]
  exact ⟨marked_of_dependent ht hid, dependent_of_marked ht hid hfound⟩

end LoopTracer.FragmentCache
