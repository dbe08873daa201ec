import LoopTracer.Compile.CodePages
import LoopTracer.Proofs.Computation

/-! The chain of free pages.

`Frees c l` says that the free pages of a region are exactly the pages `l`, chained in that order.
Every operation on the pages keeps such a list: `take?` takes its head, giving a page back makes
that page its head, handing over leaves it alone, and after a reset it holds all pages but the
first. -/
namespace LoopTracer.Compile

namespace CodePages

/-! ### Free pages -/

/-- The pages on the chain of free pages that begins at a page. -/
def Linked (pages : Array CodePage) : Option Nat → List Nat → Prop
  | start, [] => start = none
  | start, h :: l => start = some h ∧
      ∃ p, pages[h]? = some p ∧ p.kind = .free ∧ Linked pages p.next l

/-- The free pages, in the order of their chain. -/
structure Frees (c : CodePages) (l : List Nat) : Prop where
  linked : Linked c.pages c.free l
  nodup : l.Nodup
  count : c.freeCount = l.length
  all : ∀ (h : Nat) p, c.pages[h]? = some p → p.kind = .free → h ∈ l

/-- All but the table of pages is the same. -/
structure Alike (c c' : CodePages) : Prop where
  mem : c'.mem = c.mem
  last : c'.last = c.last
  pageSize : c'.pageSize = c.pageSize
  bailout : c'.bailout = c.bailout
  size : c'.pages.size = c.pages.size

variable {c c' : CodePages} {l hs : List Nat} {h : Nat}

theorem Alike.refl (c : CodePages) : Alike c c := ⟨rfl, rfl, rfl, rfl, rfl⟩

theorem Alike.trans {c'' : CodePages} (h : Alike c c') (h' : Alike c' c'') : Alike c c'' :=
  ⟨h'.mem.trans h.mem, h'.last.trans h.last, h'.pageSize.trans h.pageSize,
    h'.bailout.trans h.bailout, h'.size.trans h.size⟩

theorem Linked.kind {pages : Array CodePage} {start : Option Nat} (hl : Linked pages start l)
    (hh : h ∈ l) : ∃ p, pages[h]? = some p ∧ p.kind = .free := by
  induction l generalizing start with
  | nil => cases hh
  | cons j l ih =>
    obtain ⟨-, p, hp, hkind, hrest⟩ := hl
    rcases List.mem_cons.mp hh with rfl | hh
    · exact ⟨p, hp, hkind⟩
    · exact ih hrest hh

/-- Only the entries of the chain matter to it. -/
theorem Linked.congr {pages pages' : Array CodePage} {start : Option Nat}
    (hl : Linked pages start l)
    (hsame : ∀ h ∈ l, ∀ p, pages[h]? = some p →
      ∃ p', pages'[h]? = some p' ∧ p'.kind = p.kind ∧ p'.next = p.next) :
    Linked pages' start l := by
  induction l generalizing start with
  | nil => exact hl
  | cons j l ih =>
    obtain ⟨hstart, p, hp, hkind, hrest⟩ := hl
    obtain ⟨p', hp', hkind', hnext⟩ := hsame j List.mem_cons_self p hp
    refine ⟨hstart, p', hp', hkind'.trans hkind, ?_⟩
    rw [hnext]
    exact ih hrest fun h hh => hsame h (List.mem_cons_of_mem _ hh)

theorem Frees.mem_iff (hf : c.Frees l) {p : CodePage} (hp : c.pages[h]? = some p) :
    h ∈ l ↔ p.kind = .free := by
  refine ⟨fun hh => ?_, hf.all h p hp⟩
  obtain ⟨q, hq, hkind⟩ := hf.linked.kind hh
  rw [hp] at hq
  cases hq
  exact hkind

theorem Frees.lt (hf : c.Frees l) (hh : h ∈ l) : h < c.pages.size := by
  obtain ⟨p, hp, -⟩ := hf.linked.kind hh
  exact (Array.getElem?_eq_some_iff.mp hp).1

/-! ### A region without owners -/

theorem fresh_size (n : Nat) : (fresh n).size = n := by simp [fresh]

theorem getElem?_fresh {n i : Nat} (hi : i < n) :
    (fresh n)[i]? = some (if i = 0 then { kind := .bailout }
      else { kind := .free, next := if i + 1 < n then some (i + 1) else none }) := by
  simp [fresh, hi]

/-- From page `i` on, the pages of a fresh region are chained in ascending order. -/
theorem linked_fresh {n i k : Nat} (hi : 1 ≤ i) (hk : i + k = n) :
    Linked (fresh n) (if i < n then some i else none) (List.range' i k) := by
  induction k generalizing i with
  | zero => simp [Linked, show ¬ i < n by omega]
  | succ k ih =>
    have hlt : i < n := by omega
    refine ⟨by simp [hlt], _, getElem?_fresh hlt, by simp [show i ≠ 0 by omega], ?_⟩
    have := ih (i := i + 1) (by omega) (by omega)
    simpa [show i ≠ 0 by omega] using this

theorem alike_reset (c : CodePages) : Alike c c.reset :=
  ⟨rfl, rfl, rfl, rfl, by simp [reset, fresh_size]⟩

/-- A reset frees every page but the first. -/
theorem frees_reset (c : CodePages) : c.reset.Frees (List.range' 1 (c.pages.size - 1)) := by
  have hfree : ∀ (h : Nat) p, (fresh c.pages.size)[h]? = some p → p.kind = .free →
      1 ≤ h ∧ h < c.pages.size := by
    intro h p hp hkind
    have hlt : h < c.pages.size := by
      simpa [fresh_size] using (Array.getElem?_eq_some_iff.mp hp).1
    rw [getElem?_fresh hlt] at hp
    obtain rfl := Option.some.inj hp
    split at hkind
    · cases hkind
    · omega
  refine ⟨?_, List.nodup_range' .., by simp [reset], fun h p hp hkind => ?_⟩
  · rcases Nat.lt_or_ge 1 c.pages.size with hsize | hsize
    · have := linked_fresh (i := 1) (k := c.pages.size - 1) (n := c.pages.size)
        (Nat.le_refl 1) (by omega)
      simpa [reset, hsize] using this
    · rw [show c.pages.size - 1 = 0 by omega]
      simp [reset, Linked, show ¬ 1 < c.pages.size by omega]
  · have := hfree h p hp hkind
    rw [List.mem_range'_1]
    omega

/-! ### Taking and giving back -/

theorem take?_none (hf : c.Frees l) {kind : PageKind} (h : c.take? kind = none) : l = [] := by
  cases l with
  | nil => rfl
  | cons j l =>
    obtain ⟨hstart, p, hp, -, -⟩ := hf.linked
    simp [take?, hstart, hp] at h

theorem take?_mem {kind : PageKind} (htake : c.take? kind = some (c', h)) : c'.mem = c.mem := by
  simp only [take?, Option.bind_eq_bind, Option.pure_def, Option.bind_eq_some_iff] at htake
  obtain ⟨j, -, p, -, heq⟩ := htake
  cases heq
  rfl

/-- A page that is taken was the first free one. -/
theorem take?_some (hf : c.Frees l) {kind : PageKind} (hkind : kind ≠ .free)
    (htake : c.take? kind = some (c', h)) :
    ∃ l', l = h :: l' ∧ c'.Frees l' ∧ Alike c c' ∧ c'.pages[h]? = some { kind } ∧
      ∀ j, j ≠ h → c'.pages[j]? = c.pages[j]? := by
  cases l with
  | nil =>
    have hstart : c.free = none := hf.linked
    simp [take?, hstart] at htake
  | cons j l =>
    obtain ⟨hstart, p, hp, -, hrest⟩ := hf.linked
    simp only [take?, hstart, hp, Option.bind_eq_bind, Option.bind_some, Option.pure_def,
      Option.some.injEq, Prod.mk.injEq] at htake
    obtain ⟨rfl, rfl⟩ := htake
    have hlt := (Array.getElem?_eq_some_iff.mp hp).1
    have hnodup := List.nodup_cons.mp hf.nodup
    have hother : ∀ i, i ≠ j → (c.pages.set! j { kind })[i]? = c.pages[i]? := fun i hi => by
      simp [Ne.symm hi]
    have hnew : (c.pages.set! j { kind })[j]? = some { kind } := by
      simp [hlt]
    refine ⟨l, rfl, ⟨?_, hnodup.2, ?_, fun i q hq hfree => ?_⟩,
      ⟨rfl, rfl, rfl, rfl, by simp⟩, hnew, hother⟩
    · refine hrest.congr fun i hi q hq => ⟨q, ?_, rfl, rfl⟩
      rw [← hq]
      exact hother i fun heq => hnodup.1 (heq ▸ hi)
    · have := hf.count
      simp at this ⊢
      omega
    · by_cases hij : i = j
      · subst hij
        rw [hnew] at hq
        cases hq
        exact absurd hfree hkind
      · rw [hother i hij] at hq
        exact (List.mem_cons.mp (hf.all i q hq hfree)).resolve_left hij

/-- A page in use is given back and is then the first free one. -/
theorem release_ok (hf : c.Frees l) {p : CodePage} (hp : c.pages[h]? = some p)
    (hfree : p.kind ≠ .free) (hbailout : p.kind ≠ .bailout) :
    ∃ c', release h c = .ok () c' ∧ c'.Frees (h :: l) ∧ Alike c c' ∧
      ∀ j, j ≠ h → c'.pages[j]? = c.pages[j]? := by
  have hlt := (Array.getElem?_eq_some_iff.mp hp).1
  have hnotin : h ∉ l := fun hh => hfree ((hf.mem_iff hp).mp hh)
  have hother : ∀ q i, i ≠ h → (c.pages.set! h q)[i]? = c.pages[i]? := fun q i hi => by
    simp [Ne.symm hi]
  refine ⟨{ c with
      pages := c.pages.set! h { kind := .free, next := c.free }
      free := some h
      freeCount := c.freeCount + 1 }, ?_,
    ⟨⟨rfl, { kind := .free, next := c.free }, by simp [hlt], rfl, ?_⟩, ?_, ?_,
      fun i q hq hkind => ?_⟩,
    ⟨rfl, rfl, rfl, rfl, by simp⟩, fun j hj => hother _ j hj⟩
  · simp [release, hp, hfree, hbailout]
  · refine hf.linked.congr fun i hi q hq => ⟨q, ?_, rfl, rfl⟩
    rw [← hq]
    exact hother _ i fun heq => hnotin (heq ▸ hi)
  · exact List.nodup_cons.mpr ⟨hnotin, hf.nodup⟩
  · simp [hf.count]
  · by_cases hih : i = h
    · exact hih ▸ List.mem_cons_self
    · rw [hother _ i hih] at hq
      exact List.mem_cons_of_mem _ (hf.all i q hq hkind)

/-- Giving back pages that are all in use succeeds. -/
theorem releaseAll_ok (hf : c.Frees l) (hnodup : hs.Nodup)
    (hused : ∀ h ∈ hs, ∃ p, c.pages[h]? = some p ∧ p.kind ≠ .free ∧ p.kind ≠ .bailout) :
    ∃ c', releaseAll hs c = .ok () c' ∧ c'.Frees (hs.reverse ++ l) ∧ Alike c c' ∧
      ∀ j, j ∉ hs → c'.pages[j]? = c.pages[j]? := by
  induction hs generalizing c l with
  | nil => exact ⟨c, rfl, hf, .refl c, fun _ _ => rfl⟩
  | cons h hs ih =>
    obtain ⟨p, hp, hfree, hbailout⟩ := hused h List.mem_cons_self
    obtain ⟨c₁, hrelease, hf₁, halike₁, hother₁⟩ := release_ok hf hp hfree hbailout
    have hnodup' := List.nodup_cons.mp hnodup
    obtain ⟨c₂, hall, hf₂, halike₂, hother₂⟩ := ih hf₁ hnodup'.2 fun j hj => by
      rw [hother₁ j fun heq => hnodup'.1 (heq ▸ hj)]
      exact hused j (List.mem_cons_of_mem _ hj)
    refine ⟨c₂, ?_, by simpa using hf₂, halike₁.trans halike₂, fun j hj => ?_⟩
    · show (release h >>= fun _ => releaseAll hs) c = _
      rw [bind_ok hrelease, hall]
    · rw [List.mem_cons, not_or] at hj
      rw [hother₂ j hj.2, hother₁ j hj.1]

/-- Handing pages over gives them an owner and changes nothing else. -/
theorem handOver_ok (owner : FragmentId) (hlt : ∀ h ∈ hs, h < c.pages.size) :
    ∃ c', handOver owner hs c = .ok () c' ∧ Alike c c' ∧ c'.free = c.free ∧
    c'.freeCount = c.freeCount ∧
      ∀ j, c'.pages[j]? = if j ∈ hs then (c.pages[j]?).map ({ · with owner }) else c.pages[j]? := by
  induction hs generalizing c with
  | nil => exact ⟨c, rfl, .refl c, rfl, rfl, fun j => by simp⟩
  | cons h hs ih =>
    let c₁ : CodePages := { c with pages := c.pages.modify h fun p => { p with owner } }
    have hstep : (fun c : CodePages => if h < c.pages.size then
        (.ok () { c with pages := c.pages.modify h fun p => { p with owner } } : EStateM.Result
          Fault _ Unit)
        else .error .bounds c) c = .ok () c₁ := if_pos (hlt h List.mem_cons_self)
    obtain ⟨c₂, hall, halike, hfree, hcount, hpages⟩ := ih (c := c₁) fun j hj => by
      simpa [c₁] using hlt j (List.mem_cons_of_mem _ hj)
    have halike₁ : Alike c c₁ := ⟨rfl, rfl, rfl, rfl, by simp [c₁]⟩
    refine ⟨c₂, ?_, halike₁.trans halike, hfree, hcount, fun j => ?_⟩
    · exact (bind_ok hstep).trans hall
    · rw [hpages j]
      by_cases hj : j = h
      · subst hj
        by_cases hin : j ∈ hs <;> cases hp : c.pages[j]? <;>
          simp [c₁, hin, hp, Array.getElem?_modify]
      · by_cases hin : j ∈ hs <;> simp [c₁, hin, hj, Array.getElem?_modify, Ne.symm hj]

/-- Only the kinds of the pages and their chain matter to the free ones. -/
theorem Frees.congr (hf : c.Frees l) (hfree : c'.free = c.free)
    (hcount : c'.freeCount = c.freeCount)
    (hsize : c'.pages.size = c.pages.size)
    (hpages : ∀ (j : Nat) p, c.pages[j]? = some p →
      ∃ p', c'.pages[j]? = some p' ∧ p'.kind = p.kind ∧ p'.next = p.next) : c'.Frees l := by
  refine ⟨?_, hf.nodup, hcount.trans hf.count, fun h p' hp' hkind => ?_⟩
  · rw [hfree]
    exact hf.linked.congr fun h _ => hpages h
  · have hlt := (Array.getElem?_eq_some_iff.mp hp').1
    obtain ⟨q, hq, hkind', -⟩ := hpages h _ (Array.getElem?_eq_getElem (hsize ▸ hlt))
    rw [hp'] at hq
    cases hq
    exact hf.all h _ (Array.getElem?_eq_getElem (hsize ▸ hlt)) (hkind'.symm.trans hkind)

end CodePages

end LoopTracer.Compile
