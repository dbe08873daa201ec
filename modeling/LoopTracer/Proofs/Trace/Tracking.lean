import Mathlib.Data.List.Dedup
import Mathlib.Data.List.Induction
import Mathlib.Data.List.Perm.Subperm
import LoopTracer.Proofs.Trace.SlotMap

/-! The slot map through a whole history.

A map is changed in two ways: a slot is given a value, or every value is forgotten (`Change`).
What the map should know at any time is the list of the values given since it was last cleared
(`given`), and `Tracks` relates the two: one looks up the same in both, the pages in use are those
of the slots on the list, and the two chains list all pages of the arena between them. A page is
made only when none can be had back, and all pages are in use then, so the arena is as large as
the map has ever been. -/
namespace LoopTracer.Trace.SlotMap

/-- What can be done to a map. -/
inductive Change where
  | set (a : SlotAddr) (r : Ref) (h : settable a r = none)
  | clear

def apply (t : SlotMap) : Change → SlotMap
  | .set a r _ => t.insert a r
  | .clear => t.clear

/-- What changes make of a new map. -/
def after (l : List Change) : SlotMap := l.foldl apply {}

/-- A change of the values given so far, the last one first. -/
def Change.give (g : List (SlotAddr × Ref)) : Change → List (SlotAddr × Ref)
  | .set a r _ => (a, r) :: g
  | .clear => []

/-- The values given since the last clearing, the last one first. -/
def given (l : List Change) : List (SlotAddr × Ref) := l.foldl Change.give []

/-- The page that a slot is on. -/
def pageOf (a : SlotAddr) : Nat := a.slot.toNat / pageSlots

/-- The pages of the slots given a value since the last clearing. -/
def touched (l : List Change) : List Nat := (given l).map fun v => pageOf v.1

/-- The two chains list every page of the arena. -/
structure Whole (t : SlotMap) (used freed : List Nat) : Prop extends Listed t used freed where
  count : used.length = t.pages
  every : used.length + freed.length = t.arena.size

/-- The map knows the values on the list. -/
structure Tracks (t : SlotMap) (g : List (SlotAddr × Ref)) : Prop where
  whole : ∃ used freed, Whole t used freed
  values : ∀ a : SlotAddr, a.valid = true → t.value? a.slot.toNat = g.lookup a
  directory : ∀ n, t.page? n = none ↔ n ∉ g.map fun v => pageOf v.1
  pages : t.pages = (g.map fun v => pageOf v.1).dedup.length

variable {t : SlotMap} {used freed : List Nat} {g : List (SlotAddr × Ref)} {a : SlotAddr} {r : Ref}

theorem Whole.valid (h : Whole t used freed) : t.Valid := ⟨used, freed, h.toListed, h.count⟩

/-- The listed pages are the places of the arena. -/
theorem Whole.perm (h : Whole t used freed) : (used ++ freed).Perm (List.range t.arena.size) := by
  have hbelow : ∀ p ∈ used ++ freed, p ∈ List.range t.arena.size := fun p hp =>
    List.mem_range.mpr ((List.mem_append.mp hp).elim h.head.lt h.free.lt)
  refine (List.subperm_of_subset h.distinct hbelow).perm_of_length_le ?_
  exact Nat.le_of_eq (by rw [List.length_range, List.length_append, h.every])

/-- The arena grows when no page can be had back. -/
theorem size_addPage (h : Listed t used freed) (number : Nat) :
    (t.addPage number).1.arena.size = t.arena.size + if t.free.isSome then 0 else 1 := by
  unfold addPage
  cases hfree : t.free with
  | none => simp only [Option.getD_none, Nat.lt_irrefl, if_false, Array.size_push,
    Option.isSome_none, Bool.false_eq_true]
  | some place =>
    have hplace : place < t.arena.size := by
      cases freed with
      | nil => exact absurd (hfree.symm.trans h.free) (Option.some_ne_none place)
      | cons p rest =>
        obtain rfl := Option.some.inj (hfree.symm.trans h.free.1)
        exact h.free.lt List.mem_cons_self
    simp only [Option.getD_some, hplace, if_true, Array.size_set!, Option.isSome_some, Nat.add_zero]

/-- A new page is the first one in use. Either it was given back before, or all pages are in
use then. -/
theorem Whole.addPage (h : Whole t used freed) {number : Nat} (hnew : t.page? number = none) :
    ∃ used' freed', Whole (t.addPage number).1 used' freed' ∧
      ((t.addPage number).1.arena.size = t.arena.size ∨
        (t.addPage number).1.arena.size = (t.addPage number).1.pages) := by
  obtain ⟨freed', hlisted, hfreed, -⟩ := addPage_listed h.toListed hnew
  have hsize := size_addPage h.toListed number
  have hevery := h.every
  have hpages : (t.addPage number).1.pages = t.pages + 1 := rfl
  have hcount : ((t.addPage number).2 :: used).length = (t.addPage number).1.pages :=
    congrArg (· + 1) h.count
  refine ⟨_, freed', ⟨hlisted, hcount, ?_⟩, ?_⟩
  · rw [List.length_cons, hsize]
    split at hfreed
    · next hsome =>
      rw [hfreed, List.length_cons] at hevery
      rw [if_pos hsome]
      omega
    · next hnone =>
      rw [hfreed] at hevery
      rw [if_neg hnone]
      omega
  · rw [hsize, hpages]
    cases hfree : t.free with
    | some place => exact .inl rfl
    | none =>
      cases freed with
      | cons p rest => exact absurd (h.free.1.symm.trans hfree) (Option.some_ne_none p)
      | nil =>
        have hcount := h.count
        rw [List.length_nil] at hevery
        exact .inr (by simp only [Option.isSome_none, Bool.false_eq_true, if_false]; omega)

/-- What giving a slot a value does to a map, with the number of its page. -/
theorem insert_cases (t : SlotMap) (a : SlotAddr) (r : Ref) :
    (∃ place, t.page? (pageOf a) = some place ∧ t.insert a r = { t with
      arena := t.arena.modify place fun p =>
          { p with refs := p.refs.set! (a.slot.toNat % pageSlots) r } }) ∨
    (t.page? (pageOf a) = none ∧ t.insert a r = { (t.addPage (pageOf a)).1 with
      arena := (t.addPage (pageOf a)).1.arena.modify (t.addPage (pageOf a)).2 fun p =>
        { p with refs := p.refs.set! (a.slot.toNat % pageSlots) r } }) := by
  unfold pageOf
  cases hpage : t.page? (a.slot.toNat / pageSlots) with
  | some place => exact .inl ⟨place, rfl, by simp only [insert, hpage]⟩
  | none => exact .inr ⟨rfl, by simp only [insert, hpage]⟩

/-- Changing a value moves no page. -/
theorem Whole.setRef (h : Whole t used freed) {k place : Nat}
    (hpage : t.page? (k / pageSlots) = some place) (hr : 0 ≤ r) :
    Whole { t with arena := t.arena.modify place fun p => { p
      with refs := p.refs.set! (k % pageSlots) r } } used freed :=
  ⟨(setRef_listed h.toListed hpage hr _ rfl).1, h.count, h.every.trans Array.size_modify.symm⟩

/-- The map knows a value that it is given. Its arena grows only if all pages are in use
afterwards. -/
theorem Tracks.set (h : Tracks t g) (hset : settable a r = none) :
    Tracks (t.insert a r) ((a, r) :: g) ∧
    ((t.insert a r).arena.size = t.arena.size ∨
      (t.insert a r).arena.size = (t.insert a r).pages) := by
  obtain ⟨used, freed, hwhole⟩ := h.whole
  have hr := settable_nonneg hset
  have hvalues : ∀ b : SlotAddr, b.valid = true →
      (t.insert a r).value? b.slot.toNat = ((a, r) :: g).lookup b := by
    intro b hb
    rw [(insert_valid hwhole.valid a hr).2, List.lookup_cons]
    by_cases hba : b = a
    · subst hba
      rw [if_pos rfl, beq_self_eq_true]
    · rw [if_neg fun heq => hba (SlotAddr.eq_of_slot hb (valid_of_settable hset) heq),
        beq_false_of_ne hba, h.values b hb]
  obtain ⟨place, hpage, hinsert⟩ | ⟨hnone, hinsert⟩ := insert_cases t a r
  · have hmem : pageOf a ∈ g.map fun v => pageOf v.1 := by
      by_contra hnot
      rw [(h.directory _).mpr hnot] at hpage
      cases hpage
    refine ⟨⟨⟨used, freed, hinsert ▸ hwhole.setRef hpage hr⟩, hvalues, fun n => ?_, ?_⟩, .inl ?_⟩
    · have hdirectory : (t.insert a r).page? n = t.page? n := by rw [hinsert]; rfl
      rw [hdirectory, h.directory, List.map_cons, List.mem_cons, not_or]
      exact ⟨fun hn => ⟨fun heq => hn (heq ▸ hmem), hn⟩, And.right⟩
    · rw [List.map_cons, List.dedup_cons_of_mem hmem, ← h.pages, hinsert]
    · rw [hinsert]
      exact Array.size_modify
  · obtain ⟨used', freed', hwhole', hsize⟩ := hwhole.addPage hnone
    have hplace := page?_addPage t (pageOf a)
    have hfound : (t.addPage (pageOf a)).1.page? (pageOf a) = some (t.addPage (pageOf a)).2 := by
      rw [hplace, if_pos rfl]
    have hnew : pageOf a ∉ g.map fun v => pageOf v.1 := (h.directory _).mp hnone
    refine ⟨⟨⟨used', freed', hinsert ▸ hwhole'.setRef hfound hr⟩, hvalues, fun n => ?_, ?_⟩, ?_⟩
    · have hdirectory : (t.insert a r).page? n = (t.addPage (pageOf a)).1.page? n := by
        rw [hinsert]; rfl
      rw [hdirectory, hplace, List.map_cons, List.mem_cons, not_or]
      by_cases hn : n = pageOf a
      · rw [if_pos hn]
        exact ⟨fun heq => absurd heq (Option.some_ne_none _), fun hnot => absurd hn hnot.1⟩
      · rw [if_neg hn, h.directory]
        exact ⟨fun hnot => ⟨hn, hnot⟩, And.right⟩
    · rw [List.map_cons, List.dedup_cons_of_notMem hnew, List.length_cons, ← h.pages, hinsert]
      rfl
    · rw [hinsert, Array.size_modify]
      exact hsize

theorem size_release (n : Nat) (t : SlotMap) (head : Option Nat) :
    (t.release n head).arena.size = t.arena.size := by
  induction n generalizing t head with
  | zero => rfl
  | succ n ih =>
    cases head with
    | none => rfl
    | some place =>
      rw [release]
      split
      · rfl
      · rw [ih]
        exact Array.size_set! ..

/-- A cleared map knows no value, and its arena is as large as before. -/
theorem Tracks.clear (h : Tracks t g) : Tracks t.clear [] ∧ t.clear.arena.size = t.arena.size := by
  obtain ⟨used, freed, hwhole⟩ := h.whole
  obtain ⟨hlisted, hnone⟩ := clear_listed hwhole.toListed hwhole.count
  have hsize : t.clear.arena.size = t.arena.size := size_release t.pages t t.head
  refine ⟨⟨⟨[], _, hlisted, rfl, ?_⟩, fun a _ => (clear_valid hwhole.valid).2 _, fun n => ?_, rfl⟩,
    hsize⟩
  · rw [hsize, ← hwhole.every, List.length_append, List.length_reverse,
      List.length_nil, Nat.zero_add]
  · exact ⟨fun _ => List.not_mem_nil, fun _ => hnone n⟩

theorem tracks_default : Tracks {} [] where
  whole := ⟨[], [], ⟨rfl, rfl, List.nodup_nil, by simp [page?], by simp⟩, rfl, rfl⟩
  values := by simp [value?, page?]
  directory := by simp [page?]
  pages := rfl

theorem after_snoc (l : List Change) (c : Change) :
    after (l ++ [c]) = (after l).apply c := List.foldl_append

theorem given_snoc (l : List Change) (c : Change) :
    given (l ++ [c]) = c.give (given l) := List.foldl_append

theorem Tracks.apply (h : Tracks t g) (c : Change) : Tracks (t.apply c) (c.give g) ∧
    ((t.apply c).arena.size = t.arena.size ∨ (t.apply c).arena.size = (t.apply c).pages) := by
  cases c with
  | set a r hset => exact h.set hset
  | clear => exact ⟨h.clear.1, .inl h.clear.2⟩

/-- The map knows what it was given since it was last cleared. -/
theorem after_tracks (l : List Change) : Tracks (after l) (given l) := by
  induction l using List.reverseRecOn with
  | nil => exact tracks_default
  | append_singleton l c ih =>
    rw [after_snoc, given_snoc]
    exact (ih.apply c).1

/-- The arena is as large as the map was at some time. -/
theorem after_arena (l : List Change) :
    ∃ earlier, earlier <+: l ∧ (after earlier).pages = (after l).arena.size := by
  induction l using List.reverseRecOn with
  | nil => exact ⟨[], List.nil_prefix, rfl⟩
  | append_singleton l c ih =>
    rw [after_snoc]
    obtain hsame | hfull := ((after_tracks l).apply c).2
    · obtain ⟨earlier, hearlier, hpages⟩ := ih
      exact ⟨earlier, hearlier.trans (List.prefix_append l [c]), hpages.trans hsame.symm⟩
    · exact ⟨l ++ [c], List.prefix_rfl, by rw [after_snoc, hfull]⟩

theorem Tracks.contains (h : Tracks t g) (ha : a.valid = true) :
    t.contains a = .ok (decide (a ∈ g.map Prod.fst)) := by
  have hmem : (g.lookup a).isSome = decide (a ∈ g.map Prod.fst) := by
    rw [Bool.eq_iff_iff, List.lookup_isSome_iff, decide_eq_true_iff, List.mem_map]
    exact exists_congr fun v => and_congr_right fun _ => by rw [beq_iff_eq, eq_comm]
  unfold SlotMap.contains
  rw [find?_eq t ha, h.values a ha, ← hmem]
  rfl

theorem Tracks.get (h : Tracks t g) (ha : a.valid = true) :
    t.get a = (g.lookup a).elim (.error (.untracked a.render)) .ok := by
  unfold SlotMap.get
  rw [find?_eq t ha, h.values a ha]
  cases g.lookup a <;> rfl

/-- The map is what a list of the values given since the last clearing says. A slot has a value
exactly if it is on the list, and that is the one it was given last. There is one page in use for
each page of slots on the list. Every page of the arena is on one of the two chains, and on one of
them only; the directory leads to the pages in use by their own numbers and to no others; and the
arena has no more pages than were once in use together. -/
theorem tracked_faithfully (l : List Change) :
    (∀ a : SlotAddr, a.valid = true →
      (after l).contains a = .ok (decide (a ∈ (given l).map Prod.fst)) ∧
      (after l).get a = ((given l).lookup a).elim (.error (.untracked a.render)) .ok) ∧
    (after l).pages = (touched l).dedup.length ∧
    (∃ used freed, Chain (after l).arena (after l).head used ∧
      Chain (after l).arena (after l).free freed ∧
      (used ++ freed).Perm (List.range (after l).arena.size) ∧
      ∀ n h, (after l).page? n = some h ↔ h ∈ used ∧ (after l).arena[h]?.map (·.number) = some n) ∧
    ∃ earlier, earlier <+: l ∧ (after earlier).pages = (after l).arena.size := by
  have htracks := after_tracks l
  obtain ⟨used, freed, hwhole⟩ := htracks.whole
  exact ⟨fun a ha => ⟨htracks.contains ha, htracks.get ha⟩, htracks.pages,
    ⟨used, freed, hwhole.head, hwhole.free, hwhole.perm, hwhole.directory⟩, after_arena l⟩

end LoopTracer.Trace.SlotMap
