import Mathlib.Algebra.Group.Int.Defs
import Mathlib.Algebra.GroupWithZero.Nat
import LoopTracer.Trace.SlotMap

/-! Laws of the slot map.

A map is `Valid` when its two chains list different pages of the arena, and the directory leads to
the pages of the first chain and to no others. Such a map is a function from slots to values
(`value?`): giving a slot a value changes it there and nowhere else, also when the page for it is
one that was given back before, and clearing forgets everything. -/
namespace LoopTracer.Trace

namespace SlotAddr

/-- Slots have addresses as far as 32 bits go. -/
theorem toInt_ofSlot {i : Nat} (h : i < 2 ^ 28) : (ofSlot i).byte.toInt = 8 * i := by
  show (Int32.ofInt (8 * (i : Int))).toInt = 8 * i
  exact Int32.toInt_ofInt_of_le (by omega) (by omega)

theorem valid_ofSlot {i : Nat} (h : i < 2 ^ 28) : (ofSlot i).valid = true := by
  rw [valid, toInt_ofSlot h]
  simp only [Bool.and_eq_true, decide_eq_true_eq, beq_iff_eq]
  omega

@[simp] theorem slot_ofSlot {i : Nat} (h : i < 2 ^ 28) : (ofSlot i).slot = i := by
  rw [slot, toInt_ofSlot h]
  exact Int.mul_fdiv_cancel_left _ (by omega)

theorem byte_eq {a : SlotAddr} (ha : a.valid = true) : a.byte.toInt = 8 * a.slot.toNat := by
  simp only [SlotAddr.valid, Bool.and_eq_true, decide_eq_true_eq, beq_iff_eq] at ha
  rw [SlotAddr.slot, Int.fdiv_eq_ediv_of_nonneg _ (by decide)]
  omega

theorem eq_of_slot {a b : SlotAddr} (ha : a.valid = true) (hb : b.valid = true)
    (h : a.slot.toNat = b.slot.toNat) : a = b := by
  have hbyte : a.byte.toInt = b.byte.toInt := by
    rw [byte_eq ha, byte_eq hb, h]
  obtain ⟨x⟩ := a
  obtain ⟨y⟩ := b
  exact congrArg _ (Int32.toInt_inj.mp hbyte)

end SlotAddr

theorem valid_of_settable {a : SlotAddr} {ref : Int}
    (h : SlotMap.settable a ref = none) : a.valid = true := by
  unfold SlotMap.settable at h
  split at h
  · cases h
  · next hvalid => simpa using hvalid

theorem settable_nonneg {a : SlotAddr} {ref : Int}
    (h : SlotMap.settable a ref = none) : 0 ≤ ref := by
  unfold SlotMap.settable at h
  split at h
  · cases h
  · split at h
    · cases h
    · next hneg => exact Int.not_lt.mp hneg

namespace SlotMap

/-- The pages `l` of the arena are linked one after the other, the first one being at `h`. -/
def Chain (arena : Array SlotPage) : Option Nat → List Nat → Prop
  | h, [] => h = none
  | h, p :: rest => h = some p ∧ ∃ page, arena[p]? = some page ∧ Chain arena page.next rest

/-- Only the links of the listed pages matter. -/
theorem Chain.congr {arena arena' : Array SlotPage} {l : List Nat} {h : Option Nat}
    (hc : Chain arena h l)
    (hsame : ∀ p ∈ l, ∀ page, arena[p]? = some page →
      ∃ page', arena'[p]? = some page' ∧ page'.next = page.next) : Chain arena' h l := by
  induction l generalizing h with
  | nil => exact hc
  | cons p rest ih =>
    obtain ⟨rfl, page, hpage, hrest⟩ := hc
    obtain ⟨page', hpage', hnext⟩ := hsame p List.mem_cons_self page hpage
    refine ⟨rfl, page', hpage', ?_⟩
    rw [hnext]
    exact ih hrest fun q hq => hsame q (List.mem_cons_of_mem p hq)

theorem Chain.lt {arena : Array SlotPage} {l : List Nat} {h : Option Nat} (hc : Chain arena h l)
    {p : Nat} (hp : p ∈ l) : p < arena.size := by
  induction l generalizing h with
  | nil => cases hp
  | cons q rest ih =>
    obtain ⟨-, page, hpage, hrest⟩ := hc
    rcases List.mem_cons.mp hp with rfl | hp
    · exact (Array.getElem?_eq_some_iff.mp hpage).1
    · exact ih hrest hp

/-- The pages in use and those given back. -/
structure Listed (t : SlotMap) (used freed : List Nat) : Prop where
  head : Chain t.arena t.head used
  free : Chain t.arena t.free freed
  distinct : (used ++ freed).Nodup
  directory : ∀ n h, t.page? n = some h ↔ h ∈ used ∧ t.arena[h]?.map (·.number) = some n
  full : ∀ (h : Nat) (p : SlotPage), t.arena[h]? = some p → p.refs.size = pageSlots

def Valid (t : SlotMap) : Prop := ∃ used freed, t.Listed used freed ∧ used.length = t.pages

theorem valid_default : Valid {} := by
  refine ⟨[], [], ⟨rfl, rfl, List.nodup_nil, fun n h => ?_, fun h p hp => ?_⟩, rfl⟩
  · simp [page?]
  · simp at hp

/-- The value of a slot by its number. -/
def value? (t : SlotMap) (slot : Nat) : Option Ref := do
  let h ← t.page? (slot / pageSlots)
  let p ← t.arena[h]?
  let r ← p.refs[slot % pageSlots]?
  if r == Ref.none then none else some r

theorem find?_eq (t : SlotMap) {a : SlotAddr} (ha : a.valid = true) :
    t.find? a = .ok (t.value? a.slot.toNat) := by
  rw [find?, ha]
  rfl

/-! ### New pages -/

/-- The page that a number gets leads to that number; the others stay where they are. -/
theorem page?_addPage (t : SlotMap) (number n : Nat) :
    (t.addPage number).1.page? n =
      if n = number then some (t.addPage number).2 else t.page? n := by
  unfold page? addPage
  simp only [Array.set!_eq_setIfInBounds, Array.getElem?_setIfInBounds, Array.size_append,
    Array.size_replicate]
  by_cases hn : n = number
  · subst hn
    rw [if_pos rfl, if_pos rfl, if_pos (by omega)]
    rfl
  · rw [if_neg (Ne.symm hn), if_neg hn, Array.getElem?_append]
    by_cases hlt : n < t.directory.size
    · rw [if_pos hlt]
    · rw [if_neg hlt, Array.getElem?_replicate, Array.getElem?_eq_none (by omega)]
      split <;> rfl

/-- An empty page for a number. -/
def freshPage (t : SlotMap) (number : Nat) : SlotPage :=
  { number, next := t.head, refs := Array.replicate pageSlots Ref.none }

/-- A new page is one that no chain lists any more, and the others keep their contents. -/
theorem arena_addPage {t : SlotMap} {used freed : List Nat}
    (ht : t.Listed used freed) (number : Nat) :
    (t.addPage number).2 ∉ used ∧
    (t.addPage number).1.arena[(t.addPage number).2]? = some (t.freshPage number) ∧
    (∀ p, p ≠ (t.addPage number).2 → (t.addPage number).1.arena[p]? = t.arena[p]?) ∧
    ∃ freed', Chain t.arena (t.addPage number).1.free freed' ∧
      freed = (if t.free.isSome then (t.addPage number).2 :: freed' else freed') ∧
      (t.addPage number).2 ∉ freed' := by
  cases freed with
  | nil =>
    have hfree : t.free = none := ht.free
    unfold addPage
    simp only [hfree, Option.getD_none, Option.bind_none, Nat.lt_irrefl, if_false]
    refine ⟨fun hmem => Nat.lt_irrefl _ (ht.head.lt hmem), Array.getElem?_push_size, fun p hp => ?_,
      [], rfl, rfl, List.not_mem_nil⟩
    rw [Array.getElem?_push, if_neg hp]
  | cons q rest =>
    obtain ⟨hfree, page, hpage, hrest⟩ := ht.free
    have hlt := (Array.getElem?_eq_some_iff.mp hpage).1
    have hdistinct := List.nodup_append.mp ht.distinct
    unfold addPage
    simp only [hfree, Option.getD_some, Option.bind_some, hpage, hlt, if_true]
    refine ⟨fun hmem => ?_, ?_, fun p hp => ?_, rest, hrest, rfl, ?_⟩
    · exact hdistinct.2.2 q hmem q List.mem_cons_self rfl
    · rw [Array.set!_eq_setIfInBounds, Array.getElem?_setIfInBounds, if_pos rfl, if_pos hlt]
      rfl
    · rw [Array.set!_eq_setIfInBounds, Array.getElem?_setIfInBounds, if_neg (Ne.symm hp)]
    · exact (List.nodup_cons.mp hdistinct.2.1).1

/-- A new page is put in front of those in use; one that was given back is no longer free then. -/
theorem addPage_listed {t : SlotMap} {used freed : List Nat}
    (hlisted : t.Listed used freed) {number : Nat}
    (hnew : t.page? number = none) :
    ∃ freed', (t.addPage number).1.Listed ((t.addPage number).2 :: used) freed' ∧
      freed = (if t.free.isSome then (t.addPage number).2 :: freed' else freed') ∧
      ∀ k, (t.addPage number).1.value? k = t.value? k := by
  obtain ⟨hunused, hfresh, hothers, freed', hfree, hfreed, hgone⟩ := arena_addPage hlisted number
  have hpage := page?_addPage t number
  have hhead : (t.addPage number).1.head = some (t.addPage number).2 := rfl
  generalize (t.addPage number).2 = place at *
  generalize (t.addPage number).1 = t' at *
  have hsame : ∀ {l : List Nat} {h : Option Nat}, place ∉ l → Chain t.arena h l →
      Chain t'.arena h l :=
    fun hp hc => hc.congr fun p hmem page hget =>
      ⟨page, (hothers p fun heq => hp (heq ▸ hmem)).trans hget, rfl⟩
  have hdistinct : (place :: used ++ freed').Nodup := by
    have hnodup := List.nodup_append.mp hlisted.distinct
    refine List.nodup_append.mpr ⟨List.nodup_cons.mpr ⟨hunused, hnodup.1⟩, ?_, fun p hp q hq => ?_⟩
    · have h := hnodup.2.1
      rw [hfreed] at h
      split at h
      · exact (List.nodup_cons.mp h).2
      · exact h
    · rcases List.mem_cons.mp hp with rfl | hp
      · exact fun heq => hgone (heq ▸ hq)
      · refine hnodup.2.2 p hp q ?_
        rw [hfreed]
        split
        · exact List.mem_cons_of_mem _ hq
        · exact hq
  refine ⟨freed', ⟨?_, hsame hgone hfree, hdistinct, fun n h => ?_, fun h p hp => ?_⟩,
    hfreed, fun k => ?_⟩
  · exact ⟨hhead, t.freshPage number, hfresh, hsame hunused hlisted.head⟩
  · rw [hpage]
    by_cases hn : n = number
    · subst hn
      rw [if_pos rfl, Option.some.injEq]
      constructor
      · rintro rfl
        exact ⟨List.mem_cons_self, by rw [hfresh]; rfl⟩
      · rintro ⟨hmem, hnumber⟩
        rcases List.mem_cons.mp hmem with rfl | hmem
        · rfl
        · -- A page in use before cannot have the new number.
          rw [hothers h fun heq => hunused (heq ▸ hmem)] at hnumber
          have := (hlisted.directory n h).mpr ⟨hmem, hnumber⟩
          rw [hnew] at this
          cases this
    · rw [if_neg hn, hlisted.directory]
      constructor
      · rintro ⟨hmem, hnumber⟩
        refine ⟨List.mem_cons_of_mem _ hmem, ?_⟩
        rw [hothers h fun heq => hunused (heq ▸ hmem)]
        exact hnumber
      · rintro ⟨hmem, hnumber⟩
        rcases List.mem_cons.mp hmem with rfl | hmem
        · rw [hfresh] at hnumber
          exact absurd (Option.some.inj hnumber).symm hn
        · rw [hothers h fun heq => hunused (heq ▸ hmem)] at hnumber
          exact ⟨hmem, hnumber⟩
  · by_cases hplace : h = place
    · subst hplace
      obtain rfl := Option.some.inj (hfresh.symm.trans hp)
      exact Array.size_replicate
    · exact hlisted.full h p ((hothers h hplace).symm.trans hp)
  · unfold value?
    rw [hpage]
    by_cases hk : k / pageSlots = number
    · -- All slots of a new page are empty.
      subst hk
      have hlt : k % pageSlots < pageSlots := Nat.mod_lt _ (by decide)
      simp only [if_true, hnew, Option.bind_eq_bind, Option.bind_some, Option.bind_none, hfresh,
        freshPage, Array.getElem?_replicate, hlt, beq_self_eq_true]
    · rw [if_neg hk]
      cases hh : t.page? (k / pageSlots) with
      | none => rfl
      | some h =>
        have hmem := ((hlisted.directory _ h).mp hh).1
        simp only [Option.bind_eq_bind, Option.bind_some, hothers h fun heq => hunused (heq ▸ hmem)]

theorem addPage_valid {t : SlotMap} (ht : t.Valid) {number : Nat} (hnew : t.page? number = none) :
    (t.addPage number).1.Valid ∧ ∀ k, (t.addPage number).1.value? k = t.value? k := by
  obtain ⟨used, freed, hlisted, hpages⟩ := ht
  obtain ⟨freed', hlisted', -, hsame⟩ := addPage_listed hlisted hnew
  exact ⟨⟨_, freed', hlisted', congrArg (· + 1) hpages⟩, hsame⟩

/-! ### Values -/

/-- Changing a value in a page that is in use. -/
theorem setRef_listed {t : SlotMap} {used freed : List Nat}
    (hlisted : t.Listed used freed) {k h : Nat}
    (hh : t.page? (k / pageSlots) = some h) {r : Int} (hr : 0 ≤ r) (t' : SlotMap)
    (ht' : t' = { t with arena := t.arena.modify h fun p =>
      { p with refs := p.refs.set! (k % pageSlots) r } }) :
    t'.Listed used freed ∧ ∀ j, t'.value? j = if j = k then some r else t.value? j := by
  subst ht'
  have hget : ∀ q,
    (t.arena.modify h fun p => { p with refs := p.refs.set! (k % pageSlots) r })[q]? =
      (t.arena[q]?).map fun p => if h = q
          then { p with refs := p.refs.set! (k % pageSlots) r } else p := by
    intro q
    rw [Array.getElem?_modify]
    by_cases hq : h = q
    · simp only [if_pos hq]
    · simp only [if_neg hq, Option.map_id']
  have hchain : ∀ {l : List Nat} {first : Option Nat}, Chain t.arena first l →
      Chain (t.arena.modify h fun p => { p with refs := p.refs.set! (k % pageSlots) r })
          first l := by
    intro l first hc
    refine hc.congr fun p _ page hpage => ?_
    rw [hget, hpage]
    refine ⟨_, rfl, ?_⟩
    split <;> rfl
  refine ⟨⟨hchain hlisted.head, hchain hlisted.free, hlisted.distinct, fun n q => ?_,
    fun q p hp => ?_⟩, fun j => ?_⟩
  · show t.page? n = some q ↔ _ ∧ Option.map _ (_)[q]? = _
    rw [hlisted.directory, hget, Option.map_map]
    have hnumber : ((fun p : SlotPage => p.number) ∘ fun p =>
        if h = q then { p with refs := p.refs.set! (k % pageSlots) r } else p) = (·.number) := by
      funext p
      show SlotPage.number (if _ then _ else _) = _
      split <;> rfl
    rw [hnumber]
  · rw [show (SlotMap.arena _)[q]? = _ from hget q] at hp
    obtain ⟨page, hpage, rfl⟩ := Option.map_eq_some_iff.mp hp
    have hfull := hlisted.full q page hpage
    split
    · simpa using hfull
    · exact hfull
  · unfold value?
    show (do
      let q ← t.page? (j / pageSlots)
      let p ← (t.arena.modify h fun p => { p with refs := p.refs.set! (k % pageSlots) r })[q]?
      let v ← p.refs[j % pageSlots]?
      if v == Ref.none then none else some v) = _
    by_cases hj : j = k
    · subst hj
      obtain ⟨page, hpage, -⟩ := Option.map_eq_some_iff.mp ((hlisted.directory _ h).mp hh).2
      have hfull := hlisted.full h page hpage
      have hlt : j % pageSlots < page.refs.size := by
        rw [hfull]
        exact Nat.mod_lt _ (by decide)
      have hnone : (r == Ref.none) = false := by
        rw [beq_eq_false_iff_ne, Ref.none]
        omega
      rw [hh, Option.bind_eq_bind, Option.bind_some, hget, hpage]
      simp only [Option.map_some, Option.bind_eq_bind, Option.bind_some, if_true,
        Array.set!_eq_setIfInBounds, Array.getElem?_setIfInBounds, hlt, hnone]
      rfl
    · rw [if_neg hj]
      cases hq : t.page? (j / pageSlots) with
      | none => rfl
      | some q =>
        simp only [Option.bind_eq_bind, Option.bind_some, hget]
        cases hpage : t.arena[q]? with
        | none => rfl
        | some page =>
          simp only [Option.map_some, Option.bind_some]
          by_cases hqh : h = q
          · -- Two slots of one page are at different places of it.
            subst hqh
            have hsame : j / pageSlots = k / pageSlots := by
              have hj' := ((hlisted.directory _ h).mp hq).2
              have hk' := ((hlisted.directory _ h).mp hh).2
              exact Option.some.inj (hj'.symm.trans hk')
            have hne : ¬k % pageSlots = j % pageSlots := by
              intro heq
              refine hj ?_
              rw [← Nat.div_add_mod j pageSlots, ← Nat.div_add_mod k pageSlots, hsame, heq]
            rw [if_pos rfl]
            simp only [Array.set!_eq_setIfInBounds, Array.getElem?_setIfInBounds, hne, if_false]
          · rw [if_neg hqh]

theorem setRef_valid {t : SlotMap} (ht : t.Valid) {k h : Nat}
    (hh : t.page? (k / pageSlots) = some h)
    {r : Int} (hr : 0 ≤ r) (t' : SlotMap)
    (ht' : t' = { t with arena := t.arena.modify h fun p =>
      { p with refs := p.refs.set! (k % pageSlots) r } }) :
    t'.Valid ∧ ∀ j, t'.value? j = if j = k then some r else t.value? j := by
  obtain ⟨used, freed, hlisted, hpages⟩ := ht
  obtain ⟨hlisted', hvalue⟩ := setRef_listed hlisted hh hr t' ht'
  exact ⟨⟨used, freed, hlisted', by rw [hpages, ht']⟩, hvalue⟩

/-- Giving a slot a value changes it there and nowhere else. -/
theorem insert_valid {t : SlotMap} (ht : t.Valid) (a : SlotAddr) {r : Int} (hr : 0 ≤ r) :
    (t.insert a r).Valid ∧
      ∀ k, (t.insert a r).value? k = if k = a.slot.toNat then some r else t.value? k := by
  cases hpage : t.page? (a.slot.toNat / pageSlots) with
  | some h => exact setRef_valid ht hpage hr _ (by simp only [insert, hpage])
  | none =>
    obtain ⟨hvalid, hsame⟩ := addPage_valid ht hpage
    have hnew : (t.addPage (a.slot.toNat / pageSlots)).1.page? (a.slot.toNat / pageSlots) =
        some (t.addPage (a.slot.toNat / pageSlots)).2 := by
      rw [page?_addPage, if_pos rfl]
    obtain ⟨hvalid', hvalue⟩ :=
      setRef_valid hvalid hnew hr (t.insert a r) (by simp only [insert, hpage])
    refine ⟨hvalid', fun k => ?_⟩
    rw [← hsame k]
    exact hvalue k

/-! ### Clearing -/

theorem release_valid {used : List Nat} {t : SlotMap} {f : List Nat} {h : Option Nat}
    (hhead : Chain t.arena h used) (hfree : Chain t.arena t.free f)
    (hdistinct : (used ++ f).Nodup)
    (hdirectory : ∀ n q, t.page? n = some q ↔ q ∈ used ∧ t.arena[q]?.map (·.number) = some n)
    (hfull : ∀ (q : Nat) (p : SlotPage), t.arena[q]? = some p → p.refs.size = pageSlots) :
    Chain (t.release used.length h).arena (t.release used.length h).free (used.reverse ++ f) ∧
    (∀ n, (t.release used.length h).page? n = none) ∧
    ∀ (q : Nat) (p : SlotPage), (t.release used.length h).arena[q]? = some p →
      p.refs.size = pageSlots := by
  induction used generalizing t f h with
  | nil =>
    refine ⟨hfree, fun n => ?_, hfull⟩
    cases hn : t.page? n with
    | none => exact hn
    | some q =>
      obtain ⟨hmem, -⟩ := (hdirectory n q).mp hn
      cases hmem
  | cons q rest ih =>
    obtain ⟨rfl, page, hpage, hrest⟩ := hhead
    have hlt := (Array.getElem?_eq_some_iff.mp hpage).1
    have hq : t.page? page.number = some q :=
      (hdirectory _ q).mpr ⟨List.mem_cons_self, by rw [hpage]; rfl⟩
    obtain ⟨hrestq, hdistinct'⟩ := List.nodup_cons.mp hdistinct
    have hget : ∀ p, (t.arena.set! q { page with next := t.free })[p]? =
        if q = p then some { page with next := t.free } else t.arena[p]? := by
      intro p
      rw [Array.set!_eq_setIfInBounds, Array.getElem?_setIfInBounds]
      by_cases hp : q = p
      · rw [if_pos hp, if_pos hp, if_pos hlt]
      · rw [if_neg hp, if_neg hp]
    have hchain : ∀ {l : List Nat} {first : Option Nat}, q ∉ l → Chain t.arena first l →
        Chain (t.arena.set! q { page with next := t.free }) first l := by
      intro l first hnot hc
      refine hc.congr fun p hp other hother => ⟨other, ?_, rfl⟩
      rw [hget, if_neg (show ¬q = p from fun heq => hnot (heq ▸ hp))]
      exact hother
    have hrelease : t.release (q :: rest).length (some q) =
        SlotMap.release { t with
          directory := t.directory.set! page.number none
          arena := t.arena.set! q { page with next := t.free }
          free := some q } rest.length page.next := by
      simp only [List.length_cons, release, hpage]
    have hpages : ∀ n, (t.directory.set! page.number none)[n]?.join =
        if n = page.number then none else t.page? n := by
      intro n
      rw [Array.set!_eq_setIfInBounds, Array.getElem?_setIfInBounds]
      by_cases hn : n = page.number
      · subst hn
        rw [if_pos rfl, if_pos rfl]
        split <;> rfl
      · rw [if_neg (Ne.symm hn), if_neg hn]
        rfl
    rw [hrelease, List.reverse_cons, List.append_assoc, List.singleton_append]
    refine ih (t := { t with
      directory := t.directory.set! page.number none
      arena := t.arena.set! q { page with next := t.free }
      free := some q }) (f := q :: f) ?_ ?_ ?_ ?_ ?_
    · exact hchain (fun hmem => hrestq (List.mem_append_left _ hmem)) hrest
    · refine ⟨rfl, { page with next := t.free }, ?_, ?_⟩
      · rw [hget, if_pos rfl]
      · exact hchain (fun hmem => hrestq (List.mem_append_right _ hmem)) hfree
    · exact List.perm_middle.nodup_iff.mpr hdistinct
    · intro n p
      show (t.directory.set! page.number none)[n]?.join = some p ↔ _ ∧ Option.map _ (_)[p]? = _
      rw [hpages, hget]
      constructor
      · intro hn
        split at hn
        · cases hn
        · next hne =>
          obtain ⟨hmem, hnumber⟩ := (hdirectory n p).mp hn
          have hqp : ¬q = p := by
            rintro rfl
            rw [hpage] at hnumber
            exact hne (Option.some.inj hnumber).symm
          refine ⟨(List.mem_cons.mp hmem).resolve_left (Ne.symm hqp), ?_⟩
          rw [if_neg hqp]
          exact hnumber
      · rintro ⟨hmem, hnumber⟩
        have hqp : ¬q = p := by
          rintro rfl
          exact hrestq (List.mem_append_left _ hmem)
        rw [if_neg hqp] at hnumber
        have hp := (hdirectory n p).mpr ⟨List.mem_cons_of_mem _ hmem, hnumber⟩
        rw [if_neg, hp]
        rintro rfl
        exact hqp (Option.some.inj (hq.symm.trans hp))
    · intro p other hother
      rw [show (SlotMap.arena _)[p]? = _ from hget p] at hother
      split at hother
      · obtain rfl := Option.some.inj hother
        exact hfull q page hpage
      · exact hfull p other hother

/-- Clearing gives every page in use back, the last one of the chain in front. -/
theorem clear_listed {t : SlotMap} {used freed : List Nat} (hlisted : t.Listed used freed)
    (hpages : used.length = t.pages) :
    t.clear.Listed [] (used.reverse ++ freed) ∧ ∀ n, t.clear.page? n = none := by
  obtain ⟨hfree, hnone, hfull⟩ :=
    release_valid hlisted.head hlisted.free hlisted.distinct hlisted.directory hlisted.full
  rw [hpages] at hfree hnone hfull
  have hempty : ∀ n, t.clear.page? n = none := hnone
  have hdistinct : ([] ++ (used.reverse ++ freed)).Nodup :=
    ((List.reverse_perm used).append_right freed).nodup_iff.mpr hlisted.distinct
  refine ⟨⟨rfl, hfree, hdistinct, fun n h => ?_, hfull⟩, hempty⟩
  rw [hempty]
  simp

/-- A cleared map is in order and empty. -/
theorem clear_valid {t : SlotMap} (ht : t.Valid) :
    t.clear.Valid ∧ ∀ k, t.clear.value? k = none := by
  obtain ⟨used, freed, hlisted, hpages⟩ := ht
  obtain ⟨hlisted', hempty⟩ := clear_listed hlisted hpages
  refine ⟨⟨[], _, hlisted', rfl⟩, fun k => ?_⟩
  unfold value?
  rw [hempty]
  rfl

end SlotMap

end LoopTracer.Trace
