import LoopTracer.Compile.Registers
import LoopTracer.Proofs.Machine.RegisterSets
import LoopTracer.Proofs.Trace.Recording

/-! Reservations in order.

At any time while a trace is compiled, every reservation is that of one value, the entries of the
table that are no value's are chained (`Registers.Frees`), a value is in the register that its
reservation names, and a register that may be handed out is available exactly if it holds nothing
(`Registers.Agrees`); the values that have reservations were made before the present instruction
(`Registers.Sound`). Every change that the allocator makes keeps that. -/
namespace LoopTracer.Compile

open Machine Trace

namespace Registers

/-- A value has a reservation at a place of the table. -/
def Has (s : Registers) (k i : Nat) : Prop := s.index[k]? = some (some i)

/-- The entries on the chain of free entries that begins at an entry. -/
def Linked (s : Registers) : Option Nat → List Nat → Prop
  | start, [] => start = none
  | start, i :: l => start = some i ∧ i < s.table.size ∧ s.Linked (s.at? i).next l

/-- The entries that are no value's, in the order of their chain. -/
structure Frees (s : Registers) (l : List Nat) : Prop where
  linked : s.Linked s.free l
  nodup : l.Nodup
  all : ∀ {i}, i ∈ l ↔ i < s.table.size ∧ ∀ k, ¬ s.Has k i
  count : s.live + l.length = s.table.size

/-- Reservations that agree with each other and with the registers, for a trace of so many values. -/
structure Agrees (t : Target) (values : Nat) (s : Registers) : Prop where
  size : s.index.size = values
  row : s.held.size = 32
  value : ∀ {k i}, s.Has k i → i < s.table.size ∧ (s.at? i).ref = k
  placed : ∀ {k i}, s.Has k i → (s.at? i).reg ≠ Reg.none →
    t.allocatable.contains (s.at? i).reg = true ∧ s.valueIn (s.at? i).reg = k
  held : ∀ {r}, r.Valid → s.valueIn r ≠ Ref.none →
    ∃ k i, s.Has k i ∧ s.valueIn r = (k : Int) ∧ (s.at? i).reg = r
  avail : ∀ {r}, t.allocatable.contains r = true →
    (s.avail.contains r = true ↔ s.valueIn r = Ref.none)
  frees : ∃ l, s.Frees l

/-- They are for values made before instruction `n`. -/
structure Sound (t : Target) (b : Buffer) (n : Nat) (s : Registers) :
    Prop extends Agrees t b.size s where
  needed : ∀ {k i}, s.Has k i → k < n ∧ Makes b k

/-- Registers are given up and spill slots are taken; nothing else about the reservations changes. -/
structure Evicted (s s' : Registers) : Prop where
  index : s'.index = s.index
  table : s'.table.size = s.table.size
  reg : ∀ i, (s'.at? i).reg = (s.at? i).reg ∨ (s'.at? i).reg = Reg.none

variable {t : Target} {b : Buffer} {n k i j values : Nat} {r r' : Reg}
  {s s' : Registers} {l : List Nat}

/-- A value has one reservation at most. -/
theorem Has.unique (hi : s.Has k i) (hj : s.Has k j) : i = j :=
  Option.some.inj (Option.some.inj (hi.symm.trans hj))

theorem Evicted.refl (s : Registers) : Evicted s s := ⟨rfl, rfl, fun _ => .inl rfl⟩

theorem Evicted.trans {s'' : Registers} (h : Evicted s s')
    (h' : Evicted s' s'') : Evicted s s'' where
  index := h'.index.trans h.index
  table := h'.table.trans h.table
  reg i := (h'.reg i).elim (fun heq => (h.reg i).imp heq.trans heq.trans) .inr

theorem Evicted.has (h : Evicted s s') : s'.Has k i ↔ s.Has k i := by
  unfold Has
  rw [h.index]

/-- No register is gained. -/
theorem Evicted.none (h : Evicted s s') (hi : (s.at? i).reg = Reg.none) :
    (s'.at? i).reg = Reg.none :=
  (h.reg i).elim hi.subst id

theorem natCast_ne_none (k : Nat) : (k : Int) ≠ Ref.none := by
  unfold Ref.none
  omega

/-! ### The chain of free entries -/

/-- Only the entries of the chain matter to it. -/
theorem Linked.congr {start : Option Nat} (h : s.Linked start l)
    (hsize : s'.table.size = s.table.size)
    (hnext : ∀ i ∈ l, (s'.at? i).next = (s.at? i).next) : s'.Linked start l := by
  induction l generalizing start with
  | nil => exact h
  | cons i l ih =>
    obtain ⟨hstart, hlt, hrest⟩ := h
    refine ⟨hstart, hsize ▸ hlt, ?_⟩
    rw [hnext i List.mem_cons_self]
    exact ih hrest fun j hj => hnext j (List.mem_cons_of_mem i hj)

/-- Where the chain begins is its first entry. -/
theorem Frees.head (h : s.Frees l) (hfree : s.free = some i) :
    ∃ rest, l = i :: rest ∧ i < s.table.size ∧ s.Linked (s.at? i).next rest := by
  have hlinked := h.linked
  cases l with
  | nil => cases hfree.symm.trans hlinked
  | cons j rest =>
    obtain ⟨hj, hlt, hrest⟩ := hlinked
    obtain rfl : i = j := Option.some.inj (hfree.symm.trans hj)
    exact ⟨rest, rfl, hlt, hrest⟩

/-- If there is none, as many values are live as the table has entries. -/
theorem Frees.full (h : s.Frees l) (hfree : s.free = none) : s.live = s.table.size := by
  have hlinked := h.linked
  cases l with
  | nil => exact h.count
  | cons j rest => cases hfree.symm.trans hlinked.1

/-- The first free entry is no value's. -/
theorem Frees.unused (h : s.Frees l) (hfree : s.free = some i) :
    i < s.table.size ∧ ∀ k, ¬ s.Has k i := by
  obtain ⟨rest, rfl, -⟩ := h.head hfree
  exact h.all.mp List.mem_cons_self

/-! ### At first -/

section create

variable {capacity : Nat} {avail : RegSet}

theorem create_has : ¬ (create capacity values avail).Has k i := by
  intro h
  unfold Has create at h
  dsimp only at h
  rw [Array.getElem?_replicate] at h
  split at h <;> cases h

theorem create_valueIn : (create capacity values avail).valueIn r = Ref.none := by
  show (Array.replicate 32 Ref.none)[r.toInt.toNat]?.getD Ref.none = _
  rw [Array.getElem?_replicate]
  split <;> rfl

theorem create_table : (create capacity values avail).table.size = capacity := by
  simp [create, fresh]

/-- From an entry on, the entries of a new table are chained in ascending order. -/
theorem create_linked (hij : i + j = capacity) : (create capacity values avail).Linked
    (if i < capacity then some i else none) (List.range' i j) := by
  induction j generalizing i with
  | zero => exact if_neg (by omega)
  | succ j ih =>
    have hlt : i < capacity := by omega
    have hnext : ((create capacity values avail).at? i).next = if i + 1 < capacity
        then some (i + 1) else none := by
      simp [at?, create, fresh, hlt]
    refine ⟨if_pos hlt, create_table.symm ▸ hlt, ?_⟩
    rw [hnext]
    exact ih (by omega)

/-- Every entry of a new table is free. -/
theorem frees_create : (create capacity values avail).Frees (List.range' 0 capacity) where
  linked := create_linked (Nat.zero_add capacity)
  nodup := List.nodup_range'
  all {i} := by
    rw [List.mem_range'_1, create_table, Nat.zero_add]
    exact ⟨fun h => ⟨h.2, fun k => create_has⟩, fun h => ⟨Nat.zero_le i, h.1⟩⟩
  count := by
    rw [List.length_range', create_table]
    exact Nat.zero_add capacity

end create

/-- Nothing is reserved at first. -/
theorem agrees_create (t : Target) (values capacity : Nat) :
    (create capacity values t.allocatable).Agrees t values :=
  ⟨by simp [create], by simp [create], fun h => absurd h create_has, fun h => absurd h create_has,
    fun _ h => absurd create_valueIn h, fun {r} hr =>
      ⟨fun _ => create_valueIn, fun _ => hr⟩, _, frees_create⟩

theorem sound_create (t : Target) (b : Buffer) (n capacity : Nat) :
    (create capacity b.size t.allocatable).Sound t b n :=
  ⟨agrees_create t b.size capacity, fun h => absurd h create_has⟩

namespace Agrees

theorem lt_size (h : s.Agrees t values) (hi : s.Has k i) : k < values :=
  h.size ▸ (Array.getElem?_eq_some_iff.mp hi).1

/-- Different values have different reservations. -/
theorem inj {k' : Nat} (h : s.Agrees t values) (hi : s.Has k i) (hj : s.Has k' i) : k = k' := by
  have hk := (h.value hi).2
  rw [(h.value hj).2] at hk
  exact Int.ofNat.inj hk.symm

/-- A value in a register is the one whose reservation names it. -/
theorem valueIn_eq (h : s.Agrees t values) (hi : s.Has k i) (hr : (s.at? i).reg ≠ Reg.none) :
    (s.at? i).reg.Valid ∧ s.valueIn (s.at? i).reg = k :=
  ⟨RegSet.contains_valid (h.placed hi hr).1, (h.placed hi hr).2⟩

/-- The table entry of a value of the trace can be looked up. -/
theorem entry_eq (h : s.Agrees t values) (hk : k < values) :
    ∃ e, s.entry k = .ok e ∧ s.index[k]? = some e := by
  have hlt : k < s.index.size := h.size ▸ hk
  refine ⟨s.index[k], ?_, Array.getElem?_eq_getElem hlt⟩
  unfold entry
  rw [if_neg (Int.not_lt.mpr (Int.natCast_nonneg k)), Int.toNat_natCast,
    Array.getElem?_eq_getElem hlt]

/-- The table entry of a value that has a reservation. -/
theorem entry_has (h : s.Agrees t values) (hi : s.Has k i) : s.entry k = .ok (some i) := by
  obtain ⟨e, hentry, hindex⟩ := h.entry_eq (h.lt_size hi)
  obtain rfl : e = some i := Option.some.inj (hindex.symm.trans hi)
  exact hentry

/-- The register of a value can be looked up. -/
theorem regOf_eq (h : s.Agrees t values) (hk : k < values) : ∃ r, s.regOf k = .ok r := by
  obtain ⟨e, hentry, -⟩ := h.entry_eq hk
  unfold regOf
  rw [hentry]
  exact ⟨_, rfl⟩

/-- The register of a value that has a reservation. -/
theorem regOf_has (h : s.Agrees t values) (hi : s.Has k i) : s.regOf k = .ok (s.at? i).reg := by
  unfold regOf
  rw [h.entry_has hi]
  rfl

/-- The place in the trace does not matter. -/
theorem repos (h : s.Agrees t values) (pos : Nat) : Agrees t values { s with pos } :=
  let ⟨l, hl⟩ := h.frees
  ⟨h.size, h.row, h.value, h.placed, h.held, h.avail, l, hl.linked.congr rfl fun _ _ => rfl,
    hl.nodup, hl.all, hl.count⟩

/-- Registers change hands, and the reservations stay. -/
theorem moved (h : s.Agrees t values) (hindex : s'.index = s.index) (hfree : s'.free = s.free)
    (hlive : s'.live = s.live) (hsize : s'.table.size = s.table.size) (hrow : s'.held.size = 32)
    (hentry : ∀ i, (s'.at? i).ref = (s.at? i).ref ∧ (s'.at? i).next = (s.at? i).next)
    (hplaced : ∀ {k i}, s.Has k i → (s'.at? i).reg ≠ Reg.none →
      t.allocatable.contains (s'.at? i).reg = true ∧ s'.valueIn (s'.at? i).reg = k)
    (hheld : ∀ {r}, r.Valid → s'.valueIn r ≠ Ref.none →
      ∃ k i, s.Has k i ∧ s'.valueIn r = (k : Int) ∧ (s'.at? i).reg = r)
    (havail : ∀ {r}, t.allocatable.contains r = true →
      (s'.avail.contains r = true ↔ s'.valueIn r = Ref.none)) :
    s'.Agrees t values := by
  have hhas : ∀ {k i}, s'.Has k i ↔ s.Has k i := by
    intro k i
    unfold Has
    rw [hindex]
  obtain ⟨l, hl⟩ := h.frees
  refine ⟨hindex ▸ h.size, hrow, fun hi => ?_, fun hi => hplaced (hhas.mp hi),
    fun hr hne => ?_, havail, l, ?_,
    hl.nodup, fun {i} => ?_, ?_⟩
  · obtain ⟨htable, hk⟩ := h.value (hhas.mp hi)
    exact ⟨hsize ▸ htable, (hentry _).1.trans hk⟩
  · obtain ⟨k, i, hi, hrest⟩ := hheld hr hne
    exact ⟨k, i, hhas.mpr hi, hrest⟩
  · rw [hfree]
    exact hl.linked.congr hsize fun i _ => (hentry i).2
  · simp only [hsize, hhas]
    exact hl.all
  · rw [hlive, hsize]
    exact hl.count

end Agrees

namespace Sound

/-- A value without a reservation is not one of those that may be needed. -/
theorem narrow (h : s.Sound t b (n + 1)) (hn : ∀ i, ¬ s.Has n i) : s.Sound t b n where
  toAgrees := h.toAgrees
  needed {k i} hi := by
    obtain ⟨hlt, hmakes⟩ := h.needed hi
    exact ⟨Nat.lt_of_le_of_ne (Nat.le_of_lt_succ hlt) fun heq => hn i (heq ▸ hi), hmakes⟩

/-- The value of an instruction without a result is not needed. -/
theorem resultless (h : s.Sound t b (n + 1)) (hn : ¬ Makes b n) : s.Sound t b n :=
  h.narrow fun _ hi => hn (h.needed hi).2

/-- No value gets a reservation that may not be needed. -/
theorem after (h : s.Sound t b n) (hs' : s'.Agrees t b.size)
    (hhas : ∀ k i, s'.Has k i → s.Has k i ∨ k < n ∧ Makes b k) :
    s'.Sound t b n := ⟨hs', fun hi => (hhas _ _ hi).elim h.needed id⟩

end Sound

/-! ### Changes -/

theorem at?_modify (s : Registers) (f : Reservation → Reservation)
    (hi : i < s.table.size) (j : Nat) :
    ({ s with table := s.table.modify i f } : Registers).at? j = if j = i then f (s.at? i)
    else s.at? j := by
  unfold at?
  dsimp only
  rw [Array.getElem?_modify]
  by_cases hj : i = j
  · subst hj
    rw [if_pos rfl, if_pos rfl, Array.getElem?_eq_getElem hi]
    rfl
  · rw [if_neg hj, if_neg (Ne.symm hj)]

theorem valueIn_set (s : Registers) (hrow : s.held.size = 32) (ref : Ref) (hr : r.Valid)
    (hr' : r'.Valid) :
    ({ s with held := s.held.set! r.toInt.toNat ref } : Registers).valueIn r' = if r' = r then ref
    else s.valueIn r' := by
  have hlt : r.toInt.toNat < s.held.size := hrow ▸ hr.number_lt
  unfold valueIn
  dsimp only
  by_cases heq : r' = r
  · subst heq
    rw [if_pos rfl, Array.set!_eq_setIfInBounds, Array.getElem?_setIfInBounds_self_of_lt hlt]
    rfl
  · have hne : r.toInt.toNat ≠ r'.toInt.toNat := fun hsame => heq (hr'.number_inj hr hsame.symm)
    rw [if_neg heq, Array.set!_eq_setIfInBounds, Array.getElem?_setIfInBounds_ne hne]

section Changes

variable (h : s.Agrees t values)
include h

theorem Agrees.assign_at? (hi : s.Has k i) (r : Reg) (j : Nat) :
    (s.assign i r).at? j = if j = i then { s.at? i with reg := r } else s.at? j :=
  at?_modify s _ (h.value hi).1 j

theorem Agrees.assign_valueIn (hi : s.Has k i) (hr : r.Valid) (hr' : r'.Valid) :
    (s.assign i r).valueIn r' = if r' = r then (k : Int) else s.valueIn r' := by
  rw [← (h.value hi).2]
  exact valueIn_set s h.row _ hr hr'

/-- A reserved value is put into a register that holds nothing. -/
theorem Agrees.assign (hi : s.Has k i) (hnone : (s.at? i).reg = Reg.none)
    (hr : t.allocatable.contains r = true)
    (hfree : s.valueIn r = Ref.none) : (s.assign i r).Agrees t values := by
  have hvalid := RegSet.contains_valid hr
  have hat := h.assign_at? hi r
  have hvalue : ∀ {r'}, r'.Valid → (s.assign i r).valueIn r' = if r' = r then (k : Int)
      else s.valueIn r' :=
    h.assign_valueIn hi hvalid
  refine h.moved rfl rfl rfl Array.size_modify (by simp [Registers.assign, h.row]) (fun j => ?_)
    (fun {k' j} hj hreg => ?_)
    (fun {r'} hr' hne => ?_) fun {r'} hr' => ?_
  · rw [hat]
    split
    · next heq => exact heq ▸ ⟨rfl, rfl⟩
    · exact ⟨rfl, rfl⟩
  · by_cases hji : j = i
    · subst hji
      obtain rfl := h.inj hi hj
      rw [hat, if_pos rfl]
      exact ⟨hr, by rw [hvalue hvalid, if_pos rfl]⟩
    · rw [hat, if_neg hji] at hreg ⊢
      obtain ⟨halloc, hin⟩ := h.placed hj hreg
      refine ⟨halloc, ?_⟩
      rw [hvalue (RegSet.contains_valid halloc), if_neg, hin]
      rintro heq
      rw [heq, hfree] at hin
      exact natCast_ne_none _ hin.symm
  · rw [hvalue hr'] at hne ⊢
    by_cases heq : r' = r
    · rw [if_pos heq]
      exact ⟨k, i, hi, rfl, by rw [hat, if_pos rfl, heq]⟩
    · rw [if_neg heq] at hne ⊢
      obtain ⟨k', j, hj, hin, hreg⟩ := h.held hr' hne
      refine ⟨k', j, hj, hin, ?_⟩
      rw [hat, if_neg, hreg]
      rintro rfl
      exact hr'.ne_none (hreg.symm.trans hnone)
  · rw [hvalue (RegSet.contains_valid hr')]
    show (s.avail.erase r).contains r' = true ↔ _
    rw [RegSet.contains_erase]
    by_cases heq : r' = r
    · rw [if_pos heq]
      exact ⟨fun hand => absurd heq hand.1, fun hcast => absurd hcast (natCast_ne_none k)⟩
    · rw [if_neg heq, ← h.avail hr']
      exact ⟨fun hand => hand.2, fun hin => ⟨heq, hin⟩⟩

theorem Agrees.unassign_at? (hi : s.Has k i) (j : Nat) :
    (s.unassign i).at? j = if j = i then { s.at? i with reg := Reg.none } else s.at? j :=
  at?_modify s _ (h.value hi).1 j

theorem Agrees.unassign_valueIn (hr : (s.at? i).reg.Valid) (hr' : r'.Valid) :
    (s.unassign i).valueIn r' = if r' = (s.at? i).reg then Ref.none else s.valueIn r' :=
  valueIn_set s h.row _ hr hr'

/-- A value is taken out of its register. -/
theorem Agrees.unassign (hi : s.Has k i) (hreg : (s.at? i).reg ≠ Reg.none) :
    (s.unassign i).Agrees t values ∧ Evicted s (s.unassign i) := by
  obtain ⟨hvalid, hin⟩ := h.valueIn_eq hi hreg
  have hat := h.unassign_at? hi
  have hvalue : ∀ {r'}, r'.Valid → (s.unassign i).valueIn r' = if r' = (s.at? i).reg then Ref.none
      else s.valueIn r' :=
    h.unassign_valueIn hvalid
  refine ⟨h.moved rfl rfl rfl Array.size_modify (by simp [Registers.unassign, h.row]) (fun j => ?_)
    (fun {k' j} hj hreg' => ?_) (fun {r'} hr' hne => ?_) fun {r'} hr' =>
      ?_, rfl, Array.size_modify, fun j => ?_⟩
  · rw [hat]
    split
    · next heq => exact heq ▸ ⟨rfl, rfl⟩
    · exact ⟨rfl, rfl⟩
  · by_cases hji : j = i
    · rw [hat, if_pos hji] at hreg'
      exact absurd rfl hreg'
    · rw [hat, if_neg hji] at hreg' ⊢
      obtain ⟨halloc, hin'⟩ := h.placed hj hreg'
      refine ⟨halloc, ?_⟩
      rw [hvalue (RegSet.contains_valid halloc), if_neg, hin']
      -- no two values are in one register
      intro heq
      rw [heq, hin] at hin'
      obtain rfl := Int.ofNat.inj hin'
      exact hji (hj.unique hi)
  · rw [hvalue hr'] at hne ⊢
    split at hne
    · exact absurd rfl hne
    · next heq =>
      rw [if_neg heq]
      obtain ⟨k', j, hj, hin', hreg'⟩ := h.held hr' hne
      refine ⟨k', j, hj, hin', ?_⟩
      rw [hat, if_neg, hreg']
      rintro rfl
      exact heq hreg'.symm
  · rw [hvalue (RegSet.contains_valid hr')]
    show (s.avail.insert (s.at? i).reg).contains r' = true ↔ _
    rw [RegSet.contains_insert]
    by_cases heq : r' = (s.at? i).reg
    · rw [if_pos heq]
      exact ⟨fun _ => rfl, fun _ => .inl ⟨heq.symm, heq ▸ hvalid⟩⟩
    · rw [if_neg heq, ← h.avail hr']
      exact ⟨fun hor => hor.resolve_left fun hand => heq hand.1.symm, .inr⟩
  · rw [hat]
    split
    · exact .inr rfl
    · exact .inl rfl

theorem Agrees.takeSlot_at? (hi : s.Has k i) (slot j : Nat) :
    (s.takeSlot i slot).at? j = if j = i then { s.at? i with slot := some slot } else s.at? j :=
  at?_modify s _ (h.value hi).1 j

/-- A reservation gets a spill slot. -/
theorem Agrees.takeSlot (hi : s.Has k i) (slot : Nat) : (s.takeSlot i slot).Agrees t values ∧
    Evicted s (s.takeSlot i slot) ∧ ∀ j, ((s.takeSlot i slot).at? j).reg = (s.at? j).reg := by
  have hsame : ∀ j, (((s.takeSlot i slot).at? j).ref = (s.at? j).ref ∧
      ((s.takeSlot i slot).at? j).next = (s.at? j).next) ∧
          ((s.takeSlot i slot).at? j).reg = (s.at? j).reg := by
    intro j
    rw [h.takeSlot_at? hi]
    split
    · next heq => exact heq ▸ ⟨⟨rfl, rfl⟩, rfl⟩
    · exact ⟨⟨rfl, rfl⟩, rfl⟩
  refine ⟨h.moved rfl rfl rfl Array.size_modify h.row (fun j => (hsame j).1)
    (fun {k' j} hj hreg => ?_) (fun {r'} hr' hne => ?_)
    h.avail, ⟨rfl, Array.size_modify, fun j => .inl (hsame j).2⟩, fun j => (hsame j).2⟩
  · rw [(hsame j).2] at hreg ⊢
    exact h.placed hj hreg
  · obtain ⟨k', j, hj, hin, hreg⟩ := h.held hr' hne
    exact ⟨k', j, hj, hin, (hsame j).2.trans hreg⟩

end Changes

/-- A new slot is had only if all slots are in use. -/
theorem freeSlot_full (s : Registers) (h : s.freeSlot = s.slots.size) :
    ∀ used ∈ s.slots, used = true := by
  unfold freeSlot at h
  cases hfound : s.slots.findIdx? fun used => !used with
  | none => simpa using Array.findIdx?_eq_none_iff.mp hfound
  | some j =>
    obtain ⟨hj, -⟩ := Array.findIdx?_eq_some_iff_getElem.mp hfound
    rw [hfound, Option.getD_some] at h
    exact absurd h (Nat.ne_of_lt hj)

/-! ### New reservations -/

theorem add_at? (s : Registers) (k : Nat) (hi : i < s.table.size) (j : Nat) :
    (s.add k i).at? j = if j = i then { ref := k } else s.at? j := by
  show (s.table.set! i { ref := k })[j]?.getD {} = _
  rw [Array.set!_eq_setIfInBounds]
  by_cases hj : j = i
  · subst hj
    rw [if_pos rfl, Array.getElem?_setIfInBounds_self_of_lt hi]
    rfl
  · rw [if_neg hj, Array.getElem?_setIfInBounds_ne (Ne.symm hj)]
    rfl

theorem add_table (s : Registers) (k i : Nat) : (s.add k i).table.size = s.table.size := by
  show (s.table.set! i { ref := k }).size = _
  rw [Array.set!_eq_setIfInBounds, Array.size_setIfInBounds]

/-- The reservations are those that there were, and that of `k`. -/
theorem add_has (hk : k < s.index.size) {k' : Nat} :
    (s.add k i).Has k' j ↔ k' = k ∧ j = i ∨ k' ≠ k ∧ s.Has k' j := by
  show (s.index.set! k (some i))[k']? = some (some j) ↔ _
  rw [Array.set!_eq_setIfInBounds]
  by_cases heq : k' = k
  · subst heq
    rw [Array.getElem?_setIfInBounds_self_of_lt hk]
    constructor
    · intro h
      exact .inl ⟨rfl, (Option.some.inj (Option.some.inj h)).symm⟩
    · rintro (⟨-, rfl⟩ | ⟨hne, -⟩)
      · rfl
      · exact absurd rfl hne
  · rw [Array.getElem?_setIfInBounds_ne (Ne.symm heq)]
    exact ⟨fun h => .inr ⟨heq, h⟩, fun h => (h.resolve_left fun hand => heq hand.1).2⟩

/-- The entry that is taken is that of no value. -/
theorem Agrees.fresh (h : s.Agrees t values) (hfree : s.free = some i) {k' : Nat}
    (hj : s.Has k' j) : j ≠ i := by
  obtain ⟨l, hl⟩ := h.frees
  rintro rfl
  exact (hl.unused hfree).2 k' hj

/-- The chain goes on from the entry that is taken. -/
theorem Frees.add (hl : s.Frees l) (hk : k < s.index.size) (hnew : ∀ i, ¬ s.Has k i)
    (hfree : s.free = some i) :
    ∃ rest, l = i :: rest ∧ (s.add k i).Frees rest := by
  obtain ⟨rest, rfl, hi, hlinked⟩ := hl.head hfree
  obtain ⟨hnotin, hnodup⟩ := List.nodup_cons.mp hl.nodup
  refine ⟨rest, rfl, hlinked.congr (add_table s k i) fun j hj => ?_, hnodup, fun {j} => ?_, ?_⟩
  · rw [add_at? s k hi, if_neg (ne_of_mem_of_not_mem hj hnotin)]
  · rw [add_table]
    have hall := hl.all (i := j)
    rw [List.mem_cons] at hall
    constructor
    · intro hj
      obtain ⟨hlt, hnone⟩ := hall.mp (.inr hj)
      refine ⟨hlt, fun k' hk' => ?_⟩
      rcases (add_has hk).mp hk' with ⟨-, rfl⟩ | ⟨-, hk'⟩
      · exact hnotin hj
      · exact hnone k' hk'
    · rintro ⟨hlt, hnone⟩
      have hor :=
        hall.mpr ⟨hlt,
          fun k' hk' => hnone k' ((add_has hk).mpr (.inr ⟨fun heq => hnew j (heq ▸ hk'), hk'⟩))⟩
      refine hor.resolve_left ?_
      rintro rfl
      exact hnone k ((add_has hk).mpr (.inl ⟨rfl, rfl⟩))
  · have hcount := hl.count
    rw [List.length_cons] at hcount
    rw [add_table]
    show s.live + 1 + rest.length = s.table.size
    omega

/-- A value that has none gets a reservation. -/
theorem Agrees.add (h : s.Agrees t values) (hk : k < values) (hnew : ∀ i, ¬ s.Has k i)
    (hfree : s.free = some i) :
    (s.add k i).Agrees t values := by
  obtain ⟨l, hl⟩ := h.frees
  have hi := (hl.unused hfree).1
  have hhas : ∀ {k' j}, (s.add k i).Has k' j ↔ k' = k ∧ j = i ∨ k' ≠ k ∧ s.Has k' j :=
    add_has (h.size.symm ▸ hk)
  have hself : (s.add k i).at? i = { ref := k } := by rw [add_at? s k hi, if_pos rfl]
  have hother : ∀ {k' j}, s.Has k' j → (s.add k i).at? j = s.at? j := fun hj => by
    rw [add_at? s k hi, if_neg (h.fresh hfree hj)]
  refine ⟨?_, h.row, fun {k' j} hj => ?_, fun {k' j} hj hreg => ?_,
    fun {r} hr hne => ?_, h.avail, ?_⟩
  · show (s.index.set! k (some i)).size = _
    rw [Array.set!_eq_setIfInBounds, Array.size_setIfInBounds]
    exact h.size
  · rw [add_table]
    rcases hhas.mp hj with ⟨rfl, rfl⟩ | ⟨-, hj⟩
    · exact ⟨hi, by rw [hself]⟩
    · exact ⟨(h.value hj).1, by rw [hother hj, (h.value hj).2]⟩
  · rcases hhas.mp hj with ⟨rfl, rfl⟩ | ⟨-, hj⟩
    · rw [hself] at hreg
      exact absurd rfl hreg
    · rw [hother hj] at hreg ⊢
      exact h.placed hj hreg
  · obtain ⟨k', j, hj, hin, hreg⟩ := h.held hr hne
    exact ⟨k', j, hhas.mpr (.inr ⟨fun heq => hnew j (heq ▸ hj), hj⟩), hin, by rw [hother hj, hreg]⟩
  · obtain ⟨rest, -, hrest⟩ := hl.add (h.size.symm ▸ hk) hnew hfree
    exact ⟨rest, hrest⟩

/-! ### Reservations that are given back -/

/-- A reservation without its register. -/
def vacate (s : Registers) (i : Nat) : Registers :=
  if (s.at? i).reg == Reg.none then s else s.unassign i

theorem Agrees.vacate (h : s.Agrees t values) (hi : s.Has k i) :
    (s.vacate i).Agrees t values ∧ Evicted s (s.vacate i) ∧
    ((s.vacate i).at? i).reg = Reg.none := by
  unfold Registers.vacate
  split
  · next hnone => exact ⟨h, .refl s, beq_iff_eq.mp hnone⟩
  · next hreg =>
    have hreg : (s.at? i).reg ≠ Reg.none := fun heq => hreg (beq_iff_eq.mpr heq)
    obtain ⟨hagrees, hevicted⟩ := h.unassign hi hreg
    exact ⟨hagrees, hevicted, by rw [h.unassign_at? hi, if_pos rfl]⟩

/-- The reservations are those that there were, but for that of `k`. -/
theorem Agrees.drop_has (h : s.Agrees t values) (hi : s.Has k i) {k' j : Nat} :
    (s.drop k i).Has k' j ↔ k' ≠ k ∧ s.Has k' j := by
  obtain ⟨h₁, hevicted, -⟩ := h.vacate hi
  have hlt : k < (s.vacate i).index.size := h₁.size ▸ h.lt_size hi
  rw [← hevicted.has]
  show ((s.vacate i).index.set! k none)[k']? = _ ↔ _
  rw [Array.set!_eq_setIfInBounds]
  by_cases heq : k' = k
  · subst heq
    rw [Array.getElem?_setIfInBounds_self_of_lt hlt]
    exact ⟨fun hsome => (by cases hsome), fun hand => absurd rfl hand.1⟩
  · rw [Array.getElem?_setIfInBounds_ne (Ne.symm heq)]
    exact ⟨fun h => ⟨heq, h⟩, fun h => h.2⟩

theorem Agrees.drop_at? (h : s.Agrees t values) (hi : s.Has k i) (j : Nat) :
    (s.drop k i).at? j = if j = i then { (s.vacate i).at? i with next := s.free }
    else (s.vacate i).at? j := by
  have hfree : (s.vacate i).free = s.free := by
    unfold Registers.vacate
    split <;> rfl
  obtain ⟨h₁, hevicted, -⟩ := h.vacate hi
  rw [← hfree]
  exact at?_modify (s.vacate i) _ (h₁.value (hevicted.has.mpr hi)).1 j

theorem Agrees.drop_table (h : s.Agrees t values) (hi : s.Has k i) :
    (s.drop k i).table.size = s.table.size := by
  show ((s.vacate i).table.modify i _).size = _
  rw [Array.size_modify, (h.vacate hi).2.1.table]

/-- As every live value has an entry of its own, one is live if there is an entry. -/
theorem Frees.live_pos (hl : s.Frees l) (hi : s.Has k i) (hlt : i < s.table.size) : 0 < s.live := by
  have hcount := hl.count
  have hnodup : (i :: l).Nodup := List.nodup_cons.mpr ⟨fun hin => (hl.all.mp hin).2 k hi, hl.nodup⟩
  have hsub : i :: l ⊆ List.range s.table.size := by
    intro j hj
    rcases List.mem_cons.mp hj with rfl | hj
    · exact List.mem_range.mpr hlt
    · exact List.mem_range.mpr (hl.all.mp hj).1
  have hlength := (List.subperm_of_subset hnodup hsub).length_le
  rw [List.length_cons, List.length_range] at hlength
  omega

/-- An entry that is given back becomes the first free one. -/
theorem Frees.drop (hl : s.Frees l) (h : s.Agrees t values) (hi : s.Has k i) :
    (s.drop k i).Frees (i :: l) := by
  have hlt := (h.value hi).1
  have hnotin : i ∉ l := fun hin => (hl.all.mp hin).2 k hi
  have hlive : (s.drop k i).live = s.live - 1 := by
    show (s.vacate i).live - 1 = _
    unfold Registers.vacate
    split <;> rfl
  have hvacate : ∀ j, ((s.vacate i).at? j).next = (s.at? j).next := by
    intro j
    unfold Registers.vacate
    split
    · rfl
    · rw [h.unassign_at? hi]
      split
      · next heq => rw [heq]
      · rfl
  refine ⟨⟨rfl, (h.drop_table hi).symm ▸ hlt, ?_⟩, List.nodup_cons.mpr ⟨hnotin, hl.nodup⟩,
    fun {j} => ?_, ?_⟩
  · rw [h.drop_at? hi, if_pos rfl]
    refine hl.linked.congr (h.drop_table hi) fun j hj => ?_
    rw [h.drop_at? hi, if_neg (ne_of_mem_of_not_mem hj hnotin), hvacate]
  · rw [List.mem_cons, hl.all, h.drop_table hi]
    constructor
    · rintro (rfl | ⟨hj, hnone⟩)
      · exact ⟨hlt, fun k' hk' => ((h.drop_has hi).mp hk').1 (h.inj ((h.drop_has hi).mp hk').2 hi)⟩
      · exact ⟨hj, fun k' hk' => hnone k' ((h.drop_has hi).mp hk').2⟩
    · rintro ⟨hj, hnone⟩
      refine or_iff_not_imp_left.mpr fun hne =>
        ⟨hj, fun k' hk' => hnone k' ((h.drop_has hi).mpr ⟨?_, hk'⟩)⟩
      rintro rfl
      exact hne (hk'.unique hi)
  · have hcount := hl.count
    have hpos := hl.live_pos hi hlt
    rw [hlive, h.drop_table hi, List.length_cons]
    omega

/-- Everything that a value has is given back. -/
theorem Agrees.drop (h : s.Agrees t values) (hi : s.Has k i) : (s.drop k i).Agrees t values := by
  -- the register is given back first
  obtain ⟨h₁, hevicted, hnone⟩ := h.vacate hi
  obtain ⟨l, hl⟩ := h.frees
  have hhas : ∀ {k' j}, (s.drop k i).Has k' j ↔ k' ≠ k ∧ s.Has k' j := h.drop_has hi
  have hother : ∀ {k' j}, (s.drop k i).Has k' j → (s.vacate i).Has k' j ∧
      (s.drop k i).at? j = (s.vacate i).at? j := by
    intro k' j hj
    obtain ⟨hne, hj⟩ := hhas.mp hj
    have hji : j ≠ i := fun heq => hne (h.inj (heq ▸ hj) hi)
    exact ⟨hevicted.has.mpr hj, by rw [h.drop_at? hi, if_neg hji]⟩
  refine ⟨?_, h₁.row, fun {k' j} hj => ?_, fun {k' j} hj hreg => ?_, fun {r} hr hne => ?_,
    h₁.avail, _, hl.drop h hi⟩
  · show ((s.vacate i).index.set! k none).size = _
    rw [Array.set!_eq_setIfInBounds, Array.size_setIfInBounds]
    exact h₁.size
  · obtain ⟨hj, hat⟩ := hother hj
    obtain ⟨htable, href⟩ := h₁.value hj
    exact ⟨h.drop_table hi ▸ hevicted.table ▸ htable, by rw [hat, href]⟩
  · obtain ⟨hj, hat⟩ := hother hj
    rw [hat] at hreg ⊢
    exact h₁.placed hj hreg
  · obtain ⟨k', j, hj, hin, hreg⟩ := h₁.held hr hne
    have hj' : (s.drop k i).Has k' j := by
      refine hhas.mpr ⟨?_, hevicted.has.mp hj⟩
      rintro rfl
      obtain rfl := hj.unique (hevicted.has.mpr hi)
      exact hr.ne_none (hreg.symm.trans hnone)
    exact ⟨k', j, hj', hin, by rw [(hother hj').2, hreg]⟩

end Registers

end LoopTracer.Compile
