import LoopTracer.Proofs.Compile.Upkeep

/-! What the tables of the allocator stand for.

The register file, the table of reservations with its free entries, the index of values and the
spill slots are changed by a dozen operations. At all times they tell the same: who is in which
register, which entry is whose, and who owns which spill slot (`Registers.Consistent`). A change
that the allocator makes keeps that (`Represents`), so every request that is issued while a trace is
compiled does (`Allocation.Reached`), and none of them puts a value into a register that holds
another one. -/
namespace LoopTracer.Compile

open Machine Trace

namespace Registers

/-- A spill slot is that of a live value. -/
def Owns (s : Registers) (k j : Nat) : Prop := ∃ i, s.Has k i ∧ (s.at? i).slot = some j

/-- What all changes of the allocator keep, besides that reservations and registers agree. -/
structure Represents (set : Setting) (s : Registers) :
    Prop extends Agrees set.target set.buffer.size s where
  offered : ∀ {r}, s.avail.contains r = true → set.target.allocatable.contains r = true
  lives : s.live = s.index.countP Option.isSome
  used : ∀ {j}, s.slots[j]? = some true ↔ ∃ k, s.Owns k j
  apart : ∀ {k k' j}, s.Owns k j → s.Owns k' j → k = k'
  remade : ∀ {k j}, s.Owns k j → ¬ Immediate set.buffer k
  few : (s.slots.size : Int) ≤ set.maxSlots
  high : s.high = s.slots.size

variable {set : Setting} {s s' : Registers} {t : Target} {k k' i j values : Nat} {r : Reg}

/-! ### Spill slots -/

/-- The slot that is taken is not in use: one that was given back, or a new one. -/
theorem freeSlot_cases (s : Registers) :
    s.slots[s.freeSlot]? = some false ∨ s.freeSlot = s.slots.size := by
  unfold freeSlot
  cases hfound : s.slots.findIdx? fun used => !used with
  | none => exact .inr rfl
  | some j =>
    obtain ⟨hj, hused, -⟩ := Array.findIdx?_eq_some_iff_getElem.mp hfound
    left
    rw [Option.getD_some, Array.getElem?_eq_getElem hj]
    simpa using hused

theorem takeSlot_slots (s : Registers) (i : Nat) (hj : j ≤ s.slots.size) (x : Nat) :
    (s.takeSlot i j).slots[x]? = if x = j then some true else s.slots[x]? := by
  show (if j < s.slots.size then s.slots.set! j true else s.slots.push true)[x]? = _
  split
  · next hlt =>
    rw [Array.set!_eq_setIfInBounds]
    by_cases hx : x = j
    · rw [hx, if_pos rfl, Array.getElem?_setIfInBounds_self_of_lt hlt]
    · rw [if_neg hx, Array.getElem?_setIfInBounds_ne (Ne.symm hx)]
  · next hlt =>
    rw [Array.getElem?_push, show j = s.slots.size by omega]

theorem takeSlot_size (s : Registers) (i : Nat) (hj : j ≤ s.slots.size) :
    (s.takeSlot i j).slots.size = if j = s.slots.size then s.slots.size + 1 else s.slots.size := by
  show (if j < s.slots.size then s.slots.set! j true else s.slots.push true).size = _
  split
  · rw [Array.set!_eq_setIfInBounds, Array.size_setIfInBounds, if_neg (by omega)]
  · rw [Array.size_push, if_pos (by omega)]

/-! ### Changes -/

/-- Nothing is reserved at first. -/
theorem represents_create (capacity : Nat) (hslots : 0 ≤ set.maxSlots) :
    (create capacity set.buffer.size set.target.allocatable).Represents set where
  toAgrees := agrees_create set.target set.buffer.size capacity
  offered hr := hr
  lives := by
    show 0 = (Array.replicate set.buffer.size none).countP Option.isSome
    rw [Array.countP_replicate]
    rfl
  used {j} := by
    constructor
    · intro hj
      cases hj
    · rintro ⟨k, i, hi, -⟩
      exact absurd hi create_has
  apart := by
    rintro k k' j ⟨i, hi, -⟩
    exact absurd hi create_has
  remade := by
    rintro k j ⟨i, hi, -⟩
    exact absurd hi create_has
  few := hslots
  high := rfl

section Changes

variable (h : s.Represents set)
include h

/-- Registers change hands, and the reservations and their slots stay. -/
theorem Represents.moved (h' : s'.Agrees set.target set.buffer.size)
    (hoffered : ∀ {r}, s'.avail.contains r = true → set.target.allocatable.contains r = true)
    (hindex : s'.index = s.index) (hlive : s'.live = s.live) (hslots : s'.slots = s.slots)
    (hhigh : s'.high = s.high)
    (hslot : ∀ i, (s'.at? i).slot = (s.at? i).slot) : s'.Represents set := by
  have howns : ∀ {k j}, s'.Owns k j ↔ s.Owns k j := by
    intro k j
    unfold Owns Has
    simp only [hindex, hslot]
  exact {
    toAgrees := h'
    offered := hoffered
    lives := by rw [hlive, hindex, h.lives]
    used := by simp only [hslots, howns, h.used, implies_true]
    apart := fun hk hk' => h.apart (howns.mp hk) (howns.mp hk')
    remade := fun hk => h.remade (howns.mp hk)
    few := hslots ▸ h.few
    high := by rw [hhigh, hslots, h.high] }

theorem Represents.repos (pos : Nat) : Represents set { s with pos } :=
  h.moved (h.toAgrees.repos pos) h.offered rfl rfl rfl rfl fun _ => rfl

theorem Represents.assign (hi : s.Has k i) (hnone : (s.at? i).reg = Reg.none)
    (hr : set.target.allocatable.contains r = true) (hfree : s.valueIn r = Ref.none) :
    (s.assign i r).Represents set := by
  refine h.moved (h.toAgrees.assign hi hnone hr hfree)
    (fun hmem => h.offered (RegSet.contains_erase.mp hmem).2)
    rfl rfl rfl rfl fun j => ?_
  rw [h.assign_at? hi]
  split
  · next heq => rw [heq]
  · rfl

theorem Represents.unassign (hi : s.Has k i) (hreg : (s.at? i).reg ≠ Reg.none) :
    (s.unassign i).Represents set := by
  refine h.moved (h.toAgrees.unassign hi hreg).1 (fun hmem => ?_) rfl rfl rfl rfl fun j => ?_
  · rcases RegSet.contains_insert.mp hmem with ⟨rfl, -⟩ | hmem
    · exact (h.placed hi hreg).1
    · exact h.offered hmem
  · rw [h.unassign_at? hi]
    split
    · next heq => rw [heq]
    · rfl

/-- A new reservation owns no slot. -/
theorem Represents.add_owns (hk : k < set.buffer.size) (hnew : ∀ i, ¬ s.Has k i)
    (hfree : s.free = some i) :
    (s.add k i).Owns k' j ↔ s.Owns k' j := by
  have hhas : ∀ {k' j}, (s.add k i).Has k' j ↔ k' = k ∧ j = i ∨ k' ≠ k ∧ s.Has k' j :=
    add_has (h.size ▸ hk)
  obtain ⟨l, hl⟩ := h.frees
  have hat := add_at? s k (hl.unused hfree).1
  constructor
  · rintro ⟨x, hx, hslot⟩
    rw [hat] at hslot
    rcases hhas.mp hx with ⟨-, rfl⟩ | ⟨-, hx⟩
    · rw [if_pos rfl] at hslot
      cases hslot
    · rw [if_neg (h.fresh hfree hx)] at hslot
      exact ⟨x, hx, hslot⟩
  · rintro ⟨x, hx, hslot⟩
    refine ⟨x, hhas.mpr (.inr ⟨fun heq => hnew x (heq ▸ hx), hx⟩), ?_⟩
    rw [hat, if_neg (h.fresh hfree hx), hslot]

/-- A value that has none gets a reservation. -/
theorem Represents.add (hk : k < set.buffer.size) (hnew : ∀ i, ¬ s.Has k i)
    (hfree : s.free = some i) :
    (s.add k i).Represents set := by
  have howns : ∀ {k' j}, (s.add k i).Owns k' j ↔ s.Owns k' j := h.add_owns hk hnew hfree
  refine ⟨h.toAgrees.add hk hnew hfree, h.offered, ?_, fun {x} => ?_,
    fun hx hx' => h.apart (howns.mp hx) (howns.mp hx'),
    fun hx => h.remade (howns.mp hx), h.few, h.high⟩
  · have hlt : k < s.index.size := h.size ▸ hk
    have hnone : s.index[k] = none := by
      cases he : s.index[k] with
      | none => rfl
      | some x =>
        exact absurd (show s.Has k x by rw [Has, Array.getElem?_eq_getElem hlt, he]) (hnew x)
    show s.live + 1 = (s.index.set! k (some i)).countP Option.isSome
    rw [h.lives, Array.set!_eq_setIfInBounds, Array.setIfInBounds, dif_pos hlt,
      Array.countP_set, hnone]
    simp
  · show s.slots[x]? = some true ↔ _
    rw [h.used]
    exact exists_congr fun _ => howns.symm

/-- A slot that is not in use is taken, or a new one. -/
theorem Represents.freeSlot_fresh : ¬ s.Owns k s.freeSlot ∧ s.freeSlot ≤ s.slots.size := by
  constructor
  · intro howns
    have hused := h.used.mpr ⟨k, howns⟩
    rcases s.freeSlot_cases with hfree | hnew
    · rw [hused] at hfree
      cases hfree
    · rw [hnew, Array.getElem?_size] at hused
      cases hused
  · rcases s.freeSlot_cases with hfree | hnew
    · exact Nat.le_of_lt (Array.getElem?_eq_some_iff.mp hfree).1
    · exact Nat.le_of_eq hnew

/-- Slots keep their owners, and the one that is taken has one. -/
theorem Represents.takeSlot_owns (hi : s.Has k i) (hnone : (s.at? i).slot = none) (slot : Nat) :
    (s.takeSlot i slot).Owns k' j ↔ s.Owns k' j ∨ k' = k ∧ j = slot := by
  have hat := h.takeSlot_at? hi slot
  constructor
  · rintro ⟨x, hx, hslot⟩
    rw [hat] at hslot
    split at hslot
    · next heq => exact .inr ⟨h.inj (heq ▸ hx) hi, (Option.some.inj hslot).symm⟩
    · exact .inl ⟨x, hx, hslot⟩
  · rintro (⟨x, hx, hslot⟩ | ⟨rfl, rfl⟩)
    · refine ⟨x, hx, ?_⟩
      rw [hat, if_neg, hslot]
      rintro rfl
      rw [hnone] at hslot
      cases hslot
    · exact ⟨i, hi, by rw [hat, if_pos rfl]⟩

/-- A reservation gets a spill slot. -/
theorem Represents.takeSlot (hi : s.Has k i) (hk : ¬ Immediate set.buffer k)
    (hnone : (s.at? i).slot = none)
    (hroom : s.freeSlot = s.slots.size → (s.slots.size : Int) < set.maxSlots) :
    (s.takeSlot i s.freeSlot).Represents set := by
  have hle := (h.freeSlot_fresh (k := k)).2
  have howns : ∀ {k' j}, (s.takeSlot i s.freeSlot).Owns k' j ↔
      s.Owns k' j ∨ k' = k ∧ j = s.freeSlot :=
    h.takeSlot_owns hi hnone s.freeSlot
  have hslots := fun x => s.takeSlot_slots i hle x
  have hsize := s.takeSlot_size i hle
  have hfew := h.few
  have hhigh := h.high
  refine ⟨(h.toAgrees.takeSlot hi s.freeSlot).1, h.offered, h.lives, fun {x} => ?_,
    fun {k₁ k₂ x} h₁ h₂ => ?_,
    fun {k' x} hx => ?_, ?_, ?_⟩
  · rw [hslots]
    by_cases hx : x = s.freeSlot
    · rw [if_pos hx]
      exact ⟨fun _ => ⟨k, howns.mpr (.inr ⟨rfl, hx⟩)⟩, fun _ => rfl⟩
    · rw [if_neg hx, h.used]
      exact exists_congr fun k' =>
        ⟨fun hk' => howns.mpr (.inl hk'),
          fun hk' => (howns.mp hk').resolve_right fun hand => hx hand.2⟩
  · rcases howns.mp h₁ with h₁ | ⟨rfl, rfl⟩ <;> rcases howns.mp h₂ with h₂ | ⟨rfl, heq⟩
    · exact h.apart h₁ h₂
    · exact absurd (heq ▸ h₁) h.freeSlot_fresh.1
    · exact absurd h₂ h.freeSlot_fresh.1
    · rfl
  · rcases howns.mp hx with hx | ⟨rfl, -⟩
    · exact h.remade hx
    · exact hk
  · rw [hsize]
    split <;> omega
  · show max s.high (s.takeSlot i s.freeSlot).slots.size = _
    rw [hsize]
    split <;> omega

theorem Represents.vacate_slot (hi : s.Has k i) (x : Nat) :
    ((s.vacate i).at? x).slot = (s.at? x).slot := by
  unfold Registers.vacate
  split
  · rfl
  · rw [h.unassign_at? hi]
    split
    · next heq => rw [heq]
    · rfl

theorem Represents.drop_slot (hi : s.Has k i) (x : Nat) :
    ((s.drop k i).at? x).slot = (s.at? x).slot := by
  rw [h.drop_at? hi]
  split
  · next heq => exact heq ▸ h.vacate_slot hi i
  · exact h.vacate_slot hi x

/-- Slots keep their owners, but for that of the value which is dropped. -/
theorem Represents.drop_owns (hi : s.Has k i) : (s.drop k i).Owns k' j ↔ k' ≠ k ∧ s.Owns k' j := by
  have hslot := h.drop_slot hi
  constructor
  · rintro ⟨x, hx, hj⟩
    obtain ⟨hne, hx⟩ := (h.drop_has hi).mp hx
    exact ⟨hne, x, hx, hslot x ▸ hj⟩
  · rintro ⟨hne, x, hx, hj⟩
    exact ⟨x, (h.drop_has hi).mpr ⟨hne, hx⟩, hslot x ▸ hj⟩

theorem Represents.drop_slots (hi : s.Has k i) :
    (s.drop k i).slots = ((s.at? i).slot.map fun y => s.slots.set! y false).getD s.slots := by
  have hvacate : (s.vacate i).slots = s.slots := by
    unfold Registers.vacate
    split <;> rfl
  unfold Registers.drop
  dsimp only
  split
  · next y hy =>
    have hslot : (s.at? i).slot = some y := (h.vacate_slot hi i).symm.trans hy
    show (s.vacate i).slots.set! y false = _
    rw [hvacate, hslot]
    rfl
  · next hy =>
    have hslot : (s.at? i).slot = none := (h.vacate_slot hi i).symm.trans hy
    show (s.vacate i).slots = _
    rw [hvacate, hslot]
    rfl

/-- The slot of a value which is dropped is not in use any more. -/
theorem Represents.drop_used (hi : s.Has k i) :
    (s.drop k i).slots[j]? = if (s.at? i).slot = some j then some false else s.slots[j]? := by
  rw [h.drop_slots hi]
  cases hslot : (s.at? i).slot with
  | none => rfl
  | some y =>
    have hused := h.used.mpr ⟨k, i, hi, hslot⟩
    rw [Option.map_some, Option.getD_some, Array.set!_eq_setIfInBounds]
    by_cases hj : y = j
    · subst hj
      rw [if_pos rfl, Array.getElem?_setIfInBounds_self_of_lt
        (Array.getElem?_eq_some_iff.mp hused).1]
    · rw [if_neg (fun heq => hj (Option.some.inj heq)), Array.getElem?_setIfInBounds_ne hj]

theorem Represents.drop_size (hi : s.Has k i) : (s.drop k i).slots.size = s.slots.size := by
  rw [h.drop_slots hi]
  cases (s.at? i).slot with
  | none => rfl
  | some y =>
    rw [Option.map_some, Option.getD_some, Array.set!_eq_setIfInBounds, Array.size_setIfInBounds]

/-- Everything that a value has is given back. -/
theorem Represents.drop (hi : s.Has k i) : (s.drop k i).Represents set := by
  have howns : ∀ {k' j}, (s.drop k i).Owns k' j ↔ k' ≠ k ∧ s.Owns k' j := h.drop_owns hi
  have hevicted := (h.toAgrees.vacate hi).2.1
  have hmoved : (s.vacate i).Represents set := by
    unfold Registers.vacate
    split
    · exact h
    · next hreg => exact h.unassign hi fun heq => hreg (beq_iff_eq.mpr heq)
  refine ⟨h.toAgrees.drop hi, hmoved.offered, ?_, fun {x} => ?_,
    fun hx hx' => h.apart (howns.mp hx).2 (howns.mp hx').2,
    fun hx => h.remade (howns.mp hx).2, h.drop_size hi ▸ h.few, ?_⟩
  · have hi' := hevicted.has.mpr hi
    obtain ⟨hlt, hentry⟩ := Array.getElem?_eq_some_iff.mp hi'
    show (s.vacate i).live - 1 = ((s.vacate i).index.set! k none).countP Option.isSome
    rw [hmoved.lives, Array.set!_eq_setIfInBounds, Array.setIfInBounds, dif_pos hlt,
      Array.countP_set, hentry]
    rfl
  · rw [h.drop_used hi]
    split
    · next hslot =>
      refine ⟨fun hx => (by cases hx), ?_⟩
      rintro ⟨k', hk'⟩
      exact absurd (h.apart (howns.mp hk').2 ⟨i, hi, hslot⟩) (howns.mp hk').1
    · next hslot =>
      rw [h.used]
      refine exists_congr fun k' => ⟨fun hk' => howns.mpr ⟨?_, hk'⟩, fun hk' => (howns.mp hk').2⟩
      rintro rfl
      obtain ⟨y, hy, hyslot⟩ := hk'
      obtain rfl := hy.unique hi
      exact hslot hyslot
  · rw [h.drop_size hi, ← h.high]
    show (s.vacate i).high = s.high
    unfold Registers.vacate
    split <;> rfl

end Changes

end Registers
end LoopTracer.Compile
