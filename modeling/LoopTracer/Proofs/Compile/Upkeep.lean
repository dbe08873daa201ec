import LoopTracer.Proofs.Compile.Allocating
import LoopTracer.Proofs.Compile.Reservations
import LoopTracer.Proofs.Compile.Room

/-! What is kept while registers are allocated.

All that the allocator does to the reservations are five changes: one is made, one is given back, a
value is put into a register or taken out of it, and a spill slot is taken. So whatever these
changes keep (`Upkeep`), every operation of the allocator keeps, unless something stops it. A
register is had unless all that need not be avoided hold no value that could be evicted
(`freeReg_ends`). -/
namespace LoopTracer.Compile

open Machine Trace

/-- A value that is made anew wherever it is needed. -/
def Immediate (b : Buffer) (k : Nat) : Prop := ∃ i, b.get? k = some i ∧ i.op = .imm

/-- What is kept while registers are allocated: `regs` of the reservations and `code` of the code
that was written. Reservations are made for values that are `wanted`, and spill slots are taken for
values that may be `spilled`. -/
structure Upkeep (set : Setting) where
  stops : CompileStop → Allocation → Prop
  wanted : Nat → Prop
  spilled : Nat → Prop
  regs : Registers → Prop
  code : Code → Prop
  inside : ∀ {k : Nat}, wanted k → k < set.buffer.size
  stored : ∀ {k : Nat}, ¬ Immediate set.buffer k → spilled k
  agrees : ∀ {s : Registers}, regs s → s.Agrees set.target set.buffer.size
  add : ∀ {s : Registers} {k i : Nat}, regs s → wanted k → (∀ i, ¬ s.Has k i) →
    s.free = some i → regs (s.add k i)
  assign : ∀ {s : Registers} {k i : Nat} {r : Reg}, regs s → s.Has k i → (s.at? i).reg = Reg.none →
    set.target.allocatable.contains r = true → s.valueIn r = Ref.none → regs (s.assign i r)
  unassign : ∀ {s : Registers} {k i : Nat}, regs s → s.Has k i → (s.at? i).reg ≠ Reg.none →
    regs (s.unassign i)
  takeSlot : ∀ {s : Registers} {k i : Nat}, regs s → s.Has k i → spilled k → (s.at? i).slot = none →
    (s.freeSlot = s.slots.size → (s.slots.size : Int) < set.maxSlots) →
      regs (s.takeSlot i s.freeSlot)
  drop : ∀ {s : Registers} {k i : Nat}, regs s → s.Has k i → regs (s.drop k i)
  full : ∀ {s : Allocation} (k : Nat), regs s.regs → s.regs.free = none →
    stops (.error ⟨.tooManyLive, .ofNat s.regs.live ++ " values live at v" ++ .ofInt k⟩) s
  slots : ∀ {s : Allocation}, s.regs.freeSlot = s.regs.slots.size →
    set.maxSlots ≤ s.regs.slots.size →
    stops (.error ⟨.frameOverflow, "more than " ++ .ofInt set.maxSlots ++ " spill slots"⟩) s
  emit : ∀ {s : Allocation} {i : Instr}, code s.code → i.Known →
    Ensures (fun e c => stops e { s with code := c }) (Code.emit set.backend .main i) s.code
      fun _ c' => code c'

namespace Registers

variable {set : Setting} {s : Registers} {avoid : RegSet} {r : Reg}

/-- A value is in a register. -/
def In (s : Registers) (k : Nat) (r : Reg) : Prop := ∃ i, s.Has k i ∧ (s.at? i).reg = r

/-- There is a value to evict if one is in a register that need not be avoided, and it is in such
a register. -/
theorem victim?_some (hr : (set.target.allocatable.diff avoid).contains r = true)
    (hheld : s.valueIn r ≠ Ref.none) :
    ∃ r', (set.target.allocatable.diff avoid).contains r' = true ∧ s.valueIn r' ≠ Ref.none ∧
      s.victim? set avoid = some (s.valueIn r') := by
  let held := ((set.target.allocatable.diff avoid).toList.map s.valueIn).filter (· ≠ Ref.none)
  have hmem : s.valueIn r ∈ held :=
    List.mem_filter.mpr ⟨List.mem_map_of_mem (RegSet.mem_toList.mpr hr), decide_eq_true hheld⟩
  -- the best of the values met so far is one of them, and there is one after the first
  have hbest : ∀ (l : List Ref) (best : Option (Ref × Int)), (∀ x ∈ best, x.1 ∈ held) →
    (∀ ref ∈ l, ref ∈ held) →
      (best.isSome = true ∨ l ≠ []) → ∃ ref ∈ held, (l.foldl (fun best ref =>
        let p := s.priority set ref
        match best with
        | some (_, q) => if p < q then some (ref, p) else best
        | none => some (ref, p)) best).map (·.1) = some ref := by
    intro l
    induction l with
    | nil =>
      rintro (_ | x) hin - hsome
      · exact absurd hsome (by simp)
      · exact ⟨x.1, hin x rfl, rfl⟩
    | cons ref l ih =>
      rintro best hin hl -
      rw [List.foldl_cons]
      refine ih _ (fun x hx => ?_)
        (fun ref' href' => hl ref' (List.mem_cons_of_mem ref href')) (.inl ?_)
      · have href := hl ref List.mem_cons_self
        cases best with
        | none =>
          cases hx
          exact href
        | some y =>
          dsimp only at hx
          split at hx
          · cases hx
            exact href
          · exact hin x hx
      · cases best with
        | none => rfl
        | some y =>
          dsimp only
          split <;> rfl
  obtain ⟨ref, href, heq⟩ := hbest held none nofun (fun _ h => h) (.inr (List.ne_nil_of_mem hmem))
  obtain ⟨hmap, hne⟩ := List.mem_filter.mp href
  obtain ⟨r', hr', rfl⟩ := List.mem_map.mp hmap
  exact ⟨r', RegSet.mem_toList.mp hr', of_decide_eq_true hne, heq⟩

/-- There is none if no value is in such a register. -/
theorem victim?_none
    (hempty : ∀ r, (set.target.allocatable.diff avoid).contains r = true → s.valueIn r = Ref.none) :
    s.victim? set avoid = none := by
  have hheld : ((set.target.allocatable.diff avoid).toList.map s.valueIn).filter (· ≠ Ref.none) =
      [] := by
    refine List.filter_eq_nil_iff.mpr fun ref href => ?_
    obtain ⟨r, hr, rfl⟩ := List.mem_map.mp href
    simpa using hempty r (RegSet.mem_toList.mp hr)
  unfold victim?
  dsimp only
  rw [hheld]
  rfl

end Registers

/-! ### Operations -/

/-- An operation ends as `Q` says unless it is stopped. -/
abbrev Upkeep.Ends {set : Setting} (u : Upkeep set) {α : Type} (x : Allocating α) (s : Allocation)
    (Q : α → Allocation → Prop) : Prop := Ensures u.stops x s Q

/-- All that is kept. -/
structure Upkeep.Holds {set : Setting} (u : Upkeep set) (s : Allocation) : Prop where
  regs : u.regs s.regs
  code : u.code s.code

theorem Upkeep.Holds.agrees {set : Setting} {u : Upkeep set} {s : Allocation} (h : u.Holds s) :
    s.regs.Agrees set.target set.buffer.size := u.agrees h.regs

namespace Allocation

variable {α : Type} {set : Setting} {u : Upkeep set} {k i : Nat} {s : Allocation}
  {avoid : RegSet} {want : Reg}

/-- A computation that begins with an answer. -/
theorem liftFault_bind {β : Type} {E : CompileStop → Allocation → Prop} {a : α} {x : Except Fault α}
    {f : α → Allocating β} {Q : β → Allocation → Prop} (h : x = .ok a) (hf : Ensures E (f a) s Q) :
    Ensures E (liftFault x >>= f) s Q := by
  subst h
  exact .pure_bind hf

/-- The allocator sees of writing that the reservations stay. -/
theorem coding_ensures {E : CompileStop → Allocation → Prop} {x : Coding α} {Q : α → Code → Prop}
    (hx : Ensures (fun e code => E e { s with code }) x s.code Q) :
    Ensures E (coding x) s fun a s' => s'.regs = s.regs ∧ Q a s'.code := by
  cases h : x s.code with
  | ok a c =>
    have heq : coding x s = .ok a { s with code := c } := by simp only [coding, h]
    exact (ensures_ok heq).mpr ⟨rfl, (ensures_ok h).mp hx⟩
  | error e c =>
    have heq : coding x s = .error e { s with code := c } := by simp only [coding, h]
    exact (ensures_error heq).mpr ((ensures_error h).mp hx)

section

variable (h : u.Holds s)
include h

/-- A request is written, and the reservations stay. -/
theorem emit_ends {x : Instr} (hx : x.Known) :
    u.Ends (emit set x) s fun _ s' => u.Holds s' ∧ s'.regs = s.regs :=
  (coding_ensures (u.emit h.code hx)).mono fun _ _ ⟨hregs, hcode⟩ =>
    ⟨⟨hregs ▸ h.regs, hcode⟩, hregs⟩

/-- A wanted value has a reservation, without a register if it is a new one. -/
theorem reserve_ends (hk : u.wanted k) :
    u.Ends (reserve k) s fun i s' => u.Holds s' ∧ s'.regs.Has k i ∧
    (s'.regs = s.regs ∨ (s'.regs.at? i).reg = Reg.none) := by
  have hsize := u.inside hk
  obtain ⟨e, hentry, hindex⟩ := h.agrees.entry_eq hsize
  refine .get (liftFault_bind hentry ?_)
  cases e with
  | some i => exact .pure ⟨h, hindex, .inl rfl⟩
  | none =>
    have hnew : ∀ i, ¬ s.regs.Has k i := fun i hi => by
      rw [Registers.Has, hindex] at hi
      cases hi
    cases hfree : s.regs.free with
    | none => exact (ensures_error (take_full hfree)).mpr (u.full k h.regs hfree)
    | some i =>
      obtain ⟨l, hl⟩ := h.agrees.frees
      refine (ensures_ok (take_free hfree)).mpr ⟨⟨u.add h.regs hk hnew hfree, h.code⟩, ?_, .inr ?_⟩
      · exact (Registers.add_has (h.agrees.size ▸ hsize)).mpr (.inl ⟨rfl, rfl⟩)
      · show ((s.regs.add k i).at? i).reg = Reg.none
        rw [Registers.add_at? _ _ (hl.unused hfree).1, if_pos rfl]

/-- What a value has is given back. -/
theorem release_ends (hk : k < set.buffer.size) :
    u.Ends (release k) s fun _ s' => u.Holds s' ∧ ∀ i, ¬ s'.regs.Has k i := by
  obtain ⟨e, hentry, hindex⟩ := h.agrees.entry_eq hk
  refine .get (liftFault_bind hentry ?_)
  cases e with
  | some i => exact .modify ⟨⟨u.drop h.regs hindex, h.code⟩,
    fun j hj => ((h.agrees.drop_has hindex).mp hj).1 rfl⟩
  | none =>
    refine .pure ⟨h, fun i hi => ?_⟩
    rw [Registers.Has, hindex] at hi
    cases hi

/-- A reserved value without a register is put into one that holds nothing. -/
theorem assign_ends (hi : s.regs.Has k i) (hnone : (s.regs.at? i).reg = Reg.none)
    (hwant : set.target.allocatable.contains want = true) (hfree : s.regs.valueIn want = Ref.none) :
    u.Ends (assign set i want) s fun _ s' => u.Holds s' ∧ s'.regs.Has k i ∧
    (s'.regs.at? i).reg = want := by
  refine .get ?_
  dsimp only
  rw [if_neg (not_not_intro hfree)]
  refine .modify ⟨⟨u.assign h.regs hi hnone hwant hfree, h.code⟩, hi, ?_⟩
  show ((s.regs.assign i want).at? i).reg = want
  rw [h.agrees.assign_at? hi, if_pos rfl]

/-- A reservation has a spill slot unless there are too many. -/
theorem ensureSlot_ends (hi : s.regs.Has k i) (hk : u.spilled k) :
    u.Ends (ensureSlot set i) s fun _ s' =>
    u.Holds s' ∧ Registers.Evicted s.regs s'.regs ∧ (s'.regs.at? i).reg = (s.regs.at? i).reg := by
  refine .get ?_
  dsimp only
  split
  · exact .pure ⟨h, .refl _, rfl⟩
  · next hnone =>
    obtain ⟨-, hevicted, hreg⟩ := h.agrees.takeSlot hi s.regs.freeSlot
    split
    · next hfull =>
      simp only [Bool.and_eq_true, decide_eq_true_eq] at hfull
      exact .bind (Q := fun _ _ => False) (.throw (u.slots hfull.1 hfull.2)) fun _ _ => False.elim
    · next hroom =>
      simp only [Bool.and_eq_true, decide_eq_true_eq, not_and, Int.not_le] at hroom
      exact .modify_bind (.pure ⟨⟨u.takeSlot h.regs hi hk hnone hroom, h.code⟩, hevicted, hreg i⟩)

theorem slotFor_ends (hk : u.wanted k) (hspilled : u.spilled k) :
    u.Ends (slotFor set k) s fun _ s' => u.Holds s' :=
  (reserve_ends h hk).bind fun _ _ ⟨h₁, hi, _⟩ =>
    (ensureSlot_ends h₁ hi hspilled).mono fun _ _ h₂ => h₂.1

/-- A value is taken out of its register. -/
theorem evict_ends (hi : s.regs.Has k i) (hreg : (s.regs.at? i).reg ≠ Reg.none) :
    u.Ends (evict set k) s fun _ s' =>
    u.Holds s' ∧ Registers.Evicted s.regs s'.regs ∧
    s'.regs.valueIn (s.regs.at? i).reg = Ref.none := by
  -- the code that restores it is written before the register is given up
  have hlast : ∀ {s' : Allocation}, u.Holds s' → Registers.Evicted s.regs s'.regs →
      (s'.regs.at? i).reg = (s.regs.at? i).reg → ∀ {x : Instr}, x.Known →
      u.Ends (do emit set x; update (·.unassign i) : Allocating Unit) s' fun _ s' => u.Holds s' ∧
        Registers.Evicted s.regs s'.regs ∧ s'.regs.valueIn (s.regs.at? i).reg = Ref.none := by
    intro s' h' hevicted hsame x hx
    refine (emit_ends h' hx).bind fun _ s₁ ⟨h₁, hregs⟩ => ?_
    have hi₁ : s₁.regs.Has k i := hregs ▸ hevicted.has.mpr hi
    have hsame₁ : (s₁.regs.at? i).reg = (s.regs.at? i).reg := by rw [hregs, hsame]
    have hne : (s₁.regs.at? i).reg ≠ Reg.none := hsame₁ ▸ hreg
    have hvalid := (h₁.agrees.valueIn_eq hi₁ hne).1
    refine .modify ⟨⟨u.unassign h₁.regs hi₁ hne, h₁.code⟩,
      hevicted.trans (hregs ▸ (h₁.agrees.unassign hi₁ hne).2), ?_⟩
    rw [← hsame₁]
    exact (h₁.agrees.unassign_valueIn hvalid hvalid).trans (if_pos rfl)
  refine .get (liftFault_bind (h.agrees.entry_has hi) (.get ?_))
  dsimp only
  split
  · exact hlast h (.refl _) rfl trivial
  · next hnot =>
    have hstored : ¬ Immediate set.buffer k := by
      rintro ⟨x, hx, hop⟩
      obtain ⟨op, _⟩ := x
      obtain rfl : op = .imm := hop
      exact hnot _ _ _ _ _ _ _ _ _ hx
    exact (ensureSlot_ends h hi (u.stored hstored)).bind fun _ _ ⟨h₁, hevicted, hsame⟩ =>
      hlast h₁ hevicted hsame trivial

/-- A register outside `avoid` that holds nothing is had if one that may be handed out is outside,
and unless nothing stops it otherwise. -/
theorem freeReg_ends
    (hspare : (∃ x, set.target.allocatable.contains x = true ∧ avoid.contains x = false) ∨
    ∀ pos s, u.stops (.error (noRegister pos)) s) : u.Ends (freeReg set avoid) s
      fun want s' => u.Holds s' ∧
      Registers.Evicted s.regs s'.regs ∧ set.target.allocatable.contains want = true ∧
      s'.regs.valueIn want = Ref.none ∧
      avoid.contains want = false := by
  refine .get ?_
  extract_lets regs free
  have hmem : ∀ {x}, free.contains x = true ↔ (s.regs.avail.contains x = true ∧
      set.target.allocatable.contains x = true) ∧ avoid.contains x = false := by
    intro x
    unfold free
    rw [RegSet.contains_diff, RegSet.contains_inter]
  cases hfree : free.isEmpty with
  | false =>
    obtain ⟨⟨havail, halloc⟩, hout⟩ := hmem.mp (RegSet.first_contains hfree)
    exact .pure ⟨h, .refl _, halloc, (h.agrees.avail halloc).mp havail, hout⟩
  | true =>
    simp only [Bool.not_true, Bool.false_eq_true, if_false]
    by_cases hheld : ∃ x, (set.target.allocatable.diff avoid).contains x = true ∧
      s.regs.valueIn x ≠ Ref.none
    · obtain ⟨x, hx, hheld⟩ := hheld
      obtain ⟨want, hwant, hne, hvictim⟩ := Registers.victim?_some hx hheld
      obtain ⟨halloc, hout⟩ := RegSet.contains_diff.mp hwant
      have hvalid := RegSet.contains_valid hwant
      obtain ⟨k, i, hi, hk, hreg⟩ := h.agrees.held hvalid hne
      simp only [regs, hvictim, hk]
      refine liftFault_bind (h.agrees.regOf_has hi) ?_
      rw [hreg]
      refine (evict_ends h hi (hreg ▸ hvalid.ne_none)).bind fun _ s₁ ⟨h₁, hevicted, hgone⟩ => ?_
      exact .pure ⟨h₁, hevicted, halloc, hreg ▸ hgone, hout⟩
    · have hempty : ∀ x, (set.target.allocatable.diff avoid).contains x = true →
          s.regs.valueIn x = Ref.none :=
        fun x hx => Classical.byContradiction fun hne => hheld ⟨x, hx, hne⟩
      rcases hspare with ⟨x, halloc, hout⟩ | hstops
      · -- a register that holds nothing would be free
        have hin :=
          hmem.mpr ⟨⟨(h.agrees.avail halloc).mpr
            (hempty x (RegSet.contains_diff.mpr ⟨halloc, hout⟩)), halloc⟩, hout⟩
        rw [RegSet.isEmpty_of_contains hin] at hfree
        cases hfree
      · simp only [regs, Registers.victim?_none hempty]
        exact .throw (hstops _ _)

/-- A value is put into some register, outside `avoid` unless it was in one already. -/
theorem regFor_ends (hk : u.wanted k)
    (hspare : (∃ x, set.target.allocatable.contains x = true ∧ avoid.contains x = false) ∨
    ∀ pos s, u.stops (.error (noRegister pos)) s) : u.Ends (regFor set k avoid) s
      fun r s' => u.Holds s' ∧
      set.target.allocatable.contains r = true ∧ s'.regs.In k r ∧
      (avoid.contains r = true → s.regs.In k r) := by
  refine (reserve_ends h hk).bind fun i s₁ ⟨h₁, hi, hold⟩ => .get ?_
  dsimp only
  split
  · next hreg =>
    refine .pure ⟨h₁, (h₁.agrees.placed hi hreg).1, ⟨i, hi, rfl⟩, fun _ => ?_⟩
    exact hold.elim (fun heq => heq ▸ ⟨i, hi, rfl⟩) fun hnone => absurd hnone hreg
  · next hnone =>
    refine (freeReg_ends h₁ hspare).bind fun want s₂ ⟨h₂, hevicted, hwant, hfree, hout⟩ => ?_
    refine (assign_ends h₂ (hevicted.has.mpr hi)
      (hevicted.none (not_not.mp hnone)) hwant hfree).bind
      fun _ _ ⟨h₃, hi₃, hreg⟩ => .pure ⟨h₃, hwant, ⟨i, hi₃, hreg⟩, fun hin => ?_⟩
    rw [hout] at hin
    cases hin

/-- A value is put into the register `want`. -/
theorem specificRegFor_ends (hk : u.wanted k)
    (hwant : set.target.allocatable.contains want = true) :
    u.Ends (specificRegFor set k want) s fun _ s' => u.Holds s' ∧ s'.regs.In k want := by
  refine (reserve_ends h hk).bind fun i s₁ ⟨h₁, hi, _⟩ => .get ?_
  split
  · next heq => exact .pure ⟨h₁, i, hi, beq_iff_eq.mp heq⟩
  · next hother =>
    refine .get ?_
    extract_lets other placed cleared
    -- what is in the register `want` was evicted
    have hcleared : ∀ s₂ : Allocation, u.Holds s₂ → s₂.regs.Has k i →
      s₂.regs.valueIn want = Ref.none →
        u.Ends (cleared ()) s₂ fun _ s' => u.Holds s' ∧ s'.regs.In k want := by
      intro s₂ h₂ hi₂ hfree
      refine .get ?_
      dsimp only
      split
      · next hreg =>
        refine (emit_ends h₂ (x := .mov _ want) trivial).bind fun _ s₃ ⟨h₃, hregs⟩ =>
          .modify_bind ?_
        rw [← hregs] at hi₂ hfree hreg
        have hvalue :=
          h₃.agrees.unassign_valueIn (h₃.agrees.valueIn_eq hi₂ hreg).1 (RegSet.contains_valid hwant)
        have hcleared : u.Holds { s₃ with regs := s₃.regs.unassign i } :=
          ⟨u.unassign h₃.regs hi₂ hreg, h₃.code⟩
        refine (assign_ends hcleared hi₂ ?_ hwant ?_).mono fun _ _ h₄ => ⟨h₄.1, i, h₄.2⟩
        · dsimp only
          rw [h₃.agrees.unassign_at? hi₂, if_pos rfl]
        · dsimp only
          rw [hvalue]
          split
          · rfl
          · exact hfree
      · next hnone =>
          exact (assign_ends h₂ hi₂ (not_not.mp hnone) hwant hfree).mono fun _ _ h₃ =>
            ⟨h₃.1, i, h₃.2⟩
    split
    · next hheld =>
      obtain ⟨k', j, hj, hvalue, hreg⟩ := h₁.agrees.held (RegSet.contains_valid hwant) hheld
      dsimp only [other]
      rw [hvalue]
      have hne : (s₁.regs.at? j).reg ≠ Reg.none := hreg ▸ (RegSet.contains_valid hwant).ne_none
      exact (evict_ends h₁ hj hne).bind fun _ s₂ ⟨h₂, hevicted, hgone⟩ =>
        hcleared s₂ h₂ (hevicted.has.mpr hi) (hreg ▸ hgone)
    · next hfree => exact hcleared s₁ h₁ hi (not_not.mp hfree)

/-- The register in which a value is made, outside `avoid` unless the value was in one already; it
is not live before. -/
theorem resultReg_ends (hk : u.wanted k)
    (hspare : (∃ x, set.target.allocatable.contains x = true ∧ avoid.contains x = false) ∨
    ∀ pos s, u.stops (.error (noRegister pos)) s) : u.Ends (resultReg set k avoid) s
      fun r s' => u.Holds s' ∧
      (∀ i, ¬ s'.regs.Has k i) ∧ set.target.allocatable.contains r = true ∧
      (avoid.contains r = true → s.regs.In k r) := by
  refine (reserve_ends h hk).bind fun i s₁ ⟨h₁, hi, hold⟩ => .get ?_
  extract_lets reg stored
  -- what is left to do once the value is in a register
  have hstored : ∀ (want : Reg) (s₂ : Allocation), u.Holds s₂ →
      u.Ends (stored () want) s₂ fun r s' => r = want ∧ u.Holds s' ∧ ∀ i, ¬ s'.regs.Has k i := by
    intro want s₂ h₂
    refine .get ?_
    extract_lets ended
    have hended : ∀ s₃ : Allocation, u.Holds s₃ →
        u.Ends (ended ()) s₃ fun r s' => r = want ∧ u.Holds s' ∧ ∀ i, ¬ s'.regs.Has k i :=
      fun s₃ h₃ => (release_ends h₃ (u.inside hk)).bind fun _ s₄ h₄ => .pure ⟨rfl, h₄⟩
    split
    · exact (emit_ends h₂ (x := .store _ _ want) trivial).bind fun _ s₃ ⟨h₃, _⟩ => hended s₃ h₃
    · exact hended s₂ h₂
  split
  · next hnone =>
    refine (freeReg_ends h₁ hspare).bind fun want s₂ ⟨h₂, hevicted, hwant, hfree, hout⟩ => ?_
    refine (assign_ends h₂ (hevicted.has.mpr hi)
      (hevicted.none (beq_iff_eq.mp hnone)) hwant hfree).bind fun _ s₃ h₃ => ?_
    refine (hstored want s₃ h₃.1).mono ?_
    rintro _ s₄ ⟨rfl, h₄, hgone⟩
    refine ⟨h₄, hgone, hwant, fun hin => ?_⟩
    rw [hout] at hin
    cases hin
  · next hheld =>
    have hreg : (s₁.regs.at? i).reg ≠ Reg.none := fun heq => hheld (beq_iff_eq.mpr heq)
    refine (hstored reg s₁ h₁).mono ?_
    rintro _ s₂ ⟨rfl, h₂, hgone⟩
    refine ⟨h₂, hgone, (h₁.agrees.placed hi hreg).1, fun _ => ?_⟩
    exact hold.elim (fun heq => heq ▸ ⟨i, hi, rfl⟩) fun hnone => absurd hnone hreg

omit h in
/-- What a call would destroy is evicted, and values keep their reservations. -/
theorem evictCallerSaved_ends (h : u.Holds s) : u.Ends (evictCallerSaved set) s fun _ s' =>
    u.Holds s' ∧ Registers.Evicted s.regs s'.regs := by
  have hloop : ∀ (regs : List Reg) {s : Allocation}, (∀ x ∈ regs, x.Valid) → u.Holds s →
      u.Ends (regs.forM fun x => do
        let ref := (← get).regs.valueIn x
        if ref ≠ Ref.none then evict set ref) s fun _ s' =>
            u.Holds s' ∧ Registers.Evicted s.regs s'.regs := by
    intro regs
    induction regs with
    | nil => exact fun _ h => .pure ⟨h, .refl _⟩
    | cons x regs ih =>
      intro s hvalid h
      have hstep : u.Ends (do
          let ref := (← get).regs.valueIn x
          if ref ≠ Ref.none then evict set ref : Allocating Unit) s fun _ s' =>
            u.Holds s' ∧ Registers.Evicted s.regs s'.regs := by
        refine .get ?_
        dsimp only
        split
        · next hheld =>
          have hx := hvalid x List.mem_cons_self
          obtain ⟨k, i, hi, hvalue, hreg⟩ := h.agrees.held hx hheld
          rw [hvalue]
          exact (evict_ends h hi (hreg ▸ hx.ne_none)).mono fun _ _ h' => ⟨h'.1, h'.2.1⟩
        · exact .pure ⟨h, .refl _⟩
      refine hstep.bind fun _ s₁ ⟨h₁, hevicted⟩ => ?_
      exact (ih (fun y hy => hvalid y (List.mem_cons_of_mem x hy)) h₁).mono
          fun _ _ ⟨h₂, hevicted'⟩ =>
        ⟨h₂, hevicted.trans hevicted'⟩
  exact hloop _ (fun x hx => RegSet.contains_valid (RegSet.mem_toList.mp hx)) h

end

end Allocation

end LoopTracer.Compile
