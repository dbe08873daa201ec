import Mathlib.Data.List.Perm.Subperm
import LoopTracer.Machine.Backend

/-! Sets of registers.

Every operation on sets is said by membership. A limit on the registers of a target keeps those that
calls pass their arguments in (`Target.argument_limit`), so a few registers that are to be avoided
never take up all that may be handed out (`Target.Callable.spare`). -/
namespace LoopTracer.Machine

/-- A register that can be in a set. -/
def Reg.Valid (r : Reg) : Prop := 0 ≤ r.toInt ∧ r.toInt < 32

/-- The number of a register. -/
def Reg.number (r : Reg) : Nat := r.toInt.toNat

namespace Reg

variable {r r' : Reg}

theorem Valid.number_lt (h : r.Valid) : r.number < 32 := by
  have := h.1
  have := h.2
  unfold number
  omega

theorem Valid.number_inj (h : r.Valid) (h' : r'.Valid) (heq : r.number = r'.number) : r = r' := by
  have := h.1
  have := h'.1
  unfold number at heq
  exact Int8.toInt_inj.mp (by omega)

theorem Valid.ne_none (h : r.Valid) : r ≠ Reg.none := by
  rintro rfl
  exact absurd h.1 (by decide)

theorem valid_ofNat {k : Nat} (hk : k < 32) : Valid (Int8.ofNat k) ∧ number (Int8.ofNat k) = k := by
  have hint : (Int8.ofNat k).toInt = k := Int8.toInt_ofNat_of_lt (by omega)
  refine ⟨⟨by omega, by omega⟩, ?_⟩
  unfold number
  omega

end Reg

namespace RegSet

variable {s t : RegSet} {r r' : Reg}

theorem bit_valid (hr : r.Valid) : (bit r).toBitVec = BitVec.twoPow 32 r.number := by
  have hout : (r < 0 || 32 ≤ r) = false := by
    simp only [Bool.or_eq_false_iff, decide_eq_false_iff_not, Int8.lt_iff_toInt_lt,
      Int8.le_iff_toInt_le]
    exact ⟨by simpa using hr.1, by simpa using hr.2⟩
  have hlt := hr.number_lt
  have hshift : r.toInt.toNat.toUInt32.toBitVec % 32 = BitVec.ofNat 32 r.number := by
    apply BitVec.eq_of_toNat_eq
    show (r.toInt.toNat % 2 ^ 32) % 32 = r.number % 2 ^ 32
    unfold Reg.number at *
    omega
  unfold bit
  rw [hout, if_neg (by decide), UInt32.toBitVec_shiftLeft, hshift, BitVec.shiftLeft_eq',
    BitVec.toNat_ofNat,
    Nat.mod_eq_of_lt (by omega), BitVec.twoPow_eq]
  rfl

theorem bit_invalid (hr : ¬ r.Valid) : (bit r).toBitVec = 0#32 := by
  have hout : (r < 0 || 32 ≤ r) = true := by
    unfold Reg.Valid at hr
    simp only [Bool.or_eq_true, decide_eq_true_eq, Int8.lt_iff_toInt_lt, Int8.le_iff_toInt_le]
    have hzero : (0 : Reg).toInt = 0 := rfl
    have hlast : (32 : Reg).toInt = 32 := rfl
    omega
  unfold bit
  rw [if_pos hout]
  rfl

/-- The bit of a register tells whether it is in a set. -/
theorem contains_iff : s.contains r = true ↔ r.Valid ∧ s.mask.toBitVec.getLsbD r.number = true := by
  unfold contains
  rw [bne_iff_ne, ne_eq, ← UInt32.toBitVec_inj, UInt32.toBitVec_and]
  by_cases hr : r.Valid
  · have hlt := hr.number_lt
    have hpower : BitVec.twoPow 32 r.number ≠ 0#32 := by
      rw [ne_eq, ← BitVec.toNat_inj, BitVec.toNat_twoPow_of_lt hlt]
      exact Nat.ne_of_gt (Nat.two_pow_pos r.number)
    rw [bit_valid hr, BitVec.and_twoPow]
    cases s.mask.toBitVec.getLsbD r.number with
    | false => simp
    | true => simpa [hr] using hpower
  · rw [bit_invalid hr]
    simp [hr]

theorem contains_valid (h : s.contains r = true) : r.Valid := (contains_iff.mp h).1

theorem getLsbD_bit (hr : r.Valid) : (bit r').toBitVec.getLsbD r.number = true ↔ r' = r := by
  by_cases hr' : r'.Valid
  · rw [bit_valid hr', BitVec.getLsbD_twoPow, Bool.and_eq_true, decide_eq_true_eq,
      decide_eq_true_eq]
    exact ⟨fun h => hr'.number_inj hr h.2, fun h => ⟨hr'.number_lt, h ▸ rfl⟩⟩
  · rw [bit_invalid hr', BitVec.getLsbD_zero]
    exact ⟨nofun, fun h => absurd (h ▸ hr) hr'⟩

@[simp] theorem contains_empty : (∅ : RegSet).contains r = false := by
  rw [Bool.eq_false_iff, ne_eq, contains_iff, show (∅ : RegSet).mask.toBitVec = 0#32 from rfl,
    BitVec.getLsbD_zero]
  exact fun h => absurd h.2 (by decide)

theorem contains_insert : (s.insert r').contains r = true ↔
    (r' = r ∧ r.Valid) ∨ s.contains r = true := by
  rw [contains_iff, contains_iff]
  unfold insert
  rw [UInt32.toBitVec_or, BitVec.getLsbD_or, Bool.or_eq_true]
  constructor
  · rintro ⟨hr, h | h⟩
    · exact .inr ⟨hr, h⟩
    · exact .inl ⟨(getLsbD_bit hr).mp h, hr⟩
  · rintro (⟨rfl, hr⟩ | ⟨hr, h⟩)
    · exact ⟨hr, .inr ((getLsbD_bit hr).mpr rfl)⟩
    · exact ⟨hr, .inl h⟩

theorem contains_erase : (s.erase r').contains r = true ↔ r ≠ r' ∧ s.contains r = true := by
  rw [contains_iff, contains_iff]
  unfold erase
  rw [UInt32.toBitVec_and, UInt32.toBitVec_not, BitVec.getLsbD_and,
    BitVec.getLsbD_not, Bool.and_eq_true]
  constructor
  · rintro ⟨hr, h, h'⟩
    refine ⟨fun heq => ?_, hr, h⟩
    rw [(getLsbD_bit hr).mpr heq.symm] at h'
    simp at h'
  · rintro ⟨hne, hr, h⟩
    have hbit : (bit r').toBitVec.getLsbD r.number = false :=
      Bool.eq_false_iff.mpr fun hbit => hne ((getLsbD_bit hr).mp hbit).symm
    rw [hbit]
    exact ⟨hr, h, by simpa using hr.number_lt⟩

theorem contains_inter : (s.inter t).contains r = true ↔
    s.contains r = true ∧ t.contains r = true := by
  rw [contains_iff, contains_iff, contains_iff]
  unfold inter
  rw [UInt32.toBitVec_and, BitVec.getLsbD_and, Bool.and_eq_true]
  exact ⟨fun ⟨hr, h, h'⟩ => ⟨⟨hr, h⟩, hr, h'⟩, fun ⟨⟨hr, h⟩, _, h'⟩ => ⟨hr, h, h'⟩⟩

theorem contains_diff : (s.diff t).contains r = true ↔
    s.contains r = true ∧ t.contains r = false := by
  rw [Bool.eq_false_iff, ne_eq, contains_iff, contains_iff, contains_iff]
  unfold diff
  rw [UInt32.toBitVec_and, UInt32.toBitVec_not, BitVec.getLsbD_and,
    BitVec.getLsbD_not, Bool.and_eq_true,
    Bool.and_eq_true, decide_eq_true_eq, Bool.not_eq_true']
  constructor
  · rintro ⟨hr, h, -, h'⟩
    exact ⟨⟨hr, h⟩, fun ⟨_, hin⟩ => by rw [h'] at hin; cases hin⟩
  · rintro ⟨⟨hr, h⟩, hnot⟩
    exact ⟨hr, h, hr.number_lt, Bool.eq_false_iff.mpr fun hin => hnot ⟨hr, hin⟩⟩

theorem mem_toList : r ∈ s.toList ↔ s.contains r = true := by
  unfold toList
  rw [List.mem_filter, List.mem_map]
  refine ⟨fun h => h.2, fun h => ⟨⟨r.number, ?_, ?_⟩, h⟩⟩
  · exact List.mem_range.mpr (contains_valid h).number_lt
  · obtain ⟨hvalid, hnumber⟩ := Reg.valid_ofNat (contains_valid h).number_lt
    exact hvalid.number_inj (contains_valid h) hnumber

theorem contains_ofList {l : List Reg} : (ofList l).contains r = true ↔ r ∈ l ∧ r.Valid := by
  have hfold : ∀ (l : List Reg) (s : RegSet), (l.foldl insert s).contains r = true ↔
      (r ∈ l ∧ r.Valid) ∨ s.contains r = true := by
    intro l
    induction l with
    | nil => intro s; simp
    | cons x l ih =>
      intro s
      rw [List.foldl_cons, ih, contains_insert, List.mem_cons]
      constructor
      · rintro (⟨h, hr⟩ | ⟨rfl, hr⟩ | h)
        · exact .inl ⟨.inr h, hr⟩
        · exact .inl ⟨.inl rfl, hr⟩
        · exact .inr h
      · rintro (⟨rfl | h, hr⟩ | h)
        · exact .inr (.inl ⟨rfl, hr⟩)
        · exact .inl ⟨h, hr⟩
        · exact .inr (.inr h)
  unfold ofList
  rw [hfold, contains_empty]
  simp

/-- A set that is not empty has a least register. -/
theorem first_contains (h : s.isEmpty = false) : s.contains s.first = true := by
  unfold first
  cases hl : s.toList with
  | cons r l =>
    rw [List.headD_cons, ← mem_toList, hl]
    exact List.mem_cons_self
  | nil =>
    have hmask : s.mask = 0 → s.isEmpty = true := fun h => beq_iff_eq.mpr h
    refine absurd h (ne_of_eq_of_ne (hmask (UInt32.toBitVec_inj.mp ?_)) (by decide))
    refine BitVec.eq_of_getLsbD_eq fun k hk => ?_
    rw [show (0 : UInt32).toBitVec = 0#32 from rfl, BitVec.getLsbD_zero]
    refine Bool.eq_false_iff.mpr fun hbit => ?_
    obtain ⟨hvalid, hnumber⟩ := Reg.valid_ofNat hk
    have hmem : Int8.ofNat k ∈ s.toList :=
      mem_toList.mpr (contains_iff.mpr ⟨hvalid, hnumber.symm ▸ hbit⟩)
    rw [hl] at hmem
    cases hmem

theorem isEmpty_of_contains (h : s.contains r = true) : s.isEmpty = false := by
  refine Bool.eq_false_iff.mpr fun hempty => ?_
  have hmask : s = ∅ := congrArg RegSet.mk (beq_iff_eq.mp hempty)
  rw [hmask, contains_empty] at h
  cases h

end RegSet

namespace Target

/-- A target whose calls can be made: arguments go to registers that may be handed out, at
least four. -/
structure Callable (t : Target) : Prop where
  argument : ∀ r ∈ t.argRegs, t.allocatable.contains r = true
  distinct : t.argRegs.Nodup
  enough : 4 ≤ t.argRegs.length

theorem callable_target (b : Backend) : b.target.Callable := by
  have hall : (b.target.argRegs.all fun r => b.target.allocatable.contains r) = true := by
    cases b <;> rfl
  exact ⟨List.all_eq_true.mp hall, by cases b <;> decide, by cases b <;> decide⟩

/-- A limit keeps the registers of arguments. -/
theorem argument_limit {t : Target} (n : Int) {r : Reg} (hr : r ∈ t.argRegs)
    (h : t.allocatable.contains r = true) :
    (t.limit n).allocatable.contains r = true := by
  have hfold : ∀ (l : List Reg) (kept : RegSet), r ∈ l ∨ kept.contains r = true →
      (l.foldl (fun kept r => if n ≤ kept.size && !t.argRegs.contains r then kept
        else kept.insert r) kept).contains r =
        true := by
    intro l
    induction l with
    | nil => exact fun kept hkept => hkept.resolve_left (List.not_mem_nil)
    | cons x l ih =>
      intro kept hkept
      refine ih _ ?_
      dsimp only
      rcases hkept with hx | hkept
      · rcases List.mem_cons.mp hx with rfl | hx
        · rw [if_neg (by simp [hr])]
          exact .inr (RegSet.contains_insert.mpr (.inl ⟨rfl, RegSet.contains_valid h⟩))
        · exact .inl hx
      · right
        split
        · exact hkept
        · exact RegSet.contains_insert.mpr (.inr hkept)
  unfold limit
  split
  · exact h
  · exact hfold _ ∅ (.inl (RegSet.mem_toList.mpr h))

theorem Callable.limit {t : Target} (h : t.Callable) (n : Int) : (t.limit n).Callable := by
  have hargs : (t.limit n).argRegs = t.argRegs := by
    unfold Target.limit
    split <;> rfl
  refine ⟨fun r hr => ?_, hargs ▸ h.distinct, hargs ▸ h.enough⟩
  rw [hargs] at hr
  exact argument_limit n hr (h.argument r hr)

/-- A set that leaves out a register of the arguments. -/
def Spared (t : Target) (avoid : RegSet) : Prop := ∃ r ∈ t.argRegs, avoid.contains r = false

/-- Two registers are fewer than those of the arguments. -/
theorem Callable.spare {t : Target} (h : t.Callable) {avoid : RegSet} (x y : Reg)
    (havoid : ∀ r, avoid.contains r = true → r = x ∨ r = y) : t.Spared avoid := by
  have henough := h.enough
  refine Classical.byContradiction fun hnone => ?_
  have hsub : t.argRegs ⊆ [x, y] := fun r hr => by
    have htaken := havoid r (Bool.of_not_eq_false fun hout => hnone ⟨r, hr, hout⟩)
    simpa using htaken
  have := (List.subperm_of_subset h.distinct hsub).length_le
  simp only [List.length_cons, List.length_nil] at this
  omega

end Target

end LoopTracer.Machine
