import LoopTracer.Proofs.Interp.Builtins
import LoopTracer.Trace.Inst

/-! Values and their words.

`Represents` says that a word stands for a value, a string being the one that the heap has under
the handle. Unboxing makes such a word and boxing reads it back. The rest is arithmetic: each
operation of compiled code, done on the words of two values, gives the word of what the interpreter
computes, as long as nothing overflows. -/
namespace LoopTracer.Interp

open Bytecode Trace Machine

/-- The word of an int. -/
def intWord (n : Int32) : UInt64 := n.toInt64.toUInt64

def boolWord (b : Bool) : UInt64 := if b then 1 else 0

/-- A word that stands for a value. -/
def Represents (h : StringHeap) : Value → UInt64 → Prop
  | .null, w => w = 0
  | .bool b, w => w = boolWord b
  | .int n, w => w = intWord n
  | .float x, w => w = x.bits
  | .str s, w => ∃ a : Handle, w = a.toUInt64 ∧ h.strings[a.toNat]? = some s
  | _, _ => False

theorem isEmpty_iff {s : Text} : s.isEmpty = true ↔ s = ∅ := by
  show (s.bytes.size == 0) = true ↔ s = ⟨.empty⟩
  rw [beq_iff_eq, ByteArray.size_eq_zero_iff]
  constructor
  · intro hbytes
    exact congrArg Text.mk hbytes
  · rintro rfl
    rfl

section Represents

variable {h h' : StringHeap} {v : Value} {w : UInt64} {t : Ty}

theorem Represents.mono (hv : Represents h v w) (he : h'.Extends h) : Represents h' v w := by
  cases v with
  | str s =>
    obtain ⟨a, rfl, ha⟩ := hv
    exact ⟨a, rfl, he _ _ ha⟩
  | _ => exact hv

/-- What was unboxed is represented. -/
theorem unbox_represents (hh : h.Valid) (hroom : h.size < 2 ^ 32) (ht : traceType? v = some t) :
    (unbox h v).1.Valid ∧ (unbox h v).1.Extends h ∧ (unbox h v).1.size ≤ h.size + 1 ∧
      Represents (unbox h v).1 v (unbox h v).2 := by
  cases v with
  | str s =>
    obtain ⟨hvalid, hget, hstrings⟩ := StringHeap.intern_spec hh hroom s
    refine ⟨hvalid, StringHeap.intern_extends h s, ?_, _, rfl, hget⟩
    show (h.intern s).1.strings.size ≤ h.strings.size + 1
    rcases hstrings with heq | heq
    · rw [heq]
      omega
    · rw [heq]
      exact Nat.le_of_eq (Array.size_push ..)
  | func f => cases ht
  | reserved tag => cases ht
  | _ => exact ⟨hh, .refl h, Nat.le_succ _, rfl⟩

/-- A word of a type is boxed to the value that it stands for. -/
theorem Represents.rebox (hv : Represents h v w) (ht : traceType? v = some t) :
    rebox h w t = .ok v := by
  cases v with
  | null =>
    cases ht
    rfl
  | bool b =>
    cases ht
    obtain rfl := hv
    cases b <;> rfl
  | int n =>
    cases ht
    obtain rfl := hv
    show Except.ok (Value.int (intWord n).toUInt32.toInt32) = _
    rw [intWord, int_of_word]
  | float x =>
    cases ht
    obtain rfl := hv
    rfl
  | str s =>
    cases ht
    obtain ⟨a, rfl, ha⟩ := hv
    show (h.lookup a.toUInt64.toUInt32).map Value.str = _
    rw [handle_of_word, StringHeap.lookup_of_strings ha]
    rfl
  | func f => cases ht
  | reserved tag => cases ht

theorem intWord_inj {m n : Int32} : intWord m = intWord n ↔ m = n := by
  constructor
  · intro heq
    rw [← int_of_word m, ← int_of_word n]
    exact congrArg (fun w : UInt64 => w.toUInt32.toInt32) heq
  · rintro rfl
    rfl

theorem intWord_eq_zero {n : Int32} : intWord n = 0 ↔ n = 0 := intWord_inj (n := 0)

/-- A word other than a float's is zero when the value counts as false. -/
theorem Represents.truthy (hv : Represents h v w) (hh : h.Valid) (ht : traceType? v = some t)
    (hfloat : t ≠ .float) : (w == 0) = !v.truthy := by
  cases v with
  | null =>
    obtain rfl := hv
    rfl
  | bool b =>
    obtain rfl := hv
    cases b <;> rfl
  | int n =>
    obtain rfl := hv
    rw [Value.truthy, Bool.eq_iff_iff, beq_iff_eq, intWord_eq_zero]
    simp
  | float x =>
    cases ht
    exact absurd rfl hfloat
  | str s =>
    obtain ⟨a, rfl, ha⟩ := hv
    have hzero : a.toUInt64 = 0 ↔ a = 0 := by
      rw [← UInt64.toNat_inj, ← UInt32.toNat_inj]
      rfl
    rw [Value.truthy, Bool.not_not, Bool.eq_iff_iff, beq_iff_eq, hzero, hh.eq_zero_iff ha]
    exact isEmpty_iff.symm
  | func f => cases ht
  | reserved tag => cases ht

end Represents

/-! ### Ints -/

section Ints

variable (m n : Int32)

theorem toInt64_intWord : (intWord n).toInt64 = n.toInt64 := rfl

theorem toUInt32_intWord : (intWord n).toUInt32 = n.toUInt32 :=
  congrArg Int32.toUInt32 (int_of_word n)

theorem int32_intWord : int32 (intWord n) = n.toInt := congrArg Int32.toInt (int_of_word n)

/-- Whether a whole number is an int. -/
def fitsInt (n : Int) : Bool := -2147483648 ≤ n && n ≤ 2147483647

theorem ofInt_of_fits {n : Int} (h : fitsInt n = true) :
    Value.ofInt n = .int (Int32.ofInt n) := if_pos h

theorem checked_eq (n : Int) : checked n = (intWord (Int32.ofInt n), !fitsInt n) := by
  have hflag : (decide (n < -2147483648) || decide (2147483647 < n)) = !fitsInt n := by
    rw [fitsInt, Bool.eq_iff_iff]
    simp only [Bool.or_eq_true, decide_eq_true_eq, Bool.not_eq_true', Bool.and_eq_false_iff,
      decide_eq_false_iff_not]
    omega
  exact congrArg _ hflag

theorem addOv_ints : Op.binary? .addOv (intWord m) (intWord n) =
    some (intWord (Int32.ofInt (m.toInt + n.toInt)), some !fitsInt (m.toInt + n.toInt)) := by
  show some ((checked (int32 (intWord m) + int32 (intWord n))).1,
    some (checked (int32 (intWord m) + int32 (intWord n))).2) = _
  rw [int32_intWord, int32_intWord, checked_eq]

theorem subOv_ints : Op.binary? .subOv (intWord m) (intWord n) =
    some (intWord (Int32.ofInt (m.toInt - n.toInt)), some !fitsInt (m.toInt - n.toInt)) := by
  show some ((checked (int32 (intWord m) - int32 (intWord n))).1,
    some (checked (int32 (intWord m) - int32 (intWord n))).2) = _
  rw [int32_intWord, int32_intWord, checked_eq]

theorem mulOv_ints : Op.binary? .mulOv (intWord m) (intWord n) =
    some (intWord (Int32.ofInt (m.toInt * n.toInt)), some !fitsInt (m.toInt * n.toInt)) := by
  show some ((checked (int32 (intWord m) * int32 (intWord n))).1,
    some (checked (int32 (intWord m) * int32 (intWord n))).2) = _
  rw [int32_intWord, int32_intWord, checked_eq]

theorem negOv_int : Op.unary? .negOv (intWord n) =
    some (intWord (Int32.ofInt (-n.toInt)), some !fitsInt (-n.toInt)) := by
  show some ((checked (-int32 (intWord n))).1, some (checked (-int32 (intWord n))).2) = _
  rw [int32_intWord, checked_eq]

theorem and_ints : intWord m &&& intWord n = intWord (m &&& n) := by
  rw [intWord, intWord, intWord, Int32.toInt64_and]
  rfl

theorem or_ints : intWord m ||| intWord n = intWord (m ||| n) := by
  rw [intWord, intWord, intWord, Int32.toInt64_or]
  rfl

theorem xor_ints : intWord m ^^^ intWord n = intWord (m ^^^ n) := by
  rw [intWord, intWord, intWord, Int32.toInt64_xor]
  rfl

theorem not_int : ~~~ intWord n = intWord (~~~ n) := by
  apply UInt64.toBitVec_inj.mp
  show ~~~(n.toBitVec.signExtend 64) = (~~~n.toBitVec).signExtend 64
  exact (BitVec.signExtend_not (by decide)).symm

/-- The lowest five bits of a number are below 32, whichever way the number is read. -/
theorem smod_lowest (x : BitVec 32) : (x &&& 31#32).smod 32#32 = x &&& 31#32 := by
  have hsmall : ∀ k : Fin 32, (BitVec.ofNat 32 k).smod 32#32 = BitVec.ofNat 32 k := by decide
  have hlt : (x &&& 31#32).toNat < 32 := by
    rw [BitVec.toNat_and]
    exact Nat.lt_of_le_of_lt Nat.and_le_right (by decide)
  have := hsmall ⟨_, hlt⟩
  rwa [BitVec.ofNat_toNat, BitVec.setWidth_eq] at this

theorem umod_lowest (x : BitVec 32) : (x &&& 31#32) % 32#32 = x &&& 31#32 := by
  have hlt : (x &&& 31#32).toNat < 32 := by
    rw [BitVec.toNat_and]
    exact Nat.lt_of_le_of_lt Nat.and_le_right (by decide)
  apply BitVec.eq_of_toNat_eq
  rw [BitVec.toNat_umod]
  exact Nat.mod_eq_of_lt hlt

theorem shl_ints : Op.binary? .shl32 (intWord m) (intWord n) =
    some (intWord (m <<< shiftOf n), none) := by
  have hshift : (m.toUInt32 <<< (n.toUInt32 &&& 31)).toInt32 = m <<< shiftOf n := by
    apply Int32.toBitVec_inj.mp
    show m.toBitVec <<< ((n.toBitVec &&& 31#32) % 32#32) =
      m.toBitVec <<< ((n.toBitVec &&& 31#32).smod 32#32)
    rw [smod_lowest, umod_lowest]
  show some ((((intWord m).toUInt32 <<<
    ((intWord n).toUInt32 &&& 31)).toUInt64.toUInt32.toInt32.toInt64.toUInt64), none) = _
  rw [UInt32.toUInt32_toUInt64, toUInt32_intWord, toUInt32_intWord, hshift]
  rfl

theorem sar_ints : Op.binary? .sar32 (intWord m) (intWord n) =
    some (intWord (m >>> shiftOf n), none) := by
  have hcount : (n.toUInt32 &&& 31).toInt32 = shiftOf n := rfl
  show some (((intWord m).toUInt32.toInt32 >>>
    ((intWord n).toUInt32 &&& 31).toInt32).toInt64.toUInt64, none) = _
  rw [toUInt32_intWord, toUInt32_intWord, hcount]
  rfl

/-- The remainder of the helper is the interpreter's. -/
theorem rem_ints (h : StringHeap) (hn : n ≠ 0) :
    Helper.intRem h [intWord m, intWord n] = .ok (intWord (m % n), h) := by
  simp only [Helper.intRem, Helper.binary, toUInt32_intWord]
  have hne : (n == 0) = false := beq_eq_false_iff_ne.mpr hn
  show (if (n == 0) = true then _ else _) = _
  rw [hne]
  rfl

theorem arith_mod_ints (hn : n ≠ 0) : arith .mod (.int m) (.int n) = some (.int (m % n)) := by
  have hmod : m.toInt.tmod n.toInt = (m % n).toInt := (Int32.toInt_mod m n).symm
  have hfits : fitsInt (m % n).toInt = true := by
    have hlow := Int32.le_toInt (m % n)
    have hhigh := Int32.toInt_lt (m % n)
    simp only [fitsInt, Bool.and_eq_true, decide_eq_true_eq]
    omega
  simp only [arith, arithInts, hn, if_false, hmod, ofInt_of_fits hfits, Int32.ofInt_toInt]

end Ints

/-! ### Comparisons -/

/-- The condition that a comparison tests. -/
def compareCond : BinOp → Option Cond
  | .eq => some .eq
  | .ne => some .ne
  | .lt => some .lt
  | .le => some .le
  | .gt => some .gt
  | .ge => some .ge
  | _ => none

theorem toInt64_eq {m n : Int32} : (m.toInt64 == n.toInt64) = (m == n) := by
  rw [Bool.eq_iff_iff, beq_iff_eq, beq_iff_eq, ← Int64.toInt_inj, ← Int32.toInt_inj,
    Int32.toInt_toInt64, Int32.toInt_toInt64]

theorem toInt64_lt {m n : Int32} : m.toInt64 < n.toInt64 ↔ m < n := by
  rw [Int64.lt_iff_toInt_lt, Int32.lt_iff_toInt_lt, Int32.toInt_toInt64, Int32.toInt_toInt64]

theorem toInt64_le {m n : Int32} : m.toInt64 ≤ n.toInt64 ↔ m ≤ n := by
  rw [Int64.le_iff_toInt_le, Int32.le_iff_toInt_le, Int32.toInt_toInt64, Int32.toInt_toInt64]

/-- Comparing the words of two ints compares the ints. -/
theorem compare_ints {op : BinOp} {c : Cond} (hc : compareCond op = some c) (m n : Int32) :
    compare op (.int m) (.int n) = some (.bool (c.holds false (intWord m) (intWord n))) := by
  have htotal : m < n ∨ m = n ∨ n < m := by
    rw [Int32.lt_iff_toInt_lt, Int32.lt_iff_toInt_lt, ← Int32.toInt_inj]
    omega
  cases op <;> cases hc
  case eq | ne =>
    simp only [compare, Value.equal, Cond.holds, toInt64_intWord, bne, toInt64_eq]
    rfl
  all_goals
    simp only [compare, order, ordered, Cond.holds, toInt64_intWord, toInt64_lt, toInt64_le]
    rcases htotal with hlt | rfl | hlt
    · have hle : m ≤ n := Int32.le_of_lt hlt
      have hnot : ¬n < m := Int32.not_lt.mpr hle
      have hnle : ¬n ≤ m := fun h => Int32.not_lt.mpr h hlt
      simp [hlt, hle, hnot, hnle]
    · simp [Int32.lt_irrefl]
    · have hle : n ≤ m := Int32.le_of_lt hlt
      have hnot : ¬m < n := Int32.not_lt.mpr hle
      have hnle : ¬m ≤ n := fun h => Int32.not_lt.mpr h hlt
      simp [hlt, hle, hnot, hnle]

theorem below_asymm {x y : Binary64} (h : x.below y = true) : y.below x = false := by
  unfold Binary64.below at h ⊢
  cases hx : x.negative <;> cases hy : y.negative <;> simp only [hx, hy] at h ⊢
  · simp only [Bool.false_eq_true, if_false, Bool.not_false, Bool.true_and, decide_eq_true_eq,
      decide_eq_false_iff_not] at h ⊢
    exact UInt64.lt_asymm h
  · simp at h
  · simp
  · simp only [if_true, decide_eq_true_eq, decide_eq_false_iff_not] at h ⊢
    exact UInt64.lt_asymm h

/-- The two numbers of an operation on floats. -/
theorem mixed_cases {a b : Value} (ha : a.isNumber = true) (hb : b.isNumber = true)
    (hints : (a.isInt && b.isInt) = false) :
    (∃ m y, a = .int m ∧ b = .float y) ∨ (∃ x n, a = .float x ∧ b = .int n) ∨
      ∃ x y, a = .float x ∧ b = .float y := by
  cases a <;> cases b <;> simp_all [Value.isNumber, Value.isInt, Value.isFloat]

/-- Between numbers only one order can hold. -/
theorem ordered_floats {op : BinOp} {c : Cond} (hc : compareCond op = some c) (hop : op ≠ .eq)
    (hop' : op ≠ .ne) (x y : Binary64) :
    (match (if x.isNaN || y.isNaN then some none
        else some (some (if x.lt y then .lt else if y.lt x then .gt else .eq))) with
      | none => none
      | some none => some (Value.bool false)
      | some (some o) => ordered op o) = some (.bool (c.holds true x.bits y.bits)) := by
  have hx : (⟨x.bits⟩ : Binary64) = x := rfl
  have hy : (⟨y.bits⟩ : Binary64) = y := rfl
  cases op <;> cases hc <;> first | exact absurd rfl hop | exact absurd rfl hop' | skip
  all_goals
    simp only [Cond.holds, if_true, hx, hy, Binary64.lt, Binary64.le]
    rcases Bool.eq_false_or_eq_true x.isNaN with hxn | hxn <;>
      rcases Bool.eq_false_or_eq_true y.isNaN with hyn | hyn <;>
      rcases Bool.eq_false_or_eq_true (x.below y) with hlt | hlt <;>
      rcases Bool.eq_false_or_eq_true (y.below x) with hgt | hgt <;>
      first
      | exact absurd ((below_asymm hlt).symm.trans hgt) Bool.false_ne_true
      | simp [hxn, hyn, hlt, hgt, ordered]

/-- Comparing the words of two numbers as floats compares the numbers. -/
theorem compare_floats {op : BinOp} {c : Cond} (hc : compareCond op = some c) {a b : Value}
    (ha : a.isNumber = true) (hb : b.isNumber = true) (hints : (a.isInt && b.isInt) = false) :
    compare op a b = some (.bool (c.holds true a.asFloat.bits b.asFloat.bits)) := by
  by_cases heq : op = .eq
  · subst heq
    cases hc
    rcases mixed_cases ha hb hints with ⟨m, y, rfl, rfl⟩ | ⟨x, n, rfl, rfl⟩ | ⟨x, y, rfl, rfl⟩ <;>
      rfl
  by_cases hne : op = .ne
  · subst hne
    cases hc
    rcases mixed_cases ha hb hints with ⟨m, y, rfl, rfl⟩ | ⟨x, n, rfl, rfl⟩ | ⟨x, y, rfl, rfl⟩ <;>
      rfl
  rw [← ordered_floats hc heq hne]
  unfold compare
  rcases mixed_cases ha hb hints with ⟨m, y, rfl, rfl⟩ | ⟨x, n, rfl, rfl⟩ | ⟨x, y, rfl, rfl⟩ <;>
    cases op <;> first | exact absurd rfl heq | exact absurd rfl hne | rfl

theorem eq_zero {x : Binary64} : x.eq .zero = x.isZero := by
  have hzero : Binary64.zero.isZero = true := by decide
  have hnan : Binary64.zero.isNaN = false := by decide
  simp only [Binary64.eq, hzero, hnan, Bool.not_false, Bool.and_true]
  cases hx : x.isZero with
  | false =>
    have hbits : (x.bits == Binary64.zero.bits) = false := by
      rw [beq_eq_false_iff_ne]
      intro heq
      obtain ⟨bits⟩ := x
      obtain rfl : bits = 0 := heq
      rw [show Binary64.isZero ⟨0⟩ = true by decide] at hx
      cases hx
    rw [hbits]
    simp
  | true =>
    have hmagnitude : x.magnitude = 0 := beq_iff_eq.mp hx
    have hnot : x.isNaN = false := by
      rw [Binary64.isNaN, hmagnitude]
      decide
    rw [hnot]
    simp

end LoopTracer.Interp
