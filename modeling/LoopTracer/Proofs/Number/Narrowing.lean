import Mathlib.Algebra.Group.Int.Defs
import Mathlib.Algebra.GroupWithZero.Nat
import LoopTracer.Number.Signed

/-! What narrowing leaves of a whole number.

A machine number has the value of the whole number it was made of exactly if that one is in
its range. -/
namespace LoopTracer

variable {n : Int}

theorem signed64_eq (hlow : -2 ^ 63 ≤ n) (hhigh : n < 2 ^ 63) : signed64 n = n := by
  unfold signed64
  exact Int64.toInt_ofInt_of_le hlow hhigh

theorem toInt_ofInt_iff : (Int32.ofInt n).toInt = n ↔ -2 ^ 31 ≤ n ∧ n < 2 ^ 31 := by
  refine ⟨fun h => ?_, fun h => Int32.toInt_ofInt_of_le h.1 h.2⟩
  have hlow := (Int32.ofInt n).le_toInt
  have hhigh := (Int32.ofInt n).toInt_lt
  rw [h] at hlow hhigh
  exact ⟨hlow, hhigh⟩

theorem toNat_ofInt_iff : ((UInt32.ofInt n).toNat : Int) = n ↔ 0 ≤ n ∧ n < 2 ^ 32 := by
  have hlow : 0 ≤ n % 2 ^ 32 := Int.emod_nonneg n (by decide)
  have hhigh : n % 2 ^ 32 < 2 ^ 32 := Int.emod_lt_of_pos n (by decide)
  rw [UInt32.ofInt, UInt32.toNat_ofNat_of_lt' (show _ < 2 ^ 32 by omega), Int.toNat_of_nonneg hlow]
  omega

end LoopTracer
