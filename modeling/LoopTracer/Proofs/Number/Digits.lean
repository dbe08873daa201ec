import LoopTracer.Number.Shortest
import LoopTracer.Proofs.Number.Rounding

/-! The shortest digits round to their number.

The interval of a number holds the ratios that round to it (`holds_iff`). Seventeen digits are
always enough for a decimal in it, since the step of the last one is smaller than the interval, so
that the search ends with a decimal that rounds to the number (`digits_round`). -/
namespace LoopTracer.Shortest
open Binary64

variable {x : Binary64} {i : Interval} {m n num den : Nat} {e k : Int} {d : Decimal}

/-- The value of a decimal. -/
def Decimal.value (d : Decimal) : ℚ := d.digits * 10 ^ d.exponent

/-! ### Ends -/

/-- A whole number of quarter steps, as a ratio of the interval. -/
theorem scaled_quarters (e : Int) (n : Nat) :
    ((if 0 ≤ e then n <<< e.toNat else n : Nat) : ℚ) / (if 0 ≤ e then 1
      else 1 <<< (-e).toNat : Nat) = n * 2 ^ e := by
  split
  · next he =>
    obtain ⟨k, rfl⟩ := Int.eq_ofNat_of_zero_le he
    rw [Int.toNat_natCast, Nat.shiftLeft_eq, zpow_natCast]
    push_cast
    rw [div_one]
  · next he =>
    obtain ⟨k, hk⟩ := Int.eq_ofNat_of_zero_le (Int.neg_nonneg_of_nonpos (Int.not_le.mp he).le)
    obtain rfl : e = -(k : Int) := by omega
    rw [Int.neg_neg, Int.toNat_natCast, Nat.shiftLeft_eq, zpow_neg, zpow_natCast]
    push_cast
    rw [one_mul, div_eq_mul_inv]

/-- The interval of the number with a mantissa and an exponent. -/
structure Ends (i : Interval) (m : Nat) (e : Int) : Prop where
  den : 0 < i.den
  lo : (i.lo / i.den : ℚ) = (4 * m - gap m e) * 2 ^ (e - 2)
  mid : (i.mid / i.den : ℚ) = 4 * m * 2 ^ (e - 2)
  hi : (i.hi / i.den : ℚ) = (4 * m + 2) * 2 ^ (e - 2)
  closed : i.closed = true ↔ m % 2 = 0

theorem ends_interval (hm : 0 < x.significand) : Ends (interval x) x.significand x.exponent := by
  have hgap : (if (x.significand == Nat.pow 2 52 && x.exponent != -1074) = true then 1 else 2) =
      gap x.significand x.exponent := by
    simp [gap]
  have hle := gap_le x.significand x.exponent
  constructor
  · show 0 < if 0 ≤ x.exponent - 2 then 1 else 1 <<< (-(x.exponent - 2)).toNat
    split
    · exact Nat.one_pos
    · rw [Nat.shiftLeft_eq]
      positivity
  · refine (scaled_quarters _ _).trans ?_
    rw [hgap, Nat.cast_sub (by omega)]
    push_cast
    rfl
  · refine (scaled_quarters _ _).trans ?_
    push_cast
    rfl
  · refine (scaled_quarters _ _).trans ?_
    push_cast
    rfl
  · exact beq_iff_eq

/-! ### The grid -/

/-- A power of ten as a ratio. -/
theorem power_ratio (k : Int) : ((if 0 ≤ k then Nat.pow 10 k.toNat else 1 : Nat) : ℚ) /
    (if 0 ≤ k then 1 else Nat.pow 10 (-k).toNat : Nat) = 10 ^ k := by
  split
  · next hk =>
    obtain ⟨j, rfl⟩ := Int.eq_ofNat_of_zero_le hk
    rw [Int.toNat_natCast, zpow_natCast, Nat.pow_eq]
    push_cast
    rw [div_one]
  · next hk =>
    obtain ⟨j, hj⟩ := Int.eq_ofNat_of_zero_le (Int.neg_nonneg_of_nonpos (Int.not_le.mp hk).le)
    obtain rfl : k = -(j : Int) := by omega
    rw [Int.neg_neg, Int.toNat_natCast, zpow_neg, zpow_natCast, Nat.pow_eq]
    push_cast
    rw [one_div]

/-- A decimal is in the interval of a number when it rounds to the number. -/
theorem Ends.holds_iff (h : Ends i m e) {up down : Nat} (hdown : 0 < down) (n : Nat) :
    i.holds n up down = true ↔ Rounds m e (n * (up / down)) := by
  have hden : (0 : ℚ) < i.den := by exact_mod_cast h.den
  have hdown' : (0 : ℚ) < down := by exact_mod_cast hdown
  have hcompare (a b : Nat) : (a / i.den : ℚ) ≤ b * (up / down) ↔ a * down ≤ b * up * i.den := by
    rw [← mul_div_assoc, div_le_div_iff₀ hden hdown']
    norm_cast
  have hcompare' (a b : Nat) : (b * (up / down) : ℚ) ≤ a / i.den ↔ b * up * i.den ≤ a * down := by
    rw [← mul_div_assoc, div_le_div_iff₀ hdown' hden]
    norm_cast
  have hlow := hcompare i.lo n
  have hhigh := hcompare' i.hi n
  have hlow' := not_congr (hcompare' i.lo n)
  have hhigh' := not_congr (hcompare i.hi n)
  rw [h.lo] at hlow hlow'
  rw [h.hi] at hhigh hhigh'
  rw [not_le, not_le] at hlow' hhigh'
  unfold Interval.holds
  by_cases heven : m % 2 = 0
  · rw [if_pos (h.closed.mpr heven), Bool.and_eq_true, decide_eq_true_iff,
      decide_eq_true_iff, ← hlow, ← hhigh]
    exact ⟨fun ⟨low, high⟩ => ⟨low, high, .inl heven⟩, fun hr => ⟨hr.low, hr.high⟩⟩
  · rw [if_neg fun hc => heven (h.closed.mp hc), Bool.and_eq_true, decide_eq_true_iff,
      decide_eq_true_iff, ← hlow',
      ← hhigh']
    exact ⟨fun ⟨low, high⟩ => ⟨low.le, high.le, .inr ⟨low, high⟩⟩,
      fun hr => hr.ties.resolve_left heven⟩

theorem roundDiv_near (a b : Nat) : roundDiv a b = a / b ∨ roundDiv a b = a / b + 1 := by
  unfold roundDiv
  dsimp only
  split
  · exact .inl rfl
  · split
    · exact .inr rfl
    · rcases Nat.mod_two_eq_zero_or_one (a / b) with h | h
      · exact .inl (by rw [h, Nat.add_zero])
      · exact .inr (by rw [h])

/-- The decimal to take of two neighbours on a grid, given which of them round to the number. -/
def Interval.pick (i : Interval) (k : Int) (up down c : Nat) : Option Decimal :=
  match i.holds c up down, i.holds (c + 1) up down with
  | false, false => none
  | true, false => some ⟨c, k⟩
  | false, true => some ⟨c + 1, k⟩
  | true, true => some ⟨roundDiv (i.mid * down) (i.den * up), k⟩

/-- What the search finds at a step of the grid: a decimal that rounds to the number, or that
neither of the two next to the number does. -/
theorem Ends.onGrid (h : Ends i m e) (k : Int) :
    (∃ d, i.onGrid k = some d ∧ Rounds m e d.value) ∨
    i.onGrid k = none ∧ ∃ c : Nat, (c * 10 ^ k : ℚ) ≤ 4 * m * 2 ^ (e - 2) ∧
      (4 * m * 2 ^ (e - 2) : ℚ) < (c + 1) * 10 ^ k ∧ ¬ Rounds m e (c * 10 ^ k) ∧
      ¬ Rounds m e ((c + 1) * 10 ^ k) := by
  obtain ⟨up, hup⟩ : ∃ up, up = if 0 ≤ k then Nat.pow 10 k.toNat else 1 := ⟨_, rfl⟩
  obtain ⟨down, hdown⟩ : ∃ down, down = if 0 ≤ k then 1 else Nat.pow 10 (-k).toNat := ⟨_, rfl⟩
  have hten : (up / down : ℚ) = 10 ^ k := by
    rw [hup, hdown]
    exact power_ratio k
  have hpos : 0 < up ∧ 0 < down := by
    rw [hup, hdown]
    constructor <;> split <;> first | exact Nat.one_pos | exact Nat.pow_pos (by decide)
  have hdown' : (0 : ℚ) < down := by exact_mod_cast hpos.2
  have hden : (0 : ℚ) < i.den := by exact_mod_cast h.den
  have hholds (n : Nat) : i.holds n up down = true ↔ Rounds m e (n * 10 ^ k) := by
    rw [h.holds_iff hpos.2, hten]
  obtain ⟨c, hc⟩ : ∃ c, c = i.mid * down / (i.den * up) := ⟨_, rfl⟩
  have hle : (c * 10 ^ k : ℚ) ≤ 4 * m * 2 ^ (e - 2) := by
    have : c * (i.den * up) ≤ i.mid * down := by
      rw [hc]
      exact Nat.div_mul_le_self _ _
    rw [← h.mid, ← hten, ← mul_div_assoc, div_le_div_iff₀ hdown' hden]
    calc (c * up * i.den : ℚ) = c * (i.den * up) := by ring
      _ ≤ i.mid * down := by exact_mod_cast this
  have hlt : (4 * m * 2 ^ (e - 2) : ℚ) < (c + 1) * 10 ^ k := by
    have : i.mid * down < (c + 1) * (i.den * up) := by
      rw [hc, Nat.mul_comm (_ + 1)]
      exact Nat.lt_mul_div_succ _ (Nat.mul_pos h.den hpos.1)
    rw [← h.mid, ← hten, ← mul_div_assoc, div_lt_div_iff₀ hden hdown']
    calc (i.mid * down : ℚ) < (c + 1) * (i.den * up) := by exact_mod_cast this
      _ = (c + 1) * up * i.den := by ring
  have hgrid : i.onGrid k = i.pick k up down c := by
    rw [hc, hup, hdown]
    rfl
  have hc₁ := hholds c
  have hc₂ := hholds (c + 1)
  rw [hgrid]
  unfold Interval.pick
  cases hfirst : i.holds c up down <;> cases hsecond : i.holds (c + 1) up down <;>
    rw [hfirst] at hc₁ <;> rw [hsecond] at hc₂
  · refine .inr ⟨rfl, c, hle, hlt, fun hr => ?_, fun hr => ?_⟩
    · exact Bool.false_ne_true (hc₁.mpr hr)
    · exact Bool.false_ne_true (hc₂.mpr (by exact_mod_cast hr))
  · exact .inl ⟨_, rfl, hc₂.mp rfl⟩
  · exact .inl ⟨_, rfl, hc₁.mp rfl⟩
  · refine .inl ⟨_, rfl, ?_⟩
    rcases roundDiv_near (i.mid * down) (i.den * up) with heq | heq <;> rw [heq, ← hc]
    · exact hc₁.mp rfl
    · exact hc₂.mp rfl

/-! ### The search -/

/-- A number has as many digits as its leading digit's power of ten says. -/
theorem pow_le_of_length {l : Nat} (hn : 0 < n)
    (hl : (Nat.toDigits 10 n).length = l + 1) : 10 ^ l ≤ n := by
  rcases Nat.eq_zero_or_pos l with rfl | hpos
  · exact hn
  · by_contra hlt
    have := (Nat.length_toDigits_le_iff (by decide) hpos).mpr (Nat.not_le.mp hlt)
    omega

/-- The decimal exponent of a positive ratio is not above that of its leading digit. -/
theorem pow_decimalExponent_le (hnum : 0 < num) (hden : 0 < den) :
    (10 : ℚ) ^ decimalExponent num den ≤ num / den := by
  have hnum' : (0 : ℚ) < num := by exact_mod_cast hnum
  have hden' : (0 : ℚ) < den := by exact_mod_cast hden
  have hlength (n : Nat) : ∃ l, (Nat.toDigits 10 n).length = l + 1 :=
    Nat.exists_eq_add_one.mpr Nat.length_toDigits_pos
  unfold decimalExponent
  split
  · next hle =>
    obtain ⟨l, hl⟩ := hlength (num / den)
    have hpow := (Nat.le_div_iff_mul_le hden).mp (pow_le_of_length (Nat.div_pos hle hden) hl)
    rw [hl, Nat.cast_succ, add_sub_cancel_right, zpow_natCast, le_div_iff₀ hden']
    exact_mod_cast hpow
  · obtain ⟨l, hl⟩ := hlength (den / num)
    dsimp only
    rw [hl, Nat.add_sub_cancel]
    split
    · next hle =>
      rw [Nat.cast_succ, add_sub_cancel_right, zpow_neg, zpow_natCast,
        inv_le_comm₀ (by positivity) (by positivity),
        inv_div, div_le_iff₀ hnum']
      rw [Nat.pow_eq] at hle
      calc (den : ℚ) ≤ num * 10 ^ l := by exact_mod_cast hle
        _ = 10 ^ l * num := mul_comm _ _
    · have hlt : den / num < 10 ^ (l + 1) :=
        (Nat.length_toDigits_le_iff (by decide) (Nat.succ_pos l)).mp hl.le
      rw [Nat.div_lt_iff_lt_mul hnum] at hlt
      rw [zpow_neg, zpow_natCast, inv_le_comm₀ (by positivity) (by positivity), inv_div,
        div_le_iff₀ hnum']
      exact_mod_cast hlt.le

/-- The trailing zeros of a decimal do not change its value. -/
theorem value_strip (fuel : Nat) (d : Decimal) : (strip fuel d).value = d.value := by
  induction fuel generalizing d with
  | zero => rfl
  | succ fuel ih =>
    unfold strip
    split
    · next hzero =>
      have hmod : d.digits % 10 = 0 := by
        simp only [Bool.and_eq_true, beq_iff_eq] at hzero
        exact hzero.2
      have hdigits : d.digits = 10 * (d.digits / 10) := by omega
      rw [ih]
      unfold Decimal.value
      rw [zpow_add_one₀ (by norm_num)]
      calc ((d.digits / 10 : Nat) : ℚ) * (10 ^ d.exponent * 10) =
          (10 * (d.digits / 10) : Nat) * 10 ^ d.exponent := by
            push_cast
            ring
        _ = d.digits * 10 ^ d.exponent := by rw [← hdigits]
    · rfl

/-- At the seventeenth digit the step of the grid is smaller than the interval. -/
theorem Ends.onGrid_fine (h : Ends i m e) (hparts : Parts m e)
    (hk : (10 ^ 16 * 10 ^ k : ℚ) ≤ 4 * m * 2 ^ (e - 2)) :
    i.onGrid k ≠ none := by
  intro hnone
  rcases h.onGrid k with ⟨d, hd, -⟩ | ⟨-, c, hle, hlt, hc, hnext⟩
  · rw [hnone] at hd
    cases hd
  obtain ⟨u, hu⟩ : ∃ u : ℚ, u = 2 ^ (e - 2) := ⟨_, rfl⟩
  have hpos : 0 < u := by
    rw [hu]
    positivity
  -- both neighbours are outside, on their sides of the number
  have hbelow : (c * 10 ^ k : ℚ) ≤ (4 * m - gap m e) * u := by
    by_contra hin
    rw [not_le] at hin
    have hstrict : (c * 10 ^ k : ℚ) < (4 * m + 2) * u := by
      rw [← hu] at hle
      linarith
    rw [hu] at hin hstrict
    exact hc ⟨hin.le, hstrict.le, .inr ⟨hin, hstrict⟩⟩
  have habove : ((4 * m + 2) * u : ℚ) ≤ (c + 1) * 10 ^ k := by
    by_contra hin
    rw [not_le] at hin
    have hstrict : ((4 * m - gap m e) * u : ℚ) < (c + 1) * 10 ^ k := by
      rw [← hu] at hlt
      have : (0 : ℚ) ≤ gap m e * u := by positivity
      linarith
    rw [hu] at hin hstrict
    exact hnext ⟨hstrict.le, hin.le, .inr ⟨hstrict, hin⟩⟩
  have hwide : (gap m e + 2) * u ≤ 10 ^ k := by linarith
  have hfull : (10 ^ 16 * (gap m e + 2) * u : ℚ) ≤ 4 * m * u := by
    rw [← hu] at hk
    linarith
  have hbound := le_of_mul_le_mul_right hfull hpos
  have hm : (m : ℚ) < 2 ^ 53 := by exact_mod_cast hparts.mantissa
  unfold gap at hbound
  split at hbound
  · next hpower =>
    rw [hpower.1] at hbound
    norm_num at hbound
  · norm_num at hbound
    linarith

/-- The shortest digits of a number round to it. -/
theorem digits_round (hx : Finite x) (hm : 0 < x.significand) :
    0 < (digits x).digits ∧ Rounds x.significand x.exponent (digits x).value := by
  have h := ends_interval hm
  have hmid : (0 : ℚ) < (interval x).mid / (interval x).den := by
    rw [h.mid]
    positivity
  have hmid' : 0 < (interval x).mid := by
    rcases Nat.eq_zero_or_pos (interval x).mid with hzero | hpos
    · rw [hzero] at hmid
      norm_num at hmid
    · exact hpos
  obtain ⟨top, htop⟩ : ∃ top, top = decimalExponent (interval x).mid (interval x).den := ⟨_, rfl⟩
  have hleading : (10 : ℚ) ^ top ≤ 4 * x.significand * 2 ^ (x.exponent - 2) := by
    rw [htop, ← h.mid]
    exact pow_decimalExponent_le hmid' h.den
  have hdigits : ∀ d, (List.range 17).findSome? (fun (n : Nat) => (interval x).onGrid (top - n)) =
    some d →
      digits x = strip 20 d := by
    intro d hd
    unfold digits
    dsimp only
    rw [← htop, hd]
  have hround : Rounds x.significand x.exponent (digits x).value := by
    cases hfind : (List.range 17).findSome? fun (n : Nat) => (interval x).onGrid (top - n) with
    | none =>
      have hlast := List.findSome?_eq_none_iff.mp hfind 16 (List.mem_range.mpr (by decide))
      refine absurd hlast (h.onGrid_fine hx.parts ?_)
      rw [zpow_sub₀ (by norm_num)]
      norm_num
      linarith
    | some d =>
      obtain ⟨n, -, hn⟩ := List.exists_of_findSome?_eq_some hfind
      rw [hdigits d hfind, value_strip]
      rcases h.onGrid (top - n) with ⟨d', hd', hr⟩ | ⟨hnone, -⟩
      · rw [hd'] at hn
        cases hn
        exact hr
      · rw [hnone] at hn
        cases hn
  refine ⟨Nat.pos_of_ne_zero fun hzero => ?_, hround⟩
  have hlow := hround.low
  unfold Decimal.value at hlow
  rw [hzero, Nat.cast_zero, zero_mul] at hlow
  have hgap : (gap x.significand x.exponent : ℚ) ≤ 2 := by
    exact_mod_cast gap_le x.significand x.exponent
  have hone : (1 : ℚ) ≤ x.significand := by exact_mod_cast hm
  have : (0 : ℚ) < (4 * x.significand - gap x.significand x.exponent) * 2 ^ (x.exponent - 2) :=
    mul_pos (by linarith) (by positivity)
  linarith

end LoopTracer.Shortest
