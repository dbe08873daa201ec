import LoopTracer.Number.Binary64
import Mathlib.Algebra.Order.Field.Power
import Mathlib.Data.Rat.Cast.Order
import Mathlib.Tactic.Linarith
import Mathlib.Tactic.Positivity
import Mathlib.Tactic.Ring

/-! Rounding to the nearest number.

A finite number is a mantissa times a power of two, and its bits are those that these make
(`assemble_parts`). The ratios that are nearer to it than to any other number, or lie halfway with
its mantissa even, are those that `Rounds` describes, and `ofRatio` makes the number of them
(`ofRatio_eq`). -/
namespace LoopTracer.Binary64

variable {x : Binary64} {q : ℚ} {num den : Nat} {e : Int}

/-! ### Parts -/

/-- A number that is neither infinite nor undefined. -/
def Finite (x : Binary64) : Prop := x.isNaN = false ∧ x.isInf = false

theorem toNat_magnitude (x : Binary64) : x.magnitude.toNat = x.bits.toNat % 2 ^ 63 := by
  rw [magnitude, UInt64.toNat_and]
  exact Nat.and_two_pow_sub_one_eq_mod _ 63

theorem Finite.magnitude_lt (h : Finite x) : x.magnitude.toNat < 2047 * 2 ^ 52 := by
  have hnan : ¬ infinityBits < x.magnitude := by simpa [isNaN] using h.1
  have hinf : x.magnitude ≠ infinityBits := by simpa [isInf] using h.2
  rw [UInt64.lt_iff_toNat_lt] at hnan
  have hne : x.magnitude.toNat ≠ infinityBits.toNat := fun heq => hinf (UInt64.toNat_inj.mp heq)
  have hbits : infinityBits.toNat = 2047 * 2 ^ 52 := rfl
  omega

/-- The sign and the pattern without it make up a number. -/
theorem withSign_magnitude (x : Binary64) : withSign x.negative x.magnitude = x := by
  have hlt := x.bits.toNat_lt
  have hmagnitude := x.toNat_magnitude
  unfold withSign negative
  apply congrArg Binary64.mk (UInt64.toNat_inj.mp _)
  split
  · next hnegative =>
    have hge : 2 ^ 63 ≤ x.bits.toNat := UInt64.le_iff_toNat_le.mp (decide_eq_true_iff.mp hnegative)
    have hor := Nat.two_pow_add_eq_or_of_lt (i := 63) (b := x.bits.toNat % 2 ^ 63)
      (Nat.mod_lt _ (by decide)) 1
    rw [UInt64.toNat_or, hmagnitude, Nat.or_comm]
    show 2 ^ 63 * 1 ||| x.bits.toNat % 2 ^ 63 = x.bits.toNat
    rw [← hor]
    omega
  · next hnegative =>
    have hsmall : x.bits.toNat < 2 ^ 63 :=
      UInt64.lt_iff_toNat_lt.mp (UInt64.not_le.mp fun h => hnegative (decide_eq_true_iff.mpr h))
    rw [hmagnitude]
    omega

/-- What the mantissa and the exponent of a finite number can be. -/
structure Parts (m : Nat) (e : Int) : Prop where
  mantissa : m < 2 ^ 53
  least : -1074 ≤ e
  greatest : e ≤ 971
  full : e = -1074 ∨ 2 ^ 52 ≤ m

/-- The mantissa and the exponent of a number, from the fields of its pattern. -/
theorem parts_eq (x : Binary64) : x.significand = x.magnitude.toNat % 2 ^ 52 +
      (if x.magnitude.toNat < 2 ^ 52 then 0 else 2 ^ 52) ∧
    x.exponent = if x.magnitude.toNat < 2 ^ 52 then -1074
    else ((x.magnitude.toNat / 2 ^ 52 : Nat) : Int) - 1075 := by
  have hfield : x.magnitude < 0x0010000000000000 ↔ x.magnitude.toNat < 2 ^ 52 :=
    UInt64.lt_iff_toNat_lt
  constructor
  · unfold significand
    dsimp only
    simp only [hfield]
    split <;> rfl
  · unfold exponent
    show (if (x.magnitude.toNat / 2 ^ 52 == 0) = true then _ else _) = _
    simp only [beq_iff_eq]
    split <;> split <;> first | rfl | omega

theorem Finite.parts (h : Finite x) : Parts x.significand x.exponent := by
  have hlt := h.magnitude_lt
  obtain ⟨hm, he⟩ := x.parts_eq
  rw [hm, he]
  split <;> constructor <;> omega

theorem Finite.assemble_parts (h : Finite x) : assemble x.significand x.exponent = x.magnitude := by
  have hlt := h.magnitude_lt
  have pattern {n : Nat} (hn : n = x.magnitude.toNat) : n.toUInt64 = x.magnitude := by
    rw [hn]
    exact UInt64.ofNat_toNat
  obtain ⟨hm, he⟩ := x.parts_eq
  rw [hm, he]
  unfold assemble
  show (if _ < 2 ^ 52 then _
    else if (_ + 1075 : Int).toNat * 2 ^ 52 + (_ - 2 ^ 52) < 2047 * 2 ^ 52 then
    ((_ + 1075 : Int).toNat * 2 ^ 52 + (_ - 2 ^ 52)).toUInt64 else _) = _
  split
  · rw [if_pos (by omega)]
    exact pattern (by omega)
  · rw [if_neg (by omega), if_pos (by omega)]
    exact pattern (by omega)

/-! ### Division -/

/-- The nearest integer, a half going to the even one. -/
theorem roundDiv_eq {a b r : Nat} (hb : 0 < b) (hlow : (2 * r - 1 : Int) * b ≤ 2 * a)
    (hhigh : (2 * a : Int) ≤ (2 * r + 1) * b)
    (hties : r % 2 = 0 ∨ (2 * r - 1 : Int) * b < 2 * a ∧
      (2 * a : Int) < (2 * r + 1) * b) : roundDiv a b = r := by
  have hs := Nat.mod_lt a hb
  have ha : (a : Int) = b * (a / b : Nat) + (a % b : Nat) := by
    exact_mod_cast (Nat.div_add_mod a b).symm
  unfold roundDiv
  generalize a / b = k at ha ⊢
  generalize a % b = s at ha hs ⊢
  have hb' : (0 : Int) < b := by exact_mod_cast hb
  have hs' : (s : Int) < b := by exact_mod_cast hs
  -- the integer is the quotient or the next one
  have hle : (k : Int) ≤ r := by
    by_contra hlt
    have : (2 * r + 1) * (b : Int) ≤ (2 * k - 1) * b := mul_le_mul_of_nonneg_right (by omega) hb'.le
    nlinarith
  have hge : (r : Int) ≤ k + 1 := by
    by_contra hlt
    have : (2 * k + 3) * (b : Int) ≤ (2 * r - 1) * b := mul_le_mul_of_nonneg_right (by omega) hb'.le
    nlinarith
  rcases (by omega : r = k ∨ r = k + 1) with rfl | rfl
  · have hless : 2 * (s : Int) ≤ b := by nlinarith
    have heven : 2 * s = b → r % 2 = 0 := by
      intro htie
      refine hties.resolve_right fun ⟨_, hlt⟩ => ?_
      have : (b : Int) = 2 * s := by exact_mod_cast htie.symm
      nlinarith
    rcases Nat.lt_or_ge (2 * s) b with hlt | hge
    · rw [if_pos hlt]
    · rw [if_neg (by omega), if_neg (by omega), heven (by omega), Nat.add_zero]
  · push_cast at hlow hhigh hties
    have hmore : (b : Int) ≤ 2 * s := by nlinarith
    have hodd : 2 * s = b → k % 2 = 1 := by
      intro htie
      have : (k + 1) % 2 = 0 := by
        refine hties.resolve_right fun ⟨hlt, _⟩ => ?_
        have : (b : Int) = 2 * s := by exact_mod_cast htie.symm
        nlinarith
      omega
    rcases Nat.lt_or_ge b (2 * s) with hlt | hge
    · rw [if_neg (by omega), if_pos hlt]
    · rw [if_neg (by omega), if_neg (by omega), hodd (by omega)]

/-! ### The exponent -/

/-- The exponent that a ratio is rounded at: its mantissa has 53 bits, or fewer at the least
exponent. -/
structure Scale (q : ℚ) (e : Int) : Prop where
  least : -1074 ≤ e
  fits : q < 2 ^ 53 * 2 ^ e
  full : e = -1074 ∨ 2 ^ 52 * 2 ^ e ≤ q

theorem Scale.le {e' : Int} (h : Scale q e) (h' : Scale q e') : e ≤ e' := by
  rcases h.full with rfl | hfull
  · exact h'.least
  · have hlt : (2 : ℚ) ^ 52 * 2 ^ e < 2 ^ 53 * 2 ^ e' := lt_of_le_of_lt hfull h'.fits
    have hpow : (2 : ℚ) ^ e < 2 ^ (e' + 1) := by
      rw [zpow_add_one₀ (by norm_num)]
      linarith
    have := (zpow_lt_zpow_iff_right₀ (by norm_num : (1 : ℚ) < 2)).mp hpow
    omega

/-- A ratio over a power of two is one of whole numbers, for whatever is done with these. -/
theorem scaled_ratio (hden : 0 < den) (num : Nat) (e : Int) : ∃ a b :
    Nat, 0 < b ∧ (a / b : ℚ) = num / den / 2 ^ e ∧
    ∀ f : Nat → Nat → Nat, (if 0 ≤ e then f num (den <<< e.toNat)
      else f (num <<< (-e).toNat) den) = f a b := by
  rcases Int.le_total 0 e with he | he
  · obtain ⟨k, rfl⟩ := Int.eq_ofNat_of_zero_le he
    refine ⟨num, den <<< k, ?_, ?_, fun f => if_pos he⟩
    · rw [Nat.shiftLeft_eq]
      positivity
    · rw [Nat.shiftLeft_eq, zpow_natCast, div_div]
      push_cast
      rfl
  · obtain ⟨k, hk⟩ := Int.eq_ofNat_of_zero_le (Int.neg_nonneg_of_nonpos he)
    obtain rfl : e = -(k : Int) := by omega
    refine ⟨num * 2 ^ k, den, hden, ?_, fun f => ?_⟩
    · rw [zpow_neg, zpow_natCast, div_inv_eq_mul]
      push_cast
      ring
    · split
      · next hnonneg =>
        obtain rfl : k = 0 := by omega
        simp
      · rw [Int.neg_neg, Int.toNat_natCast, Nat.shiftLeft_eq]

/-- The exponent that `ofRatio` rounds at. -/
def roundingExponent (num den : Nat) : Int :=
  let guess : Int := (num.log2 : Int) - den.log2 - 53
  let e := if guess < -1074 then -1074 else guess
  let whole := if 0 ≤ e then num / (den <<< e.toNat) else (num <<< (-e).toNat) / den
  if whole < Nat.pow 2 53 then e else e + 1

theorem ofRatio_positive (negative : Bool) (hnum : 0 < num) (hden : 0 < den) :
    ofRatio negative num den =
    withSign negative (assemble (mantissaAt num den (roundingExponent num den))
      (roundingExponent num den)) := by
  have hnonzero : ¬ (num == 0 || den == 0) = true := by
    simp
    omega
  unfold ofRatio
  rw [if_neg hnonzero]
  rfl

/-- A ratio lies between the powers of two that the lengths of its terms give. -/
theorem ratio_bounds (hnum : 0 < num) (hden : 0 < den) :
    (2 : ℚ) ^ ((num.log2 : Int) - den.log2 - 1) < num / den ∧
      (num / den : ℚ) < 2 ^ ((num.log2 : Int) - den.log2 + 1) := by
  have hnum₁ : (2 : ℚ) ^ num.log2 ≤ num := by exact_mod_cast Nat.log2_self_le (by omega)
  have hnum₂ : (num : ℚ) < 2 ^ (num.log2 + 1) := by exact_mod_cast Nat.lt_log2_self
  have hden₁ : (2 : ℚ) ^ den.log2 ≤ den := by exact_mod_cast Nat.log2_self_le (by omega)
  have hden₂ : (den : ℚ) < 2 ^ (den.log2 + 1) := by exact_mod_cast Nat.lt_log2_self
  have hden' : (0 : ℚ) < den := by exact_mod_cast hden
  constructor
  · rw [lt_div_iff₀ hden', sub_sub, zpow_sub₀ (by norm_num), ← Nat.cast_succ,
      zpow_natCast, zpow_natCast,
      div_mul_eq_mul_div, div_lt_iff₀ (by positivity)]
    calc (2 : ℚ) ^ num.log2 * den ≤ num * den := by gcongr
      _ < num * 2 ^ (den.log2 + 1) := by gcongr
  · rw [div_lt_iff₀ hden', sub_add_eq_add_sub, zpow_sub₀ (by norm_num), ← Nat.cast_succ,
      zpow_natCast, zpow_natCast,
      div_mul_eq_mul_div, lt_div_iff₀ (by positivity)]
    calc (num : ℚ) * 2 ^ den.log2 < 2 ^ (num.log2 + 1) * 2 ^ den.log2 := by gcongr
      _ ≤ 2 ^ (num.log2 + 1) * den := by gcongr

theorem whole_lt (hden : 0 < den) (num : Nat) (e : Int) (n : Nat) :
    (if 0 ≤ e then num / (den <<< e.toNat) else (num <<< (-e).toNat) / den) < n ↔
    (num / den : ℚ) < n * 2 ^ e := by
  obtain ⟨a, b, hb, hratio, hf⟩ := scaled_ratio hden num e
  have hb' : (0 : ℚ) < b := by exact_mod_cast hb
  rw [hf fun a b => a / b, Nat.div_lt_iff_lt_mul hb, ← div_lt_iff₀ (by positivity),
    ← hratio, div_lt_iff₀ hb']
  norm_cast

theorem scale_roundingExponent (hnum : 0 < num) (hden : 0 < den) :
    Scale (num / den) (roundingExponent num den) := by
  obtain ⟨g, hg⟩ : ∃ g : Int, g = (num.log2 : Int) - den.log2 - 53 := ⟨_, rfl⟩
  obtain ⟨hlow, hhigh⟩ := ratio_bounds hnum hden
  rw [show (num.log2 : Int) - den.log2 - 1 = 52 + g by omega, zpow_add₀ (by norm_num)] at hlow
  rw [show (num.log2 : Int) - den.log2 + 1 = 54 + g by omega, zpow_add₀ (by norm_num)] at hhigh
  have hpos : (0 : ℚ) < 2 ^ g := by positivity
  have hnext : (2 : ℚ) ^ (g + 1) = 2 ^ g * 2 := zpow_add_one₀ (by norm_num) g
  have hwhole (e : Int) := whole_lt hden num e (Nat.pow 2 53)
  rw [show ((Nat.pow 2 53 : Nat) : ℚ) = 2 ^ 53 by norm_num] at hwhole
  unfold roundingExponent
  rw [← hg]
  dsimp only
  by_cases hsmall : g < -1074
  · have hle : (2 : ℚ) ^ (g + 1) ≤ 2 ^ (-1074 : Int) := zpow_le_zpow_right₀ (by norm_num) (by omega)
    rw [hnext] at hle
    have hfits : (num / den : ℚ) < 2 ^ 53 * 2 ^ (-1074 : Int) := by
      calc (num / den : ℚ) < 2 ^ (54 : Int) * 2 ^ g := hhigh
        _ = 2 ^ 53 * (2 ^ g * 2) := by
          norm_num
          ring
        _ ≤ 2 ^ 53 * 2 ^ (-1074 : Int) := by gcongr
    rw [if_pos hsmall, if_pos ((hwhole _).mpr hfits)]
    exact ⟨le_refl _, hfits, .inl rfl⟩
  · rw [if_neg hsmall]
    by_cases hfits : (num / den : ℚ) < 2 ^ 53 * 2 ^ g
    · rw [if_pos ((hwhole _).mpr hfits)]
      refine ⟨by omega, hfits, .inr ?_⟩
      norm_num at hlow ⊢
      linarith
    · rw [if_neg fun h => hfits ((hwhole _).mp h)]
      refine ⟨by omega, ?_, .inr ?_⟩
      · rw [hnext]
        norm_num at hhigh ⊢
        linarith
      · rw [hnext]
        norm_num at hfits ⊢
        linarith

/-- The mantissa at an exponent. -/
theorem mantissaAt_eq (hden : 0 < den) {r : Nat} (hlow : (2 * r - 1) * 2 ^ e ≤ 2 * (num / den : ℚ))
    (hhigh : 2 * (num / den : ℚ) ≤ (2 * r + 1) * 2 ^ e)
    (hties : r % 2 = 0 ∨ (2 * r - 1) * 2 ^ e < 2 * (num / den : ℚ) ∧
      2 * (num / den : ℚ) < (2 * r + 1) * 2 ^ e) :
    mantissaAt num den e = r := by
  obtain ⟨a, b, hb, hratio, hf⟩ := scaled_ratio hden num e
  have hb' : (0 : ℚ) < b := by exact_mod_cast hb
  have hpos : (0 : ℚ) < 2 ^ e := by positivity
  have hdouble : 2 * (num / den : ℚ) = 2 * a / b * 2 ^ e := by
    rw [mul_div_assoc, hratio, mul_assoc, div_mul_cancel₀ _ hpos.ne']
  rw [hdouble] at hlow hhigh hties
  simp only [mul_le_mul_iff_of_pos_right hpos, mul_lt_mul_iff_of_pos_right hpos,
    le_div_iff₀ hb', div_le_iff₀ hb',
    lt_div_iff₀ hb', div_lt_iff₀ hb'] at hlow hhigh hties
  unfold mantissaAt
  rw [hf roundDiv]
  exact roundDiv_eq hb (by exact_mod_cast hlow) (by exact_mod_cast hhigh)
    (hties.imp_right fun ⟨hlow, hhigh⟩ => ⟨by exact_mod_cast hlow, by exact_mod_cast hhigh⟩)

/-! ### The nearest number -/

/-- How far the ratios below a number reach, in quarters of the step between numbers there: half a
step, or half of the smaller step below a power of two. -/
def gap (m : Nat) (e : Int) : Nat := if m = 2 ^ 52 ∧ e ≠ -1074 then 1 else 2

/-- A ratio rounds to the number with this mantissa and this exponent. -/
structure Rounds (m : Nat) (e : Int) (q : ℚ) : Prop where
  low : (4 * m - gap m e : ℚ) * 2 ^ (e - 2) ≤ q
  high : q ≤ (4 * m + 2 : ℚ) * 2 ^ (e - 2)
  ties : m % 2 = 0 ∨ (4 * m - gap m e : ℚ) * 2 ^ (e - 2) < q ∧ q < (4 * m + 2 : ℚ) * 2 ^ (e - 2)

theorem gap_le (m : Nat) (e : Int) : gap m e ≤ 2 := by
  unfold gap
  split <;> omega

theorem assemble_full {m : Nat} (h : 2 ^ 52 ≤ m) : assemble m e =
    if (e + 1075).toNat * 2 ^ 52 + (m - 2 ^ 52) < infinityBits.toNat then
      ((e + 1075).toNat * 2 ^ 52 + (m - 2 ^ 52)).toUInt64 else infinityBits :=
        if_neg (Nat.not_lt.mpr h)

/-- A mantissa with one bit too many is the least one at the next exponent. -/
theorem assemble_carry (he : -1074 < e) : assemble (2 ^ 53) (e - 1) = assemble (2 ^ 52) e := by
  have hsame : (e - 1 + 1075).toNat * 2 ^ 52 + (2 ^ 53 - 2 ^ 52) =
      (e + 1075).toNat * 2 ^ 52 + (2 ^ 52 - 2 ^ 52) := by
    omega
  rw [assemble_full (by decide), assemble_full (Nat.le_refl _), hsame]

/-- The pattern that a ratio is rounded to. -/
theorem assemble_rounded {m : Nat} (hparts : Parts m e) (hnum : 0 < num) (hden : 0 < den)
    (hq : Rounds m e (num / den)) :
    assemble (mantissaAt num den (roundingExponent num den)) (roundingExponent num den) =
      assemble m e := by
  have hscale := scale_roundingExponent hnum hden
  have hgap : (gap m e : ℚ) ≤ 2 := by exact_mod_cast gap_le m e
  have hm : (m : ℚ) ≤ 2 ^ 53 - 1 := by
    have := hparts.mantissa
    have : (m : ℚ) + 1 ≤ 2 ^ 53 := by exact_mod_cast this
    linarith
  obtain ⟨u, hu⟩ : ∃ u : ℚ, u = 2 ^ (e - 2) := ⟨_, rfl⟩
  have hpos : 0 < u := by
    rw [hu]
    positivity
  have hfour : (2 : ℚ) ^ e = 4 * u := by
    rw [hu, show e = e - 2 + 2 by omega, zpow_add₀ (by norm_num)]
    norm_num
    ring
  have htwo : (2 : ℚ) ^ (e - 1) = 2 * u := by
    rw [hu, show e - 1 = e - 2 + 1 by omega, zpow_add_one₀ (by norm_num)]
    ring
  obtain ⟨hlow, hhigh, hties⟩ := hq
  rw [← hu] at hlow hhigh hties
  by_cases hfull : e = -1074 ∨ (2 : ℚ) ^ 52 * 2 ^ e ≤ num / den
  · -- the ratio is rounded at the exponent itself
    have hsame : Scale (num / den) e := by
      refine ⟨hparts.least, ?_, hfull⟩
      rw [hfour]
      nlinarith
    have hmantissa : mantissaAt num den e = m := by
      apply mantissaAt_eq hden
      · rw [hfour]
        nlinarith
      · rw [hfour]
        linarith
      · refine hties.imp_right fun ⟨hlow, hhigh⟩ => ?_
        rw [hfour]
        constructor
        · nlinarith
        · linarith
    rw [le_antisymm (hscale.le hsame) (hsame.le hscale), hmantissa]
  · -- the ratio lies right below a power of two, and is rounded up to it
    rw [not_or, not_le, hfour] at hfull
    obtain ⟨hleast, hbelow⟩ := hfull
    have hfull := hparts.full.resolve_left hleast
    have hge := hparts.least
    have hpower : m = 2 ^ 52 := by
      refine le_antisymm (Nat.le_of_lt_succ ?_) hfull
      by_contra hmore
      have : (2 : ℚ) ^ 52 + 1 ≤ m := by exact_mod_cast Nat.le_of_not_lt hmore
      nlinarith
    have hnear : gap m e = 1 := if_pos ⟨hpower, hleast⟩
    rw [hnear, hpower] at hlow
    push_cast at hlow
    have hprevious : Scale (num / den) (e - 1) := by
      refine ⟨by omega, ?_, .inr ?_⟩
      · rw [htwo]
        linarith
      · rw [htwo]
        linarith
    have hmantissa : mantissaAt num den (e - 1) = 2 ^ 53 := by
      apply mantissaAt_eq hden
      · rw [htwo]
        push_cast
        linarith
      · rw [htwo]
        push_cast
        linarith
      · exact .inl (by decide)
    rw [le_antisymm (hscale.le hprevious) (hprevious.le hscale), hmantissa, hpower,
      assemble_carry (by omega)]

/-- A ratio that is nearer to a number than to any other is rounded to it. -/
theorem ofRatio_eq (h : Finite x) (hnum : 0 < num) (hden : 0 < den)
    (hq : Rounds x.significand x.exponent (num / den)) : ofRatio x.negative num den = x := by
  rw [ofRatio_positive _ hnum hden, assemble_rounded h.parts hnum hden hq, h.assemble_parts,
    withSign_magnitude]

end LoopTracer.Binary64
