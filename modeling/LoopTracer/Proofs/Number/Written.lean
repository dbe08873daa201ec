import LoopTracer.Proofs.Number.Digits
import LoopTracer.Proofs.Number.Numerals

/-! Written numbers read back.

However a decimal is laid out, the text is a number of its value (`written_write`), and the shortest
digits of a number round to it. So what a number is rendered as is read as that number again
(`binary?_render`). -/
namespace LoopTracer.Shortest
open Binary64 Reading

variable {x : Binary64} {d : Decimal} {n : Nat} {l : List Char}

/-! ### Layouts -/

/-- A text is a number of this value without a sign; it has a point, an exponent, or few
digits only. -/
structure Written (limit : Int) (l : List UInt8) (q : ℚ) : Prop where
  numeral : ∃ v e, Numeral l v e ∧ 0 < v ∧ (v * 10 ^ e : ℚ) = q
  marked : (46 ∈ l ∨ 101 ∈ l) ∨ Digits l ∧ (l.length : Int) ≤ limit

/-- The bytes of the decimal digits of a number. -/
def figures (n : Nat) : List UInt8 := (Nat.toDigits 10 n).map Text.byte

theorem toList_figures (n : Nat) : (Text.ofNat n).toList = figures n :=
  Text.toList_toDigits (by decide) (by decide) n

theorem length_figures (n : Nat) :
    (figures n).length = (Nat.toDigits 10 n).length := List.length_map _

theorem figures_ne_nil (n : Nat) : figures n ≠ [] := by
  rw [← List.length_pos_iff, length_figures]
  exact Nat.length_toDigits_pos

theorem ascii_toDigits (n : Nat) : ∀ c ∈ Nat.toDigits 10 n, c.toNat < 128 := by
  intro c hc
  obtain ⟨d, hd, rfl⟩ := Text.digit_of_mem (by decide) hc
  exact Text.digitChar_lt d (by omega)

/-- Digits with zeros before or behind them, or a part of them. -/
theorem toList_text (n : Nat) (h : ∀ c ∈ l, c ∈ Nat.toDigits 10 n ∨ c = '0') :
    (Text.ofString (String.ofList l)).toList = l.map Text.byte := by
  refine Text.toList_ofString fun c hc => ?_
  rcases h c hc with hc | rfl
  · exact ascii_toDigits n c hc
  · decide

theorem number_figures (n : Nat) : number (figures n) = n := number_toDigits n

theorem digits_figures (n : Nat) : Digits (figures n) := digits_toDigits n

theorem Digits.take {l : List UInt8} (h : Digits l) (k : Nat) : Digits (l.take k) :=
  fun b hb => h b (List.mem_of_mem_take hb)

theorem Digits.drop {l : List UInt8} (h : Digits l) (k : Nat) : Digits (l.drop k) :=
  fun b hb => h b (List.mem_of_mem_drop hb)

/-- Digits with a point between them. -/
theorem fixed_split {k : Nat} (hk : 0 < k) (hlt : k < (figures n).length) :
    Fixed ((figures n).take k ++ 46 :: (figures n).drop k) n ((figures n).length - k) := by
  have h := Fixed.point (Digits.take (digits_figures n) k) (by simp [hk.ne', figures_ne_nil])
    (Digits.drop (digits_figures n) k) (by simpa using hlt)
  rwa [List.take_append_drop, number_figures, List.length_drop] at h

/-- A number with an exponent. -/
theorem written_scientific {m : Text} {n places : Nat} {e : Int} (limit : Int)
    (hm : Fixed m.toList n places) (hn : 0 < n)
    (he : e.natAbs < 10000) : Written limit (m ++ Text.ofString (if e < 0 then "e-" else "e+") ++
      (Text.ofNat e.natAbs).padLeft 2 "0").toList (n * 10 ^ (e - places)) := by
  obtain ⟨s, hs, hmark, hvalue⟩ : ∃ s : UInt8, (s = 43 ∨ s = 45) ∧
      (Text.ofString (if e < 0 then "e-" else "e+")).toList = [101, s] ∧
      (if s = 45 then -(e.natAbs : Int) else e.natAbs) = e := by
    split
    · exact ⟨45, .inr rfl, rfl, by rw [if_pos rfl]; omega⟩
    · exact ⟨43, .inl rfl, rfl, by rw [if_neg (by decide)]; omega⟩
  obtain ⟨ds, hds⟩ : ∃ ds, ds = List.replicate (2 - (figures e.natAbs).length) 48 ++
    figures e.natAbs := ⟨_, rfl⟩
  have hnumber : number ds = e.natAbs := by
    rw [hds, number_append, number_zeros, number_figures, Nat.zero_mul, Nat.zero_add]
  have hne : ds ≠ [] := by
    rw [hds]
    exact List.append_ne_nil_of_right_ne_nil _ (figures_ne_nil _)
  have hnumeral := Numeral.scientific hm hs (hds ▸ (digits_zeros _).append (digits_figures _)) hne
    (by rwa [hnumber])
  rw [hnumber, hvalue] at hnumeral
  rw [Text.toList_append, Text.toList_append, Text.toList_padLeft, toList_figures, ← hds, hmark,
    List.append_assoc]
  exact ⟨⟨n, _, hnumeral, hn, rfl⟩, .inl (.inr (by simp))⟩

/-- A number with a point. -/
theorem written_point {l : List UInt8} {n places : Nat} (limit : Int) (hl : Fixed l n places)
    (hn : 0 < n) (hpoint : 46 ∈ l) :
    Written limit l (n * 10 ^ (-places : Int)) := ⟨⟨n, _, .fixed hl, hn, rfl⟩, .inl (.inl hpoint)⟩

/-- The texts of which numbers are laid out. -/
theorem toList_split (n k : Nat) :
    (Text.ofString (String.ofList ((Nat.toDigits 10 n).take k)) ++ (Text.ofString ".") ++
      Text.ofString (String.ofList ((Nat.toDigits 10 n).drop k))).toList =
        (figures n).take k ++ 46 :: (figures n).drop k := by
  rw [Text.toList_append, Text.toList_append,
    toList_text n fun c hc => .inl (List.mem_of_mem_take hc),
    toList_text n fun c hc => .inl (List.mem_of_mem_drop hc), List.map_take, List.map_drop,
    List.append_assoc]
  rfl

theorem toList_below (n k : Nat) : (Text.ofString "0." ++
    Text.ofString (String.ofList (List.replicate k '0' ++ Nat.toDigits 10 n))).toList =
      [48] ++ 46 :: (List.replicate k 48 ++ figures n) := by
  have hchars : ∀ c ∈ List.replicate k '0' ++ Nat.toDigits 10 n, c ∈ Nat.toDigits 10 n ∨ c = '0' :=
    fun c hc => (List.mem_append.mp hc).symm.imp_right List.eq_of_mem_replicate
  rw [Text.toList_append, toList_text n hchars, List.map_append, List.map_replicate]
  rfl

theorem toList_whole (n k : Nat) :
    (Text.ofString (String.ofList (Nat.toDigits 10 n ++ List.replicate k '0'))).toList =
      figures n ++ List.replicate k 48 := by
  have hchars : ∀ c ∈ Nat.toDigits 10 n ++ List.replicate k '0', c ∈ Nat.toDigits 10 n ∨ c = '0' :=
    fun c hc => (List.mem_append.mp hc).imp_right List.eq_of_mem_replicate
  rw [toList_text n hchars, List.map_append, List.map_replicate]
  rfl

/-- The digits in front of an exponent, one of them before the point. -/
theorem fixed_lead (n : Nat) : Fixed (if (figures n).length ≤ 1
    then Text.ofString (String.ofList (Nat.toDigits 10 n))
    else Text.ofString (String.ofList ((Nat.toDigits 10 n).take 1)) ++ (Text.ofString ".") ++
      Text.ofString (String.ofList ((Nat.toDigits 10 n).drop 1))).toList n
    ((figures n).length - 1) := by
  have hpos : 0 < (figures n).length := List.length_pos_iff.mpr (figures_ne_nil _)
  split
  · next hle =>
    have h := Fixed.whole (digits_figures n) (figures_ne_nil _)
    rw [number_figures] at h
    rw [toList_text n fun c hc => .inl hc, show (figures n).length - 1 = 0 by omega]
    exact h
  · next hlt =>
    rw [toList_split]
    exact fixed_split Nat.one_pos (by omega)

/-- A number below one, with `k` zeros behind the point. -/
theorem fixed_below (n k : Nat) :
    Fixed ([48] ++ 46 :: (List.replicate k 48 ++ figures n)) n (k + (figures n).length) := by
  have h := Fixed.point (digits_zeros 1) (List.cons_ne_nil _ _)
    ((digits_zeros k).append (digits_figures n))
    (List.append_ne_nil_of_right_ne_nil _ (figures_ne_nil _))
  rwa [number_append, number_append, number_zeros, number_zeros, number_figures, Nat.zero_mul,
    Nat.zero_mul, Nat.zero_add, Nat.zero_add, List.length_append, List.length_replicate] at h

/-- A whole number that ends in `k` zeros. -/
theorem written_whole {limit : Int} {n k : Nat} (hn : 0 < n)
    (hlimit : ((figures n).length + k : Int) ≤ limit) :
    Written limit (figures n ++ List.replicate k 48) (n * 10 ^ (k : Int)) := by
  have hdigits : Digits (figures n ++ List.replicate k 48) :=
    (digits_figures _).append (digits_zeros k)
  have hnumber : number (figures n ++ List.replicate k 48) = n * 10 ^ k := by
    rw [number_append, number_figures, number_zeros, List.length_replicate, Nat.add_zero]
  have hnumeral :=
    Numeral.fixed (.whole hdigits (List.append_ne_nil_of_left_ne_nil (figures_ne_nil _) _))
  refine ⟨⟨_, _, hnumeral, ?_, ?_⟩, .inr ⟨hdigits, ?_⟩⟩
  · rw [hnumber]
    exact Nat.mul_pos hn (Nat.pow_pos (by decide))
  · rw [hnumber]
    push_cast
    rw [zpow_natCast]
    simp
  · rw [List.length_append, List.length_replicate]
    omega

theorem written_write (layout : Layout) (hd : 0 < d.digits)
    (hlow : -10000 < (figures d.digits).length + d.exponent - 1)
    (hhigh : (figures d.digits).length + d.exponent - 1 < 10000) :
    Written layout.limit (layout.write d).toList d.value := by
  have hlength := length_figures d.digits
  have hpos : 0 < (figures d.digits).length := List.length_pos_iff.mpr (figures_ne_nil _)
  unfold Layout.write Decimal.value
  dsimp only
  rw [← hlength]
  split
  · -- with an exponent
    have h := written_scientific layout.limit (fixed_lead d.digits) hd
      (e := (figures d.digits).length + d.exponent - 1) (by omega)
    rwa [show ((figures d.digits).length + d.exponent - 1 - ((figures
      d.digits).length - 1 : Nat) : Int) = d.exponent by omega] at h
  · next hplain =>
    split
    · -- below one
      obtain ⟨k, hk⟩ : ∃ k : Nat, (-((figures d.digits).length + d.exponent)).toNat = k := ⟨_, rfl⟩
      have h := written_point layout.limit (fixed_below d.digits k) hd (by simp)
      rw [show (-(k + (figures d.digits).length : Nat) : Int) = d.exponent by omega] at h
      rw [hk, toList_below]
      exact h
    · split
      · -- a whole number
        obtain ⟨k, hk⟩ : ∃ k : Nat,
          ((figures d.digits).length + d.exponent).toNat - (figures d.digits).length = k := ⟨_, rfl⟩
        simp only [Bool.or_eq_true, decide_eq_true_eq, not_or] at hplain
        have h : Written layout.limit _ _ := written_whole (k := k) hd (by omega)
        rw [show (k : Int) = d.exponent by omega] at h
        rw [hk, toList_whole]
        exact h
      · -- with a point between the digits
        rw [toList_split]
        have h := written_point layout.limit (fixed_split (n := d.digits)
          (k := ((figures d.digits).length + d.exponent).toNat) (by omega) (by omega)) hd (by simp)
        rwa [show (-((figures d.digits).length - ((figures
            d.digits).length + d.exponent).toNat : Nat) : Int) = d.exponent by
          omega] at h

/-! ### Finite numbers -/

/-- The exponents of the numbers that round to a number other than zero. -/
theorem Rounds.bounds {m : Nat} {e : Int} {q : ℚ} (h : Rounds m e q)
    (hparts : Parts m e) (hm : 0 < m) :
    (10 : ℚ) ^ (-400 : Int) < q ∧ q < 10 ^ (400 : Int) := by
  have hgap : (gap m e : ℚ) ≤ 2 := by exact_mod_cast gap_le m e
  have hone : (1 : ℚ) ≤ m := by exact_mod_cast hm
  have hm' : (m : ℚ) < 2 ^ 53 := by exact_mod_cast hparts.mantissa
  have hleast := hparts.least
  have hgreatest := hparts.greatest
  have hten : (2 : ℚ) ^ (1200 : Int) ≤ 10 ^ (400 : Int) := by
    calc (2 : ℚ) ^ (1200 : Int) = (2 ^ (3 : Int)) ^ (400 : Int) := by rw [← zpow_mul]; rfl
      _ ≤ 10 ^ (400 : Int) := zpow_le_zpow_left₀ (by decide) (by positivity) (by norm_num)
  have hpow {i j : Int} (hij : i < j) : (2 : ℚ) ^ i < 2 ^ j := zpow_lt_zpow_right₀ (by norm_num) hij
  have hunit : (2 : ℚ) ^ e = 4 * 2 ^ (e - 2) := by
    rw [show e = e - 2 + 2 by omega, zpow_add₀ (by norm_num)]
    norm_num
    ring
  constructor
  · calc (10 : ℚ) ^ (-400 : Int) ≤ 2 ^ (-1200 : Int) := by
          rw [zpow_neg, zpow_neg]
          exact inv_anti₀ (by positivity) hten
      _ < 2 ^ (e - 2) := hpow (by omega)
      _ ≤ (4 * m - gap m e) * 2 ^ (e - 2) := le_mul_of_one_le_left (by positivity) (by linarith)
      _ ≤ q := h.low
  · calc q ≤ (4 * m + 2) * 2 ^ (e - 2) := h.high
      _ ≤ 2 ^ (54 : Int) * 2 ^ e := by
        rw [hunit, ← mul_assoc]
        refine mul_le_mul_of_nonneg_right ?_ (by positivity)
        norm_num
        linarith
      _ = 2 ^ (54 + e) := (zpow_add₀ (by norm_num) _ _).symm
      _ < 2 ^ (1200 : Int) := hpow (by omega)
      _ ≤ 10 ^ (400 : Int) := hten

/-- The decimal exponent of the shortest digits. -/
theorem exponent_bounds (hx : Finite x) (hm : 0 < x.significand) :
    -10000 < (figures (digits x).digits).length + (digits x).exponent - 1 ∧
      (figures (digits x).digits).length + (digits x).exponent - 1 < 10000 := by
  obtain ⟨hpos, hround⟩ := digits_round hx hm
  obtain ⟨hlow, hhigh⟩ := Rounds.bounds hround hx.parts hm
  obtain ⟨l, hl⟩ : ∃ l, (Nat.toDigits 10 (digits x).digits).length = l + 1 :=
    Nat.exists_eq_add_one.mpr Nat.length_toDigits_pos
  have hge : ((10 : ℚ) ^ l) ≤ (digits x).digits := by exact_mod_cast pow_le_of_length hpos hl
  have hlt : ((digits x).digits : ℚ) < 10 ^ (l + 1) := by
    exact_mod_cast (Nat.length_toDigits_le_iff (by decide) (Nat.succ_pos l)).mp hl.le
  unfold Decimal.value at hlow hhigh
  have hfirst : (10 : ℚ) ^ (-400 : Int) < 10 ^ ((l + 1 : Nat) + (digits x).exponent) := by
    rw [zpow_add₀ (by norm_num), zpow_natCast]
    calc (10 : ℚ) ^ (-400 : Int) < (digits x).digits * 10 ^ (digits x).exponent := hlow
      _ ≤ 10 ^ (l + 1) * 10 ^ (digits x).exponent := by gcongr
  have hlast : (10 : ℚ) ^ (l + (digits x).exponent) < 10 ^ (400 : Int) := by
    rw [zpow_add₀ (by norm_num), zpow_natCast]
    calc (10 : ℚ) ^ l * 10 ^ (digits x).exponent ≤
          (digits x).digits * 10 ^ (digits x).exponent := by gcongr
      _ < 10 ^ (400 : Int) := hhigh
  rw [zpow_lt_zpow_iff_right₀ (by norm_num)] at hfirst hlast
  rw [length_figures, hl]
  omega

/-- The text of a finite number other than zero, without its sign. -/
theorem written_digits (hx : Finite x) (hm : 0 < x.significand) :
    Written layout.limit (layout.write (digits x)).toList (digits x).value :=
  written_write layout (digits_round hx hm).1 (exponent_bounds hx hm).1 (exponent_bounds hx hm).2

end LoopTracer.Shortest

namespace LoopTracer.Binary64
open Shortest Reading

variable {x : Binary64} {t : Text} {l : List UInt8} {v : Nat} {e : Int}

theorem significand_pos (h : x.isZero = false) : 0 < x.significand := by
  have hne : x.magnitude.toNat ≠ 0 := fun heq => by
    have : x.magnitude = 0 := UInt64.toNat_inj.mp heq
    rw [isZero, this] at h
    cases h
  rw [x.parts_eq.1]
  split <;> omega

/-- The text of a finite number: its sign, and a number of a value that is read as it. -/
theorem written_render (hx : Finite x) :
    ∃ l v e, x.render.toList = withMinus x.negative l ∧ Numeral l v e ∧
    Reads x (v * 10 ^ e) ∧ ((46 ∈ l ∨ 101 ∈ l) ∨ Digits l ∧ l.length ≤ 6) := by
  have hbody (body : Text) : (if x.negative then Text.ofString "-" ++ body else body).toList =
      withMinus x.negative body.toList := by
    cases x.negative with
    | true => exact Text.toList_append _ body
    | false => rfl
  unfold render
  rw [if_neg (by simp [hx.1]), if_neg (by simp [hx.2])]
  dsimp only
  rw [hbody]
  cases hzero : x.isZero with
  | true =>
    refine ⟨[48], 0, 0, rfl, .fixed (.whole (digits_zeros 1) (List.cons_ne_nil _ _)), ?_,
      .inr ⟨digits_zeros 1, by decide⟩⟩
    simpa using reads_zero hzero
  | false =>
    have hm := significand_pos hzero
    obtain ⟨⟨v, e, hnumeral, hpos, hvalue⟩, hmarked⟩ := written_digits hx hm
    refine ⟨_, v, e, rfl, hnumeral, reads_of_rounds hx (by positivity) ?_,
      hmarked.imp_right fun ⟨hdigits, hlength⟩ => ⟨hdigits, ?_⟩⟩
    · rw [hvalue]
      exact (digits_round hx hm).2
    · exact Int.ofNat_le.mp hlength

/-- A number that is read as a finite one. -/
theorem binary?_numeral (hx : Finite x) (ht : t.toList = withMinus x.negative l)
    (hl : Numeral l v e)
    (hv : Reads x (v * 10 ^ e)) : binary? t = some x := by
  unfold binary?
  rw [nearest?_eq hl.ends.1 hl.figures ht, hl.fraction?, hv v e rfl, Option.bind_some, hx.2]
  rfl

/-- What a number is rendered as is read as that number. -/
theorem binary?_render (hx : x.isNaN = false) : binary? x.render = some x := by
  cases hinf : x.isInf with
  | false =>
    have hx : Finite x := ⟨hx, hinf⟩
    obtain ⟨l, v, e, ht, hl, hv, -⟩ := written_render hx
    exact binary?_numeral hx ht hl hv
  | true =>
    have hmagnitude : x.magnitude = infinityBits := by simpa [isInf] using hinf
    unfold render
    rw [hx, hinf, if_neg Bool.false_ne_true, if_pos rfl, ← withSign_magnitude x, hmagnitude]
    cases x.negative <;> rfl

end LoopTracer.Binary64
