import LoopTracer.Number.Reading
import LoopTracer.Proofs.Number.Rounding
import LoopTracer.Proofs.Text.Quoting

/-! Numbers in text.

`Fixed` and `Numeral` are the forms that a number without its sign is written in: digits that may
have a point between them, and behind these an exponent. Whatever reads fractions takes them for
what they say (`Numeral.nearest?`), and whatever reads integers takes those without a point and an
exponent only (`literal?_marked`). -/
namespace LoopTracer.Reading
open Binary64

variable {l w f ds rest : List UInt8} {v n places : Nat} {e : Int} {negative : Bool} {t : Text}

/-! ### Digits -/

def Digits (l : List UInt8) : Prop := ∀ b ∈ l, isDigit b = true

/-- The number that digits write. -/
def number (l : List UInt8) : Nat := l.foldl (fun n b => n * 10 + (b.toNat - 48)) 0

theorem foldl_number (l : List UInt8) (n : Nat) :
    l.foldl (fun n b => n * 10 + (b.toNat - 48)) n = n * 10 ^ l.length + number l := by
  induction l generalizing n with
  | nil => simp [number]
  | cons b l ih =>
    rw [number, List.foldl_cons, List.foldl_cons, ih, ih (0 * 10 + _), List.length_cons, pow_succ]
    ring

theorem number_cons (b : UInt8) (l : List UInt8) :
    number (b :: l) = (b.toNat - 48) * 10 ^ l.length + number l := by
  rw [number, List.foldl_cons, foldl_number, Nat.zero_mul, Nat.zero_add]

theorem number_append (l l' : List UInt8) :
    number (l ++ l') = number l * 10 ^ l'.length + number l' := by
  rw [number, List.foldl_append, foldl_number l']
  rfl

theorem number_zeros (k : Nat) : number (List.replicate k 48) = 0 := by
  induction k with
  | zero => rfl
  | succ k ih => rw [List.replicate_succ', number_append, ih, Nat.zero_mul]; rfl

theorem byte_digitChar : ∀ d < 10, isDigit (Text.byte (Nat.digitChar d)) = true ∧
    (Text.byte (Nat.digitChar d)).toNat = (Nat.digitChar d).toNat := by decide

theorem digits_toDigits (n : Nat) : Digits ((Nat.toDigits 10 n).map Text.byte) := by
  intro b hb
  obtain ⟨c, hc, rfl⟩ := List.mem_map.mp hb
  obtain ⟨d, hd, rfl⟩ := Text.digit_of_mem (by decide) hc
  exact (byte_digitChar d hd).1

theorem number_toDigits (n : Nat) : number ((Nat.toDigits 10 n).map Text.byte) = n := by
  have hfold : ∀ (l : List Char) (acc : Nat), (∀ c ∈ l, ∃ d < 10, c = Nat.digitChar d) →
      (l.map Text.byte).foldl (fun n b => n * 10 + (b.toNat - 48)) acc =
          Nat.ofDigitChars 10 l acc := by
    intro l
    induction l with
    | nil => exact fun _ _ => rfl
    | cons c l ih =>
      intro acc h
      obtain ⟨d, hd, rfl⟩ := h _ List.mem_cons_self
      rw [List.map_cons, List.foldl_cons, (byte_digitChar d hd).2,
        Nat.ofDigitChars_cons, Nat.mul_comm,
        ih _ fun c hc => h c (List.mem_cons_of_mem _ hc)]
      rfl
  rw [number, hfold _ _ fun c hc => Text.digit_of_mem (by decide) hc, Nat.ofDigitChars_ten_toDigits]

theorem Digits.append (hw : Digits w) (hf : Digits f) : Digits (w ++ f) := fun b hb =>
  (List.mem_append.mp hb).elim (hw b) (hf b)

theorem digits_zeros (k : Nat) : Digits (List.replicate k 48) := fun b hb => by
  rw [List.eq_of_mem_replicate hb]
  rfl

/-- What a byte is to be a digit. -/
theorem isDigit_iff {b : UInt8} : isDigit b = true ↔ 48 ≤ b.toNat ∧ b.toNat ≤ 57 := by
  rw [isDigit, Bool.and_eq_true, decide_eq_true_iff, decide_eq_true_iff, UInt8.le_iff_toNat_le,
    UInt8.le_iff_toNat_le]
  rfl

theorem digitValue?_digit {b : UInt8} (h : isDigit b = true) :
    digitValue? b = some (b.toNat - 48) := if_pos h

theorem number_lt (h : Digits l) : number l < 10 ^ l.length := by
  induction l using List.reverseRecOn with
  | nil => decide
  | append_singleton l b ih =>
    have hb := isDigit_iff.mp (h b (by simp))
    have hl := ih fun c hc => h c (List.mem_append_left _ hc)
    rw [number_append, List.length_append, List.length_singleton, pow_succ]
    show number l * 10 ^ 1 + (0 * 10 + (b.toNat - 48)) < _
    omega

/-! ### Forms -/

/-- Digits that may have a point between them: the number without the point, and how many digits stand
behind it. -/
inductive Fixed : List UInt8 → Nat → Nat → Prop
  | whole {w : List UInt8} (hw : Digits w) (hne : w ≠ []) : Fixed w (number w) 0
  | point {w f : List UInt8} (hw : Digits w) (hne : w ≠ []) (hf : Digits f) (hfne : f ≠ []) :
      Fixed (w ++ 46 :: f) (number (w ++ f)) f.length

/-- A number without its sign, as a whole number times a power of ten. -/
inductive Numeral : List UInt8 → Nat → Int → Prop
  | fixed {l : List UInt8} {v places : Nat} (h : Fixed l v places) : Numeral l v (-places)
  | scientific {l ds : List UInt8} {v places : Nat} {s : UInt8} (h : Fixed l v places)
      (hs : s = 43 ∨ s = 45)
      (hds : Digits ds) (hne : ds ≠ []) (hsmall : number ds < 10000) :
      Numeral (l ++ 101 :: s :: ds) v ((if s = 45 then -(number ds : Int) else number ds) - places)

/-- The bytes that numbers are written with. -/
def Figure (b : UInt8) : Prop := isDigit b = true ∨ b = 46 ∨ b = 101 ∨ b = 43 ∨ b = 45

theorem Fixed.figures (h : Fixed l v places) : ∀ b ∈ l, isDigit b = true ∨ b = 46 := by
  cases h with
  | whole hw _ => exact fun b hb => .inl (hw b hb)
  | point hw _ hf _ =>
    intro b hb
    rcases List.mem_append.mp hb with hb | hb
    · exact .inl (hw b hb)
    · rcases List.mem_cons.mp hb with rfl | hb
      · exact .inr rfl
      · exact .inl (hf b hb)

theorem Numeral.figures (h : Numeral l v e) : ∀ b ∈ l, Figure b := by
  cases h with
  | fixed h => exact fun b hb => (h.figures b hb).imp_right .inl
  | scientific h hs hds _ _ =>
    intro b hb
    rcases List.mem_append.mp hb with hb | hb
    · exact (h.figures b hb).imp_right .inl
    · rcases List.mem_cons.mp hb with rfl | hb
      · exact .inr (.inr (.inl rfl))
      · rcases List.mem_cons.mp hb with rfl | hb
        · exact .inr (.inr (.inr hs))
        · exact .inl (hds b hb)

/-- A number begins and ends with a digit. -/
theorem digits_ends (hw : Digits w) (hne : w ≠ []) :
    (∃ d r, w = d :: r ∧ isDigit d = true) ∧ ∃ r d, w = r ++ [d] ∧ isDigit d = true := by
  refine ⟨?_, w.dropLast, w.getLast hne, (List.dropLast_concat_getLast hne).symm,
    hw _ (List.getLast_mem hne)⟩
  obtain ⟨d, r, rfl⟩ := List.exists_cons_of_ne_nil hne
  exact ⟨d, r, rfl, hw d List.mem_cons_self⟩

theorem ends_append {l' : List UInt8} (h : ∃ d r, l = d :: r ∧ isDigit d = true)
    (h' : ∃ r d, l' = r ++ [d] ∧ isDigit d = true)
    (between : List UInt8) : (∃ d r, l ++ between ++ l' = d :: r ∧ isDigit d = true) ∧
      ∃ r d, l ++ between ++ l' = r ++ [d] ∧ isDigit d = true := by
  obtain ⟨d, r, rfl, hd⟩ := h
  obtain ⟨r', d', rfl, hd'⟩ := h'
  exact ⟨⟨d, _, rfl, hd⟩, _, d', (List.append_assoc _ r' [d']).symm, hd'⟩

theorem Fixed.ends (h : Fixed l v places) :
    (∃ d r, l = d :: r ∧ isDigit d = true) ∧ ∃ r d, l = r ++ [d] ∧ isDigit d = true := by
  cases h with
  | whole hw hne => exact digits_ends hw hne
  | @point w f hw hne hf hfne =>
    have := ends_append (digits_ends hw hne).1 (digits_ends hf hfne).2 [46]
    rwa [List.append_assoc, List.singleton_append] at this

theorem Numeral.ends (h : Numeral l v e) :
    (∃ d r, l = d :: r ∧ isDigit d = true) ∧ ∃ r d, l = r ++ [d] ∧ isDigit d = true := by
  cases h with
  | fixed h => exact h.ends
  | @scientific l ds v places s h hs hds hne hsmall =>
    have := ends_append h.ends.1 (digits_ends hds hne).2 [101, s]
    rwa [List.append_assoc] at this

/-! ### Fractions -/

theorem mantissa_digits (h : Digits l) (m : Mantissa) (rest : List UInt8) :
    mantissa 10 m (l ++ rest) =
    mantissa 10 ⟨m.value * 10 ^ l.length + number l, if m.sawPoint
      then m.places + l.length else m.places,
      m.sawDigit || !l.isEmpty, m.sawPoint⟩ rest := by
  induction l generalizing m with
  | nil => simp [number]
  | cons b l ih =>
    have hb := h b List.mem_cons_self
    have hrange := isDigit_iff.mp hb
    have hne (c : UInt8) (hc : isDigit c = false) : (b == c) = false := by
      rw [beq_eq_false_iff_ne]
      rintro rfl
      rw [hb] at hc
      cases hc
    rw [List.cons_append, mantissa, hne underscore (by decide), hne 46 (by decide),
      digitValue?_digit hb]
    simp only [Bool.false_eq_true, if_false]
    rw [if_pos (by omega), ih fun c hc => h c (List.mem_cons_of_mem _ hc)]
    rw [number_cons, List.length_cons, pow_succ]
    have hvalue : (m.value * 10 + (b.toNat - 48)) * 10 ^ l.length + number l =
        m.value * (10 ^ l.length * 10) + ((b.toNat - 48) * 10 ^ l.length + number l) := by ring
    rw [hvalue]
    cases m.sawPoint
    · simp
    · simp [Nat.add_assoc, Nat.add_comm 1]

theorem Fixed.mantissa (h : Fixed l v places) (hrest : rest = [] ∨ ∃ r, rest = 101 :: r) :
    ∃ m, mantissa 10 {} (l ++ rest) = (m, rest) ∧ m.value = v ∧ m.places = places ∧
    m.sawDigit = true := by
  have hstop (m : Mantissa) : Reading.mantissa 10 m rest = (m, rest) := by
    rcases hrest with rfl | ⟨r, rfl⟩
    · rfl
    · rw [Reading.mantissa]
      rfl
  cases h with
  | whole hw hne =>
    refine ⟨_, (mantissa_digits hw _ _).trans (hstop _), ?_, rfl, ?_⟩
    · simp
    · simpa using hne
  | @point w f hw hne hf hfne =>
    rw [List.append_assoc, List.cons_append, mantissa_digits hw, Reading.mantissa]
    refine ⟨_, (mantissa_digits hf _ _).trans (hstop _), ?_, ?_, ?_⟩
    · simp [number_append]
    · simp
    · simp [hfne]

theorem lower_figure {b : UInt8} (h : Figure b) : lower b ≠ 98 ∧ lower b ≠ 111 ∧ lower b ≠ 120 := by
  have hall : ∀ n < 256, isDigit (.ofNat n) = true ∨ UInt8.ofNat n = 46 ∨ UInt8.ofNat n = 101 ∨
    UInt8.ofNat n = 43 ∨
      UInt8.ofNat n = 45 → lower (.ofNat n) ≠ 98 ∧ lower (.ofNat n) ≠ 111 ∧
        lower (.ofNat n) ≠ 120 := by decide +kernel
  have := hall b.toNat b.toNat_lt
  rw [UInt8.ofNat_toNat] at this
  exact this h

/-- No form looks like one of base sixteen. -/
theorem not_hexadecimal (l : List UInt8) : (∀ b ∈ l, Figure b) → (match l with
    | 48 :: m :: _ :: _ => lower m == 120
    | _ => false) = false := by
  intro h
  split
  · simpa using (lower_figure (h _ (by simp))).2.2
  · rfl

theorem exponentDigits_eq (h : Digits ds) (hsmall : number ds < 10000) :
    exponentDigits ds = number ds := by
  have hfold : ∀ (l : List UInt8) (n : Nat), Digits l → n * 10 ^ l.length + number l < 10000 →
      l.foldl (fun acc b => if b == underscore || 10000 ≤ acc then acc
        else acc * 10 + (b.toNat - 48)) n =
        n * 10 ^ l.length + number l := by
    intro l
    induction l with
    | nil => simp [number]
    | cons b l ih =>
      intro n hl hn
      have hb := hl b List.mem_cons_self
      have hpow : 1 ≤ 10 ^ l.length := Nat.one_le_pow _ _ (by decide)
      have hvalue : n * 10 ^ (b :: l).length + number (b :: l) =
          (n * 10 + (b.toNat - 48)) * 10 ^ l.length + number l := by
        rw [number_cons, List.length_cons, pow_succ]
        ring
      rw [hvalue] at hn ⊢
      have hn' : n < 10000 := by nlinarith
      have hne : b ≠ underscore := by
        rintro rfl
        cases hb
      rw [List.foldl_cons, if_neg (by simp [hne, hn']),
        ih _ (fun c hc => hl c (List.mem_cons_of_mem _ hc)) hn]
  have := hfold ds 0 h (by omega)
  rwa [Nat.zero_mul, Nat.zero_add] at this

theorem exponent?_eq {s : UInt8} (hs : s = 43 ∨ s = 45) (hds : Digits ds) (hne : ds ≠ [])
    (hsmall : number ds < 10000) :
    exponent? (s :: ds) = some (if s = 45 then -(number ds : Int) else number ds) := by
  obtain ⟨⟨d, r, rfl, hd⟩, -⟩ := digits_ends hds hne
  have hall : ((d :: r).all fun b => isDigit b || b == underscore) = true :=
    List.all_eq_true.mpr fun b hb => by rw [hds b hb, Bool.true_or]
  obtain ⟨negative, hsign, hvalue⟩ : ∃ negative, sign (s :: d :: r) = (negative, d :: r) ∧
      (negative = true ↔ s = 45) := by
    rcases hs with rfl | rfl
    · exact ⟨false, rfl, by decide⟩
    · exact ⟨true, rfl, by decide⟩
  unfold exponent?
  rw [hsign]
  dsimp only
  rw [hd, hall, exponentDigits_eq hds hsmall, Bool.and_self, if_pos rfl]
  simp only [hvalue]

/-- A number is read as what it says, rounded once. -/
theorem Numeral.fraction? (h : Numeral l v e) (negative : Bool) :
    Reading.fraction? negative l = some (scaled negative v 10 e) := by
  have hdecimal := not_hexadecimal l h.figures
  unfold Reading.fraction?
  dsimp only
  refine (if_neg fun hhex => Bool.false_ne_true (hdecimal.symm.trans hhex)).trans ?_
  cases h with
  | fixed h =>
    obtain ⟨m, hm, hvalue, hplaces, hdigit⟩ := h.mantissa (.inl rfl)
    rw [List.append_nil] at hm
    rw [hm]
    dsimp only
    rw [hdigit, hvalue, hplaces]
    rfl
  | scientific h hs hds hne hsmall =>
    obtain ⟨m, hm, hvalue, hplaces, hdigit⟩ := h.mantissa (.inr ⟨_, rfl⟩)
    rw [hm]
    dsimp only
    rw [hdigit, hvalue, hplaces, exponent?_eq hs hds hne hsmall]
    rfl

/-! ### Signs -/

/-- A number with its sign. -/
def withMinus (negative : Bool) (l : List UInt8) : List UInt8 := if negative then 45 :: l else l

theorem sign_withMinus (h : ∃ d r, l = d :: r ∧ isDigit d = true) (negative : Bool) :
    sign (withMinus negative l) = (negative, l) := by
  obtain ⟨d, r, rfl, hd⟩ := h
  cases negative with
  | true => rfl
  | false =>
    show sign (d :: r) = _
    unfold sign
    split
    · next heq =>
      cases heq
      cases hd
    · next heq =>
      cases heq
      cases hd
    · rfl

theorem mem_withMinus {b : UInt8} (h : b ∈ withMinus negative l) : b = 45 ∨ b ∈ l := by
  cases negative with
  | true => exact List.mem_cons.mp h
  | false => exact .inr h

theorem lower_digit {d : UInt8} (h : isDigit d = true) :
    (if 65 ≤ d && d ≤ 90 then lower d else d) = d := by
  have hrange := isDigit_iff.mp h
  have hlow : ¬ (65 : UInt8) ≤ d := by
    rw [UInt8.le_iff_toNat_le, Nat.not_le]
    exact Nat.lt_of_le_of_lt hrange.2 (by decide)
  rw [if_neg (by simp [hlow])]

/-- A text without a name or an underscore is read as a fraction. -/
theorem nearest?_eq (hends : ∃ d r, l = d :: r ∧ isDigit d = true) (hfigures : ∀ b ∈ l, Figure b)
    (ht : t.toList = withMinus negative l) : nearest? t = Reading.fraction? negative l := by
  have hsign := sign_withMinus hends negative
  have hplain : (withMinus negative l).contains underscore = false := by
    rw [← Bool.not_eq_true, List.contains_iff_mem]
    intro hmem
    rcases mem_withMinus hmem with heq | hmem
    · cases heq
    · rcases hfigures _ hmem with h | h | h | h | h <;> cases h
  obtain ⟨d, r, rfl, hd⟩ := hends
  have hname : lowerLetters (d :: r) = d :: lowerLetters r :=
    congrArg (· :: lowerLetters r) (lower_digit hd)
  have hbody (c : UInt8) (rest : List UInt8)
      (hc : isDigit c = false) : (lowerLetters (d :: r) == c :: rest) = false := by
    rw [hname, beq_eq_false_iff_ne]
    intro heq
    cases heq
    rw [hc] at hd
    cases hd
  have hnan : (lowerLetters (withMinus negative (d :: r)) == "nan".toUTF8.data.toList) = false := by
    cases negative with
    | true => rfl
    | false => exact hbody 110 [97, 110] rfl
  unfold nearest?
  dsimp only
  rw [ht, hsign]
  dsimp only
  rw [show "inf".toUTF8.data.toList = [105, 110, 102] from rfl, hbody 105 _ rfl,
    show "infinity".toUTF8.data.toList = [105, 110, 102, 105, 110, 105, 116, 121] from rfl,
    hbody 105 _ rfl, hnan, hplain]
  rfl

/-! ### Integers -/

theorem natural?_digits (h : Digits l) (loose : Bool) : natural? 10 loose l = some (number l) := by
  have hfold : ∀ (l : List UInt8) (n : Nat), Digits l → l.foldlM (fun acc b =>
      if loose && b == underscore then some acc
      else (digitValue? b).bind fun d => if d < 10 then some (acc * 10 + d) else none) n =
        some (n * 10 ^ l.length + number l) := by
    intro l
    induction l with
    | nil => simp [number]
    | cons b l ih =>
      intro n hl
      have hb := hl b List.mem_cons_self
      have hrange := isDigit_iff.mp hb
      have hne : b ≠ underscore := by
        rintro rfl
        cases hb
      rw [List.foldlM_cons, if_neg (by simp [hne]), digitValue?_digit hb, Option.bind_some,
        if_pos (by omega)]
      refine (ih _ fun c hc => hl c (List.mem_cons_of_mem _ hc)).trans ?_
      rw [number_cons, List.length_cons, pow_succ]
      congr 1
      ring
  have := hfold l 0 h
  rwa [Nat.zero_mul, Nat.zero_add] at this

/-- A byte that is no digit of the base ends the reading of an integer. -/
theorem natural?_none {b : UInt8} {base : Nat} {loose : Bool} (hb : b ∈ l) (hne : b ≠ underscore)
    (hvalue : ∀ d, digitValue? b = some d → base ≤ d) : natural? base loose l = none := by
  have hfold : ∀ (l : List UInt8) (n : Nat), b ∈ l → l.foldlM (fun acc b =>
      if loose && b == underscore then some acc
      else (digitValue? b).bind fun d => if d < base then some (acc * base + d)
          else none) n = none := by
    intro l
    induction l with
    | nil => exact fun _ h => absurd h List.not_mem_nil
    | cons c l ih =>
      intro n hmem
      rw [List.foldlM_cons]
      by_cases hc : c = b
      · subst hc
        rw [if_neg (by simp [hne])]
        cases hd : digitValue? c with
        | none => rfl
        | some d => rw [Option.bind_some, if_neg (Nat.not_lt.mpr (hvalue d hd))]; rfl
      · have hmem : b ∈ l := (List.mem_cons.mp hmem).resolve_left (Ne.symm hc)
        generalize (if loose && c == underscore then some n else _) = first
        cases first with
        | none => rfl
        | some n => exact ih n hmem
  exact hfold l 0 hb

/-- The base that is chosen by the form of a number. -/
theorem baseOf_eq (h : ∀ b ∈ l, Figure b) :
    baseOf l = (10, l) ∨ ∃ r, l = 48 :: r ∧ baseOf l = (8, r) := by
  unfold baseOf
  split
  · obtain ⟨h₂, h₈, h₁₆⟩ := lower_figure (h _ (List.mem_cons_of_mem _ List.mem_cons_self))
    refine .inr ⟨_, rfl, ?_⟩
    rw [if_neg (by simpa using h₂), if_neg (by simpa using h₈), if_neg (by simpa using h₁₆)]
  · exact .inr ⟨_, rfl, rfl⟩
  · exact .inl rfl

/-- A point or an exponent is no digit. -/
theorem marked_value (h : 46 ∈ l ∨ 101 ∈ l) :
    ∃ b ∈ l, b ≠ 48 ∧ b ≠ underscore ∧ ∀ d, digitValue? b = some d → 10 ≤ d := by
  rcases h with h | h
  · exact ⟨46, h, by decide, by decide, nofun⟩
  · refine ⟨101, h, by decide, by decide, fun d hd => ?_⟩
    rw [show digitValue? 101 = some 14 from rfl] at hd
    cases hd
    decide

/-- A number with a point or an exponent is no integer, in any base. -/
theorem integer?_marked (hends : ∃ d r, l = d :: r ∧ isDigit d = true) (hmark : 46 ∈ l ∨ 101 ∈ l)
    (ht : t.toList = withMinus negative l) : integer? t = none := by
  obtain ⟨b, hb, -, hne, hvalue⟩ := marked_value hmark
  unfold integer?
  rw [ht, sign_withMinus hends]
  dsimp only
  rw [natural?_none hb hne hvalue]
  split <;> rfl

theorem literal?_marked (hends : ∃ d r, l = d :: r ∧ isDigit d = true)
    (hfigures : ∀ b ∈ l, Figure b)
    (hmark : 46 ∈ l ∨ 101 ∈ l) (ht : t.toList = withMinus negative l) : literal? t = none := by
  obtain ⟨b, hb, hzero, hne, hvalue⟩ := marked_value hmark
  have hnatural : natural? (baseOf l).1 true (baseOf l).2 = none := by
    rcases baseOf_eq hfigures with heq | ⟨r, rfl, heq⟩ <;> rw [heq]
    · exact natural?_none hb hne hvalue
    · have hmem : b ∈ r := (List.mem_cons.mp hb).resolve_left hzero
      exact natural?_none hmem hne fun d hd => (by decide : 8 ≤ 10).trans (hvalue d hd)
  unfold literal?
  rw [ht, sign_withMinus hends]
  dsimp only
  rw [hnatural]
  split
  · rfl
  · split <;> rfl

theorem signed?_eq (hn : n < 2 ^ 63) :
    signed? negative n = some (if negative then -(n : Int) else n) := by
  unfold signed?
  rw [Nat.pow_eq, if_pos hn, if_pos hn.le]
  split <;> rfl

/-- Digits are read as an integer. -/
theorem integer?_digits (hw : Digits w) (hne : w ≠ []) (hsmall : number w < 2 ^ 63)
    (ht : t.toList = withMinus negative w) :
    integer? t = some (if negative then -(number w : Int) else number w) := by
  unfold integer?
  rw [ht, sign_withMinus (digits_ends hw hne).1]
  dsimp only
  rw [natural?_digits hw, Option.bind_some, signed?_eq hsmall, if_neg (by simpa using hne)]

/-- So they are in any base, unless they begin with a zero. -/
theorem literal?_digits (hw : Digits w) (hne : w ≠ []) (hsmall : number w < 2 ^ 63)
    (hzero : ∀ r, w = 48 :: r → r = [])
    (ht : t.toList = withMinus negative w) :
    literal? t = some (if negative then -(number w : Int) else number w) := by
  have hplain : w.contains underscore = false := by
    rw [← Bool.not_eq_true, List.contains_iff_mem]
    exact fun hmem => Bool.false_ne_true (hw _ hmem)
  have hnatural : natural? (baseOf w).1 true (baseOf w).2 = some (number w) := by
    rcases baseOf_eq fun b hb => .inl (hw b hb) with heq | ⟨r, rfl, heq⟩ <;> rw [heq]
    · exact natural?_digits hw true
    · obtain rfl := hzero r rfl
      rfl
  unfold literal?
  rw [ht, sign_withMinus (digits_ends hw hne).1]
  dsimp only
  rw [hplain, Bool.false_and, if_neg Bool.false_ne_true, hnatural, Option.bind_some,
    signed?_eq hsmall,
    if_neg (by simpa using hne)]

/-! ### Values -/

variable {x : Binary64} {q : ℚ}

/-- Whatever a number of this value is written as, it is read as `x`. -/
def Reads (x : Binary64) (q : ℚ) : Prop := ∀ (v : Nat) (e : Int), (v * 10 ^ e : ℚ) = q →
  scaled x.negative v 10 e = x

theorem reads_of_rounds (hx : Finite x) (hq : 0 < q)
    (hr : Rounds x.significand x.exponent q) : Reads x q := by
  rintro v e rfl
  have hv : 0 < v := by
    rcases Nat.eq_zero_or_pos v with rfl | hv
    · simp at hq
    · exact hv
  unfold scaled
  rw [if_neg (by simpa using hv.ne')]
  split
  · next he =>
    obtain ⟨k, rfl⟩ := Int.eq_ofNat_of_zero_le he
    refine ofRatio_eq hx (Nat.mul_pos hv (Nat.pow_pos (by decide))) Nat.one_pos ?_
    rw [Int.toNat_natCast, Nat.pow_eq]
    push_cast
    rw [div_one]
    exact_mod_cast hr
  · next he =>
    obtain ⟨k, hk⟩ := Int.eq_ofNat_of_zero_le (Int.neg_nonneg_of_nonpos (Int.not_le.mp he).le)
    obtain rfl : e = -(k : Int) := by omega
    refine ofRatio_eq hx hv (Nat.pow_pos (by decide)) ?_
    rw [Int.neg_neg, Int.toNat_natCast, Nat.pow_eq]
    rw [zpow_neg, zpow_natCast, ← div_eq_mul_inv] at hr
    push_cast
    exact hr

theorem reads_zero (hx : x.isZero = true) : Reads x 0 := by
  intro v e hv
  have hzero : v = 0 := by
    have := (mul_eq_zero.mp hv).resolve_right (by positivity)
    exact_mod_cast this
  have hmagnitude : x.magnitude = 0 := by simpa [isZero] using hx
  rw [hzero]
  show withSign x.negative 0 = x
  rw [← hmagnitude, withSign_magnitude]

/-- Digits alone are a whole number. -/
theorem Numeral.whole (h : Numeral l v e) (hl : Digits l) : v = number l ∧ e = 0 := by
  have hnot (b : UInt8) (hb : isDigit b = false) : b ∉ l := fun hmem => by
    rw [hl b hmem] at hb
    cases hb
  cases h with
  | fixed h =>
    cases h with
    | whole => exact ⟨rfl, rfl⟩
    | point => exact absurd (by simp) (hnot 46 rfl)
  | scientific => exact absurd (by simp) (hnot 101 rfl)

end LoopTracer.Reading
