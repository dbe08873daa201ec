import LoopTracer.Text.Blank
import LoopTracer.Text.Quoted

/-! Where byte text comes apart.

A code point is read from its own bytes alone, and those are the bytes that write it. A byte below
`0x80` is never part of a longer sequence, so text comes apart there, and blanks are trimmed off
next to it. -/
namespace LoopTracer

/-! ### Characters of one byte -/

/-- The byte of a character below `0x80`. -/
def Text.byte (c : Char) : UInt8 := UInt8.ofNat c.toNat

theorem Text.toList_ofString {l : List Char} (h : ∀ c ∈ l, c.toNat < 128) :
    (Text.ofString (String.ofList l)).toList = l.map Text.byte := by
  show (String.ofList l).toByteArray.data.toList = _
  rw [String.toByteArray_ofList, List.utf8Encode, List.toList_data_toByteArray]
  induction l with
  | nil => rfl
  | cons c l ih =>
    have hc : c.val.toNat ≤ 0x7F := Nat.le_of_lt_succ (h c List.mem_cons_self)
    rw [List.flatMap_cons, ih fun c hc => h c (List.mem_cons_of_mem _ hc), List.map_cons,
      String.utf8EncodeChar, if_pos hc]
    rfl

namespace Utf8

variable {b : UInt8} {l rest tail : List UInt8} {code k : Nat}

/-! ### Sequences -/

/-- The bytes of a code point: the first one and those that continue it. -/
inductive Sequence : (code : Nat) → (b : UInt8) → (l : List UInt8) → Prop
  | one {b : UInt8} (hb : b < 0x80) : Sequence b.toNat b []
  | two {b c : UInt8} (hb : 0xC2 ≤ b ∧ b < 0xE0) (hc : 0x80 ≤ c ∧ c ≤ 0xBF) :
      Sequence (b.toNat % 32 * 64 + payload c) b [c]
  | three {b c d : UInt8} (hb : 0xE0 ≤ b ∧ b < 0xF0)
      (hc : (secondBounds b).1 ≤ c ∧ c ≤ (secondBounds b).2)
      (hd : 0x80 ≤ d ∧ d ≤ 0xBF) :
      Sequence ((b.toNat % 16 * 64 + payload c) * 64 + payload d) b [c, d]
  | four {b c d e : UInt8} (hb : 0xF0 ≤ b ∧ b ≤ 0xF4)
      (hc : (secondBounds b).1 ≤ c ∧ c ≤ (secondBounds b).2)
      (hd : 0x80 ≤ d ∧ d ≤ 0xBF) (he : 0x80 ≤ e ∧ e ≤ 0xBF) :
      Sequence (((b.toNat % 8 * 64 + payload c) * 64 + payload d) * 64 + payload e) b [c, d, e]

theorem secondBounds_two (h : b < 0xE0) : secondBounds b = (0x80, 0xBF) := by
  have hne (x : UInt8) (hx : 0xE0 ≤ x) : (b == x) = false := by
    rw [beq_eq_false_iff_ne]
    rintro rfl
    exact absurd h (UInt8.not_lt.mpr hx)
  rw [secondBounds, hne _ (by decide), hne _ (by decide), hne _ (by decide), hne _ (by decide)]
  rfl

/-- A sequence is read as its code point, whatever comes behind it. -/
theorem Sequence.first? (h : Sequence code b l) (tail : List UInt8) :
    Utf8.first? b (l ++ tail) = some (code, l.length) := by
  have within {c lo hi : UInt8} (hc : lo ≤ c ∧ c ≤ hi) : ¬ (decide (c < lo) || decide (hi < c)) =
      true := by
    simpa using hc
  have continued {c : UInt8} (hc : 0x80 ≤ c ∧ c ≤ 0xBF) : ¬ (!continues c) = true := by
    simpa [continues] using hc
  have leads {lo hi : UInt8} (hlo : 0xC2 ≤ lo) (hhi : hi ≤ 0xF4) (hb : lo ≤ b ∧ b ≤ hi) :
      ¬ b < 0x80 ∧ ¬ (decide (b < 0xC2) || decide (0xF4 < b)) = true :=
    ⟨UInt8.not_lt.mpr (UInt8.le_trans (by decide) (UInt8.le_trans hlo hb.1)),
      within ⟨UInt8.le_trans hlo hb.1, UInt8.le_trans hb.2 hhi⟩⟩
  unfold Utf8.first?
  dsimp only
  cases h with
  | one hb =>
    rw [if_pos hb]
    rfl
  | two hb hc =>
    obtain ⟨hone, hlead⟩ := leads (UInt8.le_refl _) (by decide) ⟨hb.1, UInt8.le_of_lt hb.2⟩
    rw [if_neg hone, if_neg hlead]
    dsimp only [List.cons_append]
    rw [secondBounds_two hb.2, if_neg (within hc), if_pos hb.2]
    rfl
  | three hb hc hd =>
    obtain ⟨hone, hlead⟩ := leads (by decide) (by decide) ⟨hb.1, UInt8.le_of_lt hb.2⟩
    rw [if_neg hone, if_neg hlead]
    dsimp only [List.cons_append]
    rw [if_neg (within hc), if_neg (UInt8.not_lt.mpr hb.1), if_neg (continued hd), if_pos hb.2]
    rfl
  | four hb hc hd he =>
    obtain ⟨hone, hlead⟩ := leads (by decide) (UInt8.le_refl _) hb
    rw [if_neg hone, if_neg hlead]
    dsimp only [List.cons_append]
    rw [if_neg (within hc), if_neg (UInt8.not_lt.mpr (UInt8.le_trans (by decide) hb.1)),
      if_neg (continued hd),
      if_neg (UInt8.not_lt.mpr hb.1), if_neg (continued he)]
    rfl

/-- What is read as a code point is a sequence. -/
theorem sequence_of_first? (h : first? b rest = some (code, k)) :
    ∃ l tail, rest = l ++ tail ∧ k = l.length ∧ Sequence code b l := by
  unfold first? at h
  dsimp only at h
  split at h
  · next hb =>
    cases h
    exact ⟨[], rest, rfl, rfl, .one hb⟩
  · next hone =>
    split at h
    · cases h
    · next hlead =>
      rw [Bool.or_eq_true, decide_eq_true_iff, decide_eq_true_iff, not_or,
        UInt8.not_lt, UInt8.not_lt] at hlead
      cases rest with
      | nil => cases h
      | cons c rest =>
        dsimp only at h
        split at h
        · cases h
        · next hc =>
          rw [Bool.or_eq_true, decide_eq_true_iff, decide_eq_true_iff, not_or,
            UInt8.not_lt, UInt8.not_lt] at hc
          split at h
          · next htwo =>
            cases h
            rw [secondBounds_two htwo] at hc
            exact ⟨[c], rest, rfl, rfl, .two ⟨hlead.1, htwo⟩ hc⟩
          · next hthree =>
            cases rest with
            | nil => cases h
            | cons d rest =>
              dsimp only at h
              split at h
              · cases h
              · next hd =>
                split at h
                · next hb =>
                  cases h
                  exact ⟨[c, d], rest, rfl, rfl,
                    .three ⟨UInt8.not_lt.mp hthree, hb⟩ hc (by simpa [continues] using hd)⟩
                · next hfour =>
                  cases rest with
                  | nil => cases h
                  | cons e rest =>
                    dsimp only at h
                    split at h
                    · cases h
                    · next he =>
                      cases h
                      exact ⟨[c, d, e], rest, rfl, rfl, .four ⟨UInt8.not_lt.mp hfour, hlead.2⟩ hc
                        (by simpa [continues] using hd) (by simpa [continues] using he)⟩

/-- Where the second byte of a sequence lies. -/
theorem second_bounds {c : UInt8} (h : (secondBounds b).1 ≤ c ∧ c ≤ (secondBounds b).2) :
    128 ≤ c.toNat ∧ c.toNat ≤ 191 ∧ (b.toNat = 224 → 160 ≤ c.toNat) ∧
    (b.toNat = 237 → c.toNat ≤ 159) ∧
      (b.toNat = 240 → 144 ≤ c.toNat) ∧ (b.toNat = 244 → c.toNat ≤ 143) := by
  have hbeq (n : UInt8) : (b == n) = decide (b.toNat = n.toNat) := by
    rw [Bool.eq_iff_iff, beq_iff_eq, decide_eq_true_iff, UInt8.toNat_inj]
  simp only [secondBounds, hbeq, decide_eq_true_eq, UInt8.le_iff_toNat_le, UInt8.reduceToNat] at h
  repeat' split at h
  all_goals simp only [UInt8.reduceToNat] at h; omega

theorem isScalar_iff : Text.isScalar code = true ↔
    code < 0xD800 ∨ 0xE000 ≤ code ∧ code < 0x110000 := by
  simp [Text.isScalar]

theorem toNat_ofNat (h : Text.isScalar code = true) : (Char.ofNat code).val.toNat = code := by
  have hvalid : code.isValidChar := (isScalar_iff.mp h).imp_right fun ⟨hlo, hhi⟩ => ⟨by omega, hhi⟩
  rw [Char.ofNat, dif_pos hvalid]
  rfl

/-- The bytes of a sequence are those that write its code point, which is a Unicode scalar value. -/
theorem Sequence.encode (h : Sequence code b l) :
    encode code = b :: l ∧ Text.isScalar code = true := by
  have byte {n : Nat} {c : UInt8} (hn : n = c.toNat) : UInt8.ofNat n = c := by
    rw [hn, UInt8.ofNat_toNat]
  cases h with
  | one hb =>
    simp only [UInt8.lt_iff_toNat_lt, UInt8.reduceToNat] at hb
    have hscalar : Text.isScalar b.toNat = true := isScalar_iff.mpr (.inl (by omega))
    refine ⟨?_, hscalar⟩
    rw [Utf8.encode, String.utf8EncodeChar, toNat_ofNat hscalar, if_pos (by omega), byte rfl]
  | @two b c hb hc =>
    simp only [UInt8.le_iff_toNat_le, UInt8.lt_iff_toNat_lt, UInt8.reduceToNat] at hb hc
    obtain ⟨code, hcode⟩ : ∃ n, n = b.toNat % 32 * 64 + payload c := ⟨_, rfl⟩
    rw [← hcode]
    rw [payload] at hcode
    have hscalar : Text.isScalar code = true := isScalar_iff.mpr (.inl (by omega))
    refine ⟨?_, hscalar⟩
    rw [Utf8.encode, String.utf8EncodeChar, toNat_ofNat hscalar, if_neg (by omega),
      if_pos (by omega),
      byte (c := b) (by omega), byte (c := c) (by omega)]
  | @three b c d hb hc hd =>
    have hsecond := second_bounds hc
    simp only [UInt8.le_iff_toNat_le, UInt8.lt_iff_toNat_lt, UInt8.reduceToNat] at hb hd
    obtain ⟨code, hcode⟩ : ∃ n, n = (b.toNat % 16 * 64 + payload c) * 64 + payload d := ⟨_, rfl⟩
    rw [← hcode]
    rw [payload, payload] at hcode
    have hscalar : Text.isScalar code = true := isScalar_iff.mpr (by omega)
    refine ⟨?_, hscalar⟩
    rw [Utf8.encode, String.utf8EncodeChar, toNat_ofNat hscalar, if_neg (by omega),
      if_neg (by omega),
      if_pos (by omega), byte (c := b) (by omega), byte (c := c) (by omega),
      byte (c := d) (by omega)]
  | @four b c d e hb hc hd he =>
    have hsecond := second_bounds hc
    simp only [UInt8.le_iff_toNat_le, UInt8.reduceToNat] at hb hd he
    obtain ⟨code, hcode⟩ : ∃ n, n =
      ((b.toNat % 8 * 64 + payload c) * 64 + payload d) * 64 + payload e := ⟨_, rfl⟩
    rw [← hcode]
    rw [payload, payload, payload] at hcode
    have hscalar : Text.isScalar code = true := isScalar_iff.mpr (by omega)
    refine ⟨?_, hscalar⟩
    rw [Utf8.encode, String.utf8EncodeChar, toNat_ofNat hscalar, if_neg (by omega),
      if_neg (by omega),
      if_neg (by omega), byte (c := b) (by omega), byte (c := c) (by omega),
      byte (c := d) (by omega),
      byte (c := e) (by omega)]

/-! ### Cutting text -/

/-- The text of an item, as cutting finds it. -/
def Formed : Piece → Prop
  | .point code bytes => ∃ b l, bytes = b :: l ∧ Sequence code b l
  | .stray b => 0x80 ≤ b

theorem next_sequence (h : Sequence code b l) (tail : List UInt8) :
    next b (l ++ tail) = (.point code (b :: l), tail) := by
  rw [next, h.first?]
  dsimp only
  rw [List.take_left, List.drop_left]

theorem formed_next (b : UInt8) (rest : List UInt8) : Formed (next b rest).1 := by
  unfold next
  cases h : first? b rest with
  | none =>
    show 0x80 ≤ b
    refine Decidable.byContradiction fun hb => ?_
    rw [← List.nil_append rest, (Sequence.one (UInt8.not_le.mp hb)).first?] at h
    cases h
  | some x =>
    obtain ⟨code, k⟩ := x
    obtain ⟨l, tail, rfl, rfl, hl⟩ := sequence_of_first? h
    show Formed (.point code (b :: (l ++ tail).take l.length))
    rw [List.take_left]
    exact ⟨b, l, rfl, hl⟩

theorem formed_pieces (l : List UInt8) : ∀ p ∈ pieces l, Formed p := by
  fun_induction pieces l with
  | case1 => exact fun _ hp => absurd hp List.not_mem_nil
  | case2 b rest _ ih => exact List.forall_mem_cons.mpr ⟨formed_next b rest, ih⟩

/-- The bytes that continue a sequence are not below `0x80`. -/
theorem Sequence.continuing (h : Sequence code b l) : ∀ c ∈ l, 0x80 ≤ c := by
  have second {c : UInt8} (hc : (secondBounds b).1 ≤ c ∧ c ≤ (secondBounds b).2) : 0x80 ≤ c :=
    UInt8.le_iff_toNat_le.mpr (second_bounds hc).1
  cases h with
  | one => nofun
  | two _ hc => exact List.forall_mem_singleton.mpr hc.1
  | three _ hc hd => exact List.forall_mem_cons.mpr ⟨second hc, List.forall_mem_singleton.mpr hd.1⟩
  | four _ hc hd he =>
    exact List.forall_mem_cons.mpr ⟨second hc,
      List.forall_mem_cons.mpr ⟨hd.1, List.forall_mem_singleton.mpr he.1⟩⟩

/-- A byte below `0x80` ends what is before it. -/
theorem next_append {c : UInt8} (hc : c < 0x80) (b : UInt8) (rest tail : List UInt8) :
    next b (rest ++ c :: tail) = ((next b rest).1, (next b rest).2 ++ c :: tail) := by
  cases h : first? b (rest ++ c :: tail) with
  | some x =>
    obtain ⟨code, k⟩ := x
    obtain ⟨l, tail', heq, -, hl⟩ := sequence_of_first? h
    -- the sequence ends before the byte
    obtain ⟨more, rfl, rfl⟩ : ∃ more, rest = l ++ more ∧ tail' = more ++ c :: tail := by
      rcases List.append_eq_append_iff.mp heq with ⟨more, rfl, hmore⟩ | ⟨more, hrest, htail⟩
      · cases more with
        | nil => exact ⟨[], by simp, by simpa using hmore.symm⟩
        | cons d more =>
          obtain ⟨rfl, -⟩ := List.cons.inj hmore
          exact absurd hc (UInt8.not_lt.mpr (hl.continuing c (by simp)))
      · exact ⟨more, hrest, htail⟩
    rw [List.append_assoc, next_sequence hl, next_sequence hl]
  | none =>
    have hrest : first? b rest = none := by
      cases h' : first? b rest with
      | none => rfl
      | some x =>
        obtain ⟨code, k⟩ := x
        obtain ⟨l, tail', rfl, -, hl⟩ := sequence_of_first? h'
        rw [List.append_assoc, hl.first?] at h
        cases h
    rw [next, next, h, hrest]

theorem pieces_append {c : UInt8} (hc : c < 0x80) (l tail : List UInt8) :
    pieces (l ++ c :: tail) = pieces l ++ pieces (c :: tail) := by
  fun_induction pieces l with
  | case1 => rfl
  | case2 b rest _ ih =>
    rw [List.cons_append, pieces, next_append hc, ih]
    rfl

theorem pieces_cons {c : UInt8} (hc : c < 0x80) (tail : List UInt8) :
    pieces (c :: tail) = .point c.toNat [c] :: pieces tail := by
  have := next_sequence (.one hc) tail
  rw [List.nil_append] at this
  rw [pieces, this]

theorem pieces_singleton {c : UInt8} (hc : c < 0x80) : pieces [c] = [.point c.toNat [c]] := by
  rw [pieces_cons hc, pieces]

end Utf8

/-! ### Trimming -/

namespace Text
open Utf8

variable {l : List UInt8}

/-- A byte that is a code point of its own and no blank. -/
def Ink (b : UInt8) : Prop := b < 0x80 ∧ isBlank b.toNat = false

instance (b : UInt8) : Decidable (Ink b) := inferInstanceAs (Decidable (_ ∧ _))

/-- Text that begins and ends with such bytes. -/
structure Inked (l : List UInt8) : Prop where
  first : ∃ b t, l = b :: t ∧ Ink b
  last : ∃ t b, l = t ++ [b] ∧ Ink b

theorem Inked.append {l' : List UInt8} (h : Inked l) (h' : Inked l') (between : List UInt8) :
    Inked (l ++ between ++ l') := by
  obtain ⟨b, t, rfl, hb⟩ := h.first
  obtain ⟨t', b', rfl, hb'⟩ := h'.last
  exact ⟨⟨b, _, rfl, hb⟩, ⟨_, b', (List.append_assoc _ t' [b']).symm, hb'⟩⟩

theorem trimPieces_eq {p q : Piece} {ps blanks : List Piece} (hp : isBlankPiece p = false)
    (hq : isBlankPiece q = false)
    (hfirst : ∃ ps', ps ++ [q] = p :: ps') (hblanks : ∀ b ∈ blanks, isBlankPiece b = true) :
    trimPieces (ps ++ [q] ++ blanks) = ps ++ [q] := by
  obtain ⟨ps', hps⟩ := hfirst
  unfold trimPieces
  rw [hps, List.cons_append, List.dropWhile_cons, hp, if_neg Bool.false_ne_true,
    ← List.cons_append, ← hps,
    List.reverse_append, List.dropWhile_append_of_pos fun b hb =>
      hblanks b (List.mem_reverse.mp hb),
    List.reverse_append, List.reverse_singleton, List.singleton_append, List.dropWhile_cons, hq,
    if_neg Bool.false_ne_true, List.reverse_cons, List.reverse_reverse]

/-- Blanks behind such text are trimmed off and nothing else is. -/
theorem trim_inked (h : Inked l) (n : Nat) :
    (ofList (l ++ List.replicate n 32)).trim = ofList l := by
  obtain ⟨b, t, hbt, hb⟩ := h.first
  obtain ⟨t', b', htb, hb'⟩ := h.last
  have hpieces : pieces l = pieces t' ++ [.point b'.toNat [b']] := by
    rw [htb, pieces_append hb'.1, pieces_singleton hb'.1]
  have hfirst : ∃ ps', pieces t' ++ [.point b'.toNat [b']] = .point b.toNat [b] :: ps' := by
    rw [← hpieces, hbt, pieces_cons hb.1]
    exact ⟨_, rfl⟩
  have hblanks (n : Nat) : pieces (List.replicate n 32) = List.replicate n (.point 32 [32]) := by
    induction n with
    | zero => rw [List.replicate_zero, List.replicate_zero, pieces]
    | succ n ih =>
      rw [List.replicate_succ, List.replicate_succ, pieces_cons (by decide), ih]
      rfl
  have hall : pieces (l ++ List.replicate n 32) = pieces l ++
      List.replicate n (.point 32 [32]) := by
    cases n with
    | zero => rw [List.replicate_zero, List.replicate_zero, List.append_nil, List.append_nil]
    | succ n => rw [List.replicate_succ, pieces_append (by decide), ← List.replicate_succ, hblanks]
  show ofPieces (trimPieces (pieces (l ++ List.replicate n 32))) = _
  rw [hall, hpieces, trimPieces_eq (p := .point b.toNat [b])
      (q := .point b'.toNat [b']) hb.2 hb'.2 hfirst fun p hp => by
      rw [List.eq_of_mem_replicate hp]
      rfl,
    ← hpieces, ofPieces, pieces_flatten]

end Text

end LoopTracer
