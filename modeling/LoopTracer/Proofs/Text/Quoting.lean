import Mathlib.Algebra.Group.Int.Defs
import Mathlib.Algebra.GroupWithZero.Nat
import LoopTracer.Proofs.Text.Pieces

/-! Quoted strings read back.

Whatever bytes a text has, its quoted form reads as the text again (`unquote?_quote`). Between its
quotes no quote, backslash or line end stands by itself (`Marked`), so that nothing that looks for
one of them is led astray. -/
namespace LoopTracer.Text
open Utf8

variable {t : Text} {l rest tail : List UInt8} {p : Piece} {code n : Nat}

/-! ### Joining -/

theorem toList_concat (parts : List Text) : (concat parts).toList = parts.flatMap toList := by
  have hfold (acc : Text) : (parts.foldl (· ++ ·) acc).toList =
      acc.toList ++ parts.flatMap toList := by
    induction parts generalizing acc with
    | nil => rw [List.foldl_nil, List.flatMap_nil, List.append_nil]
    | cons t parts ih =>
      rw [List.foldl_cons, ih, toList_append, List.flatMap_cons, List.append_assoc]
  exact (hfold empty).trans (List.nil_append _)

theorem toList_replicate (n : Nat) (t : Text) :
    (replicate n t).toList = (List.replicate n t.toList).flatten := by
  unfold replicate
  induction n with
  | zero => rfl
  | succ n ih => rw [Nat.fold_succ, toList_append, ih, List.replicate_succ', List.flatten_append,
    List.flatten_singleton]

theorem toList_padLeft (t : Text) (width : Nat) :
    (t.padLeft width "0").toList = List.replicate (width - t.toList.length) 48 ++ t.toList := by
  have hzeros (n : Nat) : (List.replicate n (Text.ofString "0").toList).flatten =
      List.replicate n 48 := by
    show (List.replicate n [(48 : UInt8)]).flatten = _
    rw [List.flatten_replicate_singleton]
  unfold padLeft
  rw [toList_append, toList_replicate, hzeros]
  rfl

/-! ### Numbers -/

theorem digit_of_mem {b : Nat} (hb : 1 < b) {c : Char} (h : c ∈ Nat.toDigits b n) :
    ∃ d < b, c = Nat.digitChar d := by
  induction n using Nat.strongRecOn with
  | _ n ih =>
    rw [Nat.toDigits_eq_if hb] at h
    split at h
    · next hn => exact ⟨n, hn, List.mem_singleton.mp h⟩
    · next hn =>
      rcases List.mem_append.mp h with h | h
      · exact ih (n / b) (Nat.div_lt_self (by omega) hb) h
      · exact ⟨n % b, Nat.mod_lt n (by omega), List.mem_singleton.mp h⟩

theorem digitChar_lt : ∀ d < 16, (Nat.digitChar d).toNat < 128 := by decide

theorem toList_toDigits {b : Nat} (hb : 1 < b) (hle : b ≤ 16) (n : Nat) :
    (ofString (String.ofList (Nat.toDigits b n))).toList = (Nat.toDigits b n).map byte :=
  toList_ofString fun c hc => by
    obtain ⟨d, hd, rfl⟩ := digit_of_mem hb hc
    exact digitChar_lt d (by omega)

theorem toList_hex (n width : Nat) : (hex n width).toList =
    List.replicate (width - (Nat.toDigits 16 n).length) 48 ++ (Nat.toDigits 16 n).map byte := by
  rw [hex, toList_padLeft, toList_toDigits (by decide) (by decide), List.length_map]

theorem length_hex {width : Nat} (hwidth : 0 < width) (hn : n < 16 ^ width) :
    (hex n width).toList.length = width := by
  have hle : (Nat.toDigits 16 n).length ≤ width :=
    (Nat.length_toDigits_le_iff (by decide) hwidth).mpr hn
  rw [toList_hex, List.length_append, List.length_replicate, List.length_map]
  omega

theorem hexValue?_digit : ∀ d < 16, hexValue? (byte (Nat.digitChar d)) = some d := by decide

/-- One more digit of a number. -/
def pushHex (acc : Nat) (b : UInt8) : Option Nat := (hexValue? b).map (acc * 16 + ·)

theorem foldlM_hex (acc n : Nat) : ((Nat.toDigits 16 n).map byte).foldlM pushHex acc =
    some (acc * 16 ^ (Nat.toDigits 16 n).length + n) := by
  have hdigit (acc d : Nat) (hd : d < 16) : pushHex acc (byte (Nat.digitChar d)) =
      some (acc * 16 + d) := by
    rw [pushHex, hexValue?_digit d hd, Option.map_some]
  induction n using Nat.strongRecOn generalizing acc with
  | _ n ih =>
    rw [Nat.toDigits_eq_if (by decide)]
    split
    · next hn => simp [hdigit acc n hn]
    · next hn =>
      have hvalue : (acc * 16 ^ (Nat.toDigits 16 (n / 16)).length + n / 16) * 16 + n % 16 =
          acc * 16 ^ ((Nat.toDigits 16 (n / 16)).length + 1) + n := by
        rw [Nat.add_mul, Nat.mul_assoc, ← Nat.pow_succ, Nat.add_assoc,
          Nat.mul_comm (n / 16), Nat.div_add_mod]
      rw [List.map_append, List.foldlM_append, ih (n / 16) (Nat.div_lt_self (by omega) (by decide)),
        List.length_append,
        List.length_singleton, ← hvalue]
      show List.foldlM pushHex _ [byte (Nat.digitChar (n % 16))] = _
      rw [List.foldlM_cons, hdigit _ (n % 16) (Nat.mod_lt n (by decide))]
      rfl

/-- A number is read from its digits. -/
theorem number?_hex {width : Nat} (hwidth : 0 < width) (hn : n < 16 ^ width) (tail : List UInt8) :
    number? hexValue? 16 width ((hex n width).toList ++ tail) = some n := by
  have hlength := length_hex hwidth hn
  have hzeros (k : Nat) : (List.replicate k (48 : UInt8)).foldlM pushHex 0 = some 0 := by
    induction k with
    | zero => rfl
    | succ k ih => exact ih
  unfold number?
  rw [List.take_left' hlength]
  dsimp only
  rw [hlength, if_neg (Nat.lt_irrefl _)]
  show (hex n width).toList.foldlM pushHex 0 = some n
  rw [toList_hex, List.foldlM_append, hzeros]
  show ((Nat.toDigits 16 n).map byte).foldlM pushHex 0 = some n
  rw [foldlM_hex, Nat.zero_mul, Nat.zero_add]

/-! ### Items between quotes -/

/-- Bytes that no reader of quoted text takes for an end. -/
def Safe (b : UInt8) : Prop := b ≠ 34 ∧ b ≠ 92 ∧ b ≠ 10

/-- The quoted form of an item: it stands as itself, or a backslash comes before it. -/
inductive Marked : List UInt8 → Prop
  | plain {l : List UInt8} (h : ∀ b ∈ l, Safe b) : Marked l
  | escaped {b : UInt8} {l : List UInt8} (hb : b ≠ 10) (h : ∀ b ∈ l, Safe b) : Marked (92 :: b :: l)

theorem safe_of_le {b : UInt8} (h : 0x80 ≤ b) : Safe b := by
  refine ⟨?_, ?_, ?_⟩
  all_goals rintro rfl; exact absurd h (by decide)

theorem safe_hex (n width : Nat) : ∀ b ∈ (hex n width).toList, Safe b := by
  have hdigit : ∀ d < 16, byte (Nat.digitChar d) ≠ 34 ∧ byte (Nat.digitChar d) ≠ 92 ∧
      byte (Nat.digitChar d) ≠ 10 := by
    decide
  intro b hb
  rw [toList_hex] at hb
  rcases List.mem_append.mp hb with hb | hb
  · rw [List.eq_of_mem_replicate hb]
    exact ⟨by decide, by decide, by decide⟩
  · obtain ⟨c, hc, rfl⟩ := List.mem_map.mp hb
    obtain ⟨d, hd, rfl⟩ := digit_of_mem (by decide) hc
    exact hdigit d hd

theorem toList_numericEscape {letter : Char} (h : letter.toNat < 128) (width n : Nat) :
    (numericEscape letter width n).toList = 92 :: byte letter :: (hex n width).toList := by
  have hletters : ∀ c ∈ ['\\', letter], c.toNat < 128 := by simp [h]
  rw [numericEscape, toList_append, toList_ofString hletters]
  rfl

/-- What stands between quotes for an item. -/
inductive Form : Piece → List UInt8 → Prop
  /-- A code point that stands as itself. -/
  | plain {code : Nat} {b : UInt8} {l : List UInt8} (hcode : Sequence code b l)
      (h : ∀ x ∈ b :: l, Safe x) :
      Form (.point code (b :: l)) (b :: l)
  /-- A quote or a backslash. -/
  | sign {b : UInt8} (hb : b = 34 ∨ b = 92) : Form (.point b.toNat [b]) [92, b]
  /-- A control code that has a letter. -/
  | letter {b : UInt8} {c : Char} (h : controlLetter? b.toNat = some c) :
      Form (.point b.toNat [b]) [92, byte c]
  /-- A byte. -/
  | byte {p : Piece} {b : UInt8} (h : p.bytes = [b]) : Form p (92 :: 120 :: (hex b.toNat 2).toList)
  /-- A code point of the first plane. -/
  | short {code : Nat} {bytes : List UInt8} (hbytes : encode code = bytes)
      (hscalar : isScalar code = true)
      (h : code < 16 ^ 4) : Form (.point code bytes) (92 :: 117 :: (hex code 4).toList)
  /-- Any other code point. -/
  | long {code : Nat} {bytes : List UInt8} (hbytes : encode code = bytes)
      (hscalar : isScalar code = true) :
      Form (.point code bytes) (92 :: 85 :: (hex code 8).toList)

theorem controlLetter?_lt {c : Char} (h : controlLetter? code = some c) :
    code < 0x80 ∧ c.toNat < 128 := by
  unfold controlLetter? at h
  split at h
  all_goals first | exact ⟨by omega, by rw [← Option.some.inj h]; decide⟩ | cases h

/-- A sequence is one byte, or its code point and all of its bytes are past those. -/
theorem sequence_cases {b : UInt8} (h : Sequence code b l) :
    (b < 0x80 ∧ code = b.toNat ∧ l = []) ∨ (0x80 ≤ code ∧ ∀ x ∈ b :: l, Safe x) := by
  obtain ⟨hencode, hscalar⟩ := h.encode
  by_cases hcode : code < 0x80
  · rw [encode, String.utf8EncodeChar, toNat_ofNat hscalar, if_pos (by omega)] at hencode
    obtain ⟨rfl, rfl⟩ := List.cons.inj hencode
    have hnat : (UInt8.ofNat code).toNat = code :=
      UInt8.toNat_ofNat_of_lt' (show code < 256 by omega)
    exact .inl ⟨UInt8.lt_iff_toNat_lt.mpr (by rw [hnat]; exact hcode), hnat.symm, rfl⟩
  · refine .inr ⟨by omega,
      List.forall_mem_cons.mpr ⟨safe_of_le ?_, fun x hx => safe_of_le (h.continuing x hx)⟩⟩
    cases h with
    | one hb => exact absurd (UInt8.lt_iff_toNat_lt.mp hb) hcode
    | two hb => exact UInt8.le_trans (by decide) hb.1
    | three hb => exact UInt8.le_trans (by decide) hb.1
    | four hb => exact UInt8.le_trans (by decide) hb.1

theorem quotePiece_form (h : Formed p) : Form p (quotePiece p).toList := by
  cases p with
  | stray b =>
    show Form _ (numericEscape 'x' 2 b.toNat).toList
    rw [toList_numericEscape (by decide)]
    exact .byte rfl
  | point code bytes =>
    obtain ⟨b, l, rfl, hl⟩ := h
    obtain ⟨hencode, hscalar⟩ := hl.encode
    have single (hcode : code < 0x80) : code = b.toNat ∧ l = [] := by
      rcases sequence_cases hl with ⟨-, h⟩ | ⟨h, -⟩
      · exact h
      · omega
    show Form _ (quotePoint 34 code).toList
    unfold quotePoint
    split
    · next hsign =>
      rw [Bool.or_eq_true, beq_iff_eq, beq_iff_eq] at hsign
      obtain ⟨rfl, rfl⟩ := single (by omega)
      rw [toList_append, toList_ofList, hencode]
      exact .sign (hsign.imp (fun h => UInt8.toNat_inj.mp h) fun h => UInt8.toNat_inj.mp h)
    · next hsign =>
      rw [Bool.or_eq_true, beq_iff_eq, beq_iff_eq, not_or] at hsign
      split
      · next hprint =>
        rw [toList_ofList, hencode]
        refine .plain hl ?_
        rcases sequence_cases hl with ⟨-, rfl, rfl⟩ | ⟨-, h⟩
        · refine List.forall_mem_singleton.mpr ⟨?_, ?_, ?_⟩
          · rintro rfl
            exact hsign.1 rfl
          · rintro rfl
            exact hsign.2 rfl
          · rintro rfl
            cases hprint
        · exact h
      · split
        · next c hc =>
          obtain ⟨hlt, hletter⟩ := controlLetter?_lt hc
          obtain ⟨rfl, rfl⟩ := single hlt
          have hletters : ∀ c' ∈ ['\\', c], c'.toNat < 128 := by simp [hletter]
          rw [toList_ofString hletters]
          exact .letter hc
        · split
          · next hcode =>
            rw [Bool.or_eq_true, decide_eq_true_iff, beq_iff_eq] at hcode
            obtain ⟨rfl, rfl⟩ := single (by omega)
            rw [toList_numericEscape (by decide)]
            exact .byte rfl
          · split
            · next hshort =>
              rw [toList_numericEscape (by decide)]
              exact .short hencode hscalar hshort
            · rw [toList_numericEscape (by decide)]
              exact .long hencode hscalar

theorem Form.marked (h : Form p l) : Marked l := by
  cases h with
  | plain _ h => exact .plain h
  | sign hb => exact .escaped (by rcases hb with rfl | rfl <;> decide) nofun
  | @letter b c h =>
    refine .escaped ?_ nofun
    unfold controlLetter? at h
    split at h
    all_goals first | (rw [← Option.some.inj h]; decide) | cases h
  | byte | short | long => exact .escaped (by decide) (safe_hex _ _)

theorem unquoteTail?_escape {e bytes : List UInt8}
    (h : escape? (e ++ tail) = some (bytes, e.length)) (acc : ByteArray) :
    unquoteTail? acc (92 :: (e ++ tail)) = unquoteTail? (acc ++ bytes.toByteArray) tail := by
  rw [unquoteTail?, if_neg (by decide), if_neg (by decide), if_pos (by decide), h]
  dsimp only
  rw [List.drop_left]

theorem unquoteTail?_plain {b : UInt8} (h : Sequence code b l) (hb : Safe b) (acc : ByteArray) :
    unquoteTail? acc (b :: (l ++ tail)) = unquoteTail? (acc ++ (b :: l).toByteArray) tail := by
  rw [unquoteTail?, if_neg (by simpa using hb.1), if_neg (by simpa using hb.2.2),
    if_neg (by simpa using hb.2.1),
    next_sequence h]

/-- What an escape stands for that names a code point. -/
def pointEscape? (width : Nat) (l : List UInt8) : Option (List UInt8 × Nat) :=
  (number? hexValue? 16 width l).bind fun n => if isScalar n
    then some (encode n, width + 1) else none

theorem escape?_byte (l : List UInt8) :
    escape? (120 :: l) = (number? hexValue? 16 2 l).map fun n => ([n.toUInt8], 3) := by
  rw [escape?, show Char.ofNat (120 : UInt8).toNat = 'x' from rfl]
  rfl

theorem escape?_short (l : List UInt8) : escape? (117 :: l) = pointEscape? 4 l := by
  rw [escape?, show Char.ofNat (117 : UInt8).toNat = 'u' from rfl]
  rfl

theorem escape?_long (l : List UInt8) : escape? (85 :: l) = pointEscape? 8 l := by
  rw [escape?, show Char.ofNat (85 : UInt8).toNat = 'U' from rfl]
  rfl

theorem pointEscape?_hex {width : Nat} (hwidth : 0 < width) (hscalar : isScalar code = true)
    (h : code < 16 ^ width)
    (tail : List UInt8) :
    pointEscape? width ((hex code width).toList ++ tail) = some (encode code, width + 1) := by
  rw [pointEscape?, number?_hex hwidth h, Option.bind_some, if_pos hscalar]

/-- An item is read from what stands for it. -/
theorem Form.read (h : Form p l) (acc : ByteArray) (tail : List UInt8) :
    unquoteTail? acc (l ++ tail) = unquoteTail? (acc ++ p.bytes.toByteArray) tail := by
  cases h with
  | plain hcode h => exact unquoteTail?_plain hcode (h _ List.mem_cons_self) acc
  | @sign b hb =>
    refine unquoteTail?_escape (e := [b]) ?_ acc
    rcases hb with rfl | rfl <;> rfl
  | @letter b c h =>
    refine unquoteTail?_escape (e := [Text.byte c]) ?_ acc
    have hnat {n : Nat} (hb : b.toNat = n) (hn : n < 256) : b = UInt8.ofNat n := by
      rw [← hb, UInt8.ofNat_toNat]
    unfold controlLetter? at h
    split at h
    case h_8 => cases h
    all_goals
      rename_i hb
      rw [hnat hb (by decide), ← Option.some.inj h]
      rfl
  | @byte p b h =>
    refine unquoteTail?_escape (e := 120 :: (hex b.toNat 2).toList) ?_ acc
    rw [List.cons_append, escape?_byte, number?_hex (by decide) b.toNat_lt, List.length_cons,
      length_hex (by decide) b.toNat_lt, h]
    show some ([UInt8.ofNat b.toNat], 3) = _
    rw [UInt8.ofNat_toNat]
  | @short code bytes hbytes hscalar h =>
    refine unquoteTail?_escape (e := 117 :: (hex code 4).toList) ?_ acc
    rw [List.cons_append, escape?_short, pointEscape?_hex (by decide) hscalar h, List.length_cons,
      length_hex (by decide) h, hbytes]
    rfl
  | @long code bytes hbytes hscalar =>
    have h : code < 16 ^ 8 := by
      have := isScalar_iff.mp hscalar
      omega
    refine unquoteTail?_escape (e := 85 :: (hex code 8).toList) ?_ acc
    rw [List.cons_append, escape?_long, pointEscape?_hex (by decide) hscalar h, List.length_cons,
      length_hex (by decide) h, hbytes]
    rfl

/-! ### Whole texts -/

/-- What stands between the quotes. -/
def quoted (t : Text) : List UInt8 := (pieces t.toList).flatMap fun p => (quotePiece p).toList

theorem toList_quote (t : Text) : t.quote.toList = 34 :: (t.quoted ++ [34]) := by
  rw [quote, toList_append, toList_append, toList_concat, List.flatMap_map]
  rfl

theorem unquoteTail?_pieces {ps : List Piece} (hps : ∀ p ∈ ps, Formed p) (acc : ByteArray) :
    unquoteTail? acc ((ps.flatMap fun p => (quotePiece p).toList) ++ [34]) =
      some ⟨acc ++ (ps.flatMap Piece.bytes).toByteArray⟩ := by
  induction ps generalizing acc with
  | nil =>
    show unquoteTail? acc [34] = some ⟨acc ++ ByteArray.empty⟩
    rw [unquoteTail?, if_pos (by decide), ByteArray.append_empty]
    rfl
  | cons p ps ih =>
    rw [List.flatMap_cons, List.append_assoc, (quotePiece_form (hps p List.mem_cons_self)).read,
      ih fun p hp => hps p (List.mem_cons_of_mem _ hp), List.flatMap_cons, List.toByteArray_append,
      ByteArray.append_assoc]

/-- A quoted text reads as the text, whatever its bytes are. -/
theorem unquote?_quote (t : Text) : t.quote.unquote? = some t := by
  unfold unquote?
  rw [toList_quote]
  show unquoteTail? .empty (t.quoted ++ [34]) = some t
  rw [quoted, unquoteTail?_pieces (formed_pieces _), pieces_flatten, ByteArray.empty_append]
  exact congrArg (fun bytes => some (Text.mk bytes))
    (ByteArray.ext (Array.toList_inj.mp List.toList_data_toByteArray))

/-- Between the quotes no quote, backslash or line end stands by itself. -/
theorem marked_of_quoted (t : Text) : ∃ items :
    List (List UInt8), t.quoted = items.flatten ∧ ∀ l ∈ items, Marked l := by
  refine ⟨(pieces t.toList).map fun p => (quotePiece p).toList,
    by rw [quoted, List.flatMap_def], fun l hl => ?_⟩
  obtain ⟨p, hp, rfl⟩ := List.mem_map.mp hl
  exact (quotePiece_form (formed_pieces _ p hp)).marked

end LoopTracer.Text
