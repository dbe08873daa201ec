import LoopTracer.Proofs.Number.Written
import LoopTracer.Proofs.Source.Emission

/-! Printed constants in lines of source.

The text that a value is written as stands in a line without being taken for a comment or a label
(`Kept`), whatever bytes a string has, and it is read as the value again (`literal_repr`). So a line
that says `const` and this text is an instruction with the value as its operand, with or without a
comment behind it (`instructs_constLine`). -/
namespace LoopTracer.Bytecode
open Text Reading Binary64 Shortest

/-! ### Values -/

/-- What a written value is read as: the value itself, but all that is no number is one. -/
def Value.reread : Value → Value
  | .float x => if x.isNaN then .float .nan else .float x
  | v => v

namespace Source

variable {l : List UInt8} {t : Text} {b : UInt8} {x : Binary64}

/-- An operand that begins with another byte than `n`, `t` and `f` is none of the names. -/
theorem literal_unnamed {r : List UInt8} (ht : t.toList = b :: r)
    (hb : b ≠ 102 ∧ b ≠ 110 ∧ b ≠ 116) :
    literal t = match b :: r with
      | 64 :: name =>
        if name.isEmpty then .error .missingFunctionName else .ok (.function (.ofList name))
      | 34 :: _ => match t.unquote? with
        | some s => .ok (.value (.str s))
        | none => .error (.badString t)
      | _ => match Reading.literal? t with
        | some n => .ok (.value (.ofInt n))
        | none => match binary? t with
          | some x => .ok (.value (.float x))
          | none => .error (.badConstant t) := by
  have hname (c : UInt8) (s : List UInt8) (name : Text) (hlist : name.toList = c :: s)
      (hc : b ≠ c) : ¬ (t == name) = true := by
    rw [beq_iff_eq]
    rintro rfl
    rw [hlist] at ht
    exact hc (List.cons.inj ht).1.symm
  unfold literal
  rw [if_neg (hname 110 _ _ rfl hb.2.1), if_neg (hname 116 _ _ rfl hb.2.2),
    if_neg (hname 102 _ _ rfl hb.1)]
  exact ht ▸ rfl

/-- An operand that is neither a name nor in quotes is a number. -/
theorem literal_number {r : List UInt8} (ht : t.toList = b :: r) (hb : b ≠ 34 ∧ b ≠ 64)
    (hname : b ≠ 102 ∧ b ≠ 110 ∧ b ≠ 116) :
    literal t = match Reading.literal? t with
      | some n => .ok (.value (.ofInt n))
      | none => match binary? t with
        | some x => .ok (.value (.float x))
        | none => .error (.badConstant t) := by
  rw [literal_unnamed ht hname]
  split
  · next heq => exact absurd (List.cons.inj heq).1 hb.2
  · next heq => exact absurd (List.cons.inj heq).1 hb.1
  · rfl

theorem first_withMinus (h : ∃ d r, l = d :: r ∧ isDigit d = true) (negative : Bool) :
    ∃ b r, withMinus negative l = b :: r ∧ (isDigit b = true ∨ b = 45) := by
  obtain ⟨d, r, rfl, hd⟩ := h
  cases negative with
  | true => exact ⟨45, _, rfl, .inr rfl⟩
  | false => exact ⟨d, r, rfl, .inl hd⟩

theorem literal_withMinus {negative : Bool} (ht : t.toList = withMinus negative l)
    (h : ∃ d r, l = d :: r ∧ isDigit d = true) :
    literal t = match Reading.literal? t with
      | some n => .ok (.value (.ofInt n))
      | none => match binary? t with
        | some x => .ok (.value (.float x))
        | none => .error (.badConstant t) := by
  obtain ⟨b, r, hlist, hb⟩ := first_withMinus h negative
  have hne (c : UInt8) (hc : isDigit c = false ∧ c ≠ 45) : b ≠ c := by
    rintro rfl
    rcases hb with hb | hb
    · rw [hc.1] at hb
      cases hb
    · exact hc.2 hb
  exact literal_number (ht.trans hlist) ⟨hne _ (by decide), hne _ (by decide)⟩
    ⟨hne _ (by decide), hne _ (by decide), hne _ (by decide)⟩

/-- A float is written with a point or an exponent, so that no integer is read. -/
theorem repr_float (hx : Finite x) :
    ∃ l v e, (Value.float x).repr.toList = withMinus x.negative l ∧ Numeral l v e ∧
    Reads x (v * 10 ^ e) ∧ (46 ∈ l ∨ 101 ∈ l) := by
  obtain ⟨l, v, e, ht, hl, hv, hmarked⟩ := written_render hx
  show ∃ l v e, (if (integer? x.render).isSome
    then x.render ++ Text.ofString ".0" else x.render).toList = _ ∧ _
  rcases hmarked with hmarked | ⟨hdigits, hlength⟩
  · rw [integer?_marked hl.ends.1 hmarked ht]
    exact ⟨l, v, e, ht, hl, hv, hmarked⟩
  · have hne : l ≠ [] := by
      obtain ⟨⟨d, r, rfl, -⟩, -⟩ := hl.ends
      exact List.cons_ne_nil d r
    have hsmall : number l < 2 ^ 63 := calc
      number l < 10 ^ l.length := number_lt hdigits
      _ ≤ 10 ^ 6 := Nat.pow_le_pow_right (by decide) hlength
      _ < 2 ^ 63 := by decide
    rw [integer?_digits hdigits hne hsmall ht]
    refine ⟨l ++ [46, 48], number (l ++ [48]), -1, ?_, ?_, ?_, .inl (by simp)⟩
    · show (x.render ++ Text.ofString ".0").toList = _
      rw [toList_append, ht]
      cases x.negative <;> rfl
    · exact .fixed (.point hdigits hne (digits_zeros 1) (List.cons_ne_nil _ _))
    · obtain ⟨rfl, rfl⟩ := hl.whole hdigits
      have hvalue : ((number (l ++ [48]) : Nat) * 10 ^ (-1 : Int) : ℚ) =
          number l * 10 ^ (0 : Int) := by
        rw [show number (l ++ [48]) = number l * 10 from number_append l [48],
          zpow_neg_one, zpow_zero]
        push_cast
        ring
      rwa [hvalue]

/-- What a float is written as. -/
theorem repr_float_cases (x : Binary64) :
    (x.isNaN = true ∧ (Value.float x).repr = Text.ofString "NaN") ∨
    (x.isNaN = false ∧ (Value.float x).repr = x.render ∧
      (x.render = Text.ofString "+Inf" ∨ x.render = Text.ofString "-Inf")) ∨
    x.isNaN = false ∧ ∃ l v e, (Value.float x).repr.toList = withMinus x.negative l ∧
    Numeral l v e ∧ Reads x (v * 10 ^ e) ∧
      Finite x ∧ (46 ∈ l ∨ 101 ∈ l) := by
  cases hnan : x.isNaN with
  | true =>
    have hrender : x.render = Text.ofString "NaN" := if_pos hnan
    refine .inl ⟨rfl, ?_⟩
    show (if (integer? x.render).isSome then x.render ++ Text.ofString ".0" else x.render) = _
    rw [hrender]
    rfl
  | false =>
    cases hinf : x.isInf with
    | true =>
      have hrender : x.render = if x.negative then Text.ofString "-Inf"
          else Text.ofString "+Inf" := by
        unfold render
        rw [hnan, hinf]
        rfl
      refine .inr (.inl ⟨rfl, ?_⟩)
      show (if (integer? x.render).isSome then x.render ++ Text.ofString ".0" else x.render) = _ ∧ _
      rw [hrender]
      cases x.negative with
      | true => exact ⟨rfl, .inr rfl⟩
      | false => exact ⟨rfl, .inl rfl⟩
    | false =>
      have hx : Finite x := ⟨hnan, hinf⟩
      obtain ⟨l, v, e, ht, hl, hv, hmarked⟩ := repr_float hx
      exact .inr (.inr ⟨rfl, l, v, e, ht, hl, hv, hx, hmarked⟩)

theorem literal_float (x : Binary64) :
    literal (Value.float x).repr = .ok (.value (Value.float x).reread) := by
  unfold Value.reread
  dsimp only
  rcases repr_float_cases x
    with ⟨hnan, ht⟩ | ⟨hnan, ht, hinf⟩ | ⟨hnan, l, v, e, ht, hl, hv, hx, hmarked⟩
  · rw [if_pos hnan, ht, literal_number (b := 78) (r := [97, 78]) rfl (by decide) (by decide)]
    rfl
  · have hread := binary?_render hnan
    rw [hnan, if_neg Bool.false_ne_true, ht]
    rcases hinf with hinf | hinf <;> rw [hinf] at hread ⊢
    · rw [literal_number (b := 43) (r := [73, 110, 102]) rfl (by decide) (by decide), hread]
      rfl
    · rw [literal_number (b := 45) (r := [73, 110, 102]) rfl (by decide) (by decide), hread]
      rfl
  · rw [hnan, if_neg Bool.false_ne_true, literal_withMinus ht hl.ends.1,
      literal?_marked hl.ends.1 hl.figures hmarked ht,
      binary?_numeral hx ht hl hv]

/-- The digits of a number begin with a zero only if there is no other. -/
theorem figures_zero {n : Nat} (h : figures n = 48 :: l) : l = [] := by
  rcases Nat.eq_zero_or_pos n with rfl | hn
  · exact (List.cons.inj h).2.symm
  · have hlength : (Nat.toDigits 10 n).length = l.length + 1 := by
      rw [← length_figures, h, List.length_cons]
    have hdigits : Digits l := fun b hb =>
      digits_figures n b (by rw [h]; exact List.mem_cons_of_mem _ hb)
    have hnumber : n = number l := by
      rw [← number_figures n, h, number_cons]
      show (48 - 48) * _ + _ = _
      rw [Nat.sub_self, Nat.zero_mul, Nat.zero_add]
    have hge := pow_le_of_length hn hlength
    have hlt := number_lt hdigits
    omega

theorem toList_int (n : Int32) :
    (Value.int n).repr.toList = withMinus (decide (n.toInt < 0)) (figures n.toInt.natAbs) := by
  show (Text.ofInt n.toInt).toList = _
  unfold Text.ofInt withMinus
  by_cases hneg : n.toInt < 0
  · rw [if_pos hneg, if_pos (decide_eq_true hneg), toList_append, toList_figures]
    rfl
  · rw [if_neg hneg, if_neg (by simpa using hneg), toList_figures]

theorem literal_int (n : Int32) : literal (Value.int n).repr = .ok (.value (.int n)) := by
  have hlow : -2147483648 ≤ n.toInt := n.minValue_le_toInt
  have hhigh := n.toInt_lt
  have hsmall : number (figures n.toInt.natAbs) < 2 ^ 63 := by
    rw [number_figures]
    omega
  have hvalue : (if decide (n.toInt < 0) = true
    then -((number (figures n.toInt.natAbs) : Nat) : Int)
      else number (figures n.toInt.natAbs)) = n.toInt := by
    rw [number_figures]
    split
    · next h =>
      have := of_decide_eq_true h
      omega
    · next h =>
      have : ¬ n.toInt < 0 := fun hneg => h (decide_eq_true hneg)
      omega
  rw [literal_withMinus (toList_int n) (digits_ends (digits_figures _) (figures_ne_nil _)).1,
    literal?_digits (digits_figures _) (figures_ne_nil _) hsmall (fun _ => figures_zero)
      (toList_int n), hvalue]
  dsimp only
  rw [Value.ofInt, if_pos (by simpa using ⟨hlow, by omega⟩), Int32.ofInt_toInt]

theorem literal_str (s : Text) : literal (Value.str s).repr = .ok (.value (.str s)) := by
  have ht : (Value.str s).repr.toList = 34 :: (s.quoted ++ [34]) := toList_quote s
  rw [literal_unnamed ht (by decide), show (Value.str s).repr.unquote? =
    some s from unquote?_quote s]
  rfl

/-- What a value is written as is read as the value. -/
theorem literal_repr {v : Value} (hv : Image.Plain v) : literal v.repr = .ok (.value v.reread) := by
  cases v with
  | null => rfl
  | bool b => cases b <;> rfl
  | int n => exact literal_int n
  | float x => exact literal_float x
  | str s => exact literal_str s
  | func | reserved => exact hv.elim

/-! ### Lines -/

/-- Bytes that a line keeps whatever stands behind them: they leave no quotes open and hold no
semicolon outside quotes. No blank is at their ends, and there is no line break in them. -/
structure Kept (l : List UInt8) : Prop where
  inked : Inked l
  strip : ∀ rest, stripComment.go false false (l ++ rest) = l ++ stripComment.go false false rest
  unbroken : 10 ∉ l

theorem strip_cons (quoted escaped : Bool) (b : UInt8) (rest : List UInt8) :
    stripComment.go quoted escaped (b :: rest) =
    if escaped then b :: stripComment.go quoted false rest
    else if b == 92 && quoted then b :: stripComment.go quoted true rest
    else if b == 34 then b :: stripComment.go (!quoted) false rest
    else if b == 59 && !quoted then []
    else b :: stripComment.go quoted false rest := rfl

theorem strip_plain (h : ∀ b ∈ l, b ≠ 34 ∧ b ≠ 59) (rest : List UInt8) :
    stripComment.go false false (l ++ rest) = l ++ stripComment.go false false rest := by
  induction l with
  | nil => rfl
  | cons b l ih =>
    have hb := h b List.mem_cons_self
    rw [List.cons_append, strip_cons, if_neg Bool.false_ne_true, if_neg (by simp),
      if_neg (by simpa using hb.1),
      if_neg (by simpa using hb.2), ih fun c hc => h c (List.mem_cons_of_mem _ hc)]
    rfl

/-- Inside quotes nothing ends the operand but a quote without a backslash before it. -/
theorem strip_safe (h : ∀ b ∈ l, Safe b) (rest : List UInt8) :
    stripComment.go true false (l ++ rest) = l ++ stripComment.go true false rest := by
  induction l with
  | nil => rfl
  | cons b l ih =>
    have hb := h b List.mem_cons_self
    rw [List.cons_append, strip_cons, if_neg Bool.false_ne_true, if_neg (by simpa using hb.2.1),
      if_neg (by simpa using hb.1),
      if_neg (by simp), ih fun c hc => h c (List.mem_cons_of_mem _ hc)]
    rfl

theorem strip_marked (h : Marked l) (rest : List UInt8) :
    stripComment.go true false (l ++ rest) = l ++ stripComment.go true false rest := by
  cases h with
  | plain h => exact strip_safe h rest
  | escaped _ h =>
    rw [List.cons_append, List.cons_append, strip_cons, if_neg Bool.false_ne_true,
      if_pos (by decide), strip_cons,
      if_pos rfl, strip_safe h]
    rfl

theorem strip_quoted (s : Text) (rest : List UInt8) :
    stripComment.go true false (s.quoted ++ rest) = s.quoted ++
      stripComment.go true false rest := by
  obtain ⟨items, hitems, hmarked⟩ := marked_of_quoted s
  rw [hitems]
  clear hitems
  induction items with
  | nil => rfl
  | cons l items ih =>
    rw [List.flatten_cons, List.append_assoc, strip_marked (hmarked l List.mem_cons_self),
      ih fun l' hl' => hmarked l' (List.mem_cons_of_mem _ hl'), List.append_assoc]

theorem marked_unbroken (h : Marked l) : 10 ∉ l := by
  cases h with
  | plain h => exact fun hmem => (h 10 hmem).2.2 rfl
  | escaped hb h =>
    intro hmem
    rcases List.mem_cons.mp hmem with heq | hmem
    · cases heq
    · rcases List.mem_cons.mp hmem with rfl | hmem
      · exact hb rfl
      · exact (h 10 hmem).2.2 rfl

theorem kept_quote (s : Text) : Kept s.quote.toList := by
  rw [toList_quote]
  refine ⟨⟨⟨34, _, rfl, by decide⟩, ⟨34 :: s.quoted, 34, rfl, by decide⟩⟩,
    fun rest => ?_, fun hmem => ?_⟩
  · rw [List.cons_append, strip_cons, if_neg Bool.false_ne_true, if_neg (by decide),
      if_pos (by decide), List.append_assoc]
    show 34 :: stripComment.go true false _ = _
    rw [strip_quoted, List.singleton_append, strip_cons, if_neg Bool.false_ne_true,
      if_neg (by decide), if_pos (by decide)]
    simp
  · obtain ⟨items, hitems, hmarked⟩ := marked_of_quoted s
    rcases List.mem_cons.mp hmem with heq | hmem
    · cases heq
    · rcases List.mem_append.mp hmem with hmem | hmem
      · rw [hitems] at hmem
        obtain ⟨l, hl, hmem⟩ := List.mem_flatten.mp hmem
        exact marked_unbroken (hmarked l hl) hmem
      · simp at hmem

/-- Bytes without any meaning to a line. -/
def Bare (b : UInt8) : Prop := Ink b ∧ b ≠ 34 ∧ b ≠ 59

instance (b : UInt8) : Decidable (Bare b) := inferInstanceAs (Decidable (_ ∧ _))

theorem kept_bare (h : ∀ b ∈ l, Bare b) (hne : l ≠ []) : Kept l := by
  refine ⟨⟨?_, ?_⟩, strip_plain fun b hb => (h b hb).2, fun hmem => absurd (h 10 hmem) (by decide)⟩
  · obtain ⟨b, r, rfl⟩ := List.exists_cons_of_ne_nil hne
    exact ⟨b, r, rfl, (h b List.mem_cons_self).1⟩
  · exact ⟨l.dropLast, l.getLast hne, (List.dropLast_concat_getLast hne).symm,
      (h _ (List.getLast_mem hne)).1⟩

theorem bare_figure (h : Figure b) : Bare b := by
  have hall : ∀ n < 256, isDigit (.ofNat n) = true ∨ UInt8.ofNat n = 46 ∨ UInt8.ofNat n = 101 ∨
    UInt8.ofNat n = 43 ∨
      UInt8.ofNat n = 45 → Bare (.ofNat n) := by decide +kernel
  have := hall b.toNat b.toNat_lt
  rw [UInt8.ofNat_toNat] at this
  exact this h

theorem kept_withMinus {negative : Bool} (h : ∀ b ∈ l, Figure b) (hne : l ≠ []) :
    Kept (withMinus negative l) := by
  refine kept_bare (fun b hb => bare_figure ?_) ?_
  · rcases mem_withMinus hb with rfl | hb
    · exact .inr (.inr (.inr (.inr rfl)))
    · exact h b hb
  · cases negative with
    | true => exact List.cons_ne_nil _ _
    | false => exact hne

/-- What a value is written as is kept. -/
theorem kept_repr {v : Value} (hv : Image.Plain v) : Kept v.repr.toList := by
  have hname (name : Text) (h : ∀ b ∈ name.toList, Bare b)
    (hne : name.toList ≠ []) : Kept name.toList := kept_bare h hne
  cases v with
  | null => exact hname (Text.ofString "null") (by decide +kernel) (by decide)
  | bool b =>
    cases b with
    | true => exact hname (Text.ofString "true") (by decide +kernel) (by decide)
    | false => exact hname (Text.ofString "false") (by decide +kernel) (by decide)
  | int n =>
    rw [toList_int]
    exact kept_withMinus (fun b hb => .inl (digits_figures _ b hb)) (figures_ne_nil _)
  | float x =>
    rcases repr_float_cases x with ⟨-, ht⟩ | ⟨-, ht, hinf⟩ | ⟨-, l, v, e, ht, hl, -⟩
    · rw [ht]
      exact hname (Text.ofString "NaN") (by decide +kernel) (by decide)
    · rw [ht]
      rcases hinf with hinf | hinf <;> rw [hinf]
      · exact hname (Text.ofString "+Inf") (by decide +kernel) (by decide)
      · exact hname (Text.ofString "-Inf") (by decide +kernel) (by decide)
    · rw [ht]
      refine kept_withMinus hl.figures ?_
      obtain ⟨⟨d, r, rfl, -⟩, -⟩ := hl.ends
      exact List.cons_ne_nil d r
  | str s => exact kept_quote s
  | func | reserved => exact hv.elim

/-- The line that says `const` and a value, with or without a comment behind it. -/
def constLine (v : Value) (comment : Option Text) : Text :=
  "const " ++ v.repr ++ (match comment with
    | none => ∅
    | some c => " ; " ++ c)

variable {v : Value} {comment : Option Text}

theorem toList_constLine (v : Value) (comment : Option Text) : (constLine v comment).toList =
    [99, 111, 110, 115, 116, 32] ++ v.repr.toList ++
      (comment.elim [] fun c => [32, 59, 32] ++ c.toList) := by
  unfold constLine
  cases comment with
  | none =>
    rw [toList_append, toList_append]
    rfl
  | some c =>
    dsimp only
    rw [toList_append, toList_append, toList_append]
    rfl

theorem content_constLine (hv : Image.Plain v) (comment : Option Text) :
    (content (constLine v comment)).toList = [99, 111, 110, 115, 116] ++ [32] ++ v.repr.toList := by
  have hkept := kept_repr hv
  have hinked : Inked ([99, 111, 110, 115, 116] ++ [32] ++ v.repr.toList) :=
    Inked.append ⟨⟨99, _, rfl, by decide⟩,
      ⟨[99, 111, 110, 115], 116, rfl, by decide⟩⟩ hkept.inked [32]
  obtain ⟨n, hn⟩ : ∃ n, stripComment.go false false
      (comment.elim [] fun c => [32, 59, 32] ++ c.toList) = List.replicate n 32 := by
    cases comment with
    | none => exact ⟨0, rfl⟩
    | some c => exact ⟨1, rfl⟩
  have hstrip : stripComment (constLine v comment).toList =
      [99, 111, 110, 115, 116] ++ [32] ++ v.repr.toList ++ List.replicate n 32 := by
    unfold stripComment
    rw [toList_constLine, List.append_assoc, strip_plain (by decide +kernel), hkept.strip, hn,
      List.append_assoc]
    rfl
  unfold content
  rw [hstrip, trim_inked hinked]
  rfl

/-- A comment without a line break leaves the line one line. -/
theorem unbroken_constLine (hv : Image.Plain v) (hcomment : ∀ c ∈ comment, 10 ∉ c.toList) :
    10 ∉ (constLine v comment).toList := by
  rw [toList_constLine]
  intro hmem
  rcases List.mem_append.mp hmem with hmem | hmem
  · rcases List.mem_append.mp hmem with hmem | hmem
    · exact absurd hmem (by decide)
    · exact (kept_repr hv).unbroken hmem
  · cases comment with
    | none => cases hmem
    | some c =>
      rcases List.mem_append.mp hmem with hmem | hmem
      · exact absurd hmem (by decide)
      · exact hcomment c rfl hmem

/-- The line is an instruction without a label, and its operand is the value as it is written. -/
theorem instructs_constLine (hv : Image.Plain v) (comment : Option Text) :
    Instructs (constLine v comment) .const v.repr ∧ labelOf? (constLine v comment) = none ∧
      isDirective (constLine v comment) = false := by
  have hcontent := content_constLine hv comment
  have hkept := kept_repr hv
  have hdirective : isDirective (constLine v comment) = false := by
    unfold isDirective startsWith
    rw [hcontent]
    rfl
  have hlabel : splitLabel? (content (constLine v comment)) = none := by
    -- there is a blank before any colon
    have hlabel : ((content (constLine v comment)).toList.takeWhile (· != 58)).any
        (fun b => isSpaceOrTab b || b == 34) = true := by
      rw [hcontent, List.takeWhile_append_of_pos (by decide +kernel)]
      rfl
    unfold splitLabel?
    dsimp only
    rw [hlabel, Bool.or_true]
    split <;> rfl
  have hinstruction : instructionOf (constLine v comment) = content (constLine v comment) := by
    unfold instructionOf
    rw [hlabel]
  have hwords : splitWord (instructionOf (constLine v comment)) =
      (Text.ofString "const", v.repr) := by
    have hoperand : (Text.ofList v.repr.toList).trim = v.repr := by
      have := trim_inked hkept.inked 0
      rwa [List.replicate_zero, List.append_nil, ofList_toList] at this
    rw [hinstruction]
    unfold splitWord
    dsimp only
    rw [hcontent, List.append_assoc, List.takeWhile_append_of_pos (by decide +kernel),
      List.dropWhile_append_of_pos (by decide +kernel)]
    show (_, (Text.ofList v.repr.toList).trim) = _
    rw [hoperand]
    rfl
  refine ⟨⟨?_, ?_, ?_⟩, ?_, hdirective⟩
  · unfold isInstruction
    rw [hdirective, hinstruction, ← ofList_toList (content _), hcontent]
    rfl
  · have hconst : Opcode.ofMnemonic? (Text.ofString "const").lower = some .const := by
      decide +kernel
    rw [hwords, hconst]
  · rw [hwords]
  · unfold labelOf?
    rw [hdirective, hlabel]
    rfl

end Source

end LoopTracer.Bytecode
