import LoopTracer.Proofs.Source.VariantCode
import LoopTracer.Proofs.Source.Printed
import LoopTracer.Proofs.Text.Split

/-! Printed constants read back.

A line of an accepted text that loads a value can be replaced by a line that says `const` and any
other value as it is written, with any comment behind it. The text assembles again, while no
function has too many constants, and the instruction of the line loads the value, but for a null
that keeps the place of a function (`constant_reads_back`). -/
namespace LoopTracer.Bytecode

/-- The same constant: the same type and bits, where all that is no number is one. -/
def Value.Agrees (v w : Value) : Prop :=
  w.identical v = true ∨ ∃ x y, v = .float x ∧ w = .float y ∧ x.isNaN = true ∧ y.isNaN = true

namespace Source

variable {lines : List Text} {n k : Nat} {u v w : Value} {comment : Option Text} {p : Program}

/-- What is identical to the value that is read is the constant that was written. -/
theorem agrees_of_reread (h : w.identical v.reread = true) : v.Agrees w := by
  cases v with
  | float x =>
    cases hnan : x.isNaN with
    | false =>
      rw [Value.reread, hnan] at h
      exact .inl h
    | true =>
      rw [Value.reread, hnan] at h
      cases w with
      | float y =>
        have hbits : y.bits = Binary64.nan.bits := beq_iff_eq.mp h
        obtain rfl : y = .nan := congrArg Binary64.mk hbits
        exact .inr ⟨x, .nan, rfl, rfl, hnan, by decide⟩
      | _ => cases h
  | _ => exact .inl h

theorem reread_null : v.reread = .null ↔ v = .null := by
  cases v with
  | float x =>
    rw [Value.reread]
    split <;> simp
  | _ => simp [Value.reread]

theorem loads_constLine (hv : Image.Plain v) (comment : Option Text) :
    Loads (constLine v comment) v.reread := by
  obtain ⟨hinstructs, hlabel, -⟩ := instructs_constLine hv comment
  exact ⟨hlabel, _, hinstructs, literal_repr hv⟩

theorem variants_set {raw raw' : Text} (hraw : lines[n]? = some raw) (h : Variant raw raw') :
    List.Forall₂ Variant lines (lines.set n raw') := by
  refine List.forall₂_iff_get.mpr ⟨List.length_set.symm, fun m hm hm' => ?_⟩
  rw [List.get_eq_getElem, List.get_eq_getElem, List.getElem_set]
  split
  · next hmn =>
    subst hmn
    rwa [(List.getElem?_eq_some_iff.mp hraw).2]
  · exact .inl rfl

/-- The `const` on a line of a text gets the value `w` from the pool of its function. -/
def Fetches (p : Program) (lines : List Text) (n : Nat) (w : Value) : Prop :=
  ∃ k f c index, Belongs lines n k ∧ p.functions[k]? = some f ∧ f.chunk = some c ∧
    Stands c (n + 1) index ∧
    c.constants[index.toNat]? = some w

/-- What a line that loads a value gets once constants are linked. -/
theorem fetches_value {text raw : Text} (h : parse text = .ok p)
    (hraw : (text.split 10)[n]? = some raw) (hv : Loads raw v) :
    ∃ w, Fetches p.verify.1 (text.split 10) n w ∧
      (w.identical v = true ↔ ¬ (v = .null ∧ ∃ name, Usurped (text.split 10) n name)) ∧
      ∀ name, v = .null → Usurped (text.split 10) n name → Refers p.verify.1.functions name w := by
  obtain ⟨s, htold, hdraft, hlink⟩ := parse_eq h
  obtain ⟨t, hinstructs, hl⟩ := hv.instructs
  obtain ⟨l, k, f, c, index, w, hl', hk, hf, hc, hstands, hw, hdenotes, husurped⟩ :=
    htold.denoted hdraft hlink
    (show (text.split 10)[n]?.bind constOperand? =
      some t by rw [hraw, Option.bind_some, hinstructs.constOperand?])
  rw [hl] at hl'
  cases hl'
  obtain ⟨m, hm⟩ := f.verify_fst
  have hverified : p.verify.1.functions[k]? = some { f with maxStack := m } := by
    rw [Program.getElem?_verify, hf, Option.map_some, hm]
  refine ⟨w, ⟨k, _, c, index, hk, hverified, hc, hstands, hw⟩, ?_, fun name hnull hu => ?_⟩
  · rw [← Literal.value.injEq v]
    exact hdenotes
  · exact (husurped name (congrArg Literal.value hnull) hu).congr (verify_keeps (fun _ _ => rfl) p)

/-- A line that loads a value can say another value as it is written, and anything in a comment
behind it. The text assembles, and the line gets the value that is written, unless this is null and
has the place of a function: then it gets the function. -/
theorem constant_reads_back {file text raw : Text} (h : assemble file text = .ok p)
    (hraw : (text.split 10)[n]? = some raw)
    (hold : Loads raw u) (hv : Image.Plain v) (hcomment : ∀ c ∈ comment, 10 ∉ c.toList)
    (hroom : ∀ k,
      (pool ((text.split 10).set n (constLine v comment)) (text.split 10).length k).size ≤ 65536) :
    ∃ q w, assemble file (Text.join "\n" ((text.split 10).set n (constLine v comment))) = .ok q ∧
      Fetches q ((text.split 10).set n (constLine v comment)) n w ∧
      (v.Agrees w ↔
        ¬ (v = .null ∧ ∃ name, Usurped ((text.split 10).set n (constLine v comment)) n name)) ∧
      ∀ name, v = .null → Usurped ((text.split 10).set n (constLine v comment)) n name →
      Refers q.functions name w := by
  generalize hlines : (text.split 10).set n (constLine v comment) = lines at hroom ⊢
  have hnew : Loads (constLine v comment) v.reread := loads_constLine hv comment
  have hunbroken : ∀ t ∈ lines, 10 ∉ t.toList := by
    intro t ht
    rw [← hlines] at ht
    rcases List.mem_or_eq_of_mem_set ht with ht | rfl
    · exact Text.not_mem_split ht
    · exact unbroken_constLine hv hcomment
  have hn := (List.getElem?_eq_some_iff.mp hraw).1
  have hget : lines[n]? = some (constLine v comment) := by rw [← hlines, List.getElem?_set_self hn]
  have hsplit : (Text.join "\n" lines).split 10 = lines := by
    refine Text.split_join rfl ?_ hunbroken
    rintro rfl
    cases hget
  have hvariants : List.Forall₂ Variant (text.split 10) lines :=
    hlines ▸ variants_set hraw (.inr ⟨u, v.reread, hold, hnew⟩)
  rw [hvariants.length_eq] at hroom
  rw [← hsplit] at hvariants hget hroom
  obtain ⟨q, hparse, hassemble⟩ := assemble_variant h hvariants hroom
  obtain ⟨w, hfetches, hidentical, husurped⟩ := fetches_value hparse hget hnew
  rw [hsplit] at hfetches hidentical husurped
  simp only [reread_null] at hidentical husurped
  refine ⟨q.verify.1, w, hassemble, hfetches,
    ⟨fun hagrees hu => ?_, fun hnot => agrees_of_reread (hidentical.mpr hnot)⟩, husurped⟩
  obtain ⟨rfl, hname⟩ := hu
  rcases hagrees with hsame | ⟨x, y, hfloat, -⟩
  · exact hidentical.mp hsame ⟨rfl, hname⟩
  · cases hfloat

/-- The null on the fourth line has the place of the function constant before it. -/
theorem usurped_sharedNull : Usurped (sharedNull.split 10) 3 "f" := by
  have hfirst : Belongs (sharedNull.split 10) 1 0 := by decide +kernel
  have hnull : Belongs (sharedNull.split 10) 3 0 := by decide +kernel
  have hfunction : Says (sharedNull.split 10) 1 (.function "f") := ⟨"@f", by decide +kernel, rfl⟩
  refine ⟨0, 1, hnull, ⟨hfirst, .inr ⟨_, hfunction⟩, fun n hn hb => ?_⟩, by decide, hfunction⟩
  obtain rfl : n = 0 := by omega
  cases hb

/-- Behind a function constant, a string with what ends literals elsewhere is read back, and
null is not. -/
theorem sharedNull_readBack :
    (∃ q w, assemble ∅ (Text.join "\n"
      ((sharedNull.split 10).set 3 (constLine (.str ";:\"\\\n\t") (some "say: \"null")))) = .ok q ∧
      Fetches q ((sharedNull.split 10).set 3 (constLine (.str ";:\"\\\n\t") (some "say: \"null"))) 3
        w ∧
      (Value.str ";:\"\\\n\t").Agrees w) ∧
    ∃ q w, assemble ∅ (Text.join "\n" ((sharedNull.split 10).set 3 (constLine .null none))) =
      .ok q ∧
      Fetches q ((sharedNull.split 10).set 3 (constLine .null none)) 3 w ∧ ¬ Value.null.Agrees w ∧
      Refers q.functions "f" w := by
  have haccepted : (assemble ∅ sharedNull).toOption.isSome = true := by decide +kernel
  cases hp : assemble ∅ sharedNull with
  | error e =>
    rw [hp] at haccepted
    cases haccepted
  | ok p =>
    have hlength : (sharedNull.split 10).length = 8 := by decide +kernel
    have hraw : (sharedNull.split 10)[3]? = some (constLine .null none) := by decide +kernel
    have hroom (lines : List Text) (k : Nat) : (pool lines (sharedNull.split 10).length k).size ≤
        65536 := by
      rw [hlength]
      exact Nat.le_trans (size_pool_le lines 8 k) (by decide)
    have hold : Loads (constLine .null none) (Value.reread .null) :=
      loads_constLine (v := .null) trivial none
    constructor
    · obtain ⟨q, w, hq, hw, hagrees, -⟩ := constant_reads_back hp hraw hold
        (show Image.Plain (.str ";:\"\\\n\t") from trivial)
        (show ∀ c ∈ some (Text.ofString "say: \"null"), 10 ∉ c.toList by decide) fun k => hroom _ k
      exact ⟨q, w, hq, hw, hagrees.mpr fun h => nomatch h.1⟩
    · obtain ⟨q, w, hq, hw, hagrees, hrefers⟩ :=
        constant_reads_back hp hraw hold (show Image.Plain .null from trivial)
        (show ∀ c ∈ (none : Option Text), 10 ∉ c.toList from nofun) fun k => hroom _ k
      have husurped : Usurped ((sharedNull.split 10).set 3 (constLine .null none)) 3 "f" := by
        rw [← (List.getElem?_eq_some_iff.mp hraw).2, List.set_getElem_self]
        exact usurped_sharedNull
      exact ⟨q, w, hq, hw, fun h => hagrees.mp h ⟨rfl, _, husurped⟩, hrefers _ rfl husurped⟩

end Source

end LoopTracer.Bytecode
