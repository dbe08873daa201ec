import LoopTracer.Bytecode.Load
import LoopTracer.Proofs.Image.Loaded
import LoopTracer.Proofs.Source.Lines

/-! What the constants of a text mean.

Equal constants of a function share a place in its pool, and a function constant has null in its place
until all functions are known. So a `const null` behind the first `const @f` of a function shares that
place, and reads as the function in the end. `constants_denote` says that this is all that can happen:
every other `const` means what it says. -/
namespace LoopTracer.Bytecode.Source

variable {lines : List Text} {m n k : Nat}

/-- Line number `n` of a text, counted from zero, belongs to function number `k`. -/
def Belongs (lines : List Text) (n k : Nat) : Prop := (lines.take n).countP isDirective = k + 1

/-- What the `const` on a line denotes. -/
def Says (lines : List Text) (n : Nat) (l : Literal) : Prop :=
  ∃ t, lines[n]?.bind constOperand? = some t ∧ literal t = .ok l

/-- The `const` on a line has null in its place of the pool: it says null, or a function. -/
def PutsNull (lines : List Text) (n : Nat) : Prop :=
  Says lines n (.value .null) ∨ ∃ name, Says lines n (.function name)

/-- The first line of a function whose `const` has null in its place. -/
structure Opens (lines : List Text) (k n : Nat) : Prop where
  belongs : Belongs lines n k
  puts : PutsNull lines n
  first : ∀ n' < n, Belongs lines n' k → ¬ PutsNull lines n'

/-- The place of the `const null` on a line is that of the function `name`: the first line of the same
function whose `const` has null in its place says that function. -/
def Usurped (lines : List Text) (n : Nat) (name : Text) : Prop :=
  ∃ k m, Belongs lines n k ∧ Opens lines k m ∧ m < n ∧ Says lines m (.function name)

theorem Says.unique {l l' : Literal} (h : Says lines n l) (h' : Says lines n l') : l = l' := by
  obtain ⟨t, ht, hl⟩ := h
  obtain ⟨t', ht', hl'⟩ := h'
  rw [ht] at ht'
  cases ht'
  rw [hl] at hl'
  exact Except.ok.inj hl'

theorem Opens.unique {n' : Nat} (h : Opens lines k n) (h' : Opens lines k n') : n = n' := by
  rcases Nat.lt_trichotomy n n' with hlt | heq | hlt
  · exact absurd h.puts (h'.first n hlt h.belongs)
  · exact heq
  · exact absurd h'.puts (h.first n' hlt h'.belongs)

/-! ### Pools -/

/-- The first place of a pool that holds null. -/
def firstNull (constants : Array Value) : Option Nat := constants.findIdx? (·.identical .null)

theorem identical_null {v : Value} : v.identical .null = true ↔ v = .null := by
  cases v with
  | null => exact ⟨fun _ => rfl, fun _ => rfl⟩
  | _ => exact ⟨nofun, nofun⟩

theorem null_identical {v : Value} : Value.null.identical v = true ↔ v = .null := by
  cases v with
  | null => exact ⟨fun _ => rfl, fun _ => rfl⟩
  | _ => exact ⟨nofun, nofun⟩

theorem identical_self {v : Value} (h : Image.Plain v) : v.identical v = true := by
  cases v with
  | func | reserved => exact h.elim
  | _ => simp [Value.identical, Value.equal]

theorem firstNull_lt {constants : Array Value} {i : Nat}
    (h : firstNull constants = some i) : i < constants.size :=
  (Array.findIdx?_eq_some_iff_getElem.mp h).1

theorem firstNull_push (constants : Array Value) (v : Value) : firstNull (constants.push v) =
    (firstNull constants).or (if v.identical .null then some constants.size else none) := by
  unfold firstNull
  rw [Array.findIdx?_push]

/-- A pool has grown: what was in it stays. -/
structure Longer (constants constants' : Array Value) : Prop where
  get : ∀ (i : Nat) v, constants[i]? = some v → constants'[i]? = some v
  null : ∀ i, firstNull constants = some i → firstNull constants' = some i

theorem Longer.refl (constants : Array Value) :
    Longer constants constants := ⟨fun _ _ => id, fun _ => id⟩

theorem longer_push (constants : Array Value) (v : Value) :
    Longer constants (constants.push v) := by
  constructor
  · intro i w hw
    have := (Array.getElem?_eq_some_iff.mp hw).1
    rw [Array.getElem?_push, if_neg (by omega), hw]
  · intro i hi
    rw [firstNull_push, hi]
    rfl

theorem toNat_place {i : Nat} (h : i < 65536) : i.toUInt16.toNat = i := UInt16.toNat_ofNat_of_lt' h

/-- What a `const` of function `k` has in its place while the text is read. -/
def Entry (constants : Array Value) (pending : Array Pending) (k : Nat) (l : Literal)
    (index : UInt16) : Prop :=
  match l with
  | .value v => (∃ w, constants[index.toNat]? = some w ∧ w.identical v = true) ∧
      (v = .null → firstNull constants = some index.toNat)
  | .function name => ∃ p ∈ pending, p.function = k ∧ p.index = index ∧ p.name = name

theorem Entry.mono {constants constants' : Array Value} {pending pending' : Array Pending}
    {l : Literal} {index : UInt16}
    (h : Entry constants pending k l index) (hl : Longer constants constants')
    (hp : ∀ p ∈ pending, p ∈ pending') :
    Entry constants' pending' k l index := by
  cases l with
  | value v =>
    obtain ⟨⟨w, hw, hv⟩, hnull⟩ := h
    exact ⟨⟨w, hl.get _ w hw, hv⟩, fun h => hl.null _ (hnull h)⟩
  | function name =>
    obtain ⟨p, hp', h⟩ := h
    exact ⟨p, hp p hp', h⟩

/-- What a value finds in the pool it was put into. -/
theorem Pooled.entry {constants constants' : Array Value} {v : Value} {index : UInt16}
    (h : Pooled constants v constants' index)
    (hv : Image.Plain v) (hfew : constants'.size ≤ 65536) (pending : Array Pending) :
    Longer constants constants' ∧ Entry constants' pending k (.value v) index := by
  cases h with
  | @found i h =>
    obtain ⟨hi, hidentical, -⟩ := Array.findIdx?_eq_some_iff_getElem.mp h
    rw [Entry, toNat_place (by omega)]
    refine ⟨.refl _, ⟨_, Array.getElem?_eq_getElem hi, hidentical⟩, ?_⟩
    rintro rfl
    exact h
  | added h =>
    rw [Array.size_push] at hfew
    rw [Entry, toNat_place (by omega)]
    refine ⟨longer_push _ v, ⟨v, Array.getElem?_push_size, identical_self hv⟩, ?_⟩
    rintro rfl
    rw [firstNull_push, show firstNull constants = none from h]
    rfl

/-! ### Functions -/

/-- The code of function `k` after `m` lines: every `const` of it stands there and has its entry,
and the first null of the pool is due to the line that opens it. -/
structure Chapter (lines : List Text) (m k : Nat) (pending : Array Pending) (c : Chunk)
    (fixups : Array Fixup) : Prop where
  paired : c.lines.size = c.size
  past : ∀ x ∈ c.lines, x ≤ (m : Int)
  fixed : ∀ f ∈ fixups, ∃ n, f.line = n + 1 ∧ lines[n]?.bind constOperand? = none ∧
    c.lines[f.place + 1]? = some (f.line : Int) ∧ c.lines[f.place + 2]? = some (f.line : Int)
  emitted : ∀ n t, n < m → Belongs lines n k → lines[n]?.bind constOperand? = some t →
    ∃ l index, literal t = .ok l ∧ Stands c (n + 1) index ∧ Entry c.constants pending k l index
  few : c.constants.size ≤ 65536
  reserved : ∀ p ∈ pending, p.function = k → c.constants[p.index.toNat]? = some .null
  opened : ∀ i, firstNull c.constants = some i → ∃ n, n < m ∧ Opens lines k n ∧
    ((Says lines n (.value .null) ∧ ∀ p ∈ pending, p.function = k → p.index.toNat ≠ i) ∨
      ∃ p ∈ pending, p.function = k ∧ p.index.toNat = i ∧ Says lines n (.function p.name))
  unopened : firstNull c.constants = none → ∀ n < m, Belongs lines n k → ¬ PutsNull lines n

variable {pending pending' : Array Pending} {c c' : Chunk} {fixups fixups' : Array Fixup}

/-- A line without a `const` of this function. -/
theorem Chapter.pass (h : Chapter lines m k pending c fixups)
    (hm : Belongs lines m k → lines[m]?.bind constOperand? = none)
    (hsub : ∀ p ∈ pending, p ∈ pending') (hother : ∀ p ∈ pending', p.function = k → p ∈ pending)
    (hadds : Adds (m + 1) c c') (hconstants : c'.constants = c.constants)
    (hfixups : ∀ f ∈ fixups', f ∈ fixups ∨ f.line = m + 1 ∧ lines[m]?.bind constOperand? = none ∧
      ∀ j, j = 1 ∨ j = 2 → c'.lines[f.place + j]? = some ((m + 1 : Nat) : Int)) :
    Chapter lines (m + 1) k pending' c' fixups' := by
  have hquiet : Belongs lines m k → ¬ PutsNull lines m := by
    intro hb hputs
    have hnone := hm hb
    rcases hputs with ⟨t, ht, -⟩ | ⟨_, t, ht, -⟩
    all_goals rw [hnone] at ht; cases ht
  refine ⟨hadds.paired h.paired, fun x hx => ?_, fun f hf => ?_, fun n t hn hb ht => ?_,
    by rw [hconstants]; exact h.few,
    fun p hp hk => by
      rw [hconstants]; exact h.reserved p (hother p hp hk) hk, fun i hi =>
        ?_, fun hnone n hn hb => ?_⟩
  · rcases hadds.own x hx with hx | rfl
    · have := h.past x hx
      omega
    · exact Int.le_refl _
  · rcases hfixups f hf with hf | ⟨hline, hnone, hlines⟩
    · obtain ⟨n, hn, hnone, h₁, h₂⟩ := h.fixed f hf
      exact ⟨n, hn, hnone, hadds.old _ _ h₁, hadds.old _ _ h₂⟩
    · rw [hline]
      exact ⟨m, rfl, hnone, hlines 1 (.inl rfl), hlines 2 (.inr rfl)⟩
  · have hne : n ≠ m := by
      rintro rfl
      rw [hm hb] at ht
      cases ht
    obtain ⟨l, index, hl, hstands, hentry⟩ := h.emitted n t (by omega) hb ht
    refine ⟨l, index, hl, hstands.leaves (hadds.leaves h.paired _ (by omega)), ?_⟩
    rw [hconstants]
    exact hentry.mono (.refl _) hsub
  · rw [hconstants] at hi
    obtain ⟨n, hn, hopens, hcase⟩ := h.opened i hi
    refine ⟨n, by omega, hopens, ?_⟩
    rcases hcase with ⟨hstated, hfree⟩ | ⟨p, hp, hpi⟩
    · exact .inl ⟨hstated, fun p hp hk => hfree p (hother p hp hk) hk⟩
    · exact .inr ⟨p, hsub p hp, hpi⟩
  · rw [hconstants] at hnone
    by_cases hne : n = m
    · subst hne
      exact hquiet hb
    · exact h.unopened hnone n (by omega) hb

/-- A `const` of this function. -/
theorem Chapter.const {t : Text} {l : Literal} {index : UInt16}
    {constants : Array Value} {raw : Text}
    (h : Chapter lines m k pending c fixups) (hraw : lines[m]? = some raw)
    (ht : constOperand? raw = some t)
    (hl : literal t = .ok l) (hb : Belongs lines m k) (hlonger : Longer c.constants constants)
    (hfew : constants.size ≤ 65536) (hsub : ∀ p ∈ pending, p ∈ pending')
    (hentry : Entry constants pending' k l index)
    (hreserved : ∀ p ∈ pending', p.function = k → constants[p.index.toNat]? = some .null)
    (hnew : ∀ p ∈ pending', p ∈ pending ∨ c.constants.size ≤ p.index.toNat)
    (hopened : firstNull c.constants = none → ∀ i, firstNull constants = some i →
      (Says lines m (.value .null) ∧ ∀ p ∈ pending', p.function = k → p.index.toNat ≠ i) ∨
      ∃ p ∈ pending', p.function = k ∧ p.index.toNat = i ∧ Says lines m (.function p.name))
    (hunopened : firstNull constants = none → ¬ PutsNull lines m) :
    Chapter lines (m + 1) k pending' (writeConst c constants index (m + 1)) fixups := by
  have hadds := adds_writeConst c constants index (m + 1)
  refine ⟨hadds.paired h.paired, fun x hx => ?_, fun f hf => ?_, fun n t' hn hb' ht' => ?_, hfew,
    hreserved, fun i hi => ?_,
    fun hnone n hn hb' => ?_⟩
  · rcases hadds.own x hx with hx | rfl
    · have := h.past x hx
      omega
    · exact Int.le_refl _
  · obtain ⟨n, hn, hnone, h₁, h₂⟩ := h.fixed f hf
    exact ⟨n, hn, hnone, hadds.old _ _ h₁, hadds.old _ _ h₂⟩
  · by_cases hne : n = m
    · subst hne
      rw [hraw, Option.bind_some, ht] at ht'
      cases ht'
      refine ⟨l, index, hl, stands_written h.paired (fun x hx => ?_) _ _, hentry⟩
      have := h.past x hx
      omega
    · obtain ⟨l', index', hl', hstands, hentry'⟩ := h.emitted n t' (by omega) hb' ht'
      exact ⟨l', index', hl', hstands.leaves (hadds.leaves h.paired _ (by omega)),
        hentry'.mono hlonger hsub⟩
  · replace hi : firstNull constants = some i := hi
    cases hold : firstNull c.constants with
    | none =>
      have hfirst := h.unopened hold
      have hcase := hopened hold i hi
      refine ⟨m, by omega, ⟨hb, ?_, hfirst⟩, hcase⟩
      rcases hcase with ⟨hstated, -⟩ | ⟨p, -, -, -, hstated⟩
      · exact .inl hstated
      · exact .inr ⟨p.name, hstated⟩
    | some j =>
      have hij := hlonger.null j hold
      rw [hi] at hij
      cases hij
      obtain ⟨n, hn, hopens, hcase⟩ := h.opened _ hold
      refine ⟨n, by omega, hopens, ?_⟩
      rcases hcase with ⟨hstated, hfree⟩ | ⟨p, hp, hpi⟩
      · refine .inl ⟨hstated, fun p hp hk hpi => ?_⟩
        rcases hnew p hp with hp | hlarge
        · exact hfree p hp hk hpi
        · have := firstNull_lt hold
          omega
      · exact .inr ⟨p, hsub p hp, hpi⟩
  · replace hnone : firstNull constants = none := hnone
    by_cases hne : n = m
    · subst hne
      exact hunopened hnone
    · refine h.unopened ?_ n (by omega) hb'
      cases hold : firstNull c.constants with
      | none => rfl
      | some j =>
        rw [hlonger.null j hold] at hnone
        cases hnone

/-- A statement of this function. -/
theorem Chapter.stated {raw : Text} {d d' : Draft} {p : Option Pending}
    (h : Chapter lines m k pending d.chunk d.fixups)
    (hraw : lines[m]? = some raw) (hb : Belongs lines m k) (hs : Stated (m + 1) k raw d d' p) :
    Chapter lines (m + 1) k (pending ++ p.toArray) d'.chunk d'.fixups := by
  have hsub : ∀ q ∈ pending, q ∈ pending ++ p.toArray := fun q hq => Array.mem_append_left _ hq
  cases hs with
  | other ht hadds hconstants hfixups =>
    have hnone : lines[m]?.bind constOperand? = none := by rw [hraw, Option.bind_some, ht]
    refine h.pass (fun _ => hnone) hsub (fun q hq _ => by simpa using hq) hadds
      hconstants fun f hf => ?_
    exact (hfixups f hf).imp_right fun ⟨hline, hlines⟩ =>
      ⟨hline, hnone, fun j hj => hlines j hj h.paired⟩
  | @value t v index labels constants ht hl hpooled hfew =>
    have hplain : Image.Plain v := by
      have hliteral := literal_answers t
      rw [hl] at hliteral
      exact hliteral
    have hstated : Says lines m (.value v) := ⟨t, by rw [hraw, Option.bind_some, ht], hl⟩
    obtain ⟨hlonger, hentry⟩ := hpooled.entry (k := k) hplain hfew pending
    have hold : ∀ q ∈ pending ++ Option.toArray none, q ∈ pending := fun q hq => by simpa using hq
    refine h.const hraw ht hl hb hlonger hfew hsub (hentry.mono (.refl _) hsub) (fun q hq hk => ?_)
      (fun q hq => .inl (hold q hq))
      (fun hnone i hi => .inl ?_) fun hnone hputs => ?_
    · exact hlonger.get _ _ (h.reserved q (hold q hq) hk)
    · -- the first null is this one, and no pending constant has its place
      cases hpooled with
      | found =>
        rw [hnone] at hi
        cases hi
      | added =>
        rw [firstNull_push, hnone, Option.none_or] at hi
        split at hi
        · next hnull =>
          cases hi
          obtain rfl := identical_null.mp hnull
          refine ⟨hstated, fun q hq hk hqi => ?_⟩
          have := (Array.getElem?_eq_some_iff.mp (h.reserved q (hold q hq) hk)).1
          omega
        · cases hi
    · rcases hputs with hnull | ⟨name, hname⟩
      · cases hstated.unique hnull
        rw [hentry.2 rfl] at hnone
        cases hnone
      · cases hstated.unique hname
  | @function t name index labels ht hl hindex hfew =>
    have hstated : Says lines m (.function name) := ⟨t, by rw [hraw, Option.bind_some, ht], hl⟩
    have hplace : index.toNat = d.chunk.constants.size := by rw [hindex, toNat_place hfew]
    have hmem : ∀ {q : Pending}, q ∈ pending ++ Option.toArray (some ⟨k, index, name, m + 1⟩) →
        q ∈ pending ∨ q = ⟨k, index, name, m + 1⟩ := fun hq => by simpa using hq
    have hlast : (⟨k, index, name, m + 1⟩ : Pending) ∈
      pending ++ Option.toArray (some ⟨k, index, name, m + 1⟩) := by simp
    refine h.const hraw ht hl hb (longer_push _ _) (by rw [Array.size_push]; omega) hsub ⟨_,
      hlast, rfl, rfl, rfl⟩
      (fun q hq hk => ?_) (fun q hq => ?_)
        (fun hnone i hi => .inr ⟨_, hlast, rfl, ?_, hstated⟩) fun hnone => ?_
    · rcases hmem hq with hq | rfl
      · exact (longer_push _ _).get _ _ (h.reserved q hq hk)
      · rw [hplace, Array.getElem?_push_size]
    · rcases hmem hq with hq | rfl
      · exact .inl hq
      · exact .inr (Nat.le_of_eq hplace.symm)
    · rw [firstNull_push, hnone] at hi
      exact hplace.trans (Option.some.inj hi)
    · rw [firstNull_push] at hnone
      cases hold : firstNull d.chunk.constants with
      | none =>
        rw [hold] at hnone
        cases hnone
      | some j =>
        rw [hold] at hnone
        cases hnone

/-- A statement does not rename its function, and a function constant gets the next place of
the pool. -/
theorem Stated.places {line : Nat} {raw : Text} {d d' : Draft} {p : Option Pending}
    (h : Stated line k raw d d' p) :
    d'.name = d.name ∧ ∀ q ∈ p, q.function = k ∧ q.index.toNat = d.chunk.constants.size := by
  cases h with
  | other => exact ⟨rfl, nofun⟩
  | value => exact ⟨rfl, nofun⟩
  | function _ _ hindex hfew =>
    refine ⟨rfl, fun q hq => ?_⟩
    obtain rfl := Option.some.inj hq
    exact ⟨rfl, by rw [hindex, toNat_place hfew]⟩

theorem putU16_same (c : Chunk) (offset : Nat) (v : UInt16) : ∃ code :
    ByteArray, code.size = c.size ∧
    (c.putU16? offset v).getD c = { c with code } ∧
    ∀ i : Nat, i ≠ offset → i ≠ offset + 1 → code[i]? = c.code[i]? := by
  unfold Chunk.putU16?
  split
  · refine ⟨_, ?_, rfl, fun i hi hi' => ?_⟩
    · exact (Array.size_setIfInBounds ..).trans (Array.size_setIfInBounds ..)
    · show (((c.code.data.setIfInBounds _ _).setIfInBounds _ _))[i]? = c.code.data[i]?
      rw [Array.getElem?_setIfInBounds_ne (by omega), Array.getElem?_setIfInBounds_ne (by omega)]
  · exact ⟨c.code, rfl, rfl, fun _ _ _ => rfl⟩

/-- Resolving one jump of a function leaves its constants alone. -/
theorem Chapter.resolve {labels : List (Text × Nat)} {f : Fixup}
    (h : Chapter lines m k pending c fixups) (hf : f ∈ fixups)
    (hc : resolve labels c f = .ok c') : Chapter lines m k pending c' fixups := by
  obtain ⟨v, rfl⟩ : ∃ v, c' = (c.putU16? ((f.place + 1 : Nat) : Int) v).getD c := by
    unfold Source.resolve at hc
    dsimp only at hc
    repeat' split at hc
    all_goals cases hc
    all_goals exact ⟨_, rfl⟩
  obtain ⟨code, hsize, hput, hsame⟩ := putU16_same c (f.place + 1) v
  rw [hput]
  obtain ⟨n', hn', hnone, h₁, h₂⟩ := h.fixed f hf
  refine ⟨h.paired.trans hsize.symm, h.past, h.fixed, fun n t hn hb ht => ?_, h.few, h.reserved,
    h.opened, h.unopened⟩
  obtain ⟨l, index, hl, hstands, hentry⟩ := h.emitted n t hn hb ht
  refine ⟨l, index, hl, hstands.leaves ⟨fun _ => .rfl, fun i hi => ?_⟩, hentry⟩
  -- the bytes of a jump have another line
  have hne : (f.line : Int) ≠ ((n + 1 : Nat) : Int) := by
    rw [hn']
    intro heq
    obtain rfl : n' = n := by omega
    rw [hnone] at ht
    cases ht
  have hother : ∀ j, c.lines[f.place + j]? = some (f.line : Int) → i ≠ f.place + j := by
    rintro j hj rfl
    rw [hj] at hi
    exact hne (Option.some.inj hi)
  unfold Chunk.byte?
  rw [if_pos (Int.natCast_nonneg i), if_pos (Int.natCast_nonneg i)]
  exact hsame i (hother 1 h₁) (hother 2 h₂)

theorem Chapter.resolved {labels : List (Text × Nat)} (h : Chapter lines m k pending c fixups)
    (hc : fixups.foldlM (Source.resolve labels) c = .ok c') : Chapter lines m k pending c' #[] := by
  have hfold : ∀ (l : List Fixup) (c : Chunk), (∀ f ∈ l, f ∈ fixups) →
    Chapter lines m k pending c fixups →
      l.foldlM (Source.resolve labels) c = .ok c' → Chapter lines m k pending c' fixups := by
    intro l
    induction l with
    | nil =>
      intro c _ h hc
      cases hc
      exact h
    | cons f rest ih =>
      intro c hl h hc
      obtain ⟨c₁, hf, hc⟩ := answer_eq_ok hc
      exact ih c₁ (fun g hg => hl g (List.mem_cons_of_mem f hg))
        (h.resolve (hl f List.mem_cons_self) hf) hc
  rw [← Array.foldlM_toList] at hc
  have hall := hfold fixups.toList c (fun f hf => by simpa using hf) h hc
  exact ⟨hall.paired, hall.past, nofun, hall.emitted, hall.few, hall.reserved,
    hall.opened, hall.unopened⟩

/-! ### The whole text -/

/-- What is known of all functions after `m` lines. -/
structure Told (lines : List Text) (m : Nat) (s : State) : Prop where
  count : (lines.take m).countP isDirective = s.functions.size + if s.draft.isSome then 1 else 0
  finished : ∀ (k : Nat) f, s.functions[k]? = some f →
    ∃ c, f.chunk = some c ∧ Chapter lines m k s.pending c #[]
  draft : ∀ d, s.draft = some d → Chapter lines m s.functions.size s.pending d.chunk d.fixups
  owned : ∀ p ∈ s.pending, p.function < (lines.take m).countP isDirective
  placed : ∀ n t, n < m → lines[n]?.bind constOperand? = some t →
    0 < (lines.take n).countP isDirective
  apart : ∀ p ∈ s.pending, ∀ q ∈ s.pending, p.function = q.function →
    p.index = q.index → p.name = q.name
  names : (s.functions.toList.map (·.name)).Nodup
  fresh : ∀ d, s.draft = some d → ∀ f ∈ s.functions, f.name ≠ d.name

theorem told_start : Told lines 0 {} :=
  ⟨by simp, nofun, nofun, nofun, nofun, nofun, .nil, nofun⟩

theorem Told.finish {s s' : State} (h : Told lines m s) (hs : s.finish = .ok s') :
    Told lines m s' ∧ s'.draft = none := by
  unfold State.finish at hs
  cases hd : s.draft with
  | none =>
    rw [hd] at hs
    cases hs
    exact ⟨h, hd⟩
  | some d =>
    rw [hd] at hs
    obtain ⟨f, hf, hs⟩ := answer_eq_ok hs
    cases hs
    obtain ⟨c, hc, hf⟩ := answer_eq_ok hf
    cases hf
    have hcount := h.count
    rw [hd] at hcount
    refine ⟨⟨?_, fun k f hk => ?_, nofun, h.owned, h.placed, h.apart, ?_, nofun⟩, rfl⟩
    · rw [hcount, Array.size_push]
      rfl
    · rw [Array.getElem?_push] at hk
      split at hk
      · next heq =>
        cases hk
        subst heq
        exact ⟨c, rfl, (h.draft d hd).resolved hc⟩
      · exact h.finished k f hk
    · rw [Array.toList_push, List.map_append]
      refine List.nodup_append.mpr ⟨h.names, List.nodup_cons.mpr ⟨nofun, .nil⟩, fun a ha b hb => ?_⟩
      obtain ⟨f, hf, rfl⟩ := List.mem_map.mp ha
      obtain rfl : b = d.name := by simpa using hb
      exact h.fresh d hd f (by simpa using hf)

section

variable {raw : Text} {s s' : State} (h : Told lines m s) (hraw : lines[m]? = some raw)
include h hraw

omit h in
theorem countP_next : (lines.take (m + 1)).countP isDirective =
    (lines.take m).countP isDirective + if isDirective raw then 1 else 0 := by
  rw [List.take_add_one, hraw, List.countP_append, Option.toList_some, List.countP_singleton]

omit hraw in
theorem Told.placed_next
    (hm : ∀ t, lines[m]?.bind constOperand? = some t → 0 < (lines.take m).countP isDirective)
    (n : Nat) (t : Text) (hn : n < m + 1) (ht : lines[n]?.bind constOperand? = some t) :
    0 < (lines.take n).countP isDirective := by
  by_cases hne : n = m
  · subst hne
    exact hm t ht
  · exact h.placed n t (by omega) ht

/-- A line that states nothing. -/
theorem Told.blank (hquiet : isDirective raw = false) (ht : constOperand? raw = none) :
    Told lines (m + 1) s := by
  have hcount := countP_next hraw
  have hnone : lines[m]?.bind constOperand? = none := by rw [hraw, Option.bind_some, ht]
  rw [hquiet, if_neg Bool.false_ne_true, Nat.add_zero] at hcount
  have hpass : ∀ {k : Nat} {c : Chunk} {fixups : Array Fixup},
      Chapter lines m k s.pending c fixups → Chapter lines (m + 1) k s.pending c fixups :=
    fun hc => hc.pass (fun _ => hnone) (fun _ => id) (fun _ hp _ => hp) (.refl _ _) rfl fun _ => .inl
  refine ⟨hcount.trans h.count, fun k f hf => ?_, fun d hd => hpass (h.draft d hd),
    hcount ▸ h.owned, h.placed_next fun t hm => (by rw [hnone] at hm; cases hm), h.apart, h.names,
    h.fresh⟩
  obtain ⟨c, hc, hchapter⟩ := h.finished k f hf
  exact ⟨c, hc, hpass hchapter⟩

/-- A directive begins a function that nothing belongs to yet. -/
theorem Told.begun {name : Text} {arity locals : Nat} (hdraft : s.draft = none)
    (hdirective : isDirective raw = true) (hname : ∀ f ∈ s.functions, f.name ≠ name) :
    Told lines (m + 1) { s with draft := some { name, arity, locals } } := by
  have hcount := countP_next hraw
  have hnone : lines[m]?.bind constOperand? = none := by
    rw [hraw, Option.bind_some, constOperand?, if_pos hdirective]
  have hcount₀ := h.count
  rw [hdraft] at hcount₀
  replace hcount₀ : (lines.take m).countP isDirective = s.functions.size := hcount₀
  rw [hdirective, if_pos rfl, hcount₀] at hcount
  have hbefore : ∀ n < m + 1, ¬ Belongs lines n s.functions.size := by
    intro n hn hb
    have hle := (List.take_sublist_take_left (l := lines) (Nat.le_of_lt_succ hn)).countP_le
      (p := isDirective)
    unfold Belongs at hb
    omega
  refine ⟨hcount, fun k f hf => ?_, fun d hd => ?_, fun p hp => ?_,
    h.placed_next fun t hm => (by rw [hnone] at hm; cases hm), h.apart, h.names,
    fun d hd f hf => ?_⟩
  · obtain ⟨c, hc, hchapter⟩ := h.finished k f hf
    exact ⟨c, hc, hchapter.pass (fun _ => hnone) (fun _ => id) (fun _ hp _ => hp) (.refl _ _) rfl
      fun _ => .inl⟩
  · obtain rfl := Option.some.inj hd
    show Chapter lines (m + 1) s.functions.size s.pending {} #[]
    refine ⟨rfl, nofun, nofun, fun n t hn hb => absurd hb (hbefore n hn), Nat.zero_le _,
      fun p hp hk => ?_, fun i hi => absurd (firstNull_lt hi) (Nat.not_lt_zero i),
      fun _ n hn hb => absurd hb (hbefore n hn)⟩
    have := h.owned p hp
    omega
  · have := h.owned p hp
    omega
  · obtain rfl := Option.some.inj hd
    exact hname f hf

/-- A statement is one of the function that is being written. -/
theorem Told.stated {d d' : Draft} {p : Option Pending} (hquiet : isDirective raw = false)
    (hdraft : s.draft = some d) (hstated : Stated (m + 1) s.functions.size raw d d' p) :
    Told lines (m + 1) { s with draft := some d', pending := s.pending ++ p.toArray } := by
  have hcount := countP_next hraw
  rw [hquiet, if_neg Bool.false_ne_true, Nat.add_zero] at hcount
  have hcount₀ := h.count
  rw [hdraft] at hcount₀
  replace hcount₀ : (lines.take m).countP isDirective = s.functions.size + 1 := hcount₀
  have hchapter := h.draft d hdraft
  obtain ⟨hname, hp⟩ := hstated.places
  have hmem : ∀ {q : Pending}, q ∈ s.pending ++ p.toArray → q ∈ s.pending ∨ q ∈ p :=
    fun hq => by simpa using hq
  have hlater : ∀ q ∈ s.pending, ∀ q' ∈ p, q.function = q'.function → q.index ≠ q'.index := by
    intro q hq q' hq' hfunction hindex
    have := (Array.getElem?_eq_some_iff.mp
      (hchapter.reserved q hq (hfunction.trans (hp q' hq').1))).1
    rw [hindex, (hp q' hq').2] at this
    omega
  refine ⟨hcount.trans hcount₀, fun k f hf => ?_, fun e he => ?_, fun q hq => ?_,
    h.placed_next fun t _ => by omega, fun q hq q' hq' hfunction hindex => ?_, h.names,
    fun e he f hf => ?_⟩
  · obtain ⟨c, hc, hother⟩ := h.finished k f hf
    have hk : k < s.functions.size := (Array.getElem?_eq_some_iff.mp hf).1
    refine ⟨c, hc, hother.pass (fun hb => ?_) (fun q hq => Array.mem_append_left _ hq)
      (fun q hq hqk => ?_) (.refl _ _) rfl fun _ => .inl⟩
    · unfold Belongs at hb
      omega
    · rcases hmem hq with hq | hq
      · exact hq
      · have := (hp q hq).1
        omega
  · obtain rfl := Option.some.inj he
    exact hchapter.stated hraw hcount₀ hstated
  · rcases hmem hq with hq | hq
    · have := h.owned q hq
      omega
    · have := (hp q hq).1
      omega
  · rcases hmem hq with hq | hq <;> rcases hmem hq' with hq' | hq'
    · exact h.apart q hq q' hq' hfunction hindex
    · exact absurd hindex (hlater q hq q' hq' hfunction)
    · exact absurd hindex.symm (hlater q' hq' q hq hfunction.symm)
    · rw [Option.mem_unique hq hq']
  · obtain rfl := Option.some.inj he
    rw [hname]
    exact h.fresh d hdraft f hf

theorem Told.line (hs : Lined (m + 1) raw s s') : Told lines (m + 1) s' := by
  cases hs with
  | blank hquiet ht => exact h.blank hraw hquiet ht
  | begun hdirective hfinish hname =>
    obtain ⟨h₁, hdraft⟩ := h.finish hfinish
    exact h₁.begun hraw hdraft hdirective hname
  | stated hquiet hdraft hstated => exact h.stated hraw hquiet hdraft hstated

end

/-! ### Function constants -/

/-- A value refers to the one function of a name. -/
structure Refers (functions : Array Function) (name : Text) (v : Value) : Prop where
  function : ∃ i f, functions[i]? = some f ∧ f.name = name ∧ v = .func (some ⟨0, i, name⟩)
  only : ∀ (i j : Nat) f g, functions[i]? = some f → functions[j]? = some g → f.name = name →
    g.name = name → i = j

/-- Only the names of the functions matter. -/
theorem Refers.congr {functions functions' : Array Function} {name : Text} {v : Value}
    (h : Refers functions name v)
    (hnames : functions'.map (·.name) = functions.map (·.name)) : Refers functions' name v := by
  have hmove : ∀ {functions functions' : Array Function}, functions'.map (·.name) =
    functions.map (·.name) →
      ∀ (i : Nat) f, functions[i]? = some f → ∃ f', functions'[i]? = some f' ∧
          f'.name = f.name := by
    intro functions functions' hnames i f hf
    have hi := congrArg (·[i]?) hnames
    simp only [Array.getElem?_map, hf, Option.map_some] at hi
    exact Option.map_eq_some_iff.mp hi
  obtain ⟨i, f, hf, hname, hv⟩ := h.function
  obtain ⟨f', hf', hname'⟩ := hmove hnames i f hf
  refine ⟨⟨i, f', hf', hname'.trans hname, hv⟩, fun i j f' g' hf' hg' hfn hgn => ?_⟩
  obtain ⟨f, hf, hfname⟩ := hmove hnames.symm i f' hf'
  obtain ⟨g, hg, hgname⟩ := hmove hnames.symm j g' hg'
  exact h.only i j f g hf hg (hfname.trans hfn) (hgname.trans hgn)

/-- A function after some constants were linked: the pool has functions in their places, and all
else is as it was. -/
structure Linked (k : Nat) (names : Array Text) (pending : List Pending)
    (f f' : Function) : Prop where
  name : f'.name = f.name
  chunk : ∀ c, f.chunk = some c → ∃ constants, f'.chunk = some { c with constants } ∧
    ∀ (i : Nat) v, c.constants[i]? = some v →
      (∃ p ∈ pending, p.function = k ∧ p.index.toNat = i ∧
        ∃ j : Nat, names.findIdx? (· == p.name) = some j ∧
          constants[i]? = some (.func (some ⟨0, j, p.name⟩))) ∨
      ((∀ p ∈ pending, p.function = k → p.index.toNat ≠ i) ∧ constants[i]? = some v)

theorem link_links {functions out : Array Function} {p : Pending}
    (h : link functions p = .ok out) {f : Function}
    (hf : functions[k]? = some f) :
    ∃ f', out[k]? = some f' ∧ Linked k (functions.map (·.name)) [p] f f' := by
  unfold link at h
  split at h
  · cases h
  · next j hj =>
    cases h
    rw [Array.getElem?_modify, hf]
    have hj' : (functions.map (·.name)).findIdx? (· == p.name) = some j := by
      rw [Array.findIdx?_map]
      exact hj
    split
    · next hk =>
      refine ⟨_, rfl, rfl, fun c hc => ?_⟩
      refine ⟨_, congrArg (Option.map _) hc, fun i v hv => ?_⟩
      have hi := (Array.getElem?_eq_some_iff.mp hv).1
      by_cases hp : p.index.toNat = i
      · refine .inl ⟨p, List.mem_singleton_self p, hk, hp, j, hj', ?_⟩
        rw [hp, Array.set!_eq_setIfInBounds, Array.getElem?_setIfInBounds_self_of_lt hi]
      · refine .inr ⟨fun q hq _ => by rwa [List.mem_singleton.mp hq], ?_⟩
        rw [Array.set!_eq_setIfInBounds, Array.getElem?_setIfInBounds_ne hp, hv]
    · next hk =>
      refine ⟨f, rfl, rfl,
        fun c hc => ⟨c.constants, hc, fun i v hv => .inr ⟨fun q hq hqk => ?_, hv⟩⟩⟩
      rw [List.mem_singleton.mp hq] at hqk
      exact absurd hqk hk

/-- Linking a constant changes nothing but the pool of a function. -/
theorem link_keeps {β : Type} {g : Function → β} (hg : ∀ f chunk, g { f with chunk } = g f)
    {functions out : Array Function}
    {p : Pending} (h : link functions p = .ok out) : out.map g = functions.map g := by
  unfold link at h
  split at h
  · cases h
  · cases h
    apply Array.ext
    · simp
    · intro i hi hi'
      simp only [Array.getElem_map, Array.getElem_modify]
      split
      · exact hg _ _
      · rfl

theorem linkAll_keeps {β : Type} {g : Function → β} (hg : ∀ f chunk, g { f with chunk } = g f)
    {pending : List Pending}
    {functions out : Array Function} (h : pending.foldlM link functions = .ok out) :
    out.map g = functions.map g := by
  induction pending generalizing functions with
  | nil =>
    cases h
    rfl
  | cons p rest ih =>
    obtain ⟨functions₁, hp, h⟩ := answer_eq_ok h
    rw [ih h, link_keeps hg hp]

theorem linkAll_links {pending : List Pending} {functions out : Array Function}
    (h : pending.foldlM link functions = .ok out) : out.map (·.name) = functions.map (·.name) ∧
    ∀ (k : Nat) f, functions[k]? = some f → ∃ f', out[k]? = some f' ∧
    Linked k (functions.map (·.name)) pending f f' := by
  induction pending generalizing functions with
  | nil =>
    cases h
    exact ⟨rfl,
      fun k f hf => ⟨f, hf, rfl, fun c hc => ⟨c.constants, hc, fun i v hv => .inr ⟨nofun, hv⟩⟩⟩⟩
  | cons p rest ih =>
    obtain ⟨functions₁, hp, h⟩ := answer_eq_ok h
    obtain ⟨hnames, hrest⟩ := ih h
    have hnames₁ := link_keeps (g := (·.name)) (fun _ _ => rfl) hp
    rw [hnames₁] at hnames hrest
    refine ⟨hnames, fun k f hf => ?_⟩
    obtain ⟨f₁, hf₁, hlinked₁⟩ := link_links hp hf
    obtain ⟨f₂, hf₂, hlinked₂⟩ := hrest k f₁ hf₁
    refine ⟨f₂, hf₂, hlinked₂.name.trans hlinked₁.name, fun c hc => ?_⟩
    obtain ⟨constants₁, hc₁, hget₁⟩ := hlinked₁.chunk c hc
    obtain ⟨constants₂, hc₂, hget₂⟩ := hlinked₂.chunk _ hc₁
    refine ⟨constants₂, hc₂, fun i v hv => ?_⟩
    rcases hget₁ i v hv with ⟨q, hq, hk, hi, j, hj, hget⟩ | ⟨hfree, hget⟩
    all_goals rcases hget₂ i _ hget with ⟨q', hq', h'⟩ | ⟨hfree', hget'⟩
    · exact .inl ⟨q', List.mem_cons_of_mem p hq', h'⟩
    · rw [List.mem_singleton.mp hq] at hk hi hj hget'
      exact .inl ⟨p, List.mem_cons_self, hk, hi, j, hj, hget'⟩
    · exact .inl ⟨q', List.mem_cons_of_mem p hq', h'⟩
    · refine .inr ⟨fun q hq => ?_, hget'⟩
      rcases List.mem_cons.mp hq with rfl | hq
      · exact hfree q (List.mem_singleton_self q)
      · exact hfree' q hq

/-- What a `const` denotes is what its place holds. -/
def Denotes (functions : Array Function) : Literal → Value → Prop
  | .value v, w => w.identical v = true
  | .function name, w => Refers functions name w

theorem finish_draft {s s' : State} (h : s.finish = .ok s') : s'.draft = none := by
  unfold State.finish at h
  cases hd : s.draft with
  | none =>
    rw [hd] at h
    cases h
    exact hd
  | some d =>
    rw [hd] at h
    obtain ⟨f, -, h⟩ := answer_eq_ok h
    cases h
    rfl

/-- What holds at the start and is kept by every line and by the end of a function holds when a
text is read. -/
theorem parse_keeps {text : Text} {p : Program} {P : Nat → State → Prop} (hstart : P 0 {})
    (hline : ∀ m raw s s', (text.split 10)[m]? = some raw → P m s →
      s.line (m + 1) raw = .ok s' → P (m + 1) s')
    (hfinish : ∀ m s s', P m s → s.finish = .ok s' → P m s') (h : parse text = .ok p) :
    ∃ s, P (text.split 10).length s ∧
    s.draft = none ∧ s.pending.toList.foldlM link s.functions = .ok p.functions ∧
    p.main = .listed ((p.lookup? "main").getD 0) := by
  unfold parse at h
  obtain ⟨⟨s, count⟩, hlines, h⟩ := answer_eq_ok h
  obtain ⟨s₁, hs₁, h⟩ := answer_eq_ok h
  dsimp only at h
  split at h
  · cases h
  · obtain ⟨functions, hlink, h⟩ := answer_eq_ok h
    cases h
    rw [← Array.foldlM_toList] at hlink
    exact ⟨s₁, hfinish _ s s₁ (read_lines hstart hline hlines) hs₁, finish_draft hs₁, hlink, rfl⟩

theorem parse_eq {text : Text} {p : Program} (h : parse text = .ok p) :
    ∃ s, Told (text.split 10) (text.split 10).length s ∧
    s.draft = none ∧ s.pending.toList.foldlM link s.functions = .ok p.functions := by
  obtain ⟨s, htold, hdraft, hlink, -⟩ := parse_keeps (P := Told (text.split 10)) told_start
    (fun _ _ _ _ hraw h hs => h.line hraw (line_adds hs)) (fun _ _ _ h hs => (h.finish hs).1) h
  exact ⟨s, htold, hdraft, hlink⟩

/-- A name that is found among the names of functions is that of one function only. -/
theorem refers_of_findIdx {functions : Array Function} {name : Text} {j : Nat}
    (hnodup : (functions.map (·.name)).toList.Nodup)
    (hj : (functions.map (·.name)).findIdx? (· == name) = some j) :
    Refers functions name (.func (some ⟨0, j, name⟩)) := by
  obtain ⟨hlt, hname, -⟩ := Array.findIdx?_eq_some_iff_getElem.mp hj
  rw [Array.getElem_map, beq_iff_eq] at hname
  rw [Array.size_map] at hlt
  refine ⟨⟨j, functions[j], Array.getElem?_eq_getElem hlt, hname, rfl⟩,
    fun a b f g hf hg hf' hg' => ?_⟩
  have hget : ∀ (a : Nat) f, functions[a]? = some f →
      (functions.map (·.name)).toList[a]? = some f.name := by
    intro a f hf
    rw [Array.getElem?_toList, Array.getElem?_map, hf]
    rfl
  have hsame : (functions.map (·.name)).toList[a]? = (functions.map (·.name)).toList[b]? := by
    rw [hget a f hf, hget b g hg, hf', hg']
  refine (List.getElem?_inj ?_ hnodup).mp hsame
  simpa using (Array.getElem?_eq_some_iff.mp hf).1

/-- What the `const` on a line has in its place once all functions are known. -/
theorem Told.denoted {s : State} {functions : Array Function} (h : Told lines lines.length s)
    (hdraft : s.draft = none)
    (hlink : s.pending.toList.foldlM link s.functions = .ok functions) {t : Text}
    (ht : lines[n]?.bind constOperand? = some t) :
    ∃ l k f c index v, literal t = .ok l ∧ Belongs lines n k ∧ functions[k]? = some f ∧
    f.chunk = some c ∧
      Stands c (n + 1) index ∧ c.constants[index.toNat]? = some v ∧
      (Denotes functions l v ↔ ¬ (l = .value .null ∧ ∃ name, Usurped lines n name)) ∧
      ∀ name, l = .value .null → Usurped lines n name → Refers functions name v := by
  have hn : n < lines.length := by
    by_contra hn
    rw [List.getElem?_eq_none (Nat.le_of_not_lt hn)] at ht
    cases ht
  obtain ⟨hnames, hlinked⟩ := linkAll_links hlink
  have hnodup : (functions.map (·.name)).toList.Nodup := by
    rw [hnames, Array.toList_map]
    exact h.names
  obtain ⟨k, hk⟩ : ∃ k, Belongs lines n k := ⟨(lines.take n).countP isDirective - 1, by
    have := h.placed n t hn ht
    unfold Belongs
    omega⟩
  have hlt : k < s.functions.size := by
    have hcount := h.count
    rw [hdraft, List.take_length] at hcount
    have hle := (List.take_sublist n lines).countP_le (p := isDirective)
    unfold Belongs at hk
    replace hcount : lines.countP isDirective = s.functions.size := hcount
    omega
  obtain ⟨c, hc, hchapter⟩ := h.finished k _ (Array.getElem?_eq_getElem hlt)
  obtain ⟨l, index, hl, hstands, hentry⟩ := hchapter.emitted n t hn hk ht
  obtain ⟨f, hf, hlinks⟩ := hlinked k _ (Array.getElem?_eq_getElem hlt)
  obtain ⟨constants, hchunk, hget⟩ := hlinks.chunk c hc
  have hstands' : Stands { c with constants } (n + 1) index :=
    hstands.leaves ⟨fun _ => .rfl, fun _ _ => rfl⟩
  have hrefers : ∀ {name : Text} {j : Nat},
    (s.functions.map (·.name)).findIdx? (· == name) = some j →
      Refers functions name (.func (some ⟨0, j, name⟩)) :=
        fun hj => refers_of_findIdx hnodup (hnames ▸ hj)
  have husurped : ∀ {m name : _}, Opens lines k m → Usurped lines n name →
      Says lines m (.function name) := by
    rintro m name hopens ⟨k', m', hk', hopens', -, hstated⟩
    obtain rfl : k' = k := by
      unfold Belongs at hk hk'
      omega
    rwa [hopens.unique hopens']
  cases l with
  | function name =>
    obtain ⟨p, hp, hpk, hpi, rfl⟩ := hentry
    have hnull := hchapter.reserved p hp hpk
    rw [hpi] at hnull
    rcases hget _ _ hnull with ⟨q, hq, hqk, hqi, j, hj, hv⟩ | ⟨hfree, -⟩
    · refine ⟨_, k, f, _, index, _, hl, hk, hf, hchunk, hstands', hv, ?_, nofun⟩
      have hname := h.apart q (by simpa using hq) p hp (hqk.trans hpk.symm)
        (UInt16.toNat_inj.mp (hqi.trans (by rw [hpi])))
      rw [hname] at hj
      rw [hname]
      exact ⟨fun _ hnull => (nomatch hnull.1), fun _ => hrefers hj⟩
    · exact absurd (congrArg UInt16.toNat hpi) (hfree p (by simpa using hp) hpk)
  | value w =>
    obtain ⟨⟨v, hv, hidentical⟩, hfirst⟩ := hentry
    rcases hget _ _ hv with ⟨q, hq, hqk, hqi, j, hj, hv'⟩ | ⟨hfree, hv'⟩
    · -- the place is that of a function
      have hreserved := hchapter.reserved q (by simpa using hq) hqk
      rw [hqi, hv] at hreserved
      cases hreserved
      have hw : w = .null := null_identical.mp hidentical
      subst hw
      obtain ⟨m, hm, hopens, hcase⟩ := hchapter.opened _ (hfirst rfl)
      have hstated : Says lines m (.function q.name) := by
        rcases hcase with ⟨-, hfree⟩ | ⟨q', hq', hqk', hqi', hstated⟩
        · exact absurd hqi (hfree q (by simpa using hq) hqk)
        · rwa [h.apart q (by simpa using hq) q' hq' (hqk.trans hqk'.symm)
            (UInt16.toNat_inj.mp (hqi.trans hqi'.symm))]
      have hnull : Says lines n (.value .null) := ⟨t, ht, hl⟩
      have hmn : m < n := by
        rcases Nat.lt_trichotomy m n with hlt | rfl | hlt
        · exact hlt
        · cases hstated.unique hnull
        · exact absurd (.inl hnull) (hopens.first n hlt hk)
      refine ⟨_, k, f, _, index, _, hl, hk, hf, hchunk, hstands', hv',
        ⟨fun hdenotes => ?_, fun hnot => ?_⟩, fun name _ hu => ?_⟩
      · simp [Denotes, Value.identical, Value.equal] at hdenotes
      · exact absurd ⟨rfl, q.name, k, m, hk, hopens, hmn, hstated⟩ hnot
      · cases (husurped hopens hu).unique hstated
        exact hrefers hj
    · refine ⟨_, k, f, _, index, v, hl, hk, hf, hchunk, hstands', hv',
        ⟨fun _ => ?_, fun _ => hidentical⟩, ?_⟩
      all_goals
        have hnot : ∀ name, Literal.value w = .value .null → ¬ Usurped lines n name := by
          rintro name hw hu
          obtain rfl : w = .null := Literal.value.inj hw
          obtain ⟨m, hm, hopens, hcase⟩ := hchapter.opened _ (hfirst rfl)
          rcases hcase with ⟨hstated, -⟩ | ⟨q, hq, hqk, hqi, -⟩
          · cases (husurped hopens hu).unique hstated
          · exact hfree q (by simpa using hq) hqk hqi
      · rintro ⟨hw, name, hu⟩
        exact hnot name hw hu
      · exact fun name hw hu => absurd hu (hnot name hw)

/-- Every `const` of a text that assembles has an instruction, which is all the code of its line. Its
place in the pool holds what it denotes, unless it says null and null keeps the place of a function
there: then it holds that function. -/
theorem constants_denote {file text : Text} {p : Program} (h : assemble file text = .ok p)
    {n : Nat} {raw t : Text}
    (hraw : (text.split 10)[n]? = some raw) (ht : constOperand? raw = some t) :
    ∃ l k f c index v, literal t = .ok l ∧ Belongs (text.split 10) n k ∧ p.functions[k]? = some f ∧
    f.chunk = some c ∧
      Stands c (n + 1) index ∧ c.constants[index.toNat]? = some v ∧
      (Denotes p.functions l v ↔ ¬ (l = .value .null ∧ ∃ name, Usurped (text.split 10) n name)) ∧
      ∀ name, l = .value .null → Usurped (text.split 10) n name → Refers p.functions name v := by
  obtain ⟨q, hq, hp⟩ := answer_eq_ok h
  have hparse : parse text = .ok q := by
    cases hparse : parse text with
    | error e =>
      rw [hparse] at hq
      cases hq
    | ok q' =>
      rw [hparse] at hq
      cases hq
      rfl
  obtain rfl : p = q.verify.1 := by
    dsimp only at hp
    split at hp
    · exact (Except.ok.inj hp).symm
    · cases hp
  obtain ⟨s, htold, hdraft, hlink⟩ := parse_eq hparse
  obtain ⟨l, k, f, c, index, v, hl, hk, hf, hc, hstands, hv, hdenotes, husurped⟩ :=
    htold.denoted hdraft hlink
      (show (text.split 10)[n]?.bind constOperand? = some t by rw [hraw, Option.bind_some, ht])
  -- verification adds the stack depths and nothing else
  have hverified : ∀ (i : Nat) g, q.functions[i]? = some g →
      ∃ m, q.verify.1.functions[i]? = some { g with maxStack := m } := by
    intro i g hg
    obtain ⟨m, hm⟩ := g.verify_fst
    refine ⟨m, ?_⟩
    simp [Program.verify, hg, hm]
  have hnames : q.verify.1.functions.map (·.name) = q.functions.map (·.name) := by
    refine Array.ext_getElem? fun i => ?_
    rw [Array.getElem?_map, Array.getElem?_map]
    cases hg : q.functions[i]? with
    | none => simp [Program.verify, hg]
    | some g =>
      obtain ⟨m, hm⟩ := hverified i g hg
      rw [hm]
      rfl
  obtain ⟨m, hm⟩ := hverified k f hf
  refine ⟨l, k, _, c, index, v, hl, hk, hm, hc, hstands, hv, ?_,
    fun name hnull hu => (husurped name hnull hu).congr hnames⟩
  rw [← hdenotes]
  cases l with
  | value w => rfl
  | function name => exact ⟨fun h => h.congr hnames.symm, fun h => h.congr hnames⟩

/-- A function constant and, behind it, null. -/
def sharedNull : Text := ".func main 0\nconst @f\npop\nconst null\nret\n.func f 0\nconst null\nret"

/-- Here `const null` reads as the function. -/
theorem sharedNull_usurped : ∃ p : Program, assemble ∅ sharedNull = .ok p ∧ ∃ (k : Nat)
    (f : Function) (c : Chunk)
    (index : UInt16) (v : Value), p.functions[k]? = some f ∧ f.chunk = some c ∧ Stands c 4 index ∧
    c.constants[index.toNat]? = some v ∧ Refers p.functions "f" v ∧
    ¬ Denotes p.functions (.value .null) v := by
  have haccepted : (assemble ∅ sharedNull).toOption.isSome = true := by decide +kernel
  cases hp : assemble ∅ sharedNull with
  | error e =>
    rw [hp] at haccepted
    cases haccepted
  | ok p =>
    have hstated : ∀ (n : Nat) (raw t : Text) (l : Literal), (sharedNull.split 10)[n]? = some raw →
      constOperand? raw = some t →
        literal t = .ok l → Says (sharedNull.split 10) n l := fun n raw t l hraw ht hl =>
      ⟨t, by rw [hraw, Option.bind_some, ht], hl⟩
    have hraw : (sharedNull.split 10)[3]? = some (Text.ofString "const null") := by decide +kernel
    have ht : constOperand? "const null" = some (Text.ofString "null") := by decide +kernel
    obtain ⟨l, k, f, c, index, v, hl, hk, hf, hc, hstands, hv, hdenotes, hrefers⟩ :=
      constants_denote hp hraw ht
    have hfunction : Says (sharedNull.split 10) 1 (.function "f") :=
      hstated 1 "const @f" "@f" _ (by decide +kernel) (by decide +kernel) (by rfl)
    obtain rfl : l = .value .null := (Except.ok.inj (hl.symm.trans (by rfl)))
    have hbelongs : Belongs (sharedNull.split 10) 1 0 := by
      show _ = _
      decide +kernel
    have hk' : Belongs (sharedNull.split 10) 3 0 := by
      show _ = _
      decide +kernel
    have husurped : Usurped (sharedNull.split 10) 3 "f" := by
      refine ⟨0, 1, hk', ⟨hbelongs, .inr ⟨_, hfunction⟩, fun n hn hb => ?_⟩, by decide, hfunction⟩
      obtain rfl : n = 0 := by omega
      cases hb
    exact ⟨p, rfl, k, f, c, index, v, hf, hc, hstands, hv, hrefers _ rfl husurped,
      fun h => hdenotes.mp h ⟨rfl, _, husurped⟩⟩

end LoopTracer.Bytecode.Source
