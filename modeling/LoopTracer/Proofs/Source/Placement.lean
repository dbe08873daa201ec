import LoopTracer.Proofs.Source.Constants
import LoopTracer.Proofs.Source.Emission

/-! Where the instructions of a text stand.

The instructions of a function lie one behind the other in the order of their lines (`Lies`), jumps
are filled in when the function ends, and linking and verification leave code alone.
`text_transcribed` puts this together: reading the code of a function from its start gives the
instruction lines of the function in their order, each with its operand and its line beside its
bytes, and a jump leads to the first instruction behind the one line that has its label. -/
namespace LoopTracer.Bytecode.Source

variable {lines : List Text} {m n k : Nat}

/-- An instruction in its place. -/
structure Placed where
  /-- The line, counted from zero. -/
  line : Nat
  /-- The offset of the opcode. -/
  offset : Nat
  op : Opcode
  operand : Text

/-- Where the instruction behind an instruction stands. -/
def Placed.next (x : Placed) : Nat := x.offset + x.op.size

instance : Decidable (Belongs lines n k) := inferInstanceAs (Decidable (_ = _))

/-- The lines of function `k` that have an instruction, among the first `m` lines. -/
def instructionLines (lines : List Text) (m k : Nat) : List Nat :=
  (List.range m).filter fun n => decide (Belongs lines n k) && lines[n]?.any isInstruction

/-- A line of function `k` has the label `t`. -/
structure Labels (lines : List Text) (k n : Nat) (t : Text) : Prop where
  belongs : Belongs lines n k
  label : lines[n]?.bind labelOf? = some t

/-- The function that a directive line declares: its name and the numbers of its parameters
and locals. -/
def declares? (raw : Text) : Option (Text × Int × Int) :=
  match (content raw).words with
  | [head, name, locals] =>
    if head = ".func" then (bounded? locals 65535).map fun n => (name, 0, n) else none
  | [head, name, locals, arity] =>
    if head = ".func" then (bounded? locals 65535).bind fun n => (bounded? arity 255).map fun k =>
      (name, k, n) else none
  | _ => none

theorem instructionLines_succ {raw : Text} (hraw : lines[m]? = some raw) :
    instructionLines lines (m + 1) k =
    instructionLines lines m k ++ if Belongs lines m k ∧ isInstruction raw = true
    then [m] else [] := by
  unfold instructionLines
  rw [List.range_succ, List.filter_append, List.filter_singleton, hraw]
  congr 1
  by_cases hb : Belongs lines m k <;> cases h : isInstruction raw <;> simp [hb, h]

/-! ### Instructions in code -/

/-- The instructions `l` follow one another in the code, the first one at an offset and the last one
up to another. -/
inductive Lies (c : Chunk) : Nat → List Placed → Nat → Prop
  | nil (o : Nat) : Lies c o [] o
  | cons {x : Placed} {l : List Placed} {e : Nat} (hx : Emitted c x.line x.offset x.op x.operand)
      (h : Lies c x.next l e) :
      Lies c x.offset (x :: l) e

variable {c c' : Chunk} {o e : Nat} {l : List Placed} {x y : Placed}

theorem Placed.lt_next (x : Placed) : x.offset < x.next := Nat.lt_add_of_pos_right x.op.size_pos

theorem Lies.le (h : Lies c o l e) : o ≤ e := by
  induction h with
  | nil => exact Nat.le_refl _
  | @cons x _ _ _ _ ih => exact Nat.le_trans (Nat.le_of_lt x.lt_next) ih

theorem Lies.emitted (h : Lies c o l e) (hx : x ∈ l) :
    Emitted c x.line x.offset x.op x.operand := by
  induction h with
  | nil => cases hx
  | cons hemitted _ ih =>
    rcases List.mem_cons.mp hx with rfl | hx
    · exact hemitted
    · exact ih hx

theorem Lies.bounds (h : Lies c o l e) (hx : x ∈ l) : o ≤ x.offset ∧ x.next ≤ e := by
  induction h with
  | nil => cases hx
  | @cons y _ _ _ h ih =>
    have := y.lt_next
    rcases List.mem_cons.mp hx with rfl | hx
    · exact ⟨Nat.le_refl _, h.le⟩
    · have := ih hx
      omega

/-- Different instructions have different bytes. -/
theorem Lies.apart (h : Lies c o l e) (hx : x ∈ l) (hy : y ∈ l) :
    x = y ∨ x.next ≤ y.offset ∨ y.next ≤ x.offset := by
  induction h with
  | nil => cases hx
  | cons _ h ih =>
    rcases List.mem_cons.mp hx with rfl | hx' <;> rcases List.mem_cons.mp hy with rfl | hy'
    · exact .inl rfl
    · exact .inr (.inl (h.bounds hy').1)
    · exact .inr (.inr (h.bounds hx').1)
    · exact ih hx' hy'

/-- Every byte belongs to an instruction. -/
theorem Lies.covers (h : Lies c o l e) {i : Nat} (ho : o ≤ i) (he : i < e) :
    ∃ x ∈ l, x.offset ≤ i ∧ i < x.next := by
  induction h with
  | nil => omega
  | @cons x l e _ _ ih =>
    by_cases hi : i < x.next
    · exact ⟨x, List.mem_cons_self, ho, hi⟩
    · obtain ⟨y, hy, hbounds⟩ := ih (Nat.le_of_not_lt hi) he
      exact ⟨y, List.mem_cons_of_mem _ hy, hbounds⟩

theorem Lies.congr (h : Lies c o l e)
    (hsame : ∀ x ∈ l, Emitted c x.line x.offset x.op x.operand →
      Emitted c' x.line x.offset x.op x.operand) :
    Lies c' o l e := by
  induction h with
  | nil o => exact .nil o
  | cons hx _ ih =>
    exact .cons (hsame _ List.mem_cons_self hx) (ih fun y hy => hsame y (List.mem_cons_of_mem _ hy))

theorem Lies.snoc (h : Lies c o l x.offset) (hx : Emitted c x.line x.offset x.op x.operand) :
    Lies c o (l ++ [x]) x.next := by
  generalize he : x.offset = e at h
  induction h with
  | nil o =>
    subst he
    exact .cons hx (.nil _)
  | cons hy _ ih => exact .cons hy (ih he)

/-- Reading code meets the instructions that lie in it. -/
theorem Lies.decode (h : Lies c o l c.size) :
    c.decode? o = some (l.map fun x => (x.offset, x.op)) := by
  generalize he : c.size = e at h
  induction h with
  | nil o =>
    subst he
    rw [Chunk.decode?, if_neg (Nat.lt_irrefl _)]
    rfl
  | @cons x l e hx _ ih =>
    have hlt := Chunk.lt_size_of_opcode? hx.opcode
    rw [Chunk.decode?, if_pos hlt, hx.opcode, Option.bind_some, if_pos hx.fits,
      show x.offset + x.op.size = x.next from rfl,
      ih he]
    rfl

theorem Emitted.appends {line n o : Nat} {op : Opcode} {t : Text} (h : Emitted c n o op t)
    (happends : Appends line c c') :
    Emitted c' n o op t := by
  have hpos := op.size_pos
  have hfits := h.fits
  refine ⟨Nat.le_trans hfits happends.size, ?_,
    h.carries.congr fun _ i _ hi => happends.bytes i (by omega), fun i hlo hhi => ?_⟩
  · rw [opcode?_eq, happends.bytes o (by omega), ← opcode?_eq, h.opcode]
  · exact happends.old _ _ (h.lines i hlo hhi)

/-! ### Labels -/

/-- Where the first instruction stands that is not before line `n`; the code ends at `e`. -/
def startOf (l : List Placed) (e n : Nat) : Nat := (l.find? fun x => n ≤ x.line).elim e (·.offset)

theorem startOf_snoc (hx : n ≤ x.line) : startOf (l ++ [x]) x.next n = startOf l x.offset n := by
  unfold startOf
  rw [List.find?_append]
  cases l.find? fun x => n ≤ x.line with
  | some y => rfl
  | none => simp [hx]

/-- A jump as it waits for its label. -/
def Placed.fixup (x : Placed) : Fixup := ⟨x.offset, x.operand, x.line + 1⟩

/-- The code of function `k` while it is read: the instructions of the first `m` lines lie in it,
and the labels of the first `j` lines are known. -/
structure Laid (lines : List Text) (m j k : Nat) (d : Draft) (l : List Placed) : Prop where
  paired : d.chunk.lines.size = d.chunk.size
  lies : Lies d.chunk 0 l d.chunk.size
  order : l.map (·.line) = instructionLines lines m k
  reads : ∀ x ∈ l, ∃ raw, lines[x.line]? = some raw ∧ Instructs raw x.op x.operand
  fixups : d.fixups.toList = (l.filter (Leads ·.op)).map Placed.fixup
  labels : ∀ t o, d.labels.lookup t = some o → ∃ n < j, Labels lines k n t ∧
    o = startOf l d.chunk.size n
  known : ∀ n < j, ∀ t, Labels lines k n t → d.labels.lookup t ≠ none
  once : ∀ n n', n < j → n' < j → ∀ t, Labels lines k n t → Labels lines k n' t → n = n'

variable {j : Nat} {d d' : Draft} {raw : Text}

theorem laid_start (hnone : ∀ n < m, ¬ Belongs lines n k) {name : Text} {arity locals : Nat} :
    Laid lines m m k { name, arity, locals } [] := by
  refine ⟨rfl, .nil 0, ?_, nofun, rfl, nofun, fun n hn t h => absurd h.belongs (hnone n hn),
    fun n _ hn _ t h _ => absurd h.belongs (hnone n hn)⟩
  refine (List.filter_eq_nil_iff.mpr fun n hn => ?_).symm
  simp [hnone n (List.mem_range.mp hn)]

/-- A line without an instruction of this function. -/
theorem Laid.skip (h : Laid lines m j k d l) (hraw : lines[m]? = some raw)
    (hskip : Belongs lines m k → isInstruction raw = false) :
    Laid lines (m + 1) j k d l := by
  refine ⟨h.paired, h.lies, ?_, h.reads, h.fixups, h.labels, h.known, h.once⟩
  rw [instructionLines_succ hraw, if_neg fun hb => by simp [hskip hb.1] at hb,
    List.append_nil, h.order]

/-- A line without a label of this function. -/
theorem Laid.unlabelled (h : Laid lines m j k d l) (hnone : ∀ t, ¬ Labels lines k j t) :
    Laid lines m (j + 1) k d l := by
  have hlt : ∀ {n t}, n < j + 1 → Labels lines k n t → n < j := by
    intro n t hn hlabels
    refine Nat.lt_of_le_of_ne (Nat.le_of_lt_succ hn) ?_
    rintro rfl
    exact hnone t hlabels
  refine ⟨h.paired, h.lies, h.order, h.reads, h.fixups, fun t o ho => ?_,
    fun n hn t hlabels => h.known n (hlt hn hlabels) t hlabels,
    fun n n' hn hn' t hlabels hlabels' =>
      h.once n n' (hlt hn hlabels) (hlt hn' hlabels') t hlabels hlabels'⟩
  obtain ⟨n, hn, hlabels, rfl⟩ := h.labels t o ho
  exact ⟨n, Nat.lt_succ_of_lt hn, hlabels, rfl⟩

/-- A label stands where the code ends, as no instruction of its line or a later one is there. -/
theorem startOf_end (h : ∀ x ∈ l, x.line < n) : startOf l e n = e := by
  unfold startOf
  rw [List.find?_eq_none.mpr fun x hx => by simpa using h x hx]
  rfl

theorem Laid.line_lt (h : Laid lines m j k d l) (hx : x ∈ l) : x.line < m := by
  have hmem : x.line ∈ instructionLines lines m k := h.order ▸ List.mem_map_of_mem hx
  exact List.mem_range.mp (List.mem_filter.mp hmem).1

/-- A line with a new label. -/
theorem Laid.labelled {label : Text} (h : Laid lines m m k d l) (hlabels : Labels lines k m label)
    (hfresh : d.labels.lookup label = none) :
    Laid lines m (m + 1) k { d with labels := (label, d.chunk.size) :: d.labels } l := by
  have hlookup : ∀ t, ((label, d.chunk.size) :: d.labels).lookup t = if t = label
      then some d.chunk.size else d.labels.lookup t := by
    intro t
    by_cases ht : t = label
    · simp [ht]
    · rw [List.lookup_cons, beq_eq_false_iff_ne.mpr ht, if_neg ht]
  have hunique : ∀ {t}, Labels lines k m t → t = label := fun ht =>
    Option.some.inj (ht.label.symm.trans hlabels.label)
  have hold : ∀ {n t}, n < m → Labels lines k n t → t ≠ label := by
    rintro n t hn ht rfl
    exact h.known n hn _ ht hfresh
  refine ⟨h.paired, h.lies, h.order, h.reads, h.fixups, fun t o ho => ?_, fun n hn t ht => ?_,
    fun n n' hn hn' t ht ht' => ?_⟩
  · dsimp only at ho
    rw [hlookup] at ho
    split at ho
    · next heq =>
      subst heq
      cases ho
      exact ⟨m, Nat.lt_succ_self m, hlabels, (startOf_end fun x hx => h.line_lt hx).symm⟩
    · obtain ⟨n, hn, ht, rfl⟩ := h.labels t o ho
      exact ⟨n, Nat.lt_succ_of_lt hn, ht, rfl⟩
  · dsimp only
    rw [hlookup]
    split
    · exact Option.some_ne_none _
    · next hne =>
      refine h.known n (Nat.lt_of_le_of_ne (Nat.le_of_lt_succ hn) ?_) t ht
      rintro rfl
      exact hne (hunique ht)
  · rcases Nat.lt_succ_iff_lt_or_eq.mp hn
      with hn | rfl <;> rcases Nat.lt_succ_iff_lt_or_eq.mp hn' with hn' | rfl
    · exact h.once n n' hn hn' t ht ht'
    · exact absurd (hunique ht') (hold hn ht)
    · exact absurd (hunique ht) (hold hn' ht')
    · rfl

/-- A line with an instruction. -/
theorem Laid.emits {op : Opcode} {t : Text} (h : Laid lines m (m + 1) k d l)
    (hraw : lines[m]? = some raw)
    (hb : Belongs lines m k) (hinstructs : Instructs raw op t) (hemits : Emits (m + 1) op t d d') :
    Laid lines (m + 1) (m + 1) k d' (l ++ [⟨m, d.chunk.size, op, t⟩]) := by
  have hsize : d'.chunk.size = Placed.next ⟨m, d.chunk.size, op, t⟩ := hemits.size
  have hemitted : Emitted d'.chunk m d.chunk.size op t := by
    refine ⟨Nat.le_of_eq hemits.size.symm, hemits.opcode, hemits.carries, fun i hlo hhi => ?_⟩
    exact hemits.appends.new h.paired i hlo (hemits.size ▸ hhi)
  refine ⟨hemits.appends.paired h.paired, ?_, ?_, fun x hx => ?_, ?_, fun t o ho => ?_, ?_, h.once⟩
  · rw [hsize]
    exact Lies.snoc (h.lies.congr fun x _ hx => hx.appends hemits.appends) hemitted
  · rw [List.map_append, h.order, instructionLines_succ hraw, if_pos ⟨hb, hinstructs.instruction⟩]
    rfl
  · rcases List.mem_append.mp hx with hx | hx
    · exact h.reads x hx
    · obtain rfl := List.mem_singleton.mp hx
      exact ⟨raw, hraw, hinstructs⟩
  · rw [hemits.fixups, List.filter_append, List.filter_singleton, List.map_append, ← h.fixups]
    by_cases hleads : Leads op <;> simp [hleads, Placed.fixup]
  · rw [hemits.labels] at ho
    obtain ⟨n, hn, hlabels, rfl⟩ := h.labels t o ho
    exact ⟨n, hn, hlabels, by rw [hsize, startOf_snoc (Nat.le_of_lt_succ hn)]⟩
  · rw [hemits.labels]
    exact h.known

/-- A statement of this function. -/
theorem Laid.statement (h : Laid lines m m k d l) (hraw : lines[m]? = some raw)
    (hb : Belongs lines m k)
    (hs : Emission (m + 1) raw d d') : ∃ l', Laid lines (m + 1) (m + 1) k d' l' := by
  have hlabel : ∀ {t}, Labels lines k m t → labelOf? raw = some t := fun ht => by
    simpa [hraw] using ht.label
  have hlabels : ∀ {t}, labelOf? raw = some t → Labels lines k m t :=
    fun ht => ⟨hb, by simpa [hraw] using ht⟩
  cases hs with
  | marks hquiet ht hfresh h' =>
    subst h'
    exact ⟨l, (h.labelled (hlabels ht) hfresh).skip hraw fun _ => hquiet⟩
  | plain ht hinstructs hemits =>
    refine ⟨_, (h.unlabelled fun t ht' => ?_).emits hraw hb hinstructs hemits⟩
    rw [hlabel ht'] at ht
    cases ht
  | marked ht hfresh hinstructs hemits =>
    exact ⟨_, (h.labelled (hlabels ht) hfresh).emits hraw hb hinstructs hemits⟩

/-! ### Jumps -/

theorem putU16?_of_le {i : Nat} (h : i + 2 ≤ c.size) (v : UInt16) : ∃ code : ByteArray,
    (c.putU16? (i : Int) v).getD c = { c with code } ∧ code.size = c.size ∧
    ∀ a : Nat, ({ c with code } : Chunk).byte? a =
      if a = i then some (v >>> 8).toUInt8 else if a = i + 1 then some v.toUInt8
      else c.byte? a := by
  unfold Chunk.putU16?
  rw [if_pos (by simp; omega)]
  refine ⟨_, rfl, ?_, fun a => ?_⟩
  · exact (Array.size_setIfInBounds ..).trans (Array.size_setIfInBounds ..)
  · unfold Chunk.byte?
    rw [if_pos (Int.natCast_nonneg a), if_pos (Int.natCast_nonneg a)]
    show ((c.code.data.setIfInBounds i _).setIfInBounds (i + 1) _)[a]? = if a = i then _
      else if a = i + 1 then _ else c.code.data[a]?
    have hsize : c.code.data.size = c.size := rfl
    rw [Array.getElem?_setIfInBounds, Array.getElem?_setIfInBounds, Array.size_setIfInBounds]
    split_ifs <;> first | rfl | omega

/-- The code after one jump was filled in: it leads where its label is, and nothing else has
changed. -/
structure Filled (c c' : Chunk) (x : Placed) (target : Nat) : Prop where
  size : c'.size = c.size
  lines : c'.lines = c.lines
  bytes : ∀ i : Nat, i ≤ x.offset ∨ x.next ≤ i → c'.byte? i = c.byte? i
  target : c'.target? x.offset = some (target : Int)

theorem toInt_ofInt_distance {n : Int} (hlo : ¬ n < -32768) (hhi : ¬ 32767 < n) :
    (UInt16.ofInt n).toInt16.toInt = n := by
  show (BitVec.ofNat 16 (n % 2 ^ 16).toNat).toInt = n
  rw [BitVec.toInt_eq_toNat_bmod, BitVec.toNat_ofNat, Int.natCast_emod,
    Int.toNat_of_nonneg (Int.emod_nonneg n (by decide)),
    Int.emod_bmod]
  show (n % ((2 ^ 16 : Nat) : Int)).bmod (2 ^ 16) = n
  rw [Int.emod_bmod, Int.bmod_eq_of_le (by omega) (by omega)]

/-- The distance that is written for a jump brings it to its label. -/
theorem resolve_eq {labels : List (Text × Nat)} {f : Fixup} {op : Opcode}
    (hop : (c.byte? f.place).bind Opcode.ofByte? = some op) (h : resolve labels c f = .ok c') :
    ∃ (target : Nat) (v : UInt16), labels.lookup f.label = some target ∧
      c' = (c.putU16? ((f.place + 1 : Nat) : Int) v).getD c ∧
      (op = .loop → (f.place : Int) + 3 - v.toNat = target) ∧
      (op ≠ .loop → (f.place : Int) + 3 + v.toInt16.toInt = target) := by
  unfold resolve at h
  dsimp only at h
  split at h
  · cases h
  · next target hlookup =>
    simp only [hop] at h
    by_cases hloop : op = .loop
    · rw [if_pos (by simp [hloop])] at h
      split at h
      · cases h
      · next hrange =>
        simp only [Bool.or_eq_true, decide_eq_true_eq, not_or] at hrange
        refine ⟨target, _, hlookup, (Except.ok.inj h).symm, fun _ => ?_, absurd hloop⟩
        rw [toNat_place (by omega)]
        omega
    · rw [if_neg (by simp [hloop])] at h
      split at h
      · cases h
      · next hrange =>
        simp only [Bool.or_eq_true, decide_eq_true_eq, not_or] at hrange
        refine ⟨target, _, hlookup, (Except.ok.inj h).symm,
          fun heq => absurd heq hloop, fun _ => ?_⟩
        rw [toInt_ofInt_distance (by omega) (by omega)]
        omega

theorem Leads.eq_loop {op : Opcode} (h : op.operand = .loop) : op = .loop := by
  cases op <;> first | rfl | cases h

theorem resolve_fills {labels : List (Text × Nat)} (hx : Emitted c x.line x.offset x.op x.operand)
    (hleads : Leads x.op)
    (h : resolve labels c x.fixup = .ok c') :
    ∃ target, labels.lookup x.operand = some target ∧ Filled c c' x target := by
  have hnext : x.next = x.offset + 3 := by rw [Placed.next, hleads.size]
  have hfits : x.next ≤ c.size := hx.fits
  have hopcode : (c.byte? x.offset).bind Opcode.ofByte? = some x.op := by
    rw [← opcode?_eq, hx.opcode]
  obtain ⟨b, hb, hop⟩ := Option.bind_eq_some_iff.mp hopcode
  obtain ⟨target, v, hlookup, hc', hloop, hjump⟩ := resolve_eq hopcode h
  change c' = (c.putU16? ((x.offset + 1 : Nat) : Int) v).getD c at hc'
  obtain ⟨code, hcode, hsize, hbytes⟩ := putU16?_of_le (c := c) (i := x.offset + 1) (by omega) v
  rw [hcode] at hc'
  subst hc'
  have hword : ({ c with code } : Chunk).u16? ((x.offset : Int) + 1) = some v := by
    rw [show (x.offset : Int) + 1 = ((x.offset + 1 : Nat) : Int) from rfl, u16?_eq, hbytes,
      hbytes, if_pos rfl,
      if_neg (by omega), if_pos rfl]
    exact congrArg some (join_bytes v)
  have hfirst : ({ c with code } : Chunk).byte? x.offset = some b := by
    rw [hbytes, if_neg (by omega), if_neg (by omega), hb]
  refine ⟨target, hlookup, hsize, rfl, fun i hi => ?_, ?_⟩
  · rw [hbytes, if_neg (by omega), if_neg (by omega)]
  · unfold Chunk.target?
    rw [hfirst, Option.bind_eq_bind, Option.bind_some, byteOperand_of_opcode hop,
      byteSize_of_opcode hop, hleads.size]
    rcases hleads with hoperand | hoperand
    · have hne : x.op ≠ .loop := by
        intro heq
        rw [heq] at hoperand
        cases hoperand
      rw [hoperand]
      dsimp only
      rw [Chunk.i16?, hword]
      exact congrArg some (hjump hne)
    · rw [hoperand]
      dsimp only
      rw [hword]
      exact congrArg some (hloop (Leads.eq_loop hoperand))

/-- Filling in a jump leaves what the instructions are. -/
theorem Filled.emitted {target : Nat} (h : Filled c c' x target) (hx : Leads x.op)
    (hy : Emitted c y.line y.offset y.op y.operand)
    (hapart : x = y ∨ x.next ≤ y.offset ∨ y.next ≤ x.offset) :
    Emitted c' y.line y.offset y.op y.operand := by
  have hlt := y.lt_next
  have hfirst : y.offset ≤ x.offset ∨ x.next ≤ y.offset := by
    rcases hapart with rfl | hlo | hhi <;> omega
  refine ⟨h.size ▸ hy.fits, ?_, hy.carries.congr fun hleads i hlo hhi => h.bytes i ?_,
    by rw [h.lines]; exact hy.lines⟩
  · rw [opcode?_eq, h.bytes _ hfirst, ← opcode?_eq, hy.opcode]
  · change i < y.next at hhi
    rcases hapart with rfl | hlo' | hhi'
    · exact absurd hx hleads
    · omega
    · omega

theorem target?_congr {o : Nat} (hsame : ∀ i : Nat, o ≤ i → i < o + 3 → c'.byte? i = c.byte? i) :
    c'.target? o = c.target? o := by
  have hbyte := hsame o (by omega) (by omega)
  have hword : c'.u16? ((o : Int) + 1) = c.u16? ((o : Int) + 1) := by
    rw [show (o : Int) + 1 = ((o + 1 : Nat) : Int) from rfl, u16?_eq, u16?_eq,
      hsame (o + 1) (by omega) (by omega),
      hsame (o + 1 + 1) (by omega) (by omega)]
  rw [Chunk.target?, Chunk.target?, hbyte, Chunk.i16?, Chunk.i16?, hword]

/-- Filling in the jumps `jumps` of a function brings each of them to its label. -/
theorem resolveAll_fills {labels : List (Text × Nat)} {jumps : List Placed} (hl : Lies c o l e)
    (hjumps : ∀ x ∈ jumps, x ∈ l ∧ Leads x.op)
    (h : (jumps.map Placed.fixup).foldlM (resolve labels) c = .ok c') :
    Lies c' o l e ∧ c'.size = c.size ∧ c'.lines = c.lines ∧
      (∀ x ∈ jumps, ∃ target : Nat, labels.lookup x.operand = some target ∧
        c'.target? x.offset = some (target : Int)) ∧
      ∀ y ∈ l, Leads y.op → y ∉ jumps → c'.target? y.offset = c.target? y.offset := by
  induction jumps generalizing c with
  | nil =>
    cases h
    exact ⟨hl, rfl, rfl, nofun, fun _ _ _ _ => rfl⟩
  | cons x rest ih =>
    obtain ⟨hx, hleads⟩ := hjumps x List.mem_cons_self
    obtain ⟨c₁, hfirst, hrest⟩ := answer_eq_ok h
    obtain ⟨target, hlookup, hfilled⟩ := resolve_fills (hl.emitted hx) hleads hfirst
    have hl₁ : Lies c₁ o l e := hl.congr fun y hy hemitted =>
      hfilled.emitted hleads hemitted (hl.apart hx hy)
    obtain ⟨hl', hsize, hlines, htargets, hothers⟩ :=
      ih hl₁ (fun y hy => hjumps y (List.mem_cons_of_mem x hy)) hrest
    refine ⟨hl', hsize.trans hfilled.size, hlines.trans hfilled.lines, fun y hy => ?_,
      fun y hy hy' hnot => ?_⟩
    · by_cases hmem : y ∈ rest
      · exact htargets y hmem
      · obtain rfl : y = x := (List.mem_cons.mp hy).resolve_right hmem
        exact ⟨target, hlookup, by rw [hothers y hx hleads hmem, hfilled.target]⟩
    · rw [hothers y hy hy' fun hmem => hnot (List.mem_cons_of_mem x hmem)]
      refine target?_congr fun i hlo hhi => hfilled.bytes i ?_
      have hnext : y.next = y.offset + 3 := by rw [Placed.next, hy'.size]
      rcases hl.apart hx hy with rfl | happart | happart
      · exact absurd List.mem_cons_self hnot
      · omega
      · omega

/-! ### Whole functions -/

/-- The code of function `k` once its jumps are filled in, after `m` lines. -/
structure Done (lines : List Text) (m k : Nat) (c : Chunk) (l : List Placed) : Prop where
  paired : c.lines.size = c.size
  lies : Lies c 0 l c.size
  order : l.map (·.line) = instructionLines lines m k
  reads : ∀ x ∈ l, ∃ raw, lines[x.line]? = some raw ∧ Instructs raw x.op x.operand
  leads : ∀ x ∈ l, Leads x.op → ∃ n < m, Labels lines k n x.operand ∧
    (∀ n' < m, Labels lines k n' x.operand → n' = n) ∧
    c.target? x.offset = some (startOf l c.size n : Int)

theorem Laid.finish (h : Laid lines m m k d l)
    (hc : d.fixups.foldlM (resolve d.labels) d.chunk = .ok c) :
    Done lines m k c l := by
  rw [← Array.foldlM_toList, h.fixups] at hc
  have hmem : ∀ x ∈ l.filter (Leads ·.op), x ∈ l ∧ Leads x.op := fun x hx => by simpa using hx
  obtain ⟨hl, hsize, hlines, htargets, -⟩ := resolveAll_fills h.lies hmem hc
  rw [← hsize] at hl
  refine ⟨by rw [hlines, hsize, h.paired], hl, h.order, h.reads, fun x hx hleads => ?_⟩
  obtain ⟨target, hlookup, htarget⟩ := htargets x (by simpa using ⟨hx, hleads⟩)
  obtain ⟨n, hn, hlabels, rfl⟩ := h.labels _ _ hlookup
  exact ⟨n, hn, hlabels, fun n' hn' hlabels' => h.once n' n hn' hn _ hlabels' hlabels,
    by rw [htarget, hsize]⟩

/-- Linking constants leaves code. -/
theorem Done.linked (h : Done lines m k c l) (constants : Array Value) :
    Done lines m k { c with constants } l :=
  ⟨h.paired, h.lies.congr fun _ _ hx => ⟨hx.fits, hx.opcode,
    hx.carries.congr fun _ _ _ _ => rfl, hx.lines⟩, h.order, h.reads,
    h.leads⟩

/-- A line without an instruction or a label of this function. -/
theorem Done.skip (h : Done lines m k c l) (hraw : lines[m]? = some raw)
    (hskip : Belongs lines m k → isInstruction raw = false ∧ labelOf? raw = none) :
    Done lines (m + 1) k c l := by
  refine ⟨h.paired, h.lies, ?_, h.reads, fun x hx hleads => ?_⟩
  · rw [instructionLines_succ hraw, if_neg fun hb => by simp [(hskip hb.1).1] at hb,
      List.append_nil, h.order]
  · obtain ⟨n, hn, hlabels, honly, htarget⟩ := h.leads x hx hleads
    refine ⟨n, Nat.lt_succ_of_lt hn, hlabels, fun n' hn' hlabels' => ?_, htarget⟩
    refine honly n' (Nat.lt_of_le_of_ne (Nat.le_of_lt_succ hn') ?_) hlabels'
    rintro rfl
    have hlabel := hlabels'.label
    rw [hraw, Option.bind_some, (hskip hlabels'.belongs).2] at hlabel
    cases hlabel

theorem Laid.skips (h : Laid lines m m k d l) (hraw : lines[m]? = some raw)
    (hquiet : isInstruction raw = false)
    (hlabel : labelOf? raw = none) : Laid lines (m + 1) (m + 1) k d l := by
  refine (h.unlabelled fun t hlabels => ?_).skip hraw fun _ => hquiet
  have hlabel' := hlabels.label
  rw [hraw, Option.bind_some, hlabel] at hlabel'
  cases hlabel'

/-! ### Lines of a text -/

/-- What a line does to the functions that were read before. -/
inductive Reads (line : Nat) (raw : Text) (s s' : State) : Prop
  | nothing (hraw : isDirective raw = false) (hquiet : isInstruction raw = false)
      (hlabel : labelOf? raw = none) (h : s' = s)
  | declares {s₁ : State} {name : Text} {arity locals : Nat} (hraw : isDirective raw = true)
      (hfinish : s.finish = .ok s₁)
      (hdeclares : declares? raw = some (name, (arity : Int), (locals : Int)))
      (h : s' = { s₁ with draft := some { name, arity, locals } })
  | states {d d' : Draft} {pending : Array Pending} (hraw : isDirective raw = false)
      (hdraft : s.draft = some d)
      (hemission : Emission line raw d d') (h : s' = { s with draft := some d', pending })

theorem directive_declares {line : Nat} (s : State) (hraw : isDirective raw = true) :
    Answers (fun _ => True) (s.directive line (content raw)) (Reads line raw s) := by
  unfold State.directive
  dsimp only
  split
  · trivial
  · next hhead =>
    have hhead : (content raw).words.headD ∅ = Text.ofString ".func" := by simpa using hhead
    split
    case h_3 => trivial
    all_goals
      next hwords =>
      rw [hwords, List.headD_cons] at hhead
      show Answers _ (s.finish >>= _) _
      refine (finish_answers s).bind fun s' hs' => ?_
      dsimp only
      split
      · trivial
      · split
        · next hlocals =>
          first
          | refine .declares hraw hs' ?_ rfl
            simp [declares?, hwords, hhead, hlocals]
          | split
            · next harity =>
              refine .declares hraw hs' ?_ rfl
              simp [declares?, hwords, hhead, hlocals, harity]
            · trivial
        · trivial

theorem line_reads {line : Nat} {s s' : State}
    (h : s.line line raw = .ok s') : Reads line raw s s' := by
  unfold State.line at h
  dsimp only at h
  split at h
  · next hempty =>
    cases h
    have hcontent : content raw = ∅ := eq_empty_of_isEmpty hempty
    have hinstruction : instructionOf raw = ∅ := by
      unfold instructionOf
      rw [hcontent]
      decide
    refine .nothing ?_ ?_ ?_ rfl
    · unfold isDirective
      rw [hcontent]
      decide
    · unfold isInstruction
      rw [hinstruction]
      simp [show (∅ : Text).isEmpty = true from rfl]
    · unfold labelOf?
      rw [hcontent]
      split
      · rfl
      · decide
  · next hempty =>
    have hempty : (content raw).isEmpty = false := Bool.not_eq_true _ ▸ hempty
    split at h
    · next hraw =>
      have hdeclares := @directive_declares raw line s hraw
      rw [show s.directive line (content raw) = .ok s' from h] at hdeclares
      exact hdeclares
    · next hraw =>
      replace hraw : isDirective raw = false := by rw [← Bool.not_eq_true]; exact hraw
      split at h
      · cases h
      · next d hdraft =>
        split at h
        · cases h
        · next d' pending hx =>
          cases h
          exact .states hraw hdraft (statement_emits hraw hempty hx) rfl

/-! ### The whole text -/

/-- What a directive declares of a function. -/
def Draft.heading (d : Draft) : Text × Int × Int := (d.name, d.arity, d.locals)

def heading (f : Function) : Text × Int × Int := (f.name, f.arity, f.locals)

/-- What is known of all functions after `m` lines. -/
structure Transcript (lines : List Text) (m : Nat) (s : State) : Prop where
  headings : (s.functions.toList.map heading ++ s.draft.toList.map Draft.heading).map some =
    ((lines.take m).filter isDirective).map declares?
  ids : ∀ (i : Nat) f, s.functions[i]? = some f → f.id = (i + 1).toUInt32
  finished : ∀ (i : Nat) f, s.functions[i]? = some f → ∃ c l, f.chunk = some c ∧ Done lines m i c l
  draft : ∀ d, s.draft = some d → ∃ l, Laid lines m m s.functions.size d l

variable {s s' : State}

theorem Transcript.count (h : Transcript lines m s) :
    (lines.take m).countP isDirective = s.functions.size + s.draft.toList.length := by
  have hlength := congrArg List.length h.headings
  simp only [List.length_map, List.length_append, Array.length_toList] at hlength
  rw [List.countP_eq_length_filter, hlength]

theorem Transcript.finish (h : Transcript lines m s) (hs : s.finish = .ok s') :
    Transcript lines m s' ∧ s'.draft = none := by
  unfold State.finish at hs
  cases hd : s.draft with
  | none =>
    rw [hd] at hs
    cases hs
    exact ⟨h, hd⟩
  | some d =>
    rw [hd] at hs
    obtain ⟨f, hf, hs⟩ := answer_eq_ok hs
    cases hs
    obtain ⟨c, hc, hf⟩ := answer_eq_ok hf
    cases hf
    refine ⟨⟨?_, fun i f hi => ?_, fun i f hi => ?_, nofun⟩, rfl⟩
    · rw [← h.headings, hd]
      simp [heading, Draft.heading]
    all_goals
      rw [Array.getElem?_push] at hi
      split at hi
    · next heq =>
      cases hi
      rw [heq]
    · exact h.ids i f hi
    · next heq =>
      cases hi
      obtain ⟨l, hl⟩ := h.draft d hd
      exact ⟨c, l, rfl, heq ▸ hl.finish hc⟩
    · exact h.finished i f hi

/-- The headings after a line that is not a directive. -/
theorem filter_take_succ (hraw : lines[m]? = some raw) :
    ((lines.take (m + 1)).filter isDirective).map declares? =
    ((lines.take m).filter isDirective).map declares? ++ if isDirective raw = true
    then [declares? raw] else [] := by
  rw [List.take_add_one, hraw, List.filter_append, List.map_append, Option.toList_some,
    List.filter_singleton]
  cases isDirective raw <;> rfl

theorem Emission.heading {line : Nat} (h : Emission line raw d d') : d'.heading = d.heading := by
  cases h with
  | marks _ _ _ h =>
    subst h
    rfl
  | plain _ _ h | marked _ _ _ h =>
    obtain ⟨hname, harity, hlocals⟩ := h.heading
    simp only [Draft.heading, hname, harity, hlocals]

theorem Transcript.line (h : Transcript lines m s) (hraw : lines[m]? = some raw)
    (hs : Reads (m + 1) raw s s') :
    Transcript lines (m + 1) s' := by
  cases hs with
  | nothing hdirective hquiet hlabel hs =>
    subst hs
    refine ⟨?_, h.ids, fun i f hi => ?_, fun d hd => ?_⟩
    · rw [filter_take_succ hraw, hdirective, if_neg Bool.false_ne_true, List.append_nil, h.headings]
    · obtain ⟨c, l, hc, hdone⟩ := h.finished i f hi
      exact ⟨c, l, hc, hdone.skip hraw fun _ => ⟨hquiet, hlabel⟩⟩
    · obtain ⟨l, hl⟩ := h.draft d hd
      exact ⟨l, hl.skips hraw hquiet hlabel⟩
  | @declares s₁ name arity locals hdirective hfinish hdeclares hs =>
    subst hs
    obtain ⟨h₁, hdraft⟩ := h.finish hfinish
    have hcount := h₁.count
    rw [hdraft] at hcount
    refine ⟨?_, h₁.ids, fun i f hi => ?_, fun d hd => ?_⟩
    · rw [filter_take_succ hraw, hdirective, if_pos rfl, ← h₁.headings, hdraft, hdeclares]
      simp [Draft.heading]
    · obtain ⟨c, l, hc, hdone⟩ := h₁.finished i f hi
      refine ⟨c, l, hc, hdone.skip hraw fun _ => ?_⟩
      simp [isInstruction, labelOf?, hdirective]
    · obtain rfl := Option.some.inj hd
      refine ⟨[], laid_start fun n hn hb => ?_⟩
      have hle := (List.take_sublist_take_left (l := lines) (Nat.le_of_lt_succ hn)).countP_le
        (p := isDirective)
      replace hb : (lines.take n).countP isDirective = s₁.functions.size + 1 := hb
      simp only [Option.toList_none, List.length_nil] at hcount
      omega
  | @states d d' pending hdirective hdraft hemission hs =>
    subst hs
    have hcount := h.count
    rw [hdraft] at hcount
    refine ⟨?_, h.ids, fun i f hi => ?_, fun e he => ?_⟩
    · rw [filter_take_succ hraw, hdirective, if_neg Bool.false_ne_true, List.append_nil,
        ← h.headings, hdraft]
      simp [hemission.heading]
    · obtain ⟨c, l, hc, hdone⟩ := h.finished i f hi
      have hi' := (Array.getElem?_eq_some_iff.mp hi).1
      refine ⟨c, l, hc, hdone.skip hraw fun hb => ?_⟩
      replace hi' : i < s.functions.size := hi'
      unfold Belongs at hb
      simp only [Option.toList_some, List.length_singleton] at hcount
      omega
    · obtain rfl := Option.some.inj he
      obtain ⟨l, hl⟩ := h.draft d hdraft
      exact hl.statement hraw hcount hemission

theorem transcript_start : Transcript lines 0 {} := ⟨by simp, nofun, nofun, nofun⟩

/-- The functions of a text before its constants are linked. -/
theorem parse_transcribes {text : Text} {p : Program} (h : parse text = .ok p) :
    ∃ s, Transcript (text.split 10) (text.split 10).length s ∧
    s.draft = none ∧ s.pending.toList.foldlM link s.functions = .ok p.functions ∧
    p.main = .listed ((p.lookup? "main").getD 0) :=
  parse_keeps transcript_start (fun _ _ _ _ hraw h hs => h.line hraw (line_reads hs))
    (fun _ _ _ h hs => (h.finish hs).1) h

/-- The code `c` of function `k` is its instruction lines in their order. -/
structure Transcribed (lines : List Text) (k : Nat) (c : Chunk) (l : List Placed) : Prop where
  /-- Reading the code from its start gives these instructions. -/
  decoded : c.decode? 0 = some (l.map fun x => (x.offset, x.op))
  /-- They are the instructions of these lines. -/
  order : l.map (·.line) = instructionLines lines lines.length k
  reads : ∀ x ∈ l, ∃ raw, lines[x.line]? = some raw ∧ Instructs raw x.op x.operand
  carries : ∀ x ∈ l, Carries c x.offset x.op x.operand
  /-- Beside every byte stands the line of its instruction, counted from one. -/
  numbered : c.lines.size = c.size ∧
    ∀ i < c.size, ∃ x ∈ l, x.offset ≤ i ∧ i < x.next ∧ c.line i = ((x.line + 1 : Nat) : Int)
  /-- A jump leads to the first instruction that is not before the line of its label. -/
  leads : ∀ x ∈ l, Leads x.op → ∃ n, Labels lines k n x.operand ∧
    (∀ n', Labels lines k n' x.operand → n' = n) ∧
    ∃ y ∈ l, n ≤ y.line ∧ (∀ z ∈ l, n ≤ z.line → y.line ≤ z.line) ∧
      c.target? x.offset = some (y.offset : Int)

theorem Lies.reaches (h : Lies c o l e) (hx : x ∈ l) : Reaches c o x.offset := by
  induction h with
  | nil => cases hx
  | @cons y l e hy _ ih =>
    rcases List.mem_cons.mp hx with rfl | hx
    · exact .here _
    · obtain ⟨b, hb, hop⟩ := Chunk.opcode?_eq_some_iff.mp hy.opcode
      refine .behind hb ?_
      rw [byteSize_of_opcode hop]
      exact ih hx

/-- The lines of instructions increase. -/
theorem sorted_instructionLines : (instructionLines lines m k).Pairwise (· < ·) :=
  List.pairwise_lt_range.filter _

theorem find?_first (hsorted : (l.map (·.line)).Pairwise (· < ·))
    (h : l.find? (fun x => n ≤ x.line) = some y) :
    ∀ z ∈ l, n ≤ z.line → y.line ≤ z.line := by
  induction l with
  | nil => cases h
  | cons x l ih =>
    rw [List.map_cons, List.pairwise_cons] at hsorted
    intro z hz hnz
    rw [List.find?_cons] at h
    split at h
    · cases h
      rcases List.mem_cons.mp hz with rfl | hz
      · exact Nat.le_refl _
      · exact Nat.le_of_lt (hsorted.1 _ (List.mem_map_of_mem hz))
    · next hx =>
      rcases List.mem_cons.mp hz with rfl | hz
      · simp [hnz] at hx
      · exact ih hsorted.2 h z hz hnz

theorem Labels.lt {t : Text} (h : Labels lines k n t) : n < lines.length := by
  by_contra hn
  have hlabel := h.label
  rw [List.getElem?_eq_none (Nat.le_of_not_lt hn)] at hlabel
  cases hlabel

/-- Verified code is transcribed: there is an instruction wherever a jump leads. -/
theorem Done.transcribed {f : Function} (h : Done lines lines.length k c l) (hf : Runnable f c) :
    Transcribed lines k c l := by
  refine ⟨h.lies.decode, h.order, h.reads, fun x hx => (h.lies.emitted hx).carries,
    ⟨h.paired, fun i hi => ?_⟩, fun x hx hleads => ?_⟩
  · obtain ⟨x, hx, hlo, hhi⟩ := h.lies.covers (Nat.zero_le i) hi
    refine ⟨x, hx, hlo, hhi, ?_⟩
    rw [Chunk.line, if_pos (Int.natCast_nonneg i), Int.toNat_natCast,
      (h.lies.emitted hx).lines i hlo hhi]
    rfl
  · obtain ⟨n, -, hlabels, honly, htarget⟩ := h.leads x hx hleads
    refine ⟨n, hlabels, fun n' hlabels' => honly n' hlabels'.lt hlabels', ?_⟩
    have hopcode := (h.lies.emitted hx).opcode
    obtain ⟨j, hj, hstarts⟩ :=
      hf.jump ⟨h.lies.reaches hx, Chunk.lt_size_of_opcode? hopcode⟩ hopcode hleads
    rw [htarget] at hj
    have hlt : startOf l c.size n < c.size := by
      have := hstarts.2
      have := Option.some.inj hj
      omega
    rw [htarget]
    unfold startOf at hlt ⊢
    cases hfind : l.find? fun x => n ≤ x.line with
    | none =>
      rw [hfind] at hlt
      exact absurd hlt (Nat.lt_irrefl _)
    | some y =>
      refine ⟨y, List.mem_of_find?_eq_some hfind, by simpa using List.find?_some hfind, ?_, rfl⟩
      exact find?_first (h.order ▸ sorted_instructionLines) hfind

/-! ### Accepted texts -/

theorem assemble_eq_ok {file text : Text} {p : Program} (h : assemble file text = .ok p) :
    ∃ q, parse text = .ok q ∧ p = q.verify.1 ∧ q.verify.2 = [] := by
  obtain ⟨q, hq, hp⟩ := answer_eq_ok h
  have hparse : parse text = .ok q := by
    cases hparse : parse text with
    | error e =>
      rw [hparse] at hq
      cases hq
    | ok q' =>
      rw [hparse] at hq
      cases hq
      rfl
  dsimp only at hp
  split at hp
  · next hempty => exact ⟨q, hparse, (Except.ok.inj hp).symm, List.isEmpty_iff.mp hempty⟩
  · cases hp

/-- Verification changes nothing but the recorded depths. -/
theorem verify_keeps {β : Type} {g : Function → β}
    (hg : ∀ f maxStack, g { f with maxStack } = g f) (p : Program) :
    p.verify.1.functions.map g = p.functions.map g := by
  simp only [Program.verify, Array.map_map]
  refine Array.map_congr_left fun f _ => ?_
  obtain ⟨m, hm⟩ := f.verify_fst
  rw [Function.comp_apply, Function.comp_apply, hm, hg]

theorem lookup?_eq (p : Program) (name : Text) :
    p.lookup? name = (p.functions.map (·.name)).findIdx? (· == name) := by
  rw [Array.findIdx?_map]
  rfl

/-- The functions of an accepted program are those that were read, with their constants linked. -/
structure Accepted (p : Program) (s : State) : Prop where
  headings : p.functions.map heading = s.functions.map heading
  ids : p.functions.map (·.id) = s.functions.map (·.id)
  chunks : ∀ (k : Nat) f f₀ c, p.functions[k]? = some f → s.functions[k]? = some f₀ →
    f₀.chunk = some c →
    ∃ constants, f.chunk = some { c with constants }
  main : p.main = .listed ((p.lookup? "main").getD 0)
  loaded : p.Loaded

theorem assemble_transcribes {file text : Text} {p : Program} (h : assemble file text = .ok p) :
    ∃ s, Transcript (text.split 10) (text.split 10).length s ∧ s.draft = none ∧ Accepted p s := by
  obtain ⟨q, hparse, rfl, hclean⟩ := assemble_eq_ok h
  obtain ⟨s, htranscript, hdraft, hlink, hmain⟩ := parse_transcribes hparse
  refine ⟨s, htranscript, hdraft, ?_, ?_, fun k f f₀ c hf hf₀ hc => ?_, ?_, ?_⟩
  · rw [verify_keeps (fun _ _ => rfl), linkAll_keeps (fun _ _ => rfl) hlink]
  · rw [verify_keeps (fun _ _ => rfl), linkAll_keeps (fun _ _ => rfl) hlink]
  · obtain ⟨f₁, hf₁, hlinked⟩ := (linkAll_links hlink).2 k f₀ hf₀
    obtain ⟨constants, hchunk, -⟩ := hlinked.chunk c hc
    rw [Program.getElem?_verify, hf₁, Option.map_some] at hf
    obtain ⟨m, hm⟩ := f₁.verify_fst
    obtain rfl := Option.some.inj (hm ▸ hf)
    exact ⟨constants, hchunk⟩
  · rw [lookup?_eq, verify_keeps (fun _ _ => rfl), ← lookup?_eq]
    exact hmain
  · have hstorable := parse_answers text
    rw [hparse] at hstorable
    exact hstorable.loaded hclean

/-- Distinct numbers of functions do not run out. -/
theorem lt_of_ids {functions : Array Function}
    (hids : ∀ (i : Nat) f, functions[i]? = some f → f.id = (i + 1).toUInt32)
    (hnodup : (functions.toList.map (·.id)).Nodup) : functions.size ≤ 2 ^ 32 := by
  by_contra hlt
  have hsame : ∀ i, i < functions.size → (functions.toList.map (·.id))[i]? =
      some (i + 1).toUInt32 := by
    intro i hi
    rw [List.getElem?_map, Array.getElem?_toList, Array.getElem?_eq_getElem hi, Option.map_some,
      hids i _ (Array.getElem?_eq_getElem hi)]
  have hwrapped : (functions.toList.map (·.id))[0]? = (functions.toList.map (·.id))[2 ^ 32]? := by
    rw [hsame 0 (by omega), hsame (2 ^ 32) (by omega)]
    rfl
  have := (List.getElem?_inj (by simp; omega) hnodup).mp hwrapped
  omega

/-- A text that assembles gives the functions of its directives in their order, numbered from one
on, and starts with the one named main, or else with the first one. The code of each function is its
instruction lines. -/
theorem text_transcribed {file text : Text} {p : Program} (h : assemble file text = .ok p) :
    (p.functions.toList.map heading).map some = ((text.split 10).filter isDirective).map declares? ∧
    (∃ i f, p.main = .listed i ∧ p.functions[i]? = some f ∧
      (f.name = "main" ∨ i = 0 ∧ ∀ g ∈ p.functions, g.name ≠ "main")) ∧
    ∀ (k : Nat) f, p.functions[k]? = some f → k < 2 ^ 32 ∧ f.id = (k + 1).toUInt32 ∧
      ∃ c l, f.chunk = some c ∧ Transcribed (text.split 10) k c l := by
  obtain ⟨s, htranscript, hdraft, haccepted⟩ := assemble_transcribes h
  have hids : ∀ (k : Nat) f, p.functions[k]? = some f →
      ∃ f₀, s.functions[k]? = some f₀ ∧ f.id = f₀.id := by
    intro k f hf
    have hk := congrArg (·[k]?) haccepted.ids
    simp only [Array.getElem?_map, hf, Option.map_some] at hk
    obtain ⟨f₀, hf₀, hid⟩ := Option.map_eq_some_iff.mp hk.symm
    exact ⟨f₀, hf₀, hid.symm⟩
  have hnumbers : ∀ (k : Nat) f, p.functions[k]? = some f → f.id = (k + 1).toUInt32 := by
    intro k f hf
    obtain ⟨f₀, hf₀, hid⟩ := hids k f hf
    exact hid.trans (htranscript.ids k f₀ hf₀)
  refine ⟨?_, ?_, fun k f hf => ⟨?_, hnumbers k f hf, ?_⟩⟩
  · have hheadings := htranscript.headings
    have hsame : p.functions.toList.map heading = s.functions.toList.map heading := by
      rw [← Array.toList_map, ← Array.toList_map, haccepted.headings]
    rw [hdraft, List.take_length, Option.toList_none, List.map_nil,
      List.append_nil, ← hsame] at hheadings
    exact hheadings
  · obtain ⟨i, f, hi, hf, -⟩ := haccepted.loaded.main
    refine ⟨i, f, hi, hf, ?_⟩
    have hfirst : i = (p.lookup? "main").getD 0 := Entry.listed.inj (hi.symm.trans haccepted.main)
    cases hlookup : p.lookup? "main" with
    | some j =>
      rw [hlookup, Option.getD_some] at hfirst
      subst hfirst
      obtain ⟨hlt, hname, -⟩ := Array.findIdx?_eq_some_iff_getElem.mp hlookup
      rw [Array.getElem?_eq_getElem hlt] at hf
      cases hf
      exact .inl (beq_iff_eq.mp hname)
    | none =>
      rw [hlookup, Option.getD_none] at hfirst
      refine .inr ⟨hfirst, fun g hg hname => ?_⟩
      have hnone := Array.findIdx?_eq_none_iff.mp hlookup g hg
      simp [hname] at hnone
  · have hle := lt_of_ids hnumbers haccepted.loaded.ids
    have := (Array.getElem?_eq_some_iff.mp hf).1
    omega
  · obtain ⟨f₀, hf₀, -⟩ := hids k f hf
    obtain ⟨c, l, hc, hdone⟩ := htranscript.finished k f₀ hf₀
    obtain ⟨constants, hchunk⟩ := haccepted.chunks k f f₀ c hf hf₀ hc
    obtain ⟨c', hc', hrunnable, -⟩ := haccepted.loaded.functions f (Array.mem_of_getElem? hf)
    rw [hchunk] at hc'
    cases hc'
    exact ⟨_, l, hchunk, (hdone.linked constants).transcribed hrunnable⟩

/-- A loop whose exit has its label behind it; semicolons and colons also stand in a comment
and a string. -/
def looping : Text :=
  .join "\n" [".func main 1", "\tconst 0 ; start: zero", "\tstore 0", "top:\tload 0",
    "\tconst \"a;b:c\"", "\tpop", "\tjumpf done", "\tloop top", "done:", "\tconst null", "\tret"]

/-- Its code is the instructions of these lines. -/
theorem looping_transcribed :
    ∃ p f c l, assemble ∅ looping = .ok p ∧ p.functions[0]? = some f ∧ f.chunk = some c ∧
    Transcribed (looping.split 10) 0 c l ∧ l.map (·.line) = [1, 2, 3, 4, 5, 6, 7, 9, 10] := by
  have haccepted : (assemble ∅ looping).toOption.isSome = true := by decide +kernel
  cases hp : assemble ∅ looping with
  | error e =>
    rw [hp] at haccepted
    cases haccepted
  | ok p =>
    obtain ⟨-, ⟨i, f, -, hi, -⟩, hfunctions⟩ := text_transcribed hp
    obtain ⟨f₀, hf₀⟩ : ∃ f₀, p.functions[0]? = some f₀ := by
      have := (Array.getElem?_eq_some_iff.mp hi).1
      exact ⟨_, Array.getElem?_eq_getElem (by omega)⟩
    obtain ⟨-, -, c, l, hc, hl⟩ := hfunctions 0 f₀ hf₀
    refine ⟨p, f₀, c, l, rfl, hf₀, hc, hl, hl.order.trans ?_⟩
    decide +kernel

end LoopTracer.Bytecode.Source
