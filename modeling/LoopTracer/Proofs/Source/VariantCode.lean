import LoopTracer.Proofs.Source.Variants
import LoopTracer.Proofs.Verification.Constants

/-! Programs that differ in constants.

The code of two texts that differ in the values that some lines load has the same instructions in
the same places (`Done.matches`), so verification accepts the one like the other: while no function
has too many constants, a text with other values assembles as well (`assemble_variant`). -/
namespace LoopTracer.Bytecode.Source

variable {lines lines' : List Text} {m n k : Nat} {raw raw' t t' : Text} {op op' : Opcode}
  {c c' : Chunk} {l l' : List Placed}
  {x x' : Placed} {o e e' : Nat}

/-! ### The same places -/

theorem Instructs.variant (h : Instructs raw op t) (h' : Instructs raw' op' t')
    (hv : Variant raw raw') :
    op' = op ∧ (op ≠ .const → t' = t) := by
  have hunique {raw : Text} {op op' : Opcode} {t t' : Text} (h : Instructs raw op t)
      (h' : Instructs raw op' t') : op' = op ∧ t' = t :=
    ⟨Option.some.inj (h'.opcode.symm.trans h.opcode), h'.operand.trans h.operand.symm⟩
  obtain rfl | ⟨u, v, ⟨-, s, hold, -⟩, ⟨-, s', hnew, -⟩⟩ := hv
  · exact ⟨(hunique h h').1, fun _ => (hunique h h').2⟩
  · obtain ⟨rfl, -⟩ := hunique h hold
    obtain ⟨rfl, -⟩ := hunique h' hnew
    exact ⟨rfl, fun hne => absurd rfl hne⟩

theorem variants_get {β : Type} {g : Text → β} (hg : ∀ raw raw', Variant raw raw' → g raw' = g raw)
    (h : List.Forall₂ Variant lines lines') (n : Nat) : lines'[n]?.map g = lines[n]?.map g := by
  rw [← List.getElem?_map, ← List.getElem?_map, variants_map hg h]

theorem variants_labels (h : List.Forall₂ Variant lines lines') :
    Labels lines' k n t ↔ Labels lines k n t := by
  have hbind (raw : Option Text) : raw.bind labelOf? = (raw.map labelOf?).bind id := by
    cases raw <;> rfl
  have hlabel : lines'[n]?.bind labelOf? = lines[n]?.bind labelOf? := by
    rw [hbind, hbind, variants_get (fun _ _ => Variant.label) h]
  constructor
  · rintro ⟨hb, ht⟩
    exact ⟨(variants_belongs h).mp hb, hlabel ▸ ht⟩
  · rintro ⟨hb, ht⟩
    exact ⟨(variants_belongs h).mpr hb, hlabel ▸ ht⟩

theorem variants_instructionLines (h : List.Forall₂ Variant lines lines') :
    instructionLines lines' m k = instructionLines lines m k := by
  have hany (raw : Option Text) : raw.any isInstruction = (raw.map isInstruction).any id := by
    cases raw <;> rfl
  unfold instructionLines
  refine List.filter_congr fun n _ => ?_
  rw [hany, hany, variants_get (fun _ _ => Variant.instruction) h,
    decide_eq_decide.mpr (variants_belongs h)]

/-- The same instruction in the same place, but for the constant that it loads. -/
structure Placed.Matches (x x' : Placed) : Prop where
  line : x'.line = x.line
  offset : x'.offset = x.offset
  op : x'.op = x.op
  operand : x.op ≠ .const → x'.operand = x.operand

/-- Instructions of the same lines lie in the same places. -/
theorem Lies.matches (h : Lies c o l e) (h' : Lies c' o l' e')
    (hlines : l'.map (·.line) = l.map (·.line))
    (hsame : ∀ x ∈ l, ∀ x' ∈ l', x'.line = x.line →
      x'.op = x.op ∧ (x.op ≠ .const → x'.operand = x.operand)) :
    List.Forall₂ Placed.Matches l l' ∧ e' = e := by
  induction h generalizing l' with
  | nil o =>
    obtain rfl := List.map_eq_nil_iff.mp hlines
    cases h'
    exact ⟨.nil, rfl⟩
  | @cons x l e hx _ ih =>
    obtain ⟨x', l', rfl, hline, hrest⟩ := List.map_eq_cons_iff.mp hlines
    generalize hoffset : x.offset = o at h'
    cases h' with
    | cons hx' h' =>
      obtain ⟨hop, hoperand⟩ := hsame x List.mem_cons_self x' List.mem_cons_self hline
      have hnext : x'.next = x.next := by rw [Placed.next, Placed.next, hop, hoffset]
      rw [hnext] at h'
      obtain ⟨hmatches, rfl⟩ := ih h' hrest fun y hy y' hy' =>
        hsame y (List.mem_cons_of_mem _ hy) y' (List.mem_cons_of_mem _ hy')
      exact ⟨.cons ⟨hline, hoffset.symm, hop, hoperand⟩ hmatches, rfl⟩

theorem Done.matches (h : Done lines m k c l) (h' : Done lines' m k c' l')
    (hv : List.Forall₂ Variant lines lines') :
    List.Forall₂ Placed.Matches l l' ∧ c'.size = c.size := by
  refine h.lies.matches h'.lies ?_ fun x hx x' hx' hline => ?_
  · rw [h.order, h'.order, variants_instructionLines hv]
  · obtain ⟨raw, hraw, hinstructs⟩ := h.reads x hx
    obtain ⟨raw', hraw', hinstructs'⟩ := h'.reads x' hx'
    rw [hline] at hraw'
    obtain ⟨hn, hget⟩ := List.getElem?_eq_some_iff.mp hraw
    obtain ⟨hn', hget'⟩ := List.getElem?_eq_some_iff.mp hraw'
    refine hinstructs.variant hinstructs' ?_
    rw [← hget, ← hget']
    exact (List.forall₂_iff_get.mp hv).2 x.line hn hn'

theorem matches_mem (h : List.Forall₂ Placed.Matches l l') (hx : x ∈ l) :
    ∃ x' ∈ l', Placed.Matches x x' := by
  induction h with
  | nil => cases hx
  | @cons y y' _ _ hy _ ih =>
    rcases List.mem_cons.mp hx with rfl | hx
    · exact ⟨y', List.mem_cons_self, hy⟩
    · obtain ⟨x', hx', hmatches⟩ := ih hx
      exact ⟨x', List.mem_cons_of_mem _ hx', hmatches⟩

theorem startOf_matches (h : List.Forall₂ Placed.Matches l l') (e n : Nat) :
    startOf l' e n = startOf l e n := by
  induction h with
  | nil => rfl
  | @cons x x' l l' hx _ ih =>
    unfold startOf at ih ⊢
    rw [List.find?_cons, List.find?_cons, hx.line]
    split
    · exact hx.offset
    · exact ih

/-- Reading code comes to no other places than those of its instructions. -/
theorem Lies.starts (h : Lies c o l c.size) {i : Nat} (hi : Reaches c o i)
    (hlt : i < c.size) : ∃ x ∈ l, x.offset = i := by
  induction hi generalizing l with
  | here o =>
    generalize he : c.size = e at h hlt
    cases h with
    | nil => exact absurd hlt (Nat.lt_irrefl _)
    | @cons x _ _ _ _ => exact ⟨x, List.mem_cons_self, rfl⟩
  | @behind o i b hb hi ih =>
    generalize he : c.size = e at h
    cases h with
    | nil =>
      have := hi.le
      omega
    | @cons x l _ hx h =>
      subst he
      obtain ⟨b', hb', hop⟩ := Chunk.opcode?_eq_some_iff.mp hx.opcode
      obtain rfl : b' = b := Option.some.inj (hb'.symm.trans hb)
      rw [byteSize_of_opcode hop] at ih
      obtain ⟨y, hy, hoffset⟩ := ih h hlt
      exact ⟨y, List.mem_cons_of_mem x hy, hoffset⟩

/-! ### The same behaviour in verification -/

/-- Every `const` has a constant. -/
def InPool (c : Chunk) (l : List Placed) : Prop :=
  ∀ x ∈ l, x.op = .const → ∃ index, c.u16? ((x.offset : Int) + 1) = some index ∧
    index.toNat < c.constants.size

theorem effect_congr {op : Opcode} {a b : UInt8}
    (hbuiltin : op = .builtin → Builtin.ofByte? a = Builtin.ofByte? b)
    (hcall : op = .call → a.toNat = b.toNat) : StackDepth.effect op a = StackDepth.effect op b := by
  cases op with
  | builtin => rw [StackDepth.effect, StackDepth.effect, hbuiltin rfl]
  | call => rw [StackDepth.effect, StackDepth.effect, hcall rfl]
  | _ => rfl

/-- Code that carries the same operand has the same effect. -/
theorem effectOf_congr (h : Carries c o op t) (h' : Carries c' o op t) :
    StackDepth.effectOf c' op o = StackDepth.effectOf c op o := by
  have hnext : ((o + 1 : Nat) : Int) = (o : Int) + 1 := Int.natCast_succ o
  unfold StackDepth.effectOf
  refine effect_congr ?_ ?_
  · rintro rfl
    obtain ⟨b, hb, hbyte⟩ := h
    obtain ⟨b', hb', hbyte'⟩ := h'
    obtain ⟨a, ha, hbuiltin⟩ := Option.bind_eq_some_iff.mp hbyte
    obtain ⟨a', ha', hbuiltin'⟩ := Option.bind_eq_some_iff.mp hbyte'
    rw [hnext] at ha ha'
    rw [ha, ha', Option.getD_some, Option.getD_some, hbuiltin, hbuiltin', ← hb, ← hb']
  · rintro rfl
    obtain ⟨n, hn, hbyte⟩ := h
    obtain ⟨n', hn', hbyte'⟩ := h'
    obtain ⟨a, ha, hcount⟩ := Option.map_eq_some_iff.mp hbyte
    obtain ⟨a', ha', hcount'⟩ := Option.map_eq_some_iff.mp hbyte'
    rw [hnext] at ha ha'
    rw [ha, ha', Option.getD_some, Option.getD_some, hcount, hcount',
      Option.some.inj (hn.symm.trans hn')]

/-- An operand in range is in range again: it is the same one, or a constant in the pool. -/
theorem operandComplaint?_congr {f f' : Function} (h : Carries c o op t) (h' : Carries c' o op t)
    (hconst : op ≠ .const)
    (hlocals : f'.locals = f.locals) (hclean : operandComplaint? f c op o = none) :
    operandComplaint? f' c' op o = none := by
  have hnext : ((o + 1 : Nat) : Int) = (o : Int) + 1 := Int.natCast_succ o
  unfold Carries at h h'
  unfold operandComplaint? at hclean ⊢
  cases hop : op.operand with
  | none | jump | loop => rfl
  | const => exact absurd (by cases op <;> first | rfl | cases hop) hconst
  | slot =>
    rw [hop] at h h' hclean
    obtain ⟨n, hn, hword⟩ := h
    obtain ⟨n', hn', hword'⟩ := h'
    obtain ⟨w, hw, hcount⟩ := Option.map_eq_some_iff.mp hword
    obtain ⟨w', hw', hcount'⟩ := Option.map_eq_some_iff.mp hword'
    have hsame : w' = w :=
      UInt16.toNat_inj.mp (by rw [hcount, hcount', Option.some.inj (hn.symm.trans hn')])
    rw [hnext] at hw hw'
    rw [hw] at hclean
    rwa [hw', hsame, hlocals]
  | byte =>
    rw [hop] at h'
    dsimp only at h' ⊢
    by_cases hbuiltin : op = .builtin
    · rw [if_pos hbuiltin] at h'
      obtain ⟨b, -, hbyte⟩ := h'
      obtain ⟨a, ha, hb⟩ := Option.bind_eq_some_iff.mp hbyte
      rw [hnext] at ha
      rw [ha, Option.getD_some, hb]
      simp
    · simp [hbuiltin]

theorem Done.alike {f f' : Function} (h : Done lines m k c l) (h' : Done lines' m k c' l')
    (hv : List.Forall₂ Variant lines lines')
    (hpool : InPool c' l') (harity : f'.arity = f.arity)
    (hlocals : f'.locals = f.locals) : Alike f f' c c' := by
  obtain ⟨hmatches, hsize⟩ := h.matches h' hv
  have hplace {i : Nat} {op : Opcode} (hi : Starts c i) (hop : c.opcode? i = some op) : ∃ x ∈ l,
    ∃ x' ∈ l', Placed.Matches x x' ∧
      x.offset = i ∧ x.op = op := by
    obtain ⟨x, hx, rfl⟩ := h.lies.starts hi.1 hi.2
    obtain ⟨x', hx', hmatch⟩ := matches_mem hmatches hx
    exact ⟨x, hx, x', hx', hmatch, rfl, Option.some.inj ((h.lies.emitted hx).opcode.symm.trans hop)⟩
  refine ⟨harity, hlocals, hsize, fun hi hop => ?_, fun hi hop => ?_, fun hi hop hjump => ?_,
    fun hi hop hclean => ?_⟩
  all_goals obtain ⟨x, hx, x', hx', hmatch, rfl, rfl⟩ := hplace hi hop
  all_goals have hemitted := h'.lies.emitted hx'
  all_goals rw [hmatch.op, hmatch.offset] at hemitted
  · exact hemitted.opcode
  · by_cases hconst : x.op = .const
    · rw [hconst]
      exact effect_congr nofun nofun
    · rw [hmatch.operand hconst] at hemitted
      exact effectOf_congr (h.lies.emitted hx).carries hemitted.carries
  · have hconst : x.op ≠ .const := by
      intro hconst
      rw [hconst] at hjump
      rcases hjump with hjump | hjump <;> cases hjump
    obtain ⟨n, hn, hlabels, honly, htarget⟩ := h.leads x hx hjump
    obtain ⟨n', hn', hlabels', -, htarget'⟩ := h'.leads x' hx' (by rwa [hmatch.op])
    rw [hmatch.operand hconst] at hlabels'
    obtain rfl := honly n' hn' ((variants_labels hv).mp hlabels')
    rw [hmatch.offset, startOf_matches hmatches, hsize] at htarget'
    rw [htarget, htarget']
  · by_cases hconst : x.op = .const
    · obtain ⟨index, hindex, hlt⟩ := hpool x' hx' (hmatch.op.trans hconst)
      rw [hmatch.offset] at hindex
      rw [hconst]
      unfold operandComplaint?
      rw [hindex]
      exact if_neg (Nat.not_le.mpr hlt)
    · rw [hmatch.operand hconst] at hemitted
      exact operandComplaint?_congr (h.lies.emitted hx).carries hemitted.carries
        hconst hlocals hclean

/-! ### Programs before verification -/

/-- What a text says of the program that is read of it. -/
structure Parsed (lines : List Text) (p : Program) : Prop where
  headings : (p.functions.toList.map heading).map some = (lines.filter isDirective).map declares?
  ids : ∀ (k : Nat) f, p.functions[k]? = some f → f.id = (k + 1).toUInt32
  code : ∀ (k : Nat) f, p.functions[k]? = some f →
    ∃ c l, f.chunk = some c ∧ Done lines lines.length k c l ∧ InPool c l
  main : p.main = .listed ((p.lookup? "main").getD 0)

/-- The bytes of a line that has an instruction begin with it. -/
theorem Stands.index {index : UInt16} (h : Stands c (n + 1) index) (hx : Emitted c n o .const t) :
    c.u16? ((o : Int) + 1) = some index := by
  obtain ⟨start, hlines, -, hindex⟩ := h.emitted
  have hsize : Opcode.const.size = 3 := rfl
  have hfirst := (hlines o).mp (hx.lines o (Nat.le_refl _) (by omega))
  have hlast := (hlines (o + 2)).mp (hx.lines (o + 2) (by omega) (by omega))
  obtain rfl : o = start := by omega
  exact hindex

theorem Entry.lt_size {constants : Array Value} {pending : Array Pending}
    {l : Literal} {index : UInt16}
    (h : Entry constants pending k l index)
    (hreserved : ∀ p ∈ pending, p.function = k → constants[p.index.toNat]? = some .null) :
    index.toNat < constants.size := by
  cases l with
  | value v =>
    obtain ⟨⟨w, hw, -⟩, -⟩ := h
    exact (Array.getElem?_eq_some_iff.mp hw).1
  | function name =>
    obtain ⟨p, hp, hk, rfl, -⟩ := h
    exact (Array.getElem?_eq_some_iff.mp (hreserved p hp hk)).1

/-- The constants of a function are in its pool. -/
theorem Chapter.inPool {pending : Array Pending} (h : Chapter lines lines.length k pending c #[])
    (hdone : Done lines lines.length k c l) : InPool c l := by
  intro x hx hconst
  obtain ⟨raw, hraw, hinstructs⟩ := hdone.reads x hx
  have hline : x.line ∈ instructionLines lines lines.length k :=
    hdone.order ▸ List.mem_map_of_mem hx
  have hb : Belongs lines x.line k := by
    have := (List.mem_filter.mp hline).2
    simp only [Bool.and_eq_true, decide_eq_true_eq] at this
    exact this.1
  rw [hconst] at hinstructs
  have hemitted := hdone.lies.emitted hx
  rw [hconst] at hemitted
  obtain ⟨l, index, -, hstands, hentry⟩ :=
    h.emitted x.line x.operand (List.getElem?_eq_some_iff.mp hraw).1 hb
    (by rw [hraw, Option.bind_some, hinstructs.constOperand?])
  exact ⟨index, hstands.index hemitted, hentry.lt_size h.reserved⟩

theorem parse_parsed {text : Text} {p : Program} (h : parse text = .ok p) :
    Parsed (text.split 10) p := by
  obtain ⟨s, ⟨htold, htranscript⟩, hdraft, hlink, hmain⟩ := parse_keeps
    (P := fun m s => Told (text.split 10) m s ∧ Transcript (text.split 10) m s)
      ⟨told_start, transcript_start⟩
    (fun _ _ _ _ hraw h hs => ⟨h.1.line hraw (line_adds hs), h.2.line hraw (line_reads hs)⟩)
    (fun _ _ _ h hs => ⟨(h.1.finish hs).1, (h.2.finish hs).1⟩) h
  have hheadings := linkAll_keeps (g := heading) (fun _ _ => rfl) hlink
  have hids := linkAll_keeps (g := (·.id)) (fun _ _ => rfl) hlink
  refine ⟨?_, fun k f hf => ?_, fun k f hf => ?_, hmain⟩
  · have hall := htranscript.headings
    rw [hdraft, List.take_length, Option.toList_none, List.map_nil, List.append_nil] at hall
    rw [show p.functions.toList.map heading = s.functions.toList.map heading by
      rw [← Array.toList_map, ← Array.toList_map, hheadings], hall]
  all_goals
    have hk : k < s.functions.size := by
      have := congrArg Array.size hids
      rw [Array.size_map, Array.size_map] at this
      have := (Array.getElem?_eq_some_iff.mp hf).1
      omega
    have hf₀ := Array.getElem?_eq_getElem hk
  · have hsame := congrArg (·[k]?) hids
    simp only [Array.getElem?_map, hf, hf₀, Option.map_some] at hsame
    rw [Option.some.inj hsame]
    exact htranscript.ids k _ hf₀
  · obtain ⟨f', hf', hlinked⟩ := (linkAll_links hlink).2 k _ hf₀
    rw [hf] at hf'
    cases hf'
    obtain ⟨c, l, hc, hdone⟩ := htranscript.finished k _ hf₀
    obtain ⟨c', hc', hchapter⟩ := htold.finished k _ hf₀
    rw [hc] at hc'
    cases hc'
    obtain ⟨constants, hchunk, hget⟩ := hlinked.chunk c hc
    refine ⟨_, l, hchunk, hdone.linked constants, fun x hx hconst => ?_⟩
    obtain ⟨index, hindex, hlt⟩ := hchapter.inPool hdone x hx hconst
    refine ⟨index, hindex, ?_⟩
    rcases hget _ _ (Array.getElem?_eq_getElem hlt) with ⟨_, _, _, _, _, _, hv⟩ | ⟨-, hv⟩
    all_goals exact (Array.getElem?_eq_some_iff.mp hv).1

theorem variants_directives (h : List.Forall₂ Variant lines lines') :
    lines'.filter isDirective = lines.filter isDirective := by
  induction h with
  | nil => rfl
  | @cons raw raw' _ _ hv _ ih =>
    rw [List.filter_cons, List.filter_cons, hv.directive, ih]
    split
    · next hraw => rw [hv.eq (.inl hraw)]
    · rfl

variable {p p' : Program}

/-- The functions of the two programs are declared alike. -/
theorem Parsed.declared (h : Parsed lines p) (h' : Parsed lines' p')
    (hv : List.Forall₂ Variant lines lines') :
    p'.functions.toList.map heading = p.functions.toList.map heading := by
  refine List.map_injective_iff.mpr (Option.some_injective _) ?_
  rw [h.headings, h'.headings, variants_directives hv]

theorem Parsed.function (h : Parsed lines p) (h' : Parsed lines' p')
    (hv : List.Forall₂ Variant lines lines') {f' : Function}
    (hf' : p'.functions[k]? = some f') :
    ∃ f, p.functions[k]? = some f ∧ heading f' = heading f ∧ f'.id = f.id := by
  have hk := congrArg (·[k]?) (h.declared h' hv)
  simp only [List.getElem?_map, Array.getElem?_toList, hf', Option.map_some] at hk
  obtain ⟨f, hf, hheading⟩ := Option.map_eq_some_iff.mp hk.symm
  exact ⟨f, hf, hheading.symm, by rw [h.ids k f hf, h'.ids k f' hf']⟩

theorem Parsed.names (h : Parsed lines p) (h' : Parsed lines' p')
    (hv : List.Forall₂ Variant lines lines') :
    p'.functions.map (·.name) = p.functions.map (·.name) := by
  have hdeclared := congrArg (·.map (·.1)) (h.declared h' hv)
  simp only [List.map_map] at hdeclared
  apply Array.toList_inj.mp
  rw [Array.toList_map, Array.toList_map]
  exact hdeclared

/-- Verification accepts what it accepts with other constants. -/
theorem Parsed.clean (h : Parsed lines p) (h' : Parsed lines' p')
    (hv : List.Forall₂ Variant lines lines')
    (hclean : p.verify.2 = []) : p'.verify.2 = [] := by
  obtain ⟨hids, hfunctions, hmain⟩ := p.clean_iff.mp hclean
  have hnone {k : Nat} (hk : p'.functions[k]? = none) : p.functions[k]? = none := by
    have hsize := congrArg List.length (h.declared h' hv)
    rw [List.length_map, List.length_map, Array.length_toList, Array.length_toList] at hsize
    rw [Array.getElem?_eq_none_iff] at hk ⊢
    omega
  refine p'.clean_iff.mpr ⟨duplicateIds_congr ?_ hids, fun f' hf' => ?_, ?_⟩
  · refine List.ext_getElem? fun k => ?_
    rw [List.getElem?_map, List.getElem?_map, Array.getElem?_toList, Array.getElem?_toList]
    cases hf' : p'.functions[k]? with
    | none => rw [hnone hf']
    | some f' =>
      obtain ⟨f, hf, -, hid⟩ := h.function h' hv hf'
      rw [hf, Option.map_some, Option.map_some, hid]
  · obtain ⟨k, hk⟩ := Array.mem_iff_getElem?.mp hf'
    obtain ⟨f, hf, hheading, -⟩ := h.function h' hv hk
    obtain ⟨c, l, hc, hdone, -⟩ := h.code k f hf
    obtain ⟨c', l', hc', hdone', hpool⟩ := h'.code k f' hk
    obtain ⟨c₀, haccepted⟩ := Function.Accepted.of_clean (hfunctions f (Array.mem_of_getElem? hf))
    have hsame := haccepted.chunk
    rw [hc] at hsame
    cases hsame
    rw [← hv.length_eq] at hdone'
    simp only [heading, Prod.mk.injEq] at hheading
    have halike : Alike f f' c c' := hdone.alike hdone' hv hpool hheading.2.1 hheading.2.2
    exact (halike.accepted hc' haccepted).clean
  · have hentry : p'.main = p.main := by rw [h.main, h'.main, lookup?_eq, lookup?_eq, h.names h' hv]
    unfold Program.mainRefusals Program.mainFunction? at hmain ⊢
    rw [hentry]
    rw [h.main] at hmain ⊢
    dsimp only at hmain ⊢
    cases hf' : p'.functions[(p.lookup? "main").getD 0]? with
    | none =>
      rw [hnone hf'] at hmain
      cases hmain
    | some f' =>
      obtain ⟨f, hf, hheading, -⟩ := h.function h' hv hf'
      simp only [heading, Prod.mk.injEq] at hheading
      rw [hf] at hmain
      dsimp only at hmain ⊢
      rwa [hheading.2.1]

theorem assemble_of_parse {file text : Text} (h : parse text = .ok p) (hclean : p.verify.2 = []) :
    assemble file text = .ok p.verify.1 := by
  unfold assemble
  rw [h]
  show (if p.verify.2.isEmpty = true then _ else _) = _
  rw [if_pos (List.isEmpty_iff.mpr hclean)]
  rfl

/-- A text in which some lines load other values assembles, while no function has too many
constants. -/
theorem assemble_variant {file text text' : Text} (h : assemble file text = .ok p)
    (hvariants : List.Forall₂ Variant (text.split 10) (text'.split 10))
    (hroom : ∀ k, (pool (text'.split 10) (text'.split 10).length k).size ≤ 65536) :
    ∃ q, parse text' = .ok q ∧ assemble file text' = .ok q.verify.1 := by
  obtain ⟨q, hparse, -, hclean⟩ := assemble_eq_ok h
  obtain ⟨q', hparse'⟩ := parse_twin hparse hvariants hroom
  exact ⟨q', hparse',
    assemble_of_parse hparse' ((parse_parsed hparse).clean (parse_parsed hparse') hvariants hclean)⟩

end LoopTracer.Bytecode.Source
