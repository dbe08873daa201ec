import LoopTracer.Proofs.Verification.Depths
import LoopTracer.Proofs.Verification.Exact

/-! Verification and constants.

A function is accepted exactly when its code is sound and has an assignment of depths
(`Function.Accepted`). None of this looks at what a constant is: code with the same instructions, of
which each takes and leaves as many values, jumps to the same place and has an operand in range
again, is accepted as well (`Alike.accepted`). -/
namespace LoopTracer.Bytecode
open StackDepth

/-- A function that verification has nothing to say about. -/
structure Function.Accepted (f : Function) (c : Chunk) : Prop where
  chunk : f.chunk = some c
  arity : f.arity ≤ f.locals
  sound : Sound f c
  depths : ∃ d, Assignment c defaultLimit d

/-- The code of two functions is the same but for the constants it names. -/
structure Alike (f f' : Function) (c c' : Chunk) : Prop where
  arity : f'.arity = f.arity
  locals : f'.locals = f.locals
  size : c'.size = c.size
  opcode : ∀ {i op}, Starts c i → c.opcode? i = some op → c'.opcode? i = some op
  effect : ∀ {i op}, Starts c i → c.opcode? i = some op → effectOf c' op i = effectOf c op i
  target : ∀ {i op}, Starts c i → c.opcode? i = some op → op.operand = .jump ∨ op.operand = .loop →
    c'.target? i = c.target? i
  operand : ∀ {i op}, Starts c i → c.opcode? i = some op → operandComplaint? f c op i = none →
    operandComplaint? f' c' op i = none

variable {f f' : Function} {c c' : Chunk} {i : Nat} {op : Opcode} {d : Nat → Nat} {limit : Nat}

/-! ### Acceptance -/

/-- A labelling knows the depth wherever control can come to. -/
theorem StackDepth.Labelled.known {r : Result} (h : Labelled c limit r) (hi : Reachable c i) :
    ∃ e, r.depths[i]?.join = some e := by
  induction hi with
  | first => exact ⟨0, h.first⟩
  | next _ hop hj ih =>
    obtain ⟨e, he⟩ := ih
    exact ⟨_, h.flows he hop _ hj⟩

theorem StackDepth.Labelled.assignment {r : Result} (h : Labelled c limit r) :
    Assignment c limit fun i => (r.depths[i]?.join).getD 0 := by
  have hknown {i : Nat} (hi : Reachable c i) : r.depths[i]?.join =
      some ((r.depths[i]?.join).getD 0) := by
    obtain ⟨e, he⟩ := h.known hi
    rw [he, Option.getD_some]
  refine ⟨?_, fun hi => h.pops (hknown hi), fun hi => h.bounded (hknown hi), fun hi hop j hj => ?_⟩
  · rw [h.first, Option.getD_some]
  · rw [h.flows (hknown hi) hop j hj, Option.getD_some]

theorem Function.Accepted.of_clean (h : f.verify.2 = []) : ∃ c, f.Accepted c := by
  obtain ⟨c, r, hverified⟩ := f.verified_of_clean h
  obtain ⟨m, hm⟩ := f.verify_fst
  rw [hm] at hverified
  exact ⟨c, hverified.chunk, hverified.arity, hverified.sound.withMaxStack f.maxStack, _,
    hverified.labelled.assignment⟩

theorem Function.Accepted.clean (h : f.Accepted c) : f.verify.2 = [] := by
  obtain ⟨n, s, hcheck, hvisits, hnil⟩ := check_visits h.sound defaultLimit (by decide)
  have herrors : s.errors = #[] := (hvisits.verdict h.sound hnil).mpr h.depths
  have hbroken : (scan f c).broken = false := scanFrom_unbroken _ _ _ h.sound.complaints
  have harity := h.arity
  have hstarts : ((List.range c.size).filter fun (i : Nat) => (scan f c).isStart i).flatMap
      (jumpComplaints c (scan f c)) = [] := by
    refine List.flatMap_eq_nil_iff.mpr fun i hi => h.sound.jumps i ?_
    obtain ⟨j, hj, hstarts⟩ := (h.sound.isStart_iff _).mp (List.mem_filter.mp hi).2
    rwa [Int.ofNat_inj.mp hj]
  unfold verify
  rw [h.chunk]
  dsimp only
  rw [if_neg (by simpa using h.sound.nonempty.ne'), hbroken, if_neg Bool.false_ne_true,
    h.sound.complaints, hstarts, h.sound.ends,
    if_neg (by omega : ¬ f.locals < f.arity)]
  simp only [List.append_nil, Option.toList_none, List.isEmpty_nil, Bool.not_true,
    Bool.false_eq_true,
    if_false, hcheck, herrors, List.map_nil]

/-! ### The first pass -/

/-- The first pass goes over the same instructions. -/
theorem Alike.scanFrom_eq (h : Alike f f' c c') (fuel offset : Nat) (s : Scan)
    (hoffset : Boundary c offset)
    (hclean : (scanFrom f c fuel offset s).complaints = #[]) :
    scanFrom f' c' fuel offset s = scanFrom f c fuel offset s := by
  induction fuel generalizing offset s with
  | zero => rfl
  | succ fuel ih =>
    rcases scanFrom_cases hclean with ⟨hend, heq⟩ | ⟨op, hop, hfits, heq⟩
    · have hnone : c'.code[offset]? = none := getElem?_neg c'.code offset (by
        have : c'.code.size = c.size := h.size
        omega)
      rw [heq, scanFrom, hnone]
    · have hlt := Chunk.lt_size_of_opcode? hop
      have hop' := h.opcode ⟨hoffset, hlt⟩ hop
      obtain ⟨b, hb, hb'⟩ := Chunk.opcode?_eq_some_iff.mp hop'
      rw [heq] at hclean ⊢
      have hoperand := (Scan.past_clean (scanFrom_clean _ _ _ hclean)).2
      have hoperand' := h.operand ⟨hoffset, hlt⟩ hop hoperand
      have hfits' : ¬ c'.size < offset + op.size := by
        rw [h.size]
        omega
      have hpast : s.past f c op offset =
          { s with starts := s.starts.set! offset true, last := offset } := by
        unfold Scan.past
        rw [hoperand]
      rw [← ih _ _ (hoffset.next hop) hclean, hpast, scanFrom, hb]
      dsimp only
      rw [hb']
      dsimp only
      rw [if_neg hfits', hoperand']

/-- The instruction that the first pass has seen last is one. -/
theorem scanFrom_last_starts {fuel offset : Nat} {s : Scan} (hoffset : Boundary c offset)
    (hlast : Starts c s.last)
    (hclean : (scanFrom f c fuel offset s).complaints = #[]) :
    Starts c (scanFrom f c fuel offset s).last := by
  induction fuel generalizing offset s with
  | zero => exact hlast
  | succ fuel ih =>
    rcases scanFrom_cases hclean with ⟨hend, heq⟩ | ⟨op, hop, hfits, heq⟩
    · rwa [heq]
    · rw [heq] at hclean ⊢
      refine ih (hoffset.next hop) ?_ hclean
      rw [Scan.past_last]
      exact ⟨hoffset, Chunk.lt_size_of_opcode? hop⟩

theorem Alike.opcode_eq (h : Alike f f' c c') (hsound : Sound f c) (hi : Starts c i) :
    c'.opcode? i = c.opcode? i := by
  obtain ⟨op, hw⟩ := hsound.whole hi
  rw [hw.opcode, h.opcode hi hw.opcode]

theorem jumpComplaints_congr {s : Scan} (hopcode : c'.opcode? i = c.opcode? i)
    (htarget : ∀ op, c.opcode? i = some op → op.operand = .jump ∨ op.operand = .loop →
      c'.target? i = c.target? i) :
    jumpComplaints c' s i = jumpComplaints c s i := by
  unfold jumpComplaints
  rw [← opcode?_eq, ← opcode?_eq, hopcode]
  cases hop : c.opcode? i with
  | none => rfl
  | some op =>
    by_cases hjump : op.operand = .jump ∨ op.operand = .loop
    · rw [htarget op hop hjump]
    · have hno : (op.operand == .jump || op.operand == .loop) = false := by simpa using hjump
      cases c'.target? i <;> cases c.target? i <;> simp [hno]

/-- The last instruction is the same one. -/
theorem endComplaint?_congr {s : Scan} (hop : c.opcode? s.last = some op)
    (hop' : c'.opcode? s.last = some op)
    (h : endComplaint? c s = none) : endComplaint? c' s = none := by
  obtain ⟨b, hb, ho⟩ := Chunk.opcode?_eq_some_iff.mp hop
  obtain ⟨b', hb', ho'⟩ := Chunk.opcode?_eq_some_iff.mp hop'
  unfold endComplaint? at h ⊢
  rw [hb] at h
  rw [hb']
  dsimp only at h ⊢
  rw [ho] at h
  rw [ho']
  cases op <;> first | rfl | cases h

theorem Alike.sound (h : Alike f f' c c') (hsound : Sound f c) : Sound f' c' := by
  have hscan : scan f' c' = scan f c := by
    unfold scan
    rw [h.size]
    exact h.scanFrom_eq _ _ _ (.here 0) hsound.complaints
  have hclean : Clean f' c' :=
    ⟨by rw [hscan]; exact hsound.complaints, by rw [h.size]; exact hsound.nonempty⟩
  have hstarts {i : Nat} (hi : Starts c' i) : Starts c i := by
    have hmark := (hclean.isStart_iff i).mpr ⟨i, rfl, hi⟩
    rw [hscan] at hmark
    obtain ⟨j, hj, hstarts⟩ := (hsound.isStart_iff _).mp hmark
    rwa [Int.ofNat_inj.mp hj]
  refine ⟨hclean, fun i hi => ?_, ?_⟩
  · rw [hscan, jumpComplaints_congr (h.opcode_eq hsound (hstarts hi)) fun op hop =>
      h.target (hstarts hi) hop]
    exact hsound.jumps i (hstarts hi)
  · have hlast : Starts c (scan f c).last :=
      scanFrom_last_starts (.here 0) hsound.starts_zero hsound.complaints
    obtain ⟨op, hw⟩ := hsound.whole hlast
    rw [hscan]
    exact endComplaint?_congr hw.opcode (h.opcode hlast hw.opcode) hsound.ends

/-! ### Depths -/

theorem Alike.flow_eq (h : Alike f f' c c') (hi : Starts c i) (hop : c.opcode? i = some op) :
    flow c' op i = flow c op i := by
  have htarget (hjump : op.operand = .jump ∨ op.operand = .loop) : c'.jumpTarget i =
      c.jumpTarget i := by
    rw [Chunk.jumpTarget, Chunk.jumpTarget, h.target hi hop hjump]
  unfold flow
  split
  · rw [htarget (.inl rfl)]
  · rw [htarget (.inr rfl)]
  · rw [htarget (.inl rfl)]
  · rw [htarget (.inl rfl)]
  · rfl
  · rfl
  · rfl

theorem Alike.reachable (h : Alike f f' c c') (hsound : Sound f c)
    (hi : Reachable c' i) : Reachable c i := by
  induction hi with
  | first => exact .first
  | next _ hop hj ih =>
    have hstarts := ih.starts hsound
    rw [h.opcode_eq hsound hstarts] at hop
    rw [h.flow_eq hstarts hop] at hj
    exact .next ih hop hj

/-- An assignment of depths is one for the code with the other constants. -/
theorem Alike.assignment (h : Alike f f' c c') (hsound : Sound f c)
    (ha : Assignment c limit d) : Assignment c' limit d := by
  have hsame {i : Nat} {op : Opcode} (hi : Reachable c' i)
    (hop : c'.opcode? i = some op) : Reachable c i ∧ c.opcode? i = some op ∧
      effectOf c' op i = effectOf c op i ∧ after c' op i (d i) = after c op i (d i) ∧
          flow c' op i = flow c op i := by
    have hreachable := h.reachable hsound hi
    have hstarts := hreachable.starts hsound
    rw [h.opcode_eq hsound hstarts] at hop
    have heffect := h.effect hstarts hop
    exact ⟨hreachable, hop, heffect, by rw [after, after, heffect], h.flow_eq hstarts hop⟩
  refine ⟨ha.first, fun hi hop => ?_, fun hi hop => ?_, fun hi hop j hj => ?_⟩
  all_goals obtain ⟨hreachable, hopcode, heffect, hafter, hflow⟩ := hsame hi hop
  · rw [heffect]
    exact ha.pops hreachable hopcode
  · rw [hafter]
    exact ha.bounded hreachable hopcode
  · rw [hflow] at hj
    rw [hafter]
    exact ha.flows hreachable hopcode j hj

/-- Verification accepts a function whatever its constants are. -/
theorem Alike.accepted (h : Alike f f' c c') (hchunk : f'.chunk = some c')
    (ha : f.Accepted c) : f'.Accepted c' := by
  obtain ⟨d, hd⟩ := ha.depths
  exact ⟨hchunk, by rw [h.arity, h.locals]; exact ha.arity, h.sound ha.sound, d,
    h.assignment ha.sound hd⟩

/-! ### Programs -/

/-- What verification asks of a program. -/
theorem Program.clean_iff (p : Program) : p.verify.2 = [] ↔
    duplicateIds [] p.functions.toList = [] ∧ (∀ f ∈ p.functions, f.verify.2 = []) ∧
    p.mainRefusals = [] := by
  unfold verify
  dsimp only
  rw [List.append_eq_nil_iff, List.append_eq_nil_iff, List.flatMap_eq_nil_iff, and_assoc]
  simp

/-- Only the numbers of the functions matter to whether one is repeated. -/
theorem duplicateIds_congr {seen : List UInt32} {l l' : List Function}
    (hids : l'.map (·.id) = l.map (·.id))
    (h : duplicateIds seen l = []) : duplicateIds seen l' = [] := by
  induction l generalizing seen l' with
  | nil =>
    obtain rfl := List.map_eq_nil_iff.mp hids
    rfl
  | cons f rest ih =>
    obtain ⟨f', rest', rfl, hid, hrest⟩ := List.map_eq_cons_iff.mp hids
    rw [duplicateIds, List.append_eq_nil_iff] at h ⊢
    rw [show f'.id = f.id from hid]
    refine ⟨?_, ih hrest h.2⟩
    split
    · next hseen =>
      rw [if_pos hseen] at h
      cases h.1
    · rfl

end LoopTracer.Bytecode
