import LoopTracer.Proofs.Computation
import LoopTracer.Proofs.Trace.Semantics
import LoopTracer.Proofs.Trace.SlotMap
import LoopTracer.Trace.Recorder

/-! What the recorder's operations add to a trace.

An operation of the recorder either gives the recording up or extends the trace. `Yields` states
both at once, so that a specification also says that nothing faults. What was added is judged by
passes over the trace: where a pass stands at the end of the trace so far (`At`), it goes on to the
end of the longer trace with the word that the operation is about, or it leaves through the guard
that was added. -/
namespace LoopTracer.Trace

/-! ### Results of an operation -/

/-- An operation of the recorder gives a result with `Q`, or gives the recording up. -/
def Yields {α : Type} (x : Recording α) (r : Recorder) (Q : α → Recorder → Prop) : Prop :=
  match x r with
  | .ok a r' => Q a r'
  | .error (.abort _) r' => r'.slots.Valid
  | .error _ _ => False

section Yields

variable {α β : Type} {x : Recording α} {f : α → Recording β} {r r' : Recorder}
variable {P : α → Recorder → Prop} {Q : β → Recorder → Prop}

theorem Yields.bind (hx : Yields x r P) (hf : ∀ a r', P a r' → Yields (f a) r' Q) :
    Yields (x >>= f) r Q := by
  unfold Yields at hx ⊢
  show (match EStateM.bind x f r with | .ok a r' => _ | .error (.abort _) r' => _ | .error _ _ => _)
  unfold EStateM.bind
  cases hxr : x r with
  | ok a r' =>
    rw [hxr] at hx
    exact hf a r' hx
  | error e r' =>
    rw [hxr] at hx
    cases e with
    | abort a => exact hx
    | notRecording => exact hx.elim
    | fault f => exact hx.elim

theorem Yields.mono {Q' : α → Recorder → Prop} (hx : Yields x r P) (h : ∀ a r', P a r' → Q' a r') :
    Yields x r Q' := by
  unfold Yields at hx ⊢
  split
  · next a r' hxr =>
    rw [hxr] at hx
    exact h a r' hx
  · next a r' hxr =>
    rw [hxr] at hx
    exact hx
  · next e r' hne hxr =>
    rw [hxr] at hx
    cases e with
    | abort a => exact (hne a rfl).elim
    | notRecording => exact hx
    | fault f => exact hx

theorem Yields.of_ok {a : α} (h : x r = .ok a r') (hP : P a r') : Yields x r P := by
  unfold Yields
  rw [h]
  exact hP

theorem Yields.pure {a : α} (h : P a r) : Yields (Pure.pure a : Recording α) r P := h

theorem Yields.giveUp (h : r.slots.Valid) (reason : AbortReason) (pc : Int) (detail : Text) :
    Yields (Recorder.giveUp reason pc detail : Recording α) r P := h

/-- An operation after one that is known to succeed. -/
theorem Yields.of_bind_ok {a : α} (h : x r = .ok a r') (hf : Yields (f a) r' Q) :
    Yields (x >>= f) r Q :=
  (Yields.of_ok h (P := fun b r'' => b = a ∧ r'' = r') ⟨rfl, rfl⟩).bind fun _ _ ⟨hb, hr⟩ =>
    hb ▸ hr ▸ hf

theorem Yields.elim {a : α} (h : Yields x r P) (hx : x r = .ok a r') : P a r' := by
  unfold Yields at h
  rw [hx] at h
  exact h

/-- An operation of the recorder gives a result with `Q`. -/
def Gives (x : Recording α) (r : Recorder) (Q : α → Recorder → Prop) : Prop :=
  ∃ a r', x r = .ok a r' ∧ Q a r'

theorem Gives.yields (h : Gives x r P) : Yields x r P := by
  obtain ⟨a, r', hx, hP⟩ := h
  exact .of_ok hx hP

theorem Gives.bind (hx : Gives x r P)
    (hf : ∀ a r', P a r' → Gives (f a) r' Q) : Gives (x >>= f) r Q := by
  obtain ⟨a, r', hxr, hP⟩ := hx
  obtain ⟨b, r'', hfr, hQ⟩ := hf a r' hP
  exact ⟨b, r'', (bind_ok hxr).trans hfr, hQ⟩

theorem Gives.of_bind_ok {a : α} (h : x r = .ok a r')
    (hf : Gives (f a) r' Q) : Gives (x >>= f) r Q := by
  obtain ⟨b, r'', hfr, hQ⟩ := hf
  exact ⟨b, r'', (bind_ok h).trans hfr, hQ⟩

theorem Gives.mono {P' : α → Recorder → Prop} (hx : Gives x r P) (h : ∀ a r', P a r' → P' a r') :
    Gives x r P' := by
  obtain ⟨a, r', hxr, hP⟩ := hx
  exact ⟨a, r', hxr, h a r' hP⟩

end Yields

/-! ### Longer traces -/

/-- A value that an instruction of the buffer makes. -/
def Makes (b : Buffer) (ref : Int) : Prop := ∃ i, b.get? ref = some i ∧ i.op.hasResult = true

theorem Buffer.get?_bounds {b : Buffer} {ref : Int} {i : Inst} (hget : b.get? ref = some i) :
    0 ≤ ref ∧ ref < b.size := by
  unfold Buffer.get? at hget
  split at hget
  · cases hget
  · next hneg =>
    have hlt := (Array.getElem?_eq_some_iff.mp hget).1
    have hle : 0 ≤ ref := Int.not_lt.mp hneg
    refine ⟨hle, ?_⟩
    show ref < (b.insts.size : Int)
    have : ref.toNat < b.insts.size := hlt
    omega

theorem Makes.bounds {b : Buffer} {ref : Int} (h : Makes b ref) : 0 ≤ ref ∧ ref < b.size := by
  obtain ⟨i, hget, -⟩ := h
  exact Buffer.get?_bounds hget

/-- A recorder in the middle of its work. -/
structure Recorder.Wf (r : Recorder) : Prop where
  slots : r.slots.Valid
  unsealed : r.buffer.isSealed = false
  /-- The constants so far are where the table says. -/
  shared : ∀ (v : Immediate) (t : Ty) (ref : Int), r.immediates[(v, t)]? = some ref →
    ∃ i, r.buffer.get? ref = some i ∧ i.op = .imm ∧ i.imm = v

/-- The recorder with one more instruction. -/
def Recorder.plus (r : Recorder) (i : Inst) : Recorder :=
  { r with buffer := { r.buffer with insts := r.buffer.insts.push { i with pc := r.pc } } }

/-- A recorder whose trace is at least as long; nothing but trace and constants has changed. -/
structure Grown (r r' : Recorder) : Prop where
  wf : r'.Wf
  insts : ∃ more, r'.buffer.insts.toList = r.buffer.insts.toList ++ more
  frame : r' = { r with buffer := r'.buffer, immediates := r'.immediates }

/-- Instructions stay where they are. -/
theorem get?_of_append {b b' : Buffer} {more : List Inst}
    (h : b'.insts.toList = b.insts.toList ++ more) {ref : Int} {i : Inst}
    (hget : b.get? ref = some i) :
    b'.get? ref = some i := by
  unfold Buffer.get? at hget ⊢
  split at hget
  · cases hget
  · next hneg =>
    rw [if_neg hneg]
    have hlt := (Array.getElem?_eq_some_iff.mp hget).1
    rw [← Array.getElem?_toList] at hget ⊢
    rw [h, List.getElem?_append_left (by simpa using hlt)]
    exact hget

namespace Grown

variable {r r' r'' : Recorder} {ref : Int}

theorem refl (h : r.Wf) : Grown r r := ⟨h, ⟨[], by simp⟩, rfl⟩

theorem trans (h : Grown r r') (h' : Grown r' r'') : Grown r r'' := by
  obtain ⟨more, hmore⟩ := h.insts
  obtain ⟨more', hmore'⟩ := h'.insts
  refine ⟨h'.wf, ⟨more ++ more', by rw [hmore', hmore, List.append_assoc]⟩, ?_⟩
  rw [h'.frame, h.frame]

theorem get? (h : Grown r r') {i : Inst} (hget : r.buffer.get? ref = some i) :
    r'.buffer.get? ref = some i := by
  obtain ⟨more, hmore⟩ := h.insts
  exact get?_of_append hmore hget

theorem makes (h : Grown r r') (hm : Makes r.buffer ref) : Makes r'.buffer ref := by
  obtain ⟨i, hget, hresult⟩ := hm
  exact ⟨i, h.get? hget, hresult⟩

theorem size (h : Grown r r') : r.buffer.size ≤ r'.buffer.size := by
  obtain ⟨more, hmore⟩ := h.insts
  have := congrArg List.length hmore
  simp only [List.length_append, Array.length_toList] at this
  unfold Buffer.size
  omega

theorem slots (h : Grown r r') : r'.slots = r.slots := by rw [h.frame]

theorem type? (h : Grown r r') (k : Nat) : r'.type? k = r.type? k := by rw [h.frame]; rfl

theorem locals (h : Grown r r') : r'.locals = r.locals := by rw [h.frame]

end Grown

/-! ### Passes -/

/-- A pass over the trace so far, started in `e₀`, stands at its end in `e`. -/
structure At (e₀ : Env) (r : Recorder) (e : Env) : Prop where
  pass : Env.run .standard r.buffer.insts.toList e₀ = .on e
  size : e.values.size = r.buffer.size
  imm : ∀ (ref : Int) (i : Inst), r.buffer.get? ref = some i → i.op = .imm → e.word ref = i.imm.bits
  slots : e.slots = e₀.slots
  valid : e.heap.Valid
  later : e.heap.Extends e₀.heap
  few : e.heap.size ≤ e₀.heap.size + r.buffer.size

/-- A pass over the trace so far has left it through an exit. -/
def Gone (e₀ : Env) (r : Recorder) (x : SideExit) (e : Env) : Prop :=
  Env.run .standard r.buffer.insts.toList e₀ = .left x e

theorem Gone.grown {e₀ e : Env} {r r' : Recorder} {x : SideExit} (h : Gone e₀ r x e)
    (hg : Grown r r') : Gone e₀ r' x e := by
  obtain ⟨more, hmore⟩ := hg.insts
  unfold Gone at h ⊢
  rw [hmore, Env.run_append, h]

/-- A pass does not both go on and leave. -/
theorem At.not_gone {e₀ e e' : Env} {r : Recorder} {x : SideExit} (h : At e₀ r e)
    (hgone : Gone e₀ r x e') :
    False := by
  have := h.pass.symm.trans hgone
  cases this

theorem At.has {e₀ e : Env} {r : Recorder} (h : At e₀ r e) {ref : Int} (hm : Makes r.buffer ref) :
    e.Has ref := by
  obtain ⟨hnonneg, hlt⟩ := hm.bounds
  exact ⟨hnonneg, by rw [h.size]; exact hlt⟩

/-! ### Appending -/

section Append

variable {r : Recorder} {i : Inst} {e₀ e : Env}

theorem plus_size (r : Recorder) (i : Inst) : (r.plus i).buffer.size = r.buffer.size + 1 :=
  Array.size_push _

theorem plus_get?_new (r : Recorder) (i : Inst) :
    (r.plus i).buffer.get? r.buffer.size = some { i with pc := r.pc } := by
  unfold Buffer.get?
  rw [if_neg (Int.not_lt.mpr (Int.natCast_nonneg _)), Int.toNat_natCast]
  exact Array.getElem?_push_size

/-- An instruction of the longer trace is the new one or an old one. -/
theorem plus_get? {ref : Int} {j : Inst} (h : (r.plus i).buffer.get? ref = some j) :
    (ref = r.buffer.size ∧ j = { i with pc := r.pc }) ∨ r.buffer.get? ref = some j := by
  unfold Buffer.get? at h ⊢
  split at h
  · cases h
  · next hneg =>
    have hle : 0 ≤ ref := Int.not_lt.mp hneg
    rw [if_neg hneg]
    rw [show (r.plus i).buffer.insts = r.buffer.insts.push { i with pc := r.pc } from rfl,
      Array.getElem?_push] at h
    split at h
    · next heq =>
      refine .inl ⟨?_, (Option.some.inj h).symm⟩
      show ref = (r.buffer.insts.size : Int)
      rw [← heq]
      exact (Int.toNat_of_nonneg hle).symm
    · exact .inr h

theorem plus_grown (h : r.Wf) (i : Inst) : Grown r (r.plus i) := by
  have hinsts : (r.plus i).buffer.insts.toList = r.buffer.insts.toList ++ [{ i with pc := r.pc }] :=
    Array.toList_push
  refine ⟨⟨h.slots, h.unsealed, fun v t ref href => ?_⟩, ⟨_, hinsts⟩, rfl⟩
  obtain ⟨j, hget, hop, himm⟩ := h.shared v t ref href
  exact ⟨j, get?_of_append hinsts hget, hop, himm⟩

theorem plus_makes (hresult : i.op.hasResult = true) : Makes (r.plus i).buffer r.buffer.size :=
  ⟨_, plus_get?_new r i, hresult⟩

theorem operandFault?_none {b : Buffer} {i : Inst} {l : List Ref} (h : ∀ ref ∈ l, Makes b ref) :
    b.operandFault? i l = none := by
  induction l with
  | nil => rfl
  | cons ref rest ih =>
    obtain ⟨j, hget, hresult⟩ := h ref List.mem_cons_self
    unfold Buffer.operandFault?
    simp only [hget, hresult, if_true]
    exact ih fun q hq => h q (List.mem_cons_of_mem ref hq)

/-- An instruction whose operands are all there is appended. -/
theorem append_eq (h : r.Wf) (hoperands : ∀ ref ∈ i.operands, Makes r.buffer ref)
    (hsnapshot : ∀ ref ∈ i.snapshotRefs, Makes r.buffer ref)
    (hoverflow : i.op = .exitOv →
      i.a + 1 = r.buffer.size ∧ ∃ j, r.buffer.get? i.a = some j ∧ j.op.setsOverflow = true)
    (hguard : i.op.isGuard = true → i.exit.isSome = true) :
    Recorder.append i r = .ok r.buffer.size (r.plus i) := by
  have hfault : r.buffer.appendFault? { i with pc := r.pc } = none := by
    have hsnap : ((i.snapshotRefs.find? fun ref => (r.buffer.get? ref).isNone).map
        fun ref => Fault.snapshotRef r.buffer.size ref) = none := by
      rw [Option.map_eq_none_iff, List.find?_eq_none]
      intro ref href
      obtain ⟨j, hget, -⟩ := hsnapshot ref href
      simp [hget]
    have hov : (if (i.op == .exitOv && !Buffer.appendFault?.follows r.buffer i) = true then
        some (Fault.strayOverflow r.buffer.size) else none) = none := by
      refine if_neg ?_
      rw [Bool.and_eq_true, Bool.not_eq_true']
      rintro ⟨hop, hstray⟩
      obtain ⟨hlast, j, hget, hsets⟩ := hoverflow (beq_iff_eq.mp hop)
      rw [Buffer.appendFault?.follows, hget] at hstray
      simp [hlast, hsets] at hstray
    have hexit : (if (i.op.isGuard && i.exit.isNone) = true then
        some (Fault.noSideExit r.buffer.size) else none) = none := by
      refine if_neg ?_
      rw [Bool.and_eq_true]
      rintro ⟨hop, hnone⟩
      have := hguard hop
      rw [Option.isSome_iff_ne_none] at this
      exact this (Option.isNone_iff_eq_none.mp hnone)
    unfold Buffer.appendFault?
    rw [h.unsealed]
    show (r.buffer.operandFault? { i with pc := r.pc } i.operands <|> _ <|> _ <|> _) = none
    rw [operandFault?_none hoperands]
    show (((i.snapshotRefs.find? fun ref => (r.buffer.get? ref).isNone).map
        fun ref => Fault.snapshotRef r.buffer.size ref) <|>
      ((if (i.op == .exitOv && !Buffer.appendFault?.follows r.buffer i) = true then
        some (Fault.strayOverflow r.buffer.size) else none) <|>
      (if (i.op.isGuard && i.exit.isNone) = true then
        some (Fault.noSideExit r.buffer.size) else none))) = none
    rw [hsnap, hov, hexit]
    rfl
  unfold Recorder.append
  simp only [hfault]
  rfl

/-- A pass carries out the new instruction last. -/
theorem At.run_plus (h : At e₀ r e) (i : Inst) :
    Env.run .standard (r.plus i).buffer.insts.toList e₀ = e.exec .standard i := by
  have hinsts : (r.plus i).buffer.insts.toList = r.buffer.insts.toList ++ [{ i with pc := r.pc }] :=
    Array.toList_push
  rw [hinsts, Env.run_append, h.pass]
  have hpc : e.exec .standard { i with pc := r.pc } = e.exec .standard i := rfl
  dsimp only [Env.run]
  rw [hpc]
  cases e.exec .standard i <;> rfl

/-- A pass goes on behind the new instruction. -/
theorem At.plus (h : At e₀ r e) {e₁ : Env} {w : UInt64}
    (hexec : e.exec .standard i = .on (e₁.push w)) (hvalues : e₁.values = e.values)
    (hslots : e₁.slots = e.slots) (himm : i.op = .imm → w = i.imm.bits) (hvalid : e₁.heap.Valid)
    (hlater : e₁.heap.Extends e.heap) (hfew : e₁.heap.size ≤ e.heap.size + 1) :
    At e₀ (r.plus i) (e₁.push w) ∧ e.Later (e₁.push w) ∧ (e₁.push w).word r.buffer.size = w := by
  have hsize : e₁.values.size = r.buffer.size := by rw [hvalues, h.size]
  have hword : (e₁.push w).word r.buffer.size = w := by
    rw [← hsize]
    exact Env.word_push e₁ w
  have hl := Env.later_push hvalues hlater w
  refine ⟨⟨(h.run_plus i).trans hexec, ?_, fun ref j hget hop => ?_, hslots.trans h.slots, hvalid,
    hlater.trans h.later, ?_⟩, hl, hword⟩
  · rw [Env.push_size, hsize, plus_size]
  · rcases plus_get? hget with ⟨rfl, rfl⟩ | hold
    · rw [hword]
      exact himm hop
    · have hmakes : Makes r.buffer ref := ⟨j, hold, by rw [hop]; rfl⟩
      rw [hl.words ref (h.has hmakes)]
      exact h.imm ref j hold hop
  · have := h.few
    rw [Env.push_heap, plus_size]
    omega

/-- A pass goes on behind an instruction that leaves the heap alone. -/
theorem At.plus_word (h : At e₀ r e) {w : UInt64} {f : Bool}
    (hexec : e.exec .standard i = .on ({ e with overflow := f }.push w))
    (himm : i.op = .imm → w = i.imm.bits) :
    At e₀ (r.plus i) ({ e with overflow := f }.push w) ∧
      e.Later ({ e with overflow := f }.push w) ∧
      Env.word ({ e with overflow := f }.push w) r.buffer.size = w :=
  h.plus hexec rfl rfl himm h.valid (.refl _) (Nat.le_succ _)

end Append

/-! ### Instructions -/

section Instructions

variable {r : Recorder} {a b : Int} {t : Ty}

theorem TraceOp.hasResult_of_computes {op : TraceOp} (h : op.computes = true) :
    op.hasResult = true ∧ op.isGuard = false ∧ op ≠ .imm := by
  cases op <;> first | (cases h; done) | exact ⟨rfl, rfl, nofun⟩

/-- An operation on values that there are. -/
theorem emit_eq (h : r.Wf) {op : TraceOp} (hop : op.computes = true) (ha : Makes r.buffer a)
    (hb : b = Ref.none ∨ Makes r.buffer b) (t : Ty) :
    Recorder.emit op a b t r = .ok r.buffer.size (r.plus { op, a, b, type := t }) := by
  have hoperands : ∀ ref ∈ Inst.operands { op, a, b, type := t }, Makes r.buffer ref := by
    intro ref href
    simp only [Inst.operands, List.append_nil] at href
    rcases List.mem_append.mp href with hmem | hmem
    · split at hmem
      · cases hmem
      · rw [List.mem_singleton.mp hmem]
        exact ha
    · split at hmem
      · cases hmem
      · next hne =>
        rw [List.mem_singleton.mp hmem]
        exact hb.resolve_left fun heq => hne (beq_iff_eq.mpr heq)
  refine append_eq h hoperands nofun ?_ fun hg => ?_
  · rintro rfl
    cases hop
  · rw [(TraceOp.hasResult_of_computes hop).2.1] at hg
    cases hg

theorem emit_gives (h : r.Wf) {op : TraceOp} (hop : op.computes = true) (ha : Makes r.buffer a)
    (hb : b = Ref.none ∨ Makes r.buffer b) (t : Ty) :
    Gives (Recorder.emit op a b t) r fun ref r' => Grown r r' ∧ Makes r'.buffer ref ∧
      (r'.buffer.size = ref + 1 ∧ ∃ j, r'.buffer.get? ref = some j ∧ j.op = op) ∧
      ∀ e₀ e w flag, At e₀ r e → op.compute? (e.word a) (e.word b) = some (w, flag) →
        ∃ e', At e₀ r' e' ∧ e.Later e' ∧ e'.word ref = w ∧ e'.overflow = flag.getD e.overflow := by
  obtain ⟨hresult, -, himm⟩ := TraceOp.hasResult_of_computes hop
  refine ⟨_, _, emit_eq h hop ha hb t, plus_grown h _, plus_makes hresult, ⟨?_, ?_⟩, ?_⟩
  · rw [plus_size]
    rfl
  · exact ⟨_, plus_get?_new r _, rfl⟩
  · intro e₀ e w flag hat hw
    have hexec : e.exec .standard { op, a, b, type := t } =
        .on ({ e with overflow := flag.getD e.overflow }.push w) := by
      rw [Env.exec_compute hop, hw]
      rfl
    obtain ⟨hat', hlater, hword⟩ := hat.plus_word hexec fun heq => absurd heq himm
    exact ⟨_, hat', hlater, hword, rfl⟩

theorem emit_yields (h : r.Wf) {op : TraceOp} (hop : op.computes = true) (ha : Makes r.buffer a)
    (hb : b = Ref.none ∨ Makes r.buffer b) (t : Ty) :
    Yields (Recorder.emit op a b t) r fun ref r' => Grown r r' ∧ Makes r'.buffer ref ∧
      (r'.buffer.size = ref + 1 ∧ ∃ j, r'.buffer.get? ref = some j ∧ j.op = op) ∧
      ∀ e₀ e w flag, At e₀ r e → op.compute? (e.word a) (e.word b) = some (w, flag) →
        ∃ e', At e₀ r' e' ∧ e.Later e' ∧ e'.word ref = w ∧ e'.overflow = flag.getD e.overflow :=
  (emit_gives h hop ha hb t).yields

/-- A constant. -/
theorem immediate_gives (h : r.Wf) (v : Immediate) (t : Ty) :
    Gives (Recorder.immediate v t) r fun ref r' => Grown r r' ∧ Makes r'.buffer ref ∧
      ∀ e₀ e, At e₀ r e → ∃ e', At e₀ r' e' ∧ e.Later e' ∧ e'.word ref = v.bits := by
  unfold Recorder.immediate
  refine .of_bind_ok (show (get : Recording Recorder) r = .ok r r from rfl) ?_
  cases hfound : r.immediates[(v, t)]? with
  | some ref =>
    obtain ⟨i, hget, hop, rfl⟩ := h.shared v t ref hfound
    refine ⟨_, _, rfl, .refl h, ⟨i, hget, by rw [hop]; rfl⟩, fun e₀ e hat => ?_⟩
    exact ⟨e, hat, .refl e, hat.imm ref i hget hop⟩
  | none =>
    have happend : Recorder.append { op := .imm, type := t, imm := v } r = _ :=
      append_eq h nofun nofun nofun nofun
    have hg := plus_grown h { op := .imm, type := t, imm := v }
    refine .of_bind_ok happend ⟨_, _, rfl, ?_⟩
    refine ⟨⟨⟨hg.wf.slots, hg.wf.unsealed, fun v' t' ref href => ?_⟩, hg.insts, rfl⟩,
      plus_makes rfl, fun e₀ e hat => ?_⟩
    · replace href : (r.immediates.insert (v, t) (r.buffer.size : Int))[(v', t')]? = some ref :=
        href
      rw [Std.TreeMap.getElem?_insert] at href
      split at href
      · next heq =>
        obtain ⟨rfl, rfl⟩ := Prod.mk.inj (Std.compare_eq_iff_eq.mp heq)
        obtain rfl := Option.some.inj href
        exact ⟨_, plus_get?_new r _, rfl, rfl⟩
      · exact hg.wf.shared v' t' ref href
    · obtain ⟨hat', hlater, hword⟩ := hat.plus_word (i := { op := .imm, type := t, imm := v })
        (f := e.overflow) rfl fun _ => rfl
      exact ⟨_, ⟨hat'.pass, hat'.size, hat'.imm, hat'.slots, hat'.valid, hat'.later, hat'.few⟩,
        hlater,
        hword⟩

theorem immediate_yields (h : r.Wf) (v : Immediate) (t : Ty) :
    Yields (Recorder.immediate v t) r fun ref r' => Grown r r' ∧ Makes r'.buffer ref ∧
      ∀ e₀ e, At e₀ r e → ∃ e', At e₀ r' e' ∧ e.Later e' ∧ e'.word ref = v.bits :=
  (immediate_gives h v t).yields

/-- A word as a float. -/
def floatWord (t : Ty) (w : UInt64) : UInt64 :=
  if t = .float then w else (Binary64.ofInt w.toInt64.toInt).bits

theorem instOf_eq {i : Inst} (h : r.buffer.get? ref = some i) : Recorder.instOf ref r = .ok i r :=
  (bind_ok rfl).trans (by rw [h]; rfl)

theorem toFloat_yields (h : r.Wf) (ha : Makes r.buffer a) (t : Ty) :
    Yields (Recorder.toFloat a t) r fun ref r' => Grown r r' ∧ Makes r'.buffer ref ∧
      ∀ e₀ e, At e₀ r e → ∃ e', At e₀ r' e' ∧ e.Later e' ∧
      e'.word ref = floatWord t (e.word a) := by
  unfold Recorder.toFloat
  by_cases ht : t = .float
  · rw [if_pos (beq_iff_eq.mpr ht)]
    refine .of_ok rfl ⟨.refl h, ha, fun e₀ e hat => ⟨e, hat, .refl e, ?_⟩⟩
    rw [floatWord, if_pos ht]
  · rw [if_neg fun heq => ht (beq_iff_eq.mp heq)]
    obtain ⟨i, hget, hresult⟩ := ha
    refine .of_bind_ok (instOf_eq hget) ?_
    by_cases himm : i.op = .imm
    · rw [if_pos (beq_iff_eq.mpr himm)]
      refine (immediate_yields h _ _).mono fun ref r' hpost => ?_
      obtain ⟨hg, hm, hv⟩ := hpost
      refine ⟨hg, hm, fun e₀ e hat => ?_⟩
      obtain ⟨e', hat', hlater, hword⟩ := hv e₀ e hat
      refine ⟨e', hat', hlater, ?_⟩
      rw [hword, floatWord, if_neg ht, hat.imm a i hget himm]
      rfl
    · rw [if_neg fun heq => himm (beq_iff_eq.mp heq)]
      refine (emit_yields h rfl ⟨i, hget, hresult⟩ (.inl rfl) .float).mono
        fun ref r' hpost => ?_
      obtain ⟨hg, hm, _, hv⟩ := hpost
      refine ⟨hg, hm, fun e₀ e hat => ?_⟩
      obtain ⟨e', hat', hlater, hword, -⟩ := hv e₀ e _ none hat rfl
      refine ⟨e', hat', hlater, ?_⟩
      rw [hword, floatWord, if_neg ht]

/-- A call of a helper that has an answer. -/
theorem callHelper_yields (h : r.Wf) (id : UInt8) (t : Ty) {args : List Ref}
    (hargs : ∀ ref ∈ args, Makes r.buffer ref) :
    Yields (Recorder.callHelper id t args) r fun ref r' => Grown r r' ∧ Makes r'.buffer ref ∧
      ∀ e₀ e w heap, At e₀ r e →
        HelperTable.standard.invoke e.heap id (args.map e.word) = .ok (w, heap) →
        heap.Valid → heap.Extends e.heap → heap.size ≤ e.heap.size + 1 →
        ∃ e', At e₀ r' e' ∧ e.Later e' ∧ e'.word ref = w ∧ e'.heap = heap := by
  have hoperands : ∀ ref ∈ Inst.operands { op := .call, type := t, helper := id, args },
      Makes r.buffer ref := fun ref href => hargs ref href
  refine .of_ok
    (append_eq h hoperands (fun _ h => by cases h) (fun h => by cases h) fun h => by cases h)
    ⟨plus_grown h _, plus_makes rfl, ?_⟩
  intro e₀ e w heap hat hinvoke hvalid hextends hfew
  have hexec : e.exec .standard { op := .call, type := t, helper := id, args } =
      .on ({ e with heap }.push w) := by
    unfold Env.exec
    dsimp only
    rw [hinvoke]
  obtain ⟨hat', hlater, hword⟩ := hat.plus hexec rfl rfl (fun h => by cases h) hvalid hextends hfew
  exact ⟨_, hat', hlater, hword, rfl⟩

end Instructions

/-! ### Slots -/

namespace Recorder

/-- A slot holds a value of a type. -/
structure Sees (r : Recorder) (k : Nat) (ref : Int) (t : Ty) : Prop where
  value : r.slots.value? k = some ref
  type : r.type? k = some t
  makes : Makes r.buffer ref

/-- The first `n` slots hold values. -/
def Live (r : Recorder) (n : Nat) : Prop := ∀ k < n, ∃ ref t, r.Sees k ref t

/-- The recorder with a new value in a slot. -/
def assign (r : Recorder) (k : Nat) (ref : Ref) (t : Ty) : Recorder :=
  { r with
    slots := r.slots.insert (.ofSlot k) ref
    types := r.types.insert k t
    tracked := max r.tracked (k + 1) }

end Recorder

section Slots

variable {r r' : Recorder} {k n : Nat} {ref : Int} {t : Ty}

theorem Recorder.Sees.grown (h : r.Sees k ref t) (hg : Grown r r') : r'.Sees k ref t :=
  ⟨by rw [hg.slots]; exact h.value, by rw [hg.type?]; exact h.type, hg.makes h.makes⟩

theorem Recorder.Live.grown (h : r.Live n) (hg : Grown r r') : r'.Live n := by
  intro k hk
  obtain ⟨ref, t, hsees⟩ := h k hk
  exact ⟨ref, t, hsees.grown hg⟩

/-- A slot holds one value of one type. -/
theorem Recorder.Sees.unique {ref' : Int} {t' : Ty} (h : r.Sees k ref t) (h' : r.Sees k ref' t') :
    ref' = ref ∧ t' = t :=
  ⟨Option.some.inj (h'.value.symm.trans h.value), Option.some.inj (h'.type.symm.trans h.type)⟩

theorem valueOf_eq (hk : k < 2 ^ 28) (h : r.Sees k ref t) :
    Recorder.valueOf (.ofSlot k) r = .ok ref r := by
  have hget : r.slots.get (.ofSlot k) = .ok ref := by
    unfold SlotMap.get
    rw [SlotMap.find?_eq _ (SlotAddr.valid_ofSlot hk), SlotAddr.slot_ofSlot hk, Int.toNat_natCast,
      h.value]
    rfl
  show Recorder.liftFault (r.slots.get (.ofSlot k)) r = _
  rw [hget]
  rfl

theorem typeOf_eq (hk : k < 2 ^ 28) (h : r.Sees k ref t) :
    Recorder.typeOf (.ofSlot k) r = .ok t r := by
  show (if (SlotAddr.ofSlot k).slot < 0 then _ else _ : Recording Ty) r = _
  rw [SlotAddr.slot_ofSlot hk, if_neg (by omega), Int.toNat_natCast, h.type]
  rfl

theorem assign_wf (h : r.Wf) (hnonneg : 0 ≤ ref) : (r.assign k ref t).Wf :=
  ⟨(SlotMap.insert_valid h.slots _ hnonneg).1, h.unsealed, h.shared⟩

theorem assign_sees (h : r.Wf) (hk : k < 2 ^ 28) (hm : Makes r.buffer ref) :
    (r.assign k ref t).Sees k ref t := by
  refine ⟨?_, ?_, hm⟩
  · show (r.slots.insert (.ofSlot k) ref).value? k = _
    rw [(SlotMap.insert_valid h.slots _ hm.bounds.1).2, SlotAddr.slot_ofSlot hk, Int.toNat_natCast,
      if_pos rfl]
  · show (if k < max r.tracked (k + 1) then some ((r.types.insert k t).getD k .null) else none) = _
    rw [if_pos (by omega), Std.TreeMap.getD_insert_self]

theorem assign_sees_other {j : Nat} {ref' : Int} {t' : Ty} (h : r.Wf) (hk : k < 2 ^ 28)
    (hnonneg : 0 ≤ ref) (hj : j ≠ k) (hs : r.Sees j ref' t') :
    (r.assign k ref t).Sees j ref' t' := by
  refine ⟨?_, ?_, hs.makes⟩
  · show (r.slots.insert (.ofSlot k) ref).value? j = _
    rw [(SlotMap.insert_valid h.slots _ hnonneg).2, SlotAddr.slot_ofSlot hk, Int.toNat_natCast,
      if_neg hj]
    exact hs.value
  · have htype := hs.type
    unfold Recorder.type? at htype
    split at htype
    · next hlt =>
      show (if j < max r.tracked (k + 1)
        then some ((r.types.insert k t).getD j .null) else none) = _
      rw [if_pos (by omega), Std.TreeMap.getD_insert]
      simp only [Std.compare_eq_iff_eq, Ne.symm hj, if_false]
      exact htype
    · cases htype

/-- A result of the type that was seen goes to its slot. -/
theorem result_eq (hk : k < 2 ^ 28) (hnonneg : 0 ≤ ref) (p : Primitive) :
    Recorder.result p ⟨.ofSlot k, t⟩ ref t r = .ok () (r.assign k ref t) := by
  have hsettable : SlotMap.settable (.ofSlot k) ref = none := by
    unfold SlotMap.settable
    rw [SlotAddr.valid_ofSlot hk, if_neg (by decide), if_neg (Int.not_lt.mpr hnonneg)]
  unfold Recorder.result
  simp only [ne_eq, not_true_eq_false, if_false]
  unfold Recorder.setSlot
  simp only [hsettable, SlotAddr.slot_ofSlot hk, Int.toNat_natCast]
  rfl

/-- A result of another type is no use. -/
theorem result_yields (h : r.Wf) (hk : k < 2 ^ 28) (hm : Makes r.buffer ref) (p : Primitive)
    (seen : Ty) :
    Yields (Recorder.result p ⟨.ofSlot k, seen⟩ ref t) r fun _ r' =>
      t = seen ∧ r' = r.assign k ref t := by
  by_cases ht : t = seen
  · subst ht
    exact .of_ok (result_eq hk hm.bounds.1 p) ⟨rfl, rfl⟩
  · unfold Recorder.result
    simp only [ne_eq, ht, not_false_eq_true, if_true]
    exact (Yields.giveUp (P := fun (_ : PUnit) _ => False) h.slots _ _ _).bind fun _ _ hfalse =>
      hfalse.elim

/-! ### Exits -/

/-- A list of what the first `n` slots hold. -/
structure Snapshot (r : Recorder) (n : Nat) (snap : List SnapshotEntry) : Prop where
  length : snap.length = n
  entry : ∀ k < n, ∃ ref t, snap[k]? = some ⟨.ofSlot k, ref, t⟩ ∧ r.Sees k ref t

theorem snapshotFrom_eq {m : Nat} (hn : n + m < 2 ^ 28)
    (h : ∀ k, n ≤ k → k < n + m → ∃ ref t, r.Sees k ref t) :
    ∃ snap, Recorder.snapshotFrom n m r = .ok snap r ∧ snap.length = m ∧
      ∀ k < m, ∃ ref t, snap[k]? = some ⟨.ofSlot (n + k : Nat), ref, t⟩ ∧ r.Sees (n + k) ref t := by
  induction m generalizing n with
  | zero => exact ⟨[], rfl, rfl, fun _ hk => absurd hk (Nat.not_lt_zero _)⟩
  | succ m ih =>
    obtain ⟨ref, t, hsees⟩ := h n (Nat.le_refl n) (by omega)
    obtain ⟨snap, hsnap, hlength, hentry⟩ := ih (n := n + 1) (by omega) fun k hk hk' =>
      h k (by omega) (by omega)
    refine ⟨⟨.ofSlot n, ref, t⟩ :: snap, ?_, by rw [List.length_cons, hlength], fun k hk => ?_⟩
    · unfold Recorder.snapshotFrom
      refine (bind_ok (valueOf_eq (by omega) hsees)).trans ((bind_ok rfl).trans ?_)
      rw [hsees.type]
      exact bind_ok hsnap
    · cases k with
      | zero => exact ⟨ref, t, rfl, hsees⟩
      | succ k =>
        obtain ⟨ref', t', hget, hsees'⟩ := hentry k (by omega)
        rw [show n + (k + 1) = n + 1 + k by omega]
        exact ⟨ref', t', hget, hsees'⟩

/-- The exit back to the state before a primitive lists what all live slots hold. -/
theorem exitBefore_eq {p : Primitive} {d : Nat} (hd : p.depth = d) (hn : n = r.locals + d)
    (hlt : n < 2 ^ 28) (hlive : r.Live n) (kind : ExitKind) :
    ∃ snap, Recorder.exitBefore p kind r = .ok ⟨p.pc, p.depth, kind, snap⟩ r ∧
    Snapshot r n snap := by
  obtain ⟨snap, hsnap, hlength, hentry⟩ := snapshotFrom_eq (r := r) (n := 0) (m := n) (by omega)
    fun k _ hk => hlive k (by omega)
  refine ⟨snap, ?_, hlength, fun k hk => ?_⟩
  · have hwidth : ((r.locals : Int) + p.depth) = n := by omega
    have hfits : blockFits (n : Int) Recorder.snapshotEntrySize = true := by
      unfold blockFits
      rw [Bool.and_eq_true, decide_eq_true_eq, decide_eq_true_eq]
      have hmax : maxBlock = 2 ^ 48 := by decide
      have hentry : Recorder.snapshotEntrySize = 12 := rfl
      rw [hmax, hentry]
      omega
    show (if (!blockFits ((r.locals : Int) + p.depth) Recorder.snapshotEntrySize) = true then _
      else _ :
      Recording SideExit) r = _
    rw [hwidth, hfits, Int.toNat_natCast]
    show EStateM.bind _ _ _ = _
    unfold EStateM.bind
    simp only [hsnap]
    rfl
  · obtain ⟨ref, t, hget, hsees⟩ := hentry k hk
    rw [Nat.zero_add] at hget hsees
    exact ⟨ref, t, hget, hsees⟩

/-- A snapshot stays right while the trace grows. -/
theorem Snapshot.grown {snap : List SnapshotEntry} (h : Snapshot r n snap) (hg : Grown r r') :
    Snapshot r' n snap := by
  refine ⟨h.length, fun k hk => ?_⟩
  obtain ⟨ref, t, hget, hsees⟩ := h.entry k hk
  exact ⟨ref, t, hget, hsees.grown hg⟩

/-- Whether a guard on a condition fails. -/
def Env.fails (e : Env) (op : TraceOp) (condition : Int) : Bool :=
  match op with
  | .exitUnless => e.word condition == 0
  | .exitIf => e.word condition != 0
  | _ => e.overflow

/-- A guard on a value that there is. -/
theorem guard_eq (h : r.Wf) {o : TraceOp} (hm : Makes r.buffer ref)
    (hov : o = .exitOv → r.buffer.size = ref + 1 ∧
      ∃ j, r.buffer.get? ref = some j ∧ j.op.setsOverflow = true)
    {x : SideExit} (hx : Snapshot r n x.snapshot) :
    Recorder.guard o ref x r = .ok () (r.plus { op := o, a := ref, exit := some x }) := by
  have hoperands : ∀ q ∈ Inst.operands { op := o, a := ref, exit := some x }, Makes r.buffer q := by
    intro q hq
    simp only [Inst.operands, List.append_nil] at hq
    rcases List.mem_append.mp hq with hmem | hmem
    · split at hmem
      · cases hmem
      · rw [List.mem_singleton.mp hmem]
        exact hm
    · cases hmem
  have hsnapshot : ∀ q ∈ Inst.snapshotRefs { op := o, a := ref, exit := some x },
      Makes r.buffer q := by
    intro q hq
    obtain ⟨s, hs, rfl⟩ := List.mem_map.mp hq
    obtain ⟨k, hk⟩ := List.mem_iff_getElem?.mp hs
    have hlt := (List.getElem?_eq_some_iff.mp hk).1
    obtain ⟨q, t, hget, hsees⟩ := hx.entry k (hx.length ▸ hlt)
    obtain rfl := Option.some.inj (hk.symm.trans hget)
    exact hsees.makes
  exact bind_ok
    (append_eq h hoperands hsnapshot (fun heq => ⟨(hov heq).1.symm, (hov heq).2⟩) fun _ => rfl)

/-- Passes on which a guard fails leave there, all others go on. -/
theorem guard_gives (h : r.Wf) {o : TraceOp} (hop : o.isGuard = true) (hm : Makes r.buffer ref)
    (hov : o = .exitOv → r.buffer.size = ref + 1 ∧
      ∃ j, r.buffer.get? ref = some j ∧ j.op.setsOverflow = true)
    {x : SideExit} (hx : Snapshot r n x.snapshot) :
    Gives (Recorder.guard o ref x) r fun _ r' => Grown r r' ∧ ∀ e₀ e, At e₀ r e →
      if e.fails o ref then Gone e₀ r' x e else ∃ e', At e₀ r' e' ∧ e.Later e' := by
  refine ⟨_, _, guard_eq h hm hov hx, plus_grown h _, fun e₀ e hat => ?_⟩
  have hexec : e.exec .standard { op := o, a := ref, exit := some x } =
      if e.fails o ref then .left x e else .on (e.push 0) := by
    cases o <;> first | (cases hop; done) | rfl
  by_cases hfails : e.fails o ref = true
  · rw [if_pos hfails] at hexec ⊢
    exact (hat.run_plus _).trans hexec
  · rw [if_neg hfails] at hexec ⊢
    have hne : o ≠ .imm := by
      rintro rfl
      cases hop
    obtain ⟨hat', hlater, -⟩ := hat.plus_word (f := e.overflow) hexec fun heq => absurd heq hne
    exact ⟨_, hat', hlater⟩

theorem guard_yields (h : r.Wf) {o : TraceOp} (hop : o.isGuard = true) (hm : Makes r.buffer ref)
    (hov : o = .exitOv → r.buffer.size = ref + 1 ∧
      ∃ j, r.buffer.get? ref = some j ∧ j.op.setsOverflow = true)
    {x : SideExit} (hx : Snapshot r n x.snapshot) :
    Yields (Recorder.guard o ref x) r fun _ r' => Grown r r' ∧ ∀ e₀ e, At e₀ r e →
      if e.fails o ref then Gone e₀ r' x e else ∃ e', At e₀ r' e' ∧ e.Later e' :=
  (guard_gives h hop hm hov hx).yields

end Slots

end LoopTracer.Trace
