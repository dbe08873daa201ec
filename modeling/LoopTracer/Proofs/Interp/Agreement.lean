import LoopTracer.Proofs.Interp.Recorded
import LoopTracer.Proofs.Trace.Sessions

/-! Interpreter and trace, operation by operation.

The interpreter computes on values and a trace on words, each in a way of its own. Where the operands
of an operation stand for values, a pass over the instructions that were recorded for it leaves them
exactly when the interpreter's value is not of the type that was seen, and otherwise ends with a word
that is boxed to that value (`operations_agree`). A branch goes on exactly when its condition is as
true as it was. -/
namespace LoopTracer.Interp

open Bytecode Trace Machine

/-- The interpreter's value of an operation on two values. -/
def operate (op : BinOp) (a b : Value) : Option Value :=
  if (compareCond op).isSome then compare op a b else arith op a b

/-- A pass that began in `e₀`, at the end of a trace whose last instructions are those of an
operation: how it compares with the interpreter's value. -/
structure Faithful (r' : Recorder) (e₀ : Env) (k : Nat) (seen : Ty)
    (value : Option Value) : Prop where
  defined : value.isSome = true
  /-- A guard fails exactly when the value is of another type than the one seen. -/
  leaves : (∃ x e', Gone e₀ r' x e') ↔ value.bind traceType? ≠ some seen
  /-- Otherwise the word in slot `k` is boxed to the value. -/
  yields : value.bind traceType? = some seen → ∃ e' ref v, At e₀ r' e' ∧ r'.Sees k ref seen ∧
    value = some v ∧ rebox e'.heap (e'.word ref) seen = .ok v

section Agreement

variable {r r' : Recorder} {p : Primitive} {n k ka kb : Nat} {a b : Int}
  {ta tb seen : Ty} {e₀ e : Env}
variable {value : Option Value}

/-- A value in a slot of the type seen is what the word is boxed to. -/
theorem Mirrors.faithful (h : Mirrors p n r r' e₀ e k seen fun v => value = some v)
    (hw : Writes r r' k seen) : Faithful r' e₀ k seen value := by
  obtain ⟨ref, hsees⟩ := hw.written
  rcases h with ⟨e', v, hat, -, rfl, hstands⟩ | ⟨x, e', hgone, -, -, v, rfl, hother⟩
  · obtain ⟨ht, hword⟩ := hstands.at hsees
    refine ⟨rfl, ⟨fun ⟨x, e'', hgone⟩ => (hat.not_gone hgone).elim, fun hne => absurd ht hne⟩,
      fun _ => ?_⟩
    exact ⟨e', ref, v, hat, hsees, rfl, hword.rebox ht⟩
  · exact ⟨rfl, ⟨fun _ => hother, fun _ => ⟨x, e', hgone⟩⟩, fun heq => absurd heq hother⟩

/-! ### Binary operations -/

/-- Every operation on two values is that of an instruction, for arithmetic or for a comparison. -/
theorem operation_of_mem {op : BinOp} (hop : op ∈ BinOp.all) :
    (∃ o, arithOp? o = some op ∧ ∀ va vb, operate op va vb = arith op va vb) ∨
      ∃ o, compareOp? o = some op ∧ ∀ va vb, operate op va vb = compare op va vb := by
  cases op
  case add => exact .inl ⟨.add, rfl, fun _ _ => rfl⟩
  case sub => exact .inl ⟨.sub, rfl, fun _ _ => rfl⟩
  case mul => exact .inl ⟨.mul, rfl, fun _ _ => rfl⟩
  case div => exact .inl ⟨.div, rfl, fun _ _ => rfl⟩
  case mod => exact .inl ⟨.mod, rfl, fun _ _ => rfl⟩
  case bitAnd => exact .inl ⟨.bitAnd, rfl, fun _ _ => rfl⟩
  case bitOr => exact .inl ⟨.bitOr, rfl, fun _ _ => rfl⟩
  case bitXor => exact .inl ⟨.bitXor, rfl, fun _ _ => rfl⟩
  case shl => exact .inl ⟨.shl, rfl, fun _ _ => rfl⟩
  case shr => exact .inl ⟨.shr, rfl, fun _ _ => rfl⟩
  case eq => exact .inr ⟨.eq, rfl, fun _ _ => rfl⟩
  case ne => exact .inr ⟨.ne, rfl, fun _ _ => rfl⟩
  case lt => exact .inr ⟨.lt, rfl, fun _ _ => rfl⟩
  case le => exact .inr ⟨.le, rfl, fun _ _ => rfl⟩
  case gt => exact .inr ⟨.gt, rfl, fun _ _ => rfl⟩
  case ge => exact .inr ⟨.ge, rfl, fun _ _ => rfl⟩
  case other n => simp [BinOp.all] at hop

theorem binary_agrees (hr : Before r p n) (hat : At e₀ r e) {op : BinOp} (hop : op ∈ BinOp.all)
    (hka : ka < 2 ^ 28) (hkb : kb < 2 ^ 28) (hk : k < 2 ^ 28) {va vb : Value}
    (ha : Stands r e ka va)
    (hb : Stands r e kb vb)
    (hrec : Recorder.binary p op (.ofSlot ka) (.ofSlot kb) ⟨.ofSlot k, seen⟩ r = .ok () r')
    (hroom : e₀.heap.size + r'.buffer.size < 2 ^ 32) :
    Faithful r' e₀ k seen (operate op va vb) := by
  obtain ⟨a, ta, hsa, -⟩ := id ha
  obtain ⟨b, tb, hsb, -⟩ := id hb
  rcases operation_of_mem hop with ⟨o, ho, heq⟩ | ⟨o, ho, heq⟩
  · obtain ⟨hw, hv⟩ := (arith_yields ho hr hsa hsb hka hkb hk).elim hrec
    rw [heq]
    exact (hv e₀ e va vb hat hroom ha hb).faithful hw
  · obtain ⟨hw, hv⟩ := (comparison_yields ho hr hsa hsb hka hkb hk).elim hrec
    rw [heq]
    exact (hv e₀ e va vb hat ha hb).faithful hw

theorem unary_agrees (hr : Before r p n) (hat : At e₀ r e) {o : Opcode} {op : UnOp}
    (ho : unaryOp? o = some op) (hka : ka < 2 ^ 28) (hk : k < 2 ^ 28) {v : Value}
    (ha : Stands r e ka v)
    (hrec : Recorder.unary p op (.ofSlot ka) ⟨.ofSlot k, seen⟩ r = .ok () r') :
    Faithful r' e₀ k seen (unary op v) := by
  obtain ⟨a, ta, hsa, -⟩ := id ha
  obtain ⟨hw, hv⟩ := (unary_yields ho hr hsa hka hk).elim hrec
  exact (hv e₀ e v hat ha).faithful hw

/-- An addition of ints that gave an int is recorded. -/
theorem sum_gives (hr : Before r p n) (ha : r.Sees ka a .int) (hb : r.Sees kb b .int)
    (hka : ka < 2 ^ 28)
    (hkb : kb < 2 ^ 28) (hk : k < 2 ^ 28) :
    ∃ r', Recorder.binary p .add (.ofSlot ka) (.ofSlot kb) ⟨.ofSlot k, .int⟩ r = .ok () r' ∧
      r'.buffer.size = r.buffer.size + 2 := by
  obtain ⟨x, hexit, hx⟩ := hr.exit .overflow
  have hemit : Recorder.emit .addOv a b .int r = _ :=
    emit_eq hr.wf rfl ha.makes (.inr hb.makes) .int
  have hg := plus_grown hr.wf { op := .addOv, a, b, type := .int }
  have hm : Makes (r.plus { op := .addOv, a, b, type := .int }).buffer r.buffer.size :=
    plus_makes rfl
  have hguard := guard_eq hg.wf (o := .exitOv) hm
    (fun _ => ⟨congrArg Nat.cast (plus_size r _), _, plus_get?_new r _, rfl⟩) (hx.snapshot.grown hg)
  have hg' := plus_grown hg.wf { op := .exitOv, a := r.buffer.size, exit := some x }
  -- The trace with the addition and its guard.
  let summed := (r.plus { op := .addOv, a, b, type := .int }).plus
    { op := .exitOv, a := r.buffer.size, exit := some x }
  refine ⟨summed.assign k r.buffer.size .int, ?_,
    (plus_size _ _).trans (congrArg Nat.succ (plus_size r _))⟩
  unfold Recorder.binary
  rw [bind_ok (typeOf_eq hka ha), bind_ok (typeOf_eq hkb hb), bind_ok (valueOf_eq hka ha),
    bind_ok (valueOf_eq hkb hb)]
  show (Recorder.exitBefore p .overflow >>= _ : Recording Unit) r = _
  rw [bind_ok hexit]
  show (Recorder.emit .addOv a b .int >>= _ : Recording Unit) r = _
  rw [bind_ok hemit, bind_ok hguard]
  exact result_eq hk (hg'.makes hm).bounds.1 p

/-! ### Branches -/

/-- A branch on what is no constant is always recorded. -/
theorem branch_gives (hr : Before r p n) (ha : r.Sees ka a ta) (hka : ka < 2 ^ 28)
    (hvar : ∀ i, r.buffer.get? a = some i → i.op ≠ .imm) (taken : Bool) :
    ∃ r', Recorder.branch p (.ofSlot ka) taken r = .ok () r' := by
  obtain ⟨i, hget, hresult⟩ := ha.makes
  obtain ⟨x, hexit, hx⟩ := hr.exit .branch
  have hop : (if taken then TraceOp.exitUnless else .exitIf).isGuard = true := by
    cases taken <;> rfl
  have hov : (if taken then TraceOp.exitUnless else .exitIf) ≠ .exitOv := by
    cases taken <;> (intro h; cases h)
  suffices h : Gives (Recorder.branch p (.ofSlot ka) taken) r fun _ _ => True by
    obtain ⟨⟨⟩, r', hok, -⟩ := h
    exact ⟨r', hok⟩
  unfold Recorder.branch
  refine .of_bind_ok (typeOf_eq hka ha)
    (.of_bind_ok (valueOf_eq hka ha) (.of_bind_ok (instOf_eq hget) ?_))
  rw [if_neg fun heq => hvar i hget (beq_iff_eq.mp heq)]
  refine .of_bind_ok hexit ?_
  by_cases hfloat : ta = .float
  · rw [if_pos (beq_iff_eq.mpr hfloat)]
    refine (immediate_gives hr.wf _ _).bind fun z r₁ hpost => ?_
    obtain ⟨hg₁, hz, _⟩ := hpost
    refine (emit_gives hg₁.wf rfl (hg₁.makes ha.makes) (.inr hz) .bool).bind fun c r₂ hpost => ?_
    obtain ⟨hg₂, hc, _, _⟩ := hpost
    exact (guard_gives hg₂.wf hop hc (fun heq => absurd heq hov)
      (hx.snapshot.grown (hg₁.trans hg₂))).mono fun _ _ _ => trivial
  · rw [if_neg fun heq => hfloat (beq_iff_eq.mp heq)]
    refine .of_bind_ok rfl ?_
    exact (guard_gives hr.wf hop ha.makes (fun heq => absurd heq hov) hx.snapshot).mono fun _ _ _ =>
      trivial

theorem branch_agrees (hr : Before r p n) (hat : At e₀ r e) (hka : ka < 2 ^ 28) {v : Value}
    (hv : Stands r e ka v)
    (hvar : ∀ ref i, r.slots.value? ka = some ref → r.buffer.get? ref = some i → i.op ≠ .imm)
    (taken : Bool) :
    ∃ r', Recorder.branch p (.ofSlot ka) taken r = .ok () r' ∧
      ((∃ e', At e₀ r' e') ↔ v.truthy = taken) ∧
      ((∃ x e', Gone e₀ r' x e') ↔ v.truthy ≠ taken) := by
  obtain ⟨ref, t, hsees, -⟩ := id hv
  obtain ⟨r', hrec⟩ := branch_gives hr hsees hka (fun i => hvar ref i hsees.value) taken
  refine ⟨r', hrec, ?_⟩
  obtain ⟨-, hpass⟩ := (branch_yields hr hsees hka taken).elim hrec
  rcases hpass e₀ e v hat hv with ⟨e', hat', -, htaken⟩ | ⟨x, e', hgone, -, -, htaken⟩
  · exact ⟨⟨fun _ => htaken, fun _ => ⟨e', hat'⟩⟩,
      ⟨fun ⟨_, _, hgone⟩ => (hat'.not_gone hgone).elim, fun hne => absurd htaken hne⟩⟩
  · exact ⟨⟨fun ⟨_, hat'⟩ => (hat'.not_gone hgone).elim, fun heq => absurd heq htaken⟩,
      ⟨fun _ => htaken, fun _ => ⟨x, e', hgone⟩⟩⟩

end Agreement

/-- In every pass that stands where an operation is recorded, its instructions do what the interpreter
does: they leave exactly when its value is not of the type seen, and else give a word that is boxed to
it; and a branch on what is no constant is recorded with a guard that holds exactly when the condition
is as true as it was. -/
theorem operations_agree {r : Recorder} {p : Primitive} {n : Nat} {e₀ e : Env} (hr : Before r p n)
    (hat : At e₀ r e) :
    (∀ (op : BinOp) (ka kb k : Nat) (va vb : Value) (seen : Ty) (r' : Recorder), op ∈ BinOp.all →
      ka < 2 ^ 28 → kb < 2 ^ 28 → k < 2 ^ 28 → Stands r e ka va → Stands r e kb vb →
      Recorder.binary p op (.ofSlot ka) (.ofSlot kb) ⟨.ofSlot k, seen⟩ r = .ok () r' →
      e₀.heap.size + r'.buffer.size < 2 ^ 32 → Faithful r' e₀ k seen (operate op va vb)) ∧
    (∀ (op : UnOp) (ka k : Nat) (v : Value) (seen : Ty) (r' : Recorder), op ∈
      [.neg, .bitNot, .not] →
      ka < 2 ^ 28 → k < 2 ^ 28 → Stands r e ka v →
      Recorder.unary p op (.ofSlot ka) ⟨.ofSlot k, seen⟩ r = .ok () r' →
      Faithful r' e₀ k seen (unary op v)) ∧
    ∀ (ka : Nat) (v : Value) (taken : Bool), ka < 2 ^ 28 → Stands r e ka v →
      (∀ ref i, r.slots.value? ka = some ref → r.buffer.get? ref = some i → i.op ≠ .imm) →
      ∃ r', Recorder.branch p (.ofSlot ka) taken r = .ok () r' ∧
        ((∃ e', At e₀ r' e') ↔ v.truthy = taken) ∧
        ((∃ x e', Gone e₀ r' x e') ↔ v.truthy ≠ taken) := by
  refine ⟨fun op ka kb k va vb seen r' hop hka hkb hk ha hb hrec hroom =>
    binary_agrees hr hat hop hka hkb hk ha hb hrec hroom,
    fun op ka k v seen r' hop hka hk ha hrec => ?_,
    fun ka v taken hka hv hvar => branch_agrees hr hat hka hv hvar taken⟩
  obtain ⟨o, ho⟩ : ∃ o, unaryOp? o = some op := by
    simp only [List.mem_cons, List.not_mem_nil, or_false] at hop
    rcases hop with rfl | rfl | rfl
    · exact ⟨.neg, rfl⟩
    · exact ⟨.bitNot, rfl⟩
    · exact ⟨.not, rfl⟩
  exact unary_agrees hr hat ho hka hk ha hrec

/-- A loop that starts with two ints. -/
def pairLoop : Fragment :=
  { id := 1, key := { code := 1, pc := 0, depth := 1 }, kind := .root, root := 1,
    entryTypes := some [.int, .int] }

/-- Two ints are added on a pass: one and two give three, and a sum that is no int leaves. -/
theorem sum_agrees : ∃ r r', Recorder.start pairLoop [] [.int, .int] none {} = .ok r ∧
    Recorder.binary ⟨4, 0, .unrecordable⟩ .add (.ofSlot 0) (.ofSlot 1) ⟨.ofSlot 0, .int⟩ r =
      .ok () r' ∧
    (∃ e ref, At { slots := #[intWord 1, intWord 2], heap := {} } r' e ∧ r'.Sees 0 ref .int ∧
      rebox e.heap (e.word ref) .int = .ok (.int 3)) ∧
    ∃ x e, Gone { slots := #[intWord 2147483647, intWord 1], heap := {} } r' x e := by
  obtain ⟨r, hstart, hsize⟩ : ∃ r, Recorder.start pairLoop [] [.int, .int] none {} = .ok r ∧
      r.buffer.size = 2 := ⟨_, rfl, rfl⟩
  obtain ⟨hwf, -, -, hlocals, hsees, hpass⟩ := start_reads SlotMap.valid_default (by decide) hstart
  have hx := hsees 0 .int rfl
  have hy := hsees 1 .int rfl
  have hbefore : Before r ⟨4, 0, .unrecordable⟩ 2 := by
    refine ⟨hwf, ⟨0, rfl, hlocals.symm⟩, by decide, fun j hj => ?_⟩
    obtain rfl | rfl : j = 0 ∨ j = 1 := by omega
    · exact ⟨_, _, hx⟩
    · exact ⟨_, _, hy⟩
  obtain ⟨r', hrec, hsize'⟩ := sum_gives (k := 0) hbefore hx hy (by decide) (by decide) (by decide)
  have hsum : ∀ m n : Int32, Faithful r' { slots := #[intWord m, intWord n], heap := {} } 0 .int
      (operate .add (.int m) (.int n)) := by
    intro m n
    obtain ⟨e, hat, -, hwords⟩ := hpass { slots := #[intWord m, intWord n], heap := {} } rfl
      StringHeap.valid_default
    refine (operations_agree hbefore hat).1 .add 0 1 0 (.int m) (.int n) .int r'
      (by simp [BinOp.all])
      (by decide) (by decide) (by decide) ⟨_, _, hx, rfl, hwords 0 (by decide)⟩ ⟨_, _, hy, rfl,
        hwords 1 (by decide)⟩
      hrec ?_
    rw [hsize', hsize]
    exact (by decide : ({} : StringHeap).size + (2 + 2) < 2 ^ 32)
  refine ⟨r, r', hstart, hrec, ?_, (hsum 2147483647 1).leaves.mpr (by decide)⟩
  obtain ⟨e, ref, v, hat, hsee, hv, hword⟩ := (hsum 1 2).yields (by decide)
  cases hv
  exact ⟨e, ref, hat, hsee, hword⟩

end LoopTracer.Interp
