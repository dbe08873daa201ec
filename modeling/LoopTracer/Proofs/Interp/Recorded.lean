import LoopTracer.Proofs.Interp.Primitives

/-! Recording whole primitives.

The pieces of `Primitives` put together: operations on two values and on one, branches and calls of
builtins. A branch writes no slot; a pass on which the condition goes the other way leaves before
it. -/
namespace LoopTracer.Interp

open Bytecode Trace Machine

section Recorded

variable {r : Recorder} {p : Primitive} {n k ka kb : Nat} {a b : Int} {ta tb seen : Ty}

section Arithmetic

/-- An arithmetic operation was recorded into slot `k`: a pass puts into it what the interpreter
makes of the values in the slots `ka` and `kb`. -/
def Calculates (r : Recorder) (p : Primitive) (n ka kb k : Nat) (seen : Ty) (op : BinOp)
    (r' : Recorder) : Prop :=
  Writes r r' k seen ∧ ∀ e₀ e va vb, At e₀ r e → Stands r e ka va → Stands r e kb vb →
    Mirrors p n r r' e₀ e k seen fun v => arith op va vb = some v

variable (hr : Before r p n) (hk : k < 2 ^ 28)
include hr

theorem refuse_yields {op : BinOp} {P : Recorder → Prop} :
    Yields (Recorder.giveUp .unrecordable p.pc
      (op.name ++ " on " ++ ta.name ++ " and " ++ tb.name) : Recording Unit) r fun _ r' => P r' :=
  Yields.giveUp hr.wf.slots _ _ _

include hk

/-- An addition, subtraction or multiplication of numbers. -/
theorem numberSum_yields (ha : r.Sees ka a ta) (hb : r.Sees kb b tb) {op : BinOp}
    (hop : op = .add ∨ op = .sub ∨ op = .mul) :
    Yields (if (!(ta.isNumber && tb.isNumber)) = true then
        Recorder.giveUp .unrecordable p.pc (op.name ++ " on " ++ ta.name ++ " and " ++ tb.name)
      else if (ta == .int && tb == .int) = true then do
        if seen ≠ .int then
          Recorder.giveUp .guardFailed p.pc (op.name ++ " overflowed while recording")
        let exit ← Recorder.exitBefore p .overflow
        let v ← Recorder.emit (Recorder.overflowOp op) a b .int
        Recorder.guard .exitOv v exit
        Recorder.result p ⟨.ofSlot k, seen⟩ v .int
      else Recorder.onFloats p ⟨.ofSlot k, seen⟩ (Recorder.floatOp op) .float (a, ta) (b, tb)) r
    fun _ r' => Calculates r p n ka kb k seen op r' := by
  by_cases hnumbers : (ta.isNumber && tb.isNumber) = true
  · rw [if_neg (by simp [hnumbers])]
    by_cases hints : (ta == .int && tb == .int) = true
    · rw [if_pos hints]
      obtain ⟨hta, htb⟩ := Bool.and_eq_true_iff.mp hints
      obtain rfl := beq_iff_eq.mp hta
      obtain rfl := beq_iff_eq.mp htb
      exact unless_yields hr.wf _ _ _ fun hseen =>
        sum_yields hr ha hb hk (Classical.not_not.mp hseen) hop
    · rw [if_neg hints]
      refine floats_yields hr ha hb hnumbers hk ?_ (.inr (Bool.eq_false_iff.mpr hints))
      rcases hop with rfl | rfl | rfl <;> simp
  · rw [if_pos (by simp only [Bool.not_eq_true']; exact Bool.eq_false_iff.mpr hnumbers)]
    exact refuse_yields hr

theorem quotient_yields (ha : r.Sees ka a ta) (hb : r.Sees kb b tb) :
    Yields (if (!(ta.isNumber && tb.isNumber)) = true then
        Recorder.giveUp .unrecordable p.pc
          (BinOp.div.name ++ " on " ++ ta.name ++ " and " ++ tb.name)
      else Recorder.onFloats p ⟨.ofSlot k, seen⟩ .fdiv .float (a, ta) (b, tb)) r
    fun _ r' => Calculates r p n ka kb k seen .div r' := by
  by_cases hnumbers : (ta.isNumber && tb.isNumber) = true
  · rw [if_neg (by simp [hnumbers])]
    show Yields (Recorder.onFloats p ⟨.ofSlot k, seen⟩ (Recorder.floatOp .div) .float (a, ta)
      (b, tb)) r _
    exact floats_yields hr ha hb hnumbers hk (.inr (.inr (.inr rfl))) (.inl rfl)
  · rw [if_pos (by simp only [Bool.not_eq_true']; exact Bool.eq_false_iff.mpr hnumbers)]
    exact refuse_yields hr

theorem remainder_yields (ha : r.Sees ka a ta) (hb : r.Sees kb b tb) :
    Yields (if (!(ta.isNumber && tb.isNumber)) = true then
        Recorder.giveUp .unrecordable p.pc
          (BinOp.mod.name ++ " on " ++ ta.name ++ " and " ++ tb.name)
      else if (ta == .int && tb == .int) = true then do
        if seen ≠ .int then
          Recorder.giveUp .guardFailed p.pc "zero divisor while recording"
        let exit ← Recorder.exitBefore p .divZero
        let zero ← Recorder.immediate (.ofInt 0) .int
        let nonZero ← Recorder.emit .ne b zero .bool
        Recorder.guard .exitUnless nonZero exit
        Recorder.result p ⟨.ofSlot k, seen⟩
          (← Recorder.callHelper HelperId.intRem .int [a, b]) .int
      else do
        let x ← Recorder.toFloat a ta
        let y ← Recorder.toFloat b tb
        Recorder.result p ⟨.ofSlot k, seen⟩
          (← Recorder.callHelper HelperId.floatRem .float [x, y]) .float) r
    fun _ r' => Calculates r p n ka kb k seen .mod r' := by
  by_cases hnumbers : (ta.isNumber && tb.isNumber) = true
  · rw [if_neg (by simp [hnumbers])]
    by_cases hints : (ta == .int && tb == .int) = true
    · rw [if_pos hints]
      obtain ⟨hta, htb⟩ := Bool.and_eq_true_iff.mp hints
      obtain rfl := beq_iff_eq.mp hta
      obtain rfl := beq_iff_eq.mp htb
      exact unless_yields hr.wf _ _ _ fun hseen =>
        intRem_yields hr ha hb hk (Classical.not_not.mp hseen)
    · rw [if_neg hints]
      exact floatRem_yields hr ha hb hnumbers (Bool.eq_false_iff.mpr hints) hk
  · rw [if_pos (by simp only [Bool.not_eq_true']; exact Bool.eq_false_iff.mpr hnumbers)]
    exact refuse_yields hr

/-- An operation on the bits of ints. -/
theorem intBits_yields (ha : r.Sees ka a ta) (hb : r.Sees kb b tb) {op : BinOp}
    (hop : op = .bitAnd ∨ op = .bitOr ∨ op = .bitXor ∨ op = .shl ∨ op = .shr) :
    Yields (if (!(ta == .int && tb == .int)) = true then
        Recorder.giveUp .unrecordable p.pc (op.name ++ " on " ++ ta.name ++ " and " ++ tb.name)
      else do
        Recorder.result p ⟨.ofSlot k, seen⟩ (← Recorder.emit (Recorder.bitOp op) a b .int) .int) r
    fun _ r' => Calculates r p n ka kb k seen op r' := by
  by_cases hints : (ta == .int && tb == .int) = true
  · rw [if_neg (by simp only [hints]; decide)]
    obtain ⟨hta, htb⟩ := Bool.and_eq_true_iff.mp hints
    obtain rfl := beq_iff_eq.mp hta
    obtain rfl := beq_iff_eq.mp htb
    exact bits_yields hr ha hb hk hop
  · rw [if_pos (by simp only [Bool.not_eq_true']; exact Bool.eq_false_iff.mpr hints)]
    exact refuse_yields hr

end Arithmetic

/-- An arithmetic operation. -/
theorem arith_yields {o : Opcode} {op : BinOp} (ho : arithOp? o = some op) (hr : Before r p n)
    (ha : r.Sees ka a ta) (hb : r.Sees kb b tb) (hka : ka < 2 ^ 28) (hkb : kb < 2 ^ 28)
    (hk : k < 2 ^ 28) :
    Yields (Recorder.binary p op (.ofSlot ka) (.ofSlot kb) ⟨.ofSlot k, seen⟩) r fun _ r' =>
      Writes r r' k seen ∧ ∀ e₀ e va vb, At e₀ r e → e₀.heap.size + r'.buffer.size < 2 ^ 32 →
        Stands r e ka va → Stands r e kb vb →
        Mirrors p n r r' e₀ e k seen fun v => arith op va vb = some v := by
  unfold Recorder.binary
  refine .of_bind_ok (typeOf_eq hka ha) (.of_bind_ok (typeOf_eq hkb hb)
    (.of_bind_ok (valueOf_eq hka ha) (.of_bind_ok (valueOf_eq hkb hb) ?_)))
  -- only the join of strings needs room in the heap
  have hroomless : ∀ {x : Recording Unit},
      Yields x r (fun _ r' => Calculates r p n ka kb k seen op r') →
      Yields x r fun _ r' => Writes r r' k seen ∧ ∀ e₀ e va vb, At e₀ r e →
        e₀.heap.size + r'.buffer.size < 2 ^ 32 → Stands r e ka va → Stands r e kb vb →
        Mirrors p n r r' e₀ e k seen fun v => arith op va vb = some v :=
    fun hx => hx.mono fun _ r' ⟨hw, hv⟩ => ⟨hw, fun e₀ e va vb hat _ => hv e₀ e va vb hat⟩
  cases o <;> cases ho
  case add =>
    simp only [beq_self_eq_true, Bool.true_and]
    by_cases hstr : (ta == .str && tb == .str) = true
    · rw [if_pos hstr]
      obtain ⟨hta, htb⟩ := Bool.and_eq_true_iff.mp hstr
      obtain rfl := beq_iff_eq.mp hta
      obtain rfl := beq_iff_eq.mp htb
      exact concat_yields hr ha hb hk
    · rw [if_neg hstr]
      exact hroomless (numberSum_yields hr hk ha hb (.inl rfl))
  case sub => exact hroomless (numberSum_yields hr hk ha hb (.inr (.inl rfl)))
  case mul => exact hroomless (numberSum_yields hr hk ha hb (.inr (.inr rfl)))
  case div => exact hroomless (quotient_yields hr hk ha hb)
  case mod => exact hroomless (remainder_yields hr hk ha hb)
  all_goals exact hroomless (intBits_yields hr hk ha hb (by simp))

/-- A comparison. -/
theorem comparison_yields {o : Opcode} {op : BinOp} (ho : compareOp? o = some op)
    (hr : Before r p n)
    (ha : r.Sees ka a ta) (hb : r.Sees kb b tb) (hka : ka < 2 ^ 28) (hkb : kb < 2 ^ 28)
    (hk : k < 2 ^ 28) :
    Yields (Recorder.binary p op (.ofSlot ka) (.ofSlot kb) ⟨.ofSlot k, seen⟩) r fun _ r' =>
      Writes r r' k seen ∧ ∀ e₀ e va vb, At e₀ r e → Stands r e ka va → Stands r e kb vb →
        Mirrors p n r r' e₀ e k seen fun v => compare op va vb = some v := by
  unfold Recorder.binary
  refine .of_bind_ok (typeOf_eq hka ha) (.of_bind_ok (typeOf_eq hkb hb)
    (.of_bind_ok (valueOf_eq hka ha) (.of_bind_ok (valueOf_eq hkb hb) ?_)))
  cases o <;> cases ho <;> exact compare_yields hr hk ha hb rfl

/-! ### Operations on one value -/

theorem eq_zero_of_word (w : UInt64) :
    TraceOp.compute? .eq w 0 = some (boolWord (w == 0), none) := by
  have heq : Cond.holds .eq false w 0 = (w == 0) := by
    show (w.toInt64 == (0 : UInt64).toInt64) = _
    rw [Bool.eq_iff_iff, beq_iff_eq, beq_iff_eq]
    exact ⟨fun h => congrArg Int64.toUInt64 h, fun h => h ▸ rfl⟩
  show some ((if Cond.holds .eq false w 0 then (1 : UInt64) else 0), none) = _
  rw [heq]
  rfl

/-- A negation of a truth value by comparing with zero. -/
theorem not_yields (hr : Before r p n) (ha : r.Sees ka a ta) (hk : k < 2 ^ 28) {op : TraceOp}
    (hop : op.computes = true) (zero : Immediate) (tz : Ty)
    (hnot : ∀ e₀ e v, At e₀ r e → Stands r e ka v →
      op.compute? (e.word a) zero.bits = some (boolWord !v.truthy, none)) :
    Yields (do
        let zero ← Recorder.immediate zero tz
        Recorder.result p ⟨.ofSlot k, seen⟩ (← Recorder.emit op a zero .bool) .bool) r fun _ r' =>
      Writes r r' k seen ∧ ∀ e₀ e v, At e₀ r e → Stands r e ka v →
        Mirrors p n r r' e₀ e k seen fun w => unary .not v = some w := by
  refine (immediate_yields hr.wf zero tz).bind fun z r₁ ⟨hg₁, hz, hv₁⟩ => ?_
  refine (emit_yields hg₁.wf hop (hg₁.makes ha.makes) (.inr hz) .bool).bind
    fun y r₂ ⟨hg₂, hy, _, hv₂⟩ => ?_
  refine (store_yields (hg₁.trans hg₂) hy hk p seen).mono fun _ r' ⟨hw, _, hat', hstands⟩ =>
    ⟨hw, ?_⟩
  intro e₀ e v hat hva
  obtain ⟨e₁, hat₁, hl₁, hzero⟩ := hv₁ e₀ e hat
  obtain ⟨e₂, hat₂, hl₂, hword, -⟩ := hv₂ e₀ e₁ _ _ hat₁ (by
    rw [hl₁.words a (hat.has ha.makes), hzero]
    exact hnot e₀ e v hat hva)
  refine .inl ⟨e₂, .bool !v.truthy, hat' e₀ e₂ hat₂, hl₁.trans hl₂, ?_, hstands e₂ _ rfl ?_⟩
  · cases v <;> rfl
  · rw [hword]
    rfl

theorem unary_yields {o : Opcode} {op : UnOp} (ho : unaryOp? o = some op) (hr : Before r p n)
    (ha : r.Sees ka a ta) (hka : ka < 2 ^ 28) (hk : k < 2 ^ 28) :
    Yields (Recorder.unary p op (.ofSlot ka) ⟨.ofSlot k, seen⟩) r fun _ r' =>
      Writes r r' k seen ∧ ∀ e₀ e v, At e₀ r e → Stands r e ka v →
        Mirrors p n r r' e₀ e k seen fun w => unary op v = some w := by
  unfold Recorder.unary
  refine .of_bind_ok (typeOf_eq hka ha) (.of_bind_ok (valueOf_eq hka ha) ?_)
  have hrefuse : ∀ {Q : Unit → Recorder → Prop} {reason detail},
      Yields (Recorder.giveUp reason p.pc detail : Recording Unit) r Q :=
        Yields.giveUp hr.wf.slots _ _ _
  cases o <;> cases ho
  case neg =>
    cases ta with
    | int =>
      obtain ⟨x, hexit, hx⟩ := hr.exit .overflow
      refine unless_yields hr.wf _ _ _ fun hint => .of_bind_ok hexit ?_
      have hseen : seen = .int := Classical.not_not.mp hint
      refine (checked_yields hr.wf ha.makes (.inl rfl) rfl rfl hx.snapshot hk p seen).mono
        fun _ r' hpost => ?_
      obtain ⟨hw, hv⟩ := hpost
      refine ⟨hw, ?_⟩
      intro e₀ e v hat hva
      obtain ⟨m, rfl, hwa⟩ := int_of_type (hva.at ha).1 (hva.at ha).2
      rcases hv e₀ e (-m.toInt) hat (by rw [hwa]; exact negOv_int m) with
        ⟨e', hat', hl, hfits, hstands⟩ | ⟨e', hgone, hl, hfits⟩
      · exact .inl ⟨e', _, hat', hl, by rw [unary, ofInt_of_fits hfits], hstands⟩
      · exact .inr ⟨x, e', hgone, hl, hx, _, rfl, hseen ▸ ofInt_of_unfit hfits⟩
    | float =>
      refine (plain_yields hr.wf ha.makes (.inl rfl) rfl hk p seen .float).mono
        fun _ r' hpost => ?_
      obtain ⟨hw, hv⟩ := hpost
      refine ⟨hw, ?_⟩
      intro e₀ e v hat hva
      obtain ⟨x, rfl, hwa⟩ := float_of_type (hva.at ha).1 (hva.at ha).2
      obtain ⟨e', hat', hl, hstands⟩ := hv e₀ e _ (.float x.neg) hat (by rw [hwa]; rfl) rfl
        fun _ => rfl
      exact .inl ⟨e', _, hat', hl, rfl, hstands⟩
    | null | bool | str | other => exact hrefuse
  case bitNot =>
    cases ta with
    | int =>
      refine (plain_yields hr.wf ha.makes (.inl rfl) rfl hk p seen .int).mono
        fun _ r' hpost => ?_
      obtain ⟨hw, hv⟩ := hpost
      refine ⟨hw, ?_⟩
      intro e₀ e v hat hva
      obtain ⟨m, rfl, hwa⟩ := int_of_type (hva.at ha).1 (hva.at ha).2
      obtain ⟨e', hat', hl, hstands⟩ := hv e₀ e _ (.int (~~~ m)) hat
        (by rw [hwa]; exact congrArg (fun w => some (w, none)) (not_int m)) rfl fun _ => rfl
      exact .inl ⟨e', _, hat', hl, rfl, hstands⟩
    | null | bool | float | str | other => exact hrefuse
  case not =>
    have hword : ta ≠ .float → ∀ e₀ e v, At e₀ r e → Stands r e ka v →
        TraceOp.compute? .eq (e.word a) (Immediate.ofInt 0).bits =
            some (boolWord !v.truthy, none) := by
      intro hfloat e₀ e v hat hva
      obtain ⟨hta, hwa⟩ := hva.at ha
      rw [← hwa.truthy hat.valid hta hfloat]
      exact eq_zero_of_word _
    cases ta with
    | float =>
      refine not_yields hr ha hk rfl _ _ fun e₀ e v hat hva => ?_
      obtain ⟨x, rfl, hwa⟩ := float_of_type (hva.at ha).1 (hva.at ha).2
      rw [hwa]
      show some ((if Binary64.eq x .zero then (1 : UInt64) else 0), none) = _
      rw [eq_zero, Value.truthy, Bool.not_not]
      rfl
    | null | bool | int | str | other =>
      exact not_yields hr ha hk rfl _ _ (hword fun h => by cases h)

/-! ### Branches -/

theorem fne_zero (x : Binary64) :
    TraceOp.compute? .fne x.bits (Immediate.ofFloat .zero).bits =
      some (boolWord !x.isZero, none) := by
  show some ((if (!Binary64.eq x .zero) then (1 : UInt64) else 0), none) = _
  rw [eq_zero]
  rfl

/-- What follows a branch's condition, as a word that is zero when it is false. -/
theorem condition_yields {f : Int → Recording Unit} {Q : Unit → Recorder → Prop} (hr : Before r p n)
    (ha : r.Sees ka a ta)
    (hf : ∀ c r', Grown r r' → Makes r'.buffer c →
      (∀ e₀ e v, At e₀ r e → Stands r e ka v →
        ∃ e', At e₀ r' e' ∧ e.Later e' ∧ (e'.word c == 0) = !v.truthy) → Yields (f c) r' Q) :
    Yields (if (ta == .float) = true then do
        let zero ← Recorder.immediate (.ofFloat .zero) .float
        let c ← Recorder.emit .fne a zero .bool
        f c
      else do
        let c ← pure a
        f c) r Q := by
  by_cases hfloat : ta = .float
  · subst hfloat
    rw [if_pos (beq_self_eq_true Ty.float)]
    refine (immediate_yields hr.wf _ _).bind fun z r₁ ⟨hg₁, hz, hv₁⟩ => ?_
    refine (emit_yields hg₁.wf rfl (hg₁.makes ha.makes) (.inr hz) .bool).bind
      fun y r₂ ⟨hg₂, hy, _, hv₂⟩ => hf y r₂ (hg₁.trans hg₂) hy ?_
    intro e₀ e v hat hva
    obtain ⟨x, rfl, hwa⟩ := float_of_type (hva.at ha).1 (hva.at ha).2
    obtain ⟨e₁, hat₁, hl₁, hzero⟩ := hv₁ e₀ e hat
    obtain ⟨e₂, hat₂, hl₂, hword, -⟩ := hv₂ e₀ e₁ _ _ hat₁ (by
      rw [hl₁.words a (hat.has ha.makes), hzero, hwa]
      exact fne_zero x)
    refine ⟨e₂, hat₂, hl₁.trans hl₂, ?_⟩
    rw [hword, Value.truthy]
    cases x.isZero <;> rfl
  · rw [if_neg fun heq => hfloat (beq_iff_eq.mp heq)]
    refine .of_bind_ok rfl (hf a r (.refl hr.wf) ha.makes fun e₀ e v hat hva =>
      ⟨e, hat, .refl e, ?_⟩)
    obtain ⟨hta, hwa⟩ := hva.at ha
    exact hwa.truthy hat.valid hta hfloat

/-- A constant counts as true when the value that it stands for does. -/
theorem truth_eq {h : StringHeap} {v : Value} {i : Immediate} (hh : h.Valid)
    (ht : traceType? v = some ta)
    (hv : Represents h v i.bits) : Recorder.truth i ta = v.truthy := by
  unfold Recorder.truth
  by_cases hfloat : ta = .float
  · subst hfloat
    obtain ⟨x, rfl, hx⟩ := float_of_type ht hv
    rw [if_pos (beq_self_eq_true Ty.float), Value.truthy, Immediate.float, hx]
  · rw [if_neg fun heq => hfloat (beq_iff_eq.mp heq), bne, hv.truthy hh ht hfloat, Bool.not_not]

theorem branch_yields (hr : Before r p n) (ha : r.Sees ka a ta) (hka : ka < 2 ^ 28) (taken : Bool) :
    Yields (Recorder.branch p (.ofSlot ka) taken) r fun _ r' => Grown r r' ∧
      ∀ e₀ e v, At e₀ r e → Stands r e ka v →
        (∃ e', At e₀ r' e' ∧ e.Later e' ∧ v.truthy = taken) ∨
          ∃ x e', Gone e₀ r' x e' ∧ e.Later e' ∧ Exits r p n x ∧ v.truthy ≠ taken := by
  unfold Recorder.branch
  obtain ⟨i, hget, hresult⟩ := ha.makes
  refine .of_bind_ok (typeOf_eq hka ha)
    (.of_bind_ok (valueOf_eq hka ha) (.of_bind_ok (instOf_eq hget) ?_))
  by_cases himm : i.op = .imm
  · rw [if_pos (beq_iff_eq.mpr himm)]
    by_cases halways : Recorder.truth i.imm ta = taken
    · simp only [halways, ne_eq, not_true_eq_false, if_false]
      refine .of_ok rfl ⟨.refl hr.wf, fun e₀ e v hat hva => .inl ⟨e, hat, .refl e, ?_⟩⟩
      obtain ⟨hta, hwa⟩ := hva.at ha
      rw [hat.imm a i hget himm] at hwa
      rw [← truth_eq hat.valid hta hwa]
      exact halways
    · simp only [ne_eq, halways, not_false_eq_true, if_true]
      exact Yields.giveUp hr.wf.slots _ _ _
  · rw [if_neg fun heq => himm (beq_iff_eq.mp heq)]
    obtain ⟨x, hexit, hx⟩ := hr.exit .branch
    refine .of_bind_ok hexit (condition_yields hr ha fun c r₁ hg₁ hc hv₁ => ?_)
    have hop : (if taken then TraceOp.exitUnless else .exitIf).isGuard = true := by
      cases taken <;> rfl
    refine (guard_yields hg₁.wf hop hc ?_ (hx.snapshot.grown hg₁)).mono
      fun _ r₂ hpost => ?_
    · cases taken <;> (intro h; cases h)
    obtain ⟨hg₂, hv₂⟩ := hpost
    refine ⟨hg₁.trans hg₂, ?_⟩
    intro e₀ e v hat hva
    obtain ⟨e₁, hat₁, hl₁, hzero⟩ := hv₁ e₀ e v hat hva
    have hguard := hv₂ e₀ e₁ hat₁
    have hfails : e₁.fails (if taken then .exitUnless else .exitIf) c = (v.truthy != taken) := by
      cases taken
      · show (e₁.word c != 0) = _
        rw [bne, hzero]
        cases v.truthy <;> rfl
      · show (e₁.word c == 0) = _
        rw [hzero]
        cases v.truthy <;> rfl
    rw [hfails] at hguard
    by_cases htaken : v.truthy = taken
    · rw [if_neg (by simp [htaken])] at hguard
      obtain ⟨e₂, hat₂, hl₂⟩ := hguard
      exact .inl ⟨e₂, hat₂, hl₁.trans hl₂, htaken⟩
    · rw [if_pos (by simp [htaken])] at hguard
      exact .inr ⟨x, e₁, hguard, hl₁, hx, htaken⟩

/-! ### Builtins -/

/-- A word as a helper takes it that wants a class. -/
def ArgWord (c : SizeClass) (h : StringHeap) (v : Value) (w : UInt64) : Prop :=
  match c with
  | .float => v.isNumber = true ∧ w = v.asFloat.bits
  | .ptr => v.isString = true ∧ Represents h v w
  | _ => True

theorem ArgWord.mono {c : SizeClass} {h h' : StringHeap} {v : Value} {w : UInt64}
    (hw : ArgWord c h v w)
    (he : h'.Extends h) : ArgWord c h' v w := by
  cases c with
  | ptr => exact ⟨hw.1, hw.2.mono he⟩
  | _ => exact hw

/-- Whether a helper that wants a class takes a value of a type. -/
def takes : SizeClass → Ty → Bool
  | .float, t => t.isNumber
  | .ptr, t => t == .str
  | .int, t => t == .int || t == .bool
  | .other _, _ => false

/-- One argument: a slot whose type fits the class. -/
theorem arg_yields {β : Type} {f : Int → Recording β} {Q : β → Recorder → Prop} {c : SizeClass}
    {d : Helper} {i : Nat} (h : r.Wf) (ha : r.Sees ka a ta) {fits : Bool}
    (hfits : fits = takes c ta)
    (hf : ∀ ref r', Grown r r' → Makes r'.buffer ref →
      (∀ e₀ e v, At e₀ r e → Stands r e ka v →
        ∃ e', At e₀ r' e' ∧ e.Later e' ∧ ArgWord c e'.heap v (e'.word ref)) → Yields (f ref) r' Q) :
    Yields (
      let rest := fun ref => do
        if !fits then
          Recorder.giveUp .unrecordable p.pc
            (d.name ++ " argument " ++ .ofNat i ++ " is " ++ ta.name)
        f ref
      if (c == .float) = true then do
        let ref ← Recorder.toFloat a ta
        rest ref
      else do
        let ref ← pure a
        rest ref) r Q := by
  subst hfits
  have hrefuse : ∀ {r' : Recorder} {detail : Text} {x : Recording β}, r'.Wf →
      Yields (do
        let _ ← (Recorder.giveUp .unrecordable p.pc detail : Recording PUnit)
        x) r' Q := fun hr' =>
    (Yields.giveUp (P := fun (_ : PUnit) _ => False) hr'.slots _ _ _).bind fun _ _ hf => hf.elim
  cases c with
  | float =>
    rw [if_pos (beq_self_eq_true SizeClass.float)]
    refine (toFloat_yields h ha.makes ta).bind fun ref r' ⟨hg, hm, hv⟩ => ?_
    by_cases hnumber : ta.isNumber = true
    · simp only [takes, hnumber, Bool.not_true, Bool.false_eq_true, if_false]
      refine hf ref r' hg hm fun e₀ e v hat hva => ?_
      obtain ⟨e', hat', hl, hword⟩ := hv e₀ e hat
      obtain ⟨hta, hwa⟩ := hva.at ha
      obtain ⟨hfloat, hisNumber⟩ := floatWord_eq hta hnumber hwa
      exact ⟨e', hat', hl, hisNumber, hword.trans hfloat⟩
    · simp only [takes, Bool.eq_false_iff.mpr hnumber, Bool.not_false, if_true]
      exact hrefuse hg.wf
  | ptr =>
    rw [if_neg (by decide)]
    refine .of_bind_ok rfl ?_
    by_cases hstr : ta = .str
    · subst hstr
      simp only [takes, beq_self_eq_true, Bool.not_true, Bool.false_eq_true, if_false]
      refine hf a r (.refl h) ha.makes fun e₀ e v hat hva => ⟨e, hat, .refl e, ?_⟩
      obtain ⟨hta, hwa⟩ := hva.at ha
      obtain ⟨s, -, rfl, -⟩ := str_of_type hta hwa
      exact ⟨rfl, hwa⟩
    · have hne : (ta == .str) = false := beq_eq_false_iff_ne.mpr hstr
      simp only [takes, hne, Bool.not_false, if_true]
      exact hrefuse h
  | int =>
    rw [if_neg (by decide)]
    refine .of_bind_ok rfl ?_
    by_cases hint : (ta == .int || ta == .bool) = true
    · simp only [takes, hint, Bool.not_true, Bool.false_eq_true, if_false]
      exact hf a r (.refl h) ha.makes fun e₀ e v hat _ => ⟨e, hat, .refl e, trivial⟩
    · simp only [takes, Bool.eq_false_iff.mpr hint, Bool.not_false, if_true]
      exact hrefuse h
  | other m =>
    rw [if_neg nofun]
    refine .of_bind_ok rfl ?_
    simp only [takes, Bool.not_false, if_true]
    exact hrefuse h

/-- Slots stand for a list of values. -/
structure ArgsStand (r : Recorder) (e : Env) (ks : List Nat) (vals : List Value) : Prop where
  length : vals.length = ks.length
  stands : ∀ (j q : Nat) (v : Value), ks[j]? = some q → vals[j]? = some v → Stands r e q v

theorem callArgs_yields {d : Helper} {i : Nat} {ks : List Nat} {classes : List SizeClass} (h : r.Wf)
    (hlen : ks.length = classes.length) (hks : ∀ j ∈ ks, j < 2 ^ 28 ∧ ∃ ref t, r.Sees j ref t) :
    Yields (Recorder.callArgs p d i (ks.map fun (j : Nat) => .ofSlot j) classes) r fun refs r' =>
      Grown r r' ∧ refs.length = ks.length ∧ (∀ ref ∈ refs, Makes r'.buffer ref) ∧
      ∀ e₀ e vals, At e₀ r e → ArgsStand r e ks vals →
        ∃ e', At e₀ r' e' ∧ e.Later e' ∧ ∀ (j : Nat) c v ref, classes[j]? = some c →
          vals[j]? = some v → refs[j]? = some ref → ArgWord c e'.heap v (e'.word ref) := by
  induction ks generalizing r i classes with
  | nil =>
    refine .of_ok rfl ⟨.refl h, rfl, nofun, fun e₀ e vals hat _ => ⟨e, hat, .refl e, ?_⟩⟩
    intro j c v ref _ _ href
    simp at href
  | cons q ks ih =>
    cases classes with
    | nil => cases hlen
    | cons c classes =>
      obtain ⟨hq, ref, t, hs⟩ := hks q List.mem_cons_self
      rw [List.map_cons, Recorder.callArgs]
      refine .of_bind_ok (typeOf_eq hq hs) (.of_bind_ok (valueOf_eq hq hs) ?_)
      refine arg_yields (p := p) (c := c) (d := d) (i := i) (f := fun ref => do
        return ref :: (← Recorder.callArgs p d (i + 1) (ks.map fun (j : Nat) => .ofSlot j) classes))
        h hs (by cases c <;> rfl) fun z r₁ hg₁ hz hv₁ => ?_
      have hks₁ : ∀ j ∈ ks, j < 2 ^ 28 ∧ ∃ ref t, r₁.Sees j ref t := by
        intro j hj
        obtain ⟨hlt, ref, t, hsees⟩ := hks j (List.mem_cons_of_mem q hj)
        exact ⟨hlt, ref, t, hsees.grown hg₁⟩
      refine (ih hg₁.wf (Nat.succ.inj hlen) hks₁).bind fun refs r₂ ⟨hg₂, hlength, hmakes, hv₂⟩ => ?_
      refine .of_ok rfl ⟨hg₁.trans hg₂, by rw [List.length_cons, List.length_cons, hlength], ?_, ?_⟩
      · intro ref href
        rcases List.mem_cons.mp href with rfl | href
        · exact hg₂.makes hz
        · exact hmakes ref href
      · intro e₀ e vals hat hstands
        cases vals with
        | nil => cases hstands.length
        | cons v vals =>
          obtain ⟨e₁, hat₁, hl₁, hword⟩ := hv₁ e₀ e v hat (hstands.stands 0 q v rfl rfl)
          obtain ⟨e₂, hat₂, hl₂, hwords⟩ := hv₂ e₀ e₁ vals hat₁ ⟨Nat.succ.inj hstands.length,
            fun j q' v' hj hv' => (hstands.stands (j + 1) q' v' hj hv').grown hg₁ hat hl₁⟩
          refine ⟨e₂, hat₂, hl₁.trans hl₂, fun j c' v' ref' hc' hv' href' => ?_⟩
          cases j with
          | zero =>
            cases hc'
            cases hv'
            cases href'
            rw [hl₂.words z (hat₁.has hz)]
            exact hword.mono hl₂.heap
          | succ j => exact hwords j c' v' ref' hc' hv' href'

/-- A builtin on words that its helper takes computes what it computes on the values. -/
theorem invoke_builtin {h : StringHeap} (o : Builtin) (vals : List Value) (words : List UInt64)
    (hvals : vals.length = (builtinHelper o).args.length)
    (hwords : words.length = (builtinHelper o).args.length)
    (hargs : ∀ (j : Nat) c v w, (builtinHelper o).args[j]? = some c → vals[j]? = some v →
      words[j]? = some w → ArgWord c h v w) :
    ∃ w v, HelperTable.standard.invoke h (builtinHelper o).id.toUInt8 words = .ok (w, h) ∧
      applyBuiltin o vals = .ok v ∧ traceType? v = some (builtinHelper o).resultType ∧
      ∀ heap, Represents heap v w := by
  have hone : ∀ {c}, (builtinHelper o).args = [c] →
      ∃ v w, vals = [v] ∧ words = [w] ∧ ArgWord c h v w := by
    intro c hc
    rw [hc] at hvals hwords
    obtain ⟨v, rfl⟩ := List.length_eq_one_iff.mp hvals
    obtain ⟨w, rfl⟩ := List.length_eq_one_iff.mp hwords
    exact ⟨v, w, rfl, rfl, hargs 0 c v w (by rw [hc]; rfl) rfl rfl⟩
  cases o with
  | sqrt | floor | abs =>
    obtain ⟨v, w, rfl, rfl, hnumber, rfl⟩ := hone rfl
    exact ⟨_, _, rfl, if_pos hnumber, rfl, fun _ => rfl⟩
  | fmod =>
    match vals, words, hvals, hwords with
    | [x, y], [w, w'], _, _ =>
      obtain ⟨hx, rfl⟩ := hargs 0 .float x w rfl rfl rfl
      obtain ⟨hy, rfl⟩ := hargs 1 .float y w' rfl rfl rfl
      refine ⟨_, .float (x.asFloat.rem y.asFloat), rfl, ?_, rfl, fun _ => rfl⟩
      simp only [applyBuiltin, hx, hy, Bool.not_true, Bool.false_eq_true, if_false]
  | len =>
    obtain ⟨v, w, rfl, rfl, hstr, hv⟩ := hone rfl
    obtain ⟨s, rfl⟩ : ∃ s, v = .str s := by cases v <;> first | (cases hstr; done) | exact ⟨_, rfl⟩
    obtain ⟨i, rfl, hi⟩ := hv
    refine ⟨intWord (Int32.ofNat s.size), .int (Int32.ofNat s.size), ?_, rfl, rfl, fun _ => rfl⟩
    show Helper.length h [i.toUInt64] = _
    simp only [Helper.length, Helper.unary, Helper.stringOf, handle_of_word,
      StringHeap.lookup_of_strings hi]
    rfl
  | number =>
    obtain ⟨v, w, rfl, rfl, hstr, hv⟩ := hone rfl
    obtain ⟨s, rfl⟩ : ∃ s, v = .str s := by cases v <;> first | (cases hstr; done) | exact ⟨_, rfl⟩
    obtain ⟨i, rfl, hi⟩ := hv
    refine ⟨(Helper.toNumber s).bits, .float (Helper.toNumber s), ?_, rfl, rfl, fun _ => rfl⟩
    show Helper.number h [i.toUInt64] = _
    simp only [Helper.number, Helper.unary, Helper.stringOf, handle_of_word,
      StringHeap.lookup_of_strings hi]
    rfl

/-- A call of a builtin. -/
theorem call_yields (o : Builtin) (h : r.Wf) {ks : List Nat}
    (hks : ∀ j ∈ ks, j < 2 ^ 28 ∧ ∃ ref t, r.Sees j ref t) (hk : k < 2 ^ 28) :
    Yields (Recorder.call .standard p (builtinHelper o).id.toUInt8
      (ks.map fun (j : Nat) => .ofSlot j)
        ⟨.ofSlot k, seen⟩) r fun _ r' => Writes r r' k seen ∧
      ∀ e₀ e vals, At e₀ r e → ArgsStand r e ks vals →
        ∃ e' v, At e₀ r' e' ∧ e.Later e' ∧ applyBuiltin o vals = .ok v ∧ Stands r' e' k v := by
  have hget : HelperTable.standard.get (builtinHelper o).id.toUInt8 = .ok (builtinHelper o) := by
    cases o <;> rfl
  unfold Recorder.call
  have hlift : Recorder.liftFault (HelperTable.standard.get (builtinHelper o).id.toUInt8) r =
      .ok (builtinHelper o) r := by
    rw [hget]
    rfl
  refine .of_bind_ok hlift (unless_yields h _ _ _ fun hcount => ?_)
  have hcount' : ks.length = (builtinHelper o).args.length := by
    simpa using Classical.not_not.mp hcount
  refine (callArgs_yields h hcount' hks).bind fun refs r₁ ⟨hg, hlength, hmakes, hv₁⟩ => ?_
  refine (pureCall_yields hg hmakes hk (builtinHelper o).resultType).mono fun _ r' ⟨hw, hv⟩ =>
    ⟨hw, ?_⟩
  intro e₀ e vals hat hstands
  have hlen := hstands.length
  obtain ⟨e₁, hat₁, hl₁, hwords⟩ := hv₁ e₀ e vals hat hstands
  obtain ⟨w, v, hinvoke, happly, ht, hrep⟩ := invoke_builtin (h := e₁.heap) o vals
    (refs.map e₁.word) (by omega) (by rw [List.length_map]; omega) fun j c v w hc hv hw => by
      rw [List.getElem?_map] at hw
      obtain ⟨ref, href, rfl⟩ := Option.map_eq_some_iff.mp hw
      exact hwords j c v ref hc hv href
  obtain ⟨e₂, hat₂, hl₂, hstands₂⟩ := hv e₀ e₁ w v hat₁ hinvoke ht hrep
  exact ⟨e₂, v, hat₂, hl₁.trans hl₂, happly, hstands₂⟩

end Recorded

end LoopTracer.Interp
