import LoopTracer.Proofs.Interp.Words
import LoopTracer.Proofs.Trace.Recording

/-! What a recorded primitive computes.

A slot of the recorder stands for a value in a pass when the word of its trace value represents
that value and the types agree (`Stands`). Each primitive, recorded once, is right for every pass
whose operands have the recorded types: the pass goes on with the result that the interpreter
computes from its own operands, or it leaves through an exit that lists the slots as they were
before the primitive (`Exits`). -/
namespace LoopTracer.Interp

open Bytecode Trace Machine

/-- In a pass, a slot of the recorder stands for a value. -/
def Stands (r : Recorder) (e : Env) (k : Nat) (v : Value) : Prop :=
  ∃ ref t, r.Sees k ref t ∧ traceType? v = some t ∧ Represents e.heap v (e.word ref)

/-- Slot `k` was given a value of a type; all other slots and the trace so far are as before. -/
structure Writes (r r' : Recorder) (k : Nat) (t : Ty) : Prop where
  wf : r'.Wf
  insts : ∃ more, r'.buffer.insts.toList = r.buffer.insts.toList ++ more
  frame : r' = { r with
    buffer := r'.buffer, immediates := r'.immediates, slots := r'.slots, types := r'.types
    tracked := r'.tracked }
  others : ∀ j ref t, j ≠ k → r.Sees j ref t → r'.Sees j ref t
  written : ∃ ref, r'.Sees k ref t

/-- An exit that leads back to the state before a primitive, where `n` slots are live. -/
structure Exits (r : Recorder) (p : Primitive) (n : Nat) (x : SideExit) : Prop where
  pc : x.pc = p.pc
  depth : x.depth = p.depth
  snapshot : Snapshot r n x.snapshot

/-- A pass goes on with a value in slot `k` that `result` holds of, or leaves before `p`. -/
def Continues (p : Primitive) (n : Nat) (r r' : Recorder) (e₀ e : Env) (k : Nat)
    (result : Value → Prop) : Prop :=
  (∃ e' v, At e₀ r' e' ∧ e.Later e' ∧ result v ∧ Stands r' e' k v) ∨
    ∃ x e', Gone e₀ r' x e' ∧ e.Later e' ∧ Exits r p n x

/-- A pass goes on with a value in slot `k` that `result` holds of, or leaves before `p` since the
value that `result` holds of is not of the type that was seen. -/
def Mirrors (p : Primitive) (n : Nat) (r r' : Recorder) (e₀ e : Env) (k : Nat) (seen : Ty)
    (result : Value → Prop) : Prop :=
  (∃ e' v, At e₀ r' e' ∧ e.Later e' ∧ result v ∧ Stands r' e' k v) ∨
    ∃ x e', Gone e₀ r' x e' ∧ e.Later e' ∧ Exits r p n x ∧
      ∃ v, result v ∧ traceType? v ≠ some seen

section Values

variable {r r' r₁ : Recorder} {e₀ e e' : Env} {k n : Nat} {ref : Int} {t : Ty} {v : Value}

theorem Stands.at (h : Stands r e k v) (hs : r.Sees k ref t) :
    traceType? v = some t ∧ Represents e.heap v (e.word ref) := by
  obtain ⟨ref', t', hs', ht, hv⟩ := h
  obtain ⟨rfl, rfl⟩ := hs.unique hs'
  exact ⟨ht, hv⟩

/-- What a word stands for does not change in a pass. -/
theorem represents_later (hm : Makes r.buffer ref) (hat : At e₀ r e)
    (hv : Represents e.heap v (e.word ref)) (hl : e.Later e') :
    Represents e'.heap v (e'.word ref) := by
  rw [hl.words ref (hat.has hm)]
  exact hv.mono hl.heap

theorem Stands.writes {j : Nat} (h : Stands r e j v) (hw : Writes r r' k t) (hj : j ≠ k)
    (hat : At e₀ r e) (hl : e.Later e') : Stands r' e' j v := by
  obtain ⟨ref, t, hs, ht, hv⟩ := h
  exact ⟨ref, t, hw.others j ref t hj hs, ht, represents_later hs.makes hat hv hl⟩

theorem Stands.grown {j : Nat} (h : Stands r e j v) (hg : Grown r r') (hat : At e₀ r e)
    (hl : e.Later e') : Stands r' e' j v := by
  obtain ⟨ref, t, hs, ht, hv⟩ := h
  exact ⟨ref, t, hs.grown hg, ht, represents_later hs.makes hat hv hl⟩

/-- Storing a result that was computed by a longer trace. -/
theorem store_yields (hg : Grown r r₁) (hm : Makes r₁.buffer ref) (hk : k < 2 ^ 28) (p : Primitive)
    (seen : Ty) :
    Yields (Recorder.result p ⟨.ofSlot k, seen⟩ ref t) r₁ fun _ r' => Writes r r' k seen ∧
      r'.buffer = r₁.buffer ∧ (∀ e₀ e, At e₀ r₁ e → At e₀ r' e) ∧
      ∀ e v, traceType? v = some t → Represents e.heap v (e.word ref) → Stands r' e k v := by
  refine (result_yields hg.wf hk hm p seen).mono fun _ r' ⟨ht, hr'⟩ => ?_
  subst ht hr'
  have hsees := assign_sees (t := t) hg.wf hk hm
  refine ⟨⟨assign_wf hg.wf hm.bounds.1, hg.insts, ?_, fun j ref' t' hj hs => ?_, _, hsees⟩, rfl,
    fun e₀ e hat => ⟨hat.pass, hat.size, hat.imm, hat.slots, hat.valid, hat.later, hat.few⟩,
    fun e v ht hv => ⟨ref, t, hsees, ht, hv⟩⟩
  · rw [Recorder.assign, hg.frame]
  · exact assign_sees_other hg.wf hk hm.bounds.1 hj (hs.grown hg)

/-! ### Constants and copies -/

theorem const_yields (h : r.Wf) (hk : k < 2 ^ 28) (p : Primitive) (i : Immediate) (seen : Ty) :
    Yields (do Recorder.result p ⟨.ofSlot k, seen⟩ (← Recorder.immediate i seen) seen) r fun _ r' =>
      Writes r r' k seen ∧ ∀ e₀ e v, At e₀ r e → traceType? v = some seen →
      Represents e.heap v i.bits →
        ∃ e', At e₀ r' e' ∧ e.Later e' ∧ Stands r' e' k v := by
  refine (immediate_yields h i seen).bind fun ref r₁ ⟨hg, hm, hv⟩ => ?_
  refine (store_yields hg hm hk p seen).mono fun _ r' ⟨hw, _, hat', hstands⟩ => ⟨hw, ?_⟩
  intro e₀ e v hat ht hrep
  obtain ⟨e', hat₁, hlater, hword⟩ := hv e₀ e hat
  refine ⟨e', hat' e₀ e' hat₁, hlater, hstands e' v ht ?_⟩
  rw [hword]
  exact hrep.mono hlater.heap

theorem copy_yields (h : r.Wf) {j : Nat} (hj : j < 2 ^ 28) (hk : k < 2 ^ 28) (hs : r.Sees j ref t)
    (p : Primitive) (seen : Ty) :
    Yields (do
        let ref ← Recorder.valueOf (.ofSlot j)
        Recorder.result p ⟨.ofSlot k, seen⟩ ref (← Recorder.typeOf (.ofSlot j))) r fun _ r' =>
      Writes r r' k seen ∧ ∀ e₀ e v, At e₀ r e → Stands r e j v → At e₀ r' e ∧ Stands r' e k v := by
  refine .of_bind_ok (valueOf_eq hj hs) (.of_bind_ok (typeOf_eq hj hs) ?_)
  refine (store_yields (.refl h) hs.makes hk p seen).mono fun _ r' ⟨hw, _, hat', hstands⟩ =>
    ⟨hw, ?_⟩
  intro e₀ e v hat hv
  obtain ⟨ht, hrep⟩ := hv.at hs
  exact ⟨hat' e₀ e hat, hstands e v ht hrep⟩

/-! ### Arithmetic -/

theorem floatWord_eq {h : StringHeap} {w : UInt64} (ht : traceType? v = some t)
    (hnumber : t.isNumber = true) (hv : Represents h v w) :
    floatWord t w = v.asFloat.bits ∧ v.isNumber = true := by
  cases v with
  | int m =>
    cases ht
    obtain rfl := hv
    refine ⟨?_, rfl⟩
    rw [floatWord, if_neg (by decide), toInt64_intWord, Int32.toInt_toInt64]
    rfl
  | float x =>
    cases ht
    obtain rfl := hv
    exact ⟨rfl, rfl⟩
  | null | bool | str =>
    cases ht
    cases hnumber
  | func | reserved => cases ht

variable {a b : Int} {ta tb : Ty}

/-- An operation on two values as floats. -/
theorem onFloats_yields (h : r.Wf) (ha : Makes r.buffer a) (hb : Makes r.buffer b) {op : TraceOp}
    (hop : op.computes = true) (hk : k < 2 ^ 28) (p : Primitive) (seen type : Ty) :
    Yields (Recorder.onFloats p ⟨.ofSlot k, seen⟩ op type (a, ta) (b, tb)) r fun _ r' =>
      Writes r r' k seen ∧ ∀ e₀ e w v, At e₀ r e →
        op.compute? (floatWord ta (e.word a)) (floatWord tb (e.word b)) = some (w, none) →
        traceType? v = some type → (∀ heap, Represents heap v w) →
        ∃ e', At e₀ r' e' ∧ e.Later e' ∧ Stands r' e' k v := by
  unfold Recorder.onFloats
  refine (toFloat_yields h ha ta).bind fun x r₁ ⟨hg₁, hx, hv₁⟩ => ?_
  refine (toFloat_yields hg₁.wf (hg₁.makes hb) tb).bind fun y r₂ ⟨hg₂, hy, hv₂⟩ => ?_
  refine (emit_yields hg₂.wf hop (hg₂.makes hx) (.inr hy) type).bind fun z r₃ ⟨hg₃, hz, _, hv₃⟩ =>
    ?_
  refine (store_yields (hg₁.trans (hg₂.trans hg₃)) hz hk p seen).mono
    fun _ r' ⟨hw, _, hat', hstands⟩ => ⟨hw, ?_⟩
  intro e₀ e w v hat hcompute ht hrep
  obtain ⟨e₁, hat₁, hl₁, hword₁⟩ := hv₁ e₀ e hat
  obtain ⟨e₂, hat₂, hl₂, hword₂⟩ := hv₂ e₀ e₁ hat₁
  have hx₂ : e₂.word x = floatWord ta (e.word a) := (hl₂.words x (hat₁.has hx)).trans hword₁
  have hy₂ : e₂.word y = floatWord tb (e.word b) := by rw [hword₂, hl₁.words b (hat.has hb)]
  obtain ⟨e₃, hat₃, hl₃, hword₃, -⟩ := hv₃ e₀ e₂ w none hat₂ (by rw [hx₂, hy₂]; exact hcompute)
  refine ⟨e₃, hat' e₀ e₃ hat₃, hl₁.trans (hl₂.trans hl₃), hstands e₃ v ht ?_⟩
  rw [hword₃]
  exact hrep e₃.heap

/-- An operation on values that leaves the words as they are. -/
theorem plain_yields (h : r.Wf) (ha : Makes r.buffer a) (hb : b = Ref.none ∨ Makes r.buffer b)
    {op : TraceOp} (hop : op.computes = true) (hk : k < 2 ^ 28) (p : Primitive) (seen type : Ty) :
    Yields (do Recorder.result p ⟨.ofSlot k, seen⟩ (← Recorder.emit op a b type) type) r fun _ r' =>
      Writes r r' k seen ∧ ∀ e₀ e w v, At e₀ r e →
        op.compute? (e.word a) (e.word b) = some (w, none) →
        traceType? v = some type → (∀ heap, Represents heap v w) →
        ∃ e', At e₀ r' e' ∧ e.Later e' ∧ Stands r' e' k v := by
  refine (emit_yields h hop ha hb type).bind fun z r₁ ⟨hg, hz, _, hv⟩ => ?_
  refine (store_yields hg hz hk p seen).mono fun _ r' ⟨hw, _, hat', hstands⟩ => ⟨hw, ?_⟩
  intro e₀ e w v hat hcompute ht hrep
  obtain ⟨e₁, hat₁, hl, hword, -⟩ := hv e₀ e w none hat hcompute
  refine ⟨e₁, hat' e₀ e₁ hat₁, hl, hstands e₁ v ht ?_⟩
  rw [hword]
  exact hrep e₁.heap

/-- An operation on ints that leaves where the result does not fit. -/
theorem checked_yields (h : r.Wf) (ha : Makes r.buffer a) (hb : b = Ref.none ∨ Makes r.buffer b)
    {op : TraceOp} (hop : op.computes = true) (hsets : op.setsOverflow = true) {x : SideExit}
    (hx : Snapshot r n x.snapshot) (hk : k < 2 ^ 28) (p : Primitive) (seen : Ty) :
    Yields (do
        let v ← Recorder.emit op a b .int
        Recorder.guard .exitOv v x
        Recorder.result p ⟨.ofSlot k, seen⟩ v .int) r fun _ r' =>
      Writes r r' k seen ∧ ∀ e₀ e m, At e₀ r e →
        op.compute? (e.word a) (e.word b) = some (intWord (Int32.ofInt m), some !fitsInt m) →
        (∃ e', At e₀ r' e' ∧ e.Later e' ∧ fitsInt m = true ∧
          Stands r' e' k (.int (Int32.ofInt m))) ∨
          ∃ e', Gone e₀ r' x e' ∧ e.Later e' ∧ fitsInt m = false := by
  refine (emit_yields h hop ha hb .int).bind fun z r₁ ⟨hg₁, hz, ⟨hlast, j, hj, hjop⟩, hv₁⟩ => ?_
  refine (guard_yields hg₁.wf rfl hz (fun _ => ⟨hlast, j, hj, by rw [hjop]; exact hsets⟩)
    (hx.grown hg₁)).bind fun _ r₂ ⟨hg₂, hv₂⟩ => ?_
  refine (store_yields (hg₁.trans hg₂) (hg₂.makes hz) hk p seen).mono
    fun _ r' ⟨hw, hbuffer, hat', hstands⟩ => ⟨hw, ?_⟩
  intro e₀ e m hat hcompute
  obtain ⟨e₁, hat₁, hl₁, hword, hflag⟩ := hv₁ e₀ e _ _ hat hcompute
  have hfails : e₁.fails .exitOv z = !fitsInt m := hflag
  have hguard := hv₂ e₀ e₁ hat₁
  rw [hfails] at hguard
  cases hfits : fitsInt m with
  | false =>
    rw [hfits] at hguard
    refine .inr ⟨e₁, ?_, hl₁, rfl⟩
    unfold Gone
    rw [hbuffer]
    exact hguard
  | true =>
    rw [hfits] at hguard
    obtain ⟨e₂, hat₂, hl₂⟩ := hguard
    refine .inl ⟨e₂, hat' e₀ e₂ hat₂, hl₁.trans hl₂, rfl, hstands e₂ _ rfl ?_⟩
    rw [hl₂.words z (hat₁.has hz), hword]
    rfl

end Values

/-! ### Types of values -/

section Types

variable {v : Value} {t : Ty} {h : StringHeap} {w : UInt64}

theorem int_of_type (ht : traceType? v = some .int) (hv : Represents h v w) :
    ∃ m, v = .int m ∧ w = intWord m := by
  cases v <;> cases ht
  exact ⟨_, rfl, hv⟩

theorem float_of_type (ht : traceType? v = some .float) (hv : Represents h v w) :
    ∃ x, v = .float x ∧ w = x.bits := by
  cases v <;> cases ht
  exact ⟨_, rfl, hv⟩

theorem str_of_type (ht : traceType? v = some .str) (hv : Represents h v w) :
    ∃ (s : Text) (a : Handle), v = .str s ∧ w = a.toUInt64 ∧ h.strings[a.toNat]? = some s := by
  cases v <;> cases ht
  obtain ⟨a, hw, ha⟩ := hv
  exact ⟨_, a, rfl, hw, ha⟩

/-- A whole number that is no int is a float. -/
theorem ofInt_of_unfit {n : Int} (hn : fitsInt n = false) : traceType? (.ofInt n) ≠ some .int := by
  have hfloat : Value.ofInt n = .float (.ofInt n) := if_neg (by rw [fitsInt] at hn; simp [hn])
  rw [hfloat]
  rintro ⟨⟩

/-- Whether two types are both of ints. -/
theorem isInt_of_type {v' : Value} {t' : Ty} (ht : traceType? v = some t)
    (ht' : traceType? v' = some t') :
    (v.isInt && v'.isInt) = (t == .int && t' == .int) := by
  cases v <;> cases ht <;> cases v' <;> cases ht' <;> rfl

end Types

/-! ### Operations on two values -/

/-- The whole number that an addition, subtraction or multiplication of ints gives. -/
def wholeResult : BinOp → Int → Int → Int
  | .sub, m, n => m - n
  | .mul, m, n => m * n
  | _, m, n => m + n

theorem overflowOp_compute {op : BinOp} (hop : op = .add ∨ op = .sub ∨ op = .mul) (m n : Int32) :
    (Recorder.overflowOp op).compute? (intWord m) (intWord n) =
        some (intWord (Int32.ofInt (wholeResult op m.toInt n.toInt)),
          some !fitsInt (wholeResult op m.toInt n.toInt)) ∧
      arith op (.int m) (.int n) = some (.ofInt (wholeResult op m.toInt n.toInt)) := by
  rcases hop with rfl | rfl | rfl
  · exact ⟨addOv_ints m n, rfl⟩
  · exact ⟨subOv_ints m n, rfl⟩
  · exact ⟨mulOv_ints m n, rfl⟩

/-- The operations that ints and floats have as one machine operation each. -/
def floatResult : BinOp → Binary64 → Binary64 → Binary64
  | .sub => .sub
  | .mul => .mul
  | .div => .div
  | _ => .add

theorem floatOp_compute {op : BinOp} (hop : op = .add ∨ op = .sub ∨ op = .mul ∨ op = .div)
    (x y : Binary64) :
    (Recorder.floatOp op).compute? x.bits y.bits = some ((floatResult op x y).bits, none) := by
  rcases hop with rfl | rfl | rfl | rfl <;> rfl

theorem arith_floats {op : BinOp} {a b : Value}
    (hop : op = .add ∨ op = .sub ∨ op = .mul ∨ op = .div)
    (ha : a.isNumber = true) (hb : b.isNumber = true) (hints : (a.isInt && b.isInt) = false) :
    arith op a b = some (.float (floatResult op a.asFloat b.asFloat)) := by
  rcases mixed_cases ha hb hints with ⟨m, y, rfl, rfl⟩ | ⟨x, n, rfl, rfl⟩ | ⟨x, y, rfl, rfl⟩ <;>
    rcases hop with rfl | rfl | rfl | rfl <;> rfl

theorem bitOp_compute {op : BinOp}
    (hop : op = .bitAnd ∨ op = .bitOr ∨ op = .bitXor ∨ op = .shl ∨ op = .shr) (m n : Int32) :
    ∃ q, (Recorder.bitOp op).compute? (intWord m) (intWord n) = some (intWord q, none) ∧
      arith op (.int m) (.int n) = some (.int q) := by
  rcases hop with rfl | rfl | rfl | rfl | rfl
  · exact ⟨m &&& n, congrArg (fun w => some (w, none)) (and_ints m n), rfl⟩
  · exact ⟨m ||| n, congrArg (fun w => some (w, none)) (or_ints m n), rfl⟩
  · exact ⟨m ^^^ n, congrArg (fun w => some (w, none)) (xor_ints m n), rfl⟩
  · exact ⟨m <<< shiftOf n, shl_ints m n, rfl⟩
  · exact ⟨m >>> shiftOf n, sar_ints m n, rfl⟩

/-- A primitive in its place: `n` slots are live before it. -/
structure Before (r : Recorder) (p : Primitive) (n : Nat) : Prop where
  wf : r.Wf
  depth : ∃ d : Nat, p.depth = d ∧ n = r.locals + d
  lt : n < 2 ^ 28
  live : r.Live n

section Binary

variable {r : Recorder} {p : Primitive} {n k ka kb : Nat} {a b : Int} {ta tb seen : Ty}

theorem Before.exit (hr : Before r p n) (kind : ExitKind) :
    ∃ x, Recorder.exitBefore p kind r = .ok x r ∧ Exits r p n x := by
  obtain ⟨d, hd, hn⟩ := hr.depth
  obtain ⟨snap, hexit, hsnap⟩ := exitBefore_eq hd hn hr.lt hr.live kind
  exact ⟨_, hexit, rfl, rfl, hsnap⟩

/-- What is refused unless a type was seen. -/
theorem unless_yields {x : Recording Unit} {Q : Unit → Recorder → Prop} (h : r.Wf) {c : Prop}
    [Decidable c] (reason : AbortReason) (pc : Int) (detail : Text) (hx : ¬c → Yields x r Q) :
    Yields (do
      if c then Recorder.giveUp reason pc detail
      x) r Q := by
  by_cases hc : c
  · rw [if_pos hc]
    exact (Yields.giveUp (P := fun (_ : PUnit) _ => False) h.slots _ _ _).bind fun _ _ hf => hf.elim
  · rw [if_neg hc]
    exact hx hc

theorem sum_yields (hr : Before r p n) (ha : r.Sees ka a .int) (hb : r.Sees kb b .int)
    (hk : k < 2 ^ 28) (hseen : seen = .int) {op : BinOp} (hop : op = .add ∨ op = .sub ∨ op = .mul) :
    Yields (do
        let exit ← Recorder.exitBefore p .overflow
        let v ← Recorder.emit (Recorder.overflowOp op) a b .int
        Recorder.guard .exitOv v exit
        Recorder.result p ⟨.ofSlot k, seen⟩ v .int) r fun _ r' =>
      Writes r r' k seen ∧ ∀ e₀ e va vb, At e₀ r e → Stands r e ka va → Stands r e kb vb →
        Mirrors p n r r' e₀ e k seen fun v => arith op va vb = some v := by
  obtain ⟨x, hexit, hx⟩ := hr.exit .overflow
  have hplain : (Recorder.overflowOp op).computes = true ∧
      (Recorder.overflowOp op).setsOverflow = true := by
    rcases hop with rfl | rfl | rfl <;> exact ⟨rfl, rfl⟩
  refine .of_bind_ok hexit ((checked_yields hr.wf ha.makes (.inr hb.makes) hplain.1 hplain.2
    hx.snapshot hk p seen).mono fun _ r' ⟨hw, hv⟩ => ⟨hw, ?_⟩)
  intro e₀ e va vb hat hva hvb
  obtain ⟨m, rfl, hwa⟩ := int_of_type (hva.at ha).1 (hva.at ha).2
  obtain ⟨m', rfl, hwb⟩ := int_of_type (hvb.at hb).1 (hvb.at hb).2
  obtain ⟨hcompute, harith⟩ := overflowOp_compute hop m m'
  rcases hv e₀ e _ hat (by rw [hwa, hwb]; exact hcompute) with
    ⟨e', hat', hl, hfits, hstands⟩ | ⟨e', hgone, hl, hfits⟩
  · exact .inl ⟨e', _, hat', hl, by rw [harith, ofInt_of_fits hfits], hstands⟩
  · exact .inr ⟨x, e', hgone, hl, hx, _, harith, hseen ▸ ofInt_of_unfit hfits⟩

theorem number_words {ea : Env} {va vb : Value} (ha : r.Sees ka a ta) (hb : r.Sees kb b tb)
    (hnumbers : (ta.isNumber && tb.isNumber) = true) (hva : Stands r ea ka va)
    (hvb : Stands r ea kb vb) :
    (va.isNumber = true ∧ vb.isNumber = true) ∧
      (va.isInt && vb.isInt) = (ta == .int && tb == .int) ∧
      floatWord ta (ea.word a) = va.asFloat.bits ∧ floatWord tb (ea.word b) = vb.asFloat.bits := by
  obtain ⟨hna, hnb⟩ := Bool.and_eq_true_iff.mp hnumbers
  obtain ⟨hta, hra⟩ := hva.at ha
  obtain ⟨htb, hrb⟩ := hvb.at hb
  obtain ⟨hwa, hva'⟩ := floatWord_eq hta hna hra
  obtain ⟨hwb, hvb'⟩ := floatWord_eq htb hnb hrb
  exact ⟨⟨hva', hvb'⟩, isInt_of_type hta htb, hwa, hwb⟩

theorem floats_yields (hr : Before r p n) (ha : r.Sees ka a ta) (hb : r.Sees kb b tb)
    (hnumbers : (ta.isNumber && tb.isNumber) = true) (hk : k < 2 ^ 28) {op : BinOp}
    (hop : op = .add ∨ op = .sub ∨ op = .mul ∨ op = .div)
    (hints : op = .div ∨ (ta == .int && tb == .int) = false) :
    Yields (Recorder.onFloats p ⟨.ofSlot k, seen⟩ (Recorder.floatOp op) .float (a, ta) (b, tb)) r
      fun _ r' => Writes r r' k seen ∧ ∀ e₀ e va vb, At e₀ r e → Stands r e ka va →
      Stands r e kb vb →
        Mirrors p n r r' e₀ e k seen fun v => arith op va vb = some v := by
  have hplain : (Recorder.floatOp op).computes = true := by
    rcases hop with rfl | rfl | rfl | rfl <;> rfl
  refine (onFloats_yields hr.wf ha.makes hb.makes hplain hk p seen .float).mono
    fun _ r' ⟨hw, hv⟩ => ⟨hw, ?_⟩
  intro e₀ e va vb hat hva hvb
  obtain ⟨⟨hna, hnb⟩, hsame, hwa, hwb⟩ := number_words ha hb hnumbers hva hvb
  obtain ⟨e', hat', hl, hstands⟩ := hv e₀ e _ (.float (floatResult op va.asFloat vb.asFloat)) hat
    (by rw [hwa, hwb]; exact floatOp_compute hop _ _) rfl fun _ => rfl
  refine .inl ⟨e', _, hat', hl, ?_, hstands⟩
  cases hboth : va.isInt && vb.isInt with
  | false => exact arith_floats hop hna hnb hboth
  | true =>
    -- A quotient of ints is one of floats, too.
    have hdiv : op = .div := hints.resolve_right fun hf => by
      rw [← hsame, hboth] at hf
      cases hf
    subst hdiv
    cases va <;> cases vb <;> first | (cases hboth; done) | rfl

theorem bits_yields (hr : Before r p n) (ha : r.Sees ka a .int) (hb : r.Sees kb b .int)
    (hk : k < 2 ^ 28) {op : BinOp}
    (hop : op = .bitAnd ∨ op = .bitOr ∨ op = .bitXor ∨ op = .shl ∨ op = .shr) :
    Yields
      (do Recorder.result p ⟨.ofSlot k, seen⟩ (← Recorder.emit (Recorder.bitOp op) a b .int) .int)
      r fun _ r' => Writes r r' k seen ∧ ∀ e₀ e va vb, At e₀ r e → Stands r e ka va →
        Stands r e kb vb →
        Mirrors p n r r' e₀ e k seen fun v => arith op va vb = some v := by
  have hplain : (Recorder.bitOp op).computes = true := by
    rcases hop with rfl | rfl | rfl | rfl | rfl <;> rfl
  refine (plain_yields hr.wf ha.makes (.inr hb.makes) hplain hk p seen .int).mono
    fun _ r' ⟨hw, hv⟩ => ⟨hw, ?_⟩
  intro e₀ e va vb hat hva hvb
  obtain ⟨m, rfl, hwa⟩ := int_of_type (hva.at ha).1 (hva.at ha).2
  obtain ⟨m', rfl, hwb⟩ := int_of_type (hvb.at hb).1 (hvb.at hb).2
  obtain ⟨q, hcompute, harith⟩ := bitOp_compute hop m m'
  obtain ⟨e', hat', hl, hstands⟩ := hv e₀ e _ (.int q) hat (by rw [hwa, hwb]; exact hcompute) rfl
    fun _ => rfl
  exact .inl ⟨e', _, hat', hl, harith, hstands⟩

/-- A call of a helper that only computes. -/
theorem pureCall_yields {r₁ : Recorder} (hg : Grown r r₁) {id : UInt8} {args : List Ref}
    (hargs : ∀ ref ∈ args, Makes r₁.buffer ref) (hk : k < 2 ^ 28) (t : Ty) :
    Yields (do Recorder.result p ⟨.ofSlot k, seen⟩ (← Recorder.callHelper id t args) t) r₁
    fun _ r' =>
      Writes r r' k seen ∧ ∀ e₀ e w v, At e₀ r₁ e →
        HelperTable.standard.invoke e.heap id (args.map e.word) = .ok (w, e.heap) →
        traceType? v = some t → (∀ heap, Represents heap v w) →
        ∃ e', At e₀ r' e' ∧ e.Later e' ∧ Stands r' e' k v := by
  refine (callHelper_yields hg.wf id t hargs).bind fun z r₂ ⟨hg₂, hz, hv⟩ => ?_
  refine (store_yields (hg.trans hg₂) hz hk p seen).mono fun _ r' ⟨hw, _, hat', hstands⟩ => ⟨hw, ?_⟩
  intro e₀ e w v hat hinvoke ht hrep
  obtain ⟨e', hat₂, hl, hword, -⟩ :=
    hv e₀ e w e.heap hat hinvoke hat.valid (.refl _) (Nat.le_succ _)
  refine ⟨e', hat' e₀ e' hat₂, hl, hstands e' v ht ?_⟩
  rw [hword]
  exact hrep e'.heap

/-- Joining two strings. -/
theorem concat_yields (hr : Before r p n) (ha : r.Sees ka a .str) (hb : r.Sees kb b .str)
    (hk : k < 2 ^ 28) :
    Yields (do
        Recorder.result p ⟨.ofSlot k, seen⟩
          (← Recorder.callHelper HelperId.concat .str [a, b]) .str) r fun _ r' =>
      Writes r r' k seen ∧ ∀ e₀ e va vb, At e₀ r e → e₀.heap.size + r'.buffer.size < 2 ^ 32 →
        Stands r e ka va → Stands r e kb vb →
        Mirrors p n r r' e₀ e k seen fun v => arith .add va vb = some v := by
  have hargs : ∀ ref ∈ [a, b], Makes r.buffer ref := by
    intro ref href
    rcases List.mem_cons.mp href with rfl | href
    · exact ha.makes
    · rw [List.mem_singleton.mp href]
      exact hb.makes
  refine (callHelper_yields hr.wf _ .str hargs).bind fun z r₁ ⟨hg, hz, hv⟩ => ?_
  refine (store_yields hg hz hk p seen).mono fun _ r' ⟨hw, hbuffer, hat', hstands⟩ => ⟨hw, ?_⟩
  intro e₀ e va vb hat hroom hva hvb
  obtain ⟨s, i, rfl, hwa, hs⟩ := str_of_type (hva.at ha).1 (hva.at ha).2
  obtain ⟨t, j, rfl, hwb, ht⟩ := str_of_type (hvb.at hb).1 (hvb.at hb).2
  have hsize : e.heap.size < 2 ^ 32 := by
    have hfew := hat.few
    have hgrow := hg.size
    rw [hbuffer] at hroom
    omega
  have hinvoke : HelperTable.standard.invoke e.heap HelperId.concat ([a, b].map e.word) =
      .ok ((e.heap.intern (s ++ t)).2.toUInt64, (e.heap.intern (s ++ t)).1) := by
    show Helper.concat e.heap [e.word a, e.word b] = _
    rw [hwa, hwb]
    simp only [Helper.concat, Helper.binary, Helper.stringOf, handle_of_word,
      StringHeap.lookup_of_strings hs, StringHeap.lookup_of_strings ht]
    rfl
  obtain ⟨hvalid, hget, hstrings⟩ := StringHeap.intern_spec hat.valid hsize (s ++ t)
  have hfew : (e.heap.intern (s ++ t)).1.size ≤ e.heap.size + 1 := by
    show (e.heap.intern (s ++ t)).1.strings.size ≤ e.heap.strings.size + 1
    rcases hstrings with heq | heq <;> rw [heq]
    · exact Nat.le_succ _
    · exact Nat.le_of_eq (Array.size_push ..)
  obtain ⟨e', hat₁, hl, hword, hheap⟩ := hv e₀ e _ _ hat hinvoke hvalid
    (StringHeap.intern_extends _ _) hfew
  refine .inl ⟨e', .str (s ++ t), hat' e₀ e' hat₁, hl, rfl, hstands e' _ rfl ?_⟩
  rw [hword, hheap]
  exact ⟨_, rfl, hget⟩

theorem ne_zero_compute (m : Int32) :
    TraceOp.compute? .ne (intWord m) 0 = some (boolWord (m != 0), none) := by
  have hne : Cond.holds .ne false (intWord m) 0 = (m != 0) := by
    show (m.toInt64 != (0 : Int32).toInt64) = _
    rw [bne, toInt64_eq]
    rfl
  show some ((if Cond.holds .ne false (intWord m) 0 then (1 : UInt64) else 0), none) = _
  rw [hne]
  rfl

/-- The remainder of ints leaves where the divisor is zero. -/
theorem intRem_yields (hr : Before r p n) (ha : r.Sees ka a .int) (hb : r.Sees kb b .int)
    (hk : k < 2 ^ 28) (hseen : seen = .int) :
    Yields (do
        let exit ← Recorder.exitBefore p .divZero
        let zero ← Recorder.immediate (.ofInt 0) .int
        let nonZero ← Recorder.emit .ne b zero .bool
        Recorder.guard .exitUnless nonZero exit
        Recorder.result p ⟨.ofSlot k, seen⟩
          (← Recorder.callHelper HelperId.intRem .int [a, b]) .int) r fun _ r' =>
      Writes r r' k seen ∧ ∀ e₀ e va vb, At e₀ r e → Stands r e ka va → Stands r e kb vb →
        Mirrors p n r r' e₀ e k seen fun v => arith .mod va vb = some v := by
  obtain ⟨x, hexit, hx⟩ := hr.exit .divZero
  refine .of_bind_ok hexit ((immediate_yields hr.wf _ _).bind fun z r₁ ⟨hg₁, hz, hv₁⟩ => ?_)
  refine (emit_yields hg₁.wf rfl (hg₁.makes hb.makes) (.inr hz) .bool).bind
    fun c r₂ ⟨hg₂, hc, _, hv₂⟩ => ?_
  have hg := hg₁.trans hg₂
  refine (guard_yields hg₂.wf (o := .exitUnless) rfl hc nofun (hx.snapshot.grown hg)).bind
    fun _ r₃ ⟨hg₃, hv₃⟩ => ?_
  have hg' := hg.trans hg₃
  have hargs : ∀ ref ∈ [a, b], Makes r₃.buffer ref := by
    intro ref href
    rcases List.mem_cons.mp href with rfl | href
    · exact hg'.makes ha.makes
    · rw [List.mem_singleton.mp href]
      exact hg'.makes hb.makes
  refine (callHelper_yields hg₃.wf _ .int hargs).bind fun z r₄ ⟨hg₄, hz₄, hv₄⟩ => ?_
  refine (store_yields (hg'.trans hg₄) hz₄ hk p seen).mono
    fun _ r' ⟨hw, hbuffer, hat', hstands⟩ => ⟨hw, ?_⟩
  intro e₀ e va vb hat hva hvb
  obtain ⟨m, rfl, hwa⟩ := int_of_type (hva.at ha).1 (hva.at ha).2
  obtain ⟨m', rfl, hwb⟩ := int_of_type (hvb.at hb).1 (hvb.at hb).2
  obtain ⟨e₁, hat₁, hl₁, hzero⟩ := hv₁ e₀ e hat
  have hb₁ : e₁.word b = intWord m' := (hl₁.words b (hat.has hb.makes)).trans hwb
  obtain ⟨e₂, hat₂, hl₂, hcond, -⟩ := hv₂ e₀ e₁ _ _ hat₁ (by
    rw [hb₁, hzero]
    exact ne_zero_compute m')
  have hguard := hv₃ e₀ e₂ hat₂
  have hfails : e₂.fails .exitUnless c = (m' == 0) := by
    show (e₂.word c == 0) = _
    rw [hcond, bne]
    cases m' == 0 <;> rfl
  rw [hfails] at hguard
  by_cases hm : m' = 0
  · rw [if_pos (beq_iff_eq.mpr hm)] at hguard
    refine .inr ⟨x, e₂, ?_, hl₁.trans hl₂, hx, .float .nan, by rw [hm]; rfl, by rw [hseen]; nofun⟩
    have hgone := hguard.grown hg₄
    unfold Gone at hgone ⊢
    rw [hbuffer]
    exact hgone
  · rw [if_neg fun heq => hm (beq_iff_eq.mp heq)] at hguard
    obtain ⟨e₃, hat₃, hl₃⟩ := hguard
    have hl := hl₁.trans (hl₂.trans hl₃)
    have hinvoke : HelperTable.standard.invoke e₃.heap HelperId.intRem ([a, b].map e₃.word) =
        .ok (intWord (m % m'), e₃.heap) := by
      show Helper.intRem e₃.heap [e₃.word a, e₃.word b] = _
      rw [hl.words a (hat.has ha.makes), hl.words b (hat.has hb.makes), hwa, hwb]
      exact rem_ints m m' _ hm
    obtain ⟨e₄, hat₄, hl₄, hword, -⟩ := hv₄ e₀ e₃ _ _ hat₃ hinvoke hat₃.valid (.refl _)
      (Nat.le_succ _)
    refine .inl ⟨e₄, .int (m % m'), hat' e₀ e₄ hat₄, hl.trans hl₄, arith_mod_ints m m' hm,
      hstands e₄ _ rfl ?_⟩
    rw [hword]
    rfl

/-- The remainder of floats. -/
theorem floatRem_yields (hr : Before r p n) (ha : r.Sees ka a ta) (hb : r.Sees kb b tb)
    (hnumbers : (ta.isNumber && tb.isNumber) = true) (hints : (ta == .int && tb == .int) = false)
    (hk : k < 2 ^ 28) :
    Yields (do
        let x ← Recorder.toFloat a ta
        let y ← Recorder.toFloat b tb
        Recorder.result p ⟨.ofSlot k, seen⟩
          (← Recorder.callHelper HelperId.floatRem .float [x, y]) .float) r fun _ r' =>
      Writes r r' k seen ∧ ∀ e₀ e va vb, At e₀ r e → Stands r e ka va → Stands r e kb vb →
        Mirrors p n r r' e₀ e k seen fun v => arith .mod va vb = some v := by
  refine (toFloat_yields hr.wf ha.makes ta).bind fun x r₁ ⟨hg₁, hx, hv₁⟩ => ?_
  refine (toFloat_yields hg₁.wf (hg₁.makes hb.makes) tb).bind fun y r₂ ⟨hg₂, hy, hv₂⟩ => ?_
  have hargs : ∀ ref ∈ [x, y], Makes r₂.buffer ref := by
    intro ref href
    rcases List.mem_cons.mp href with rfl | href
    · exact hg₂.makes hx
    · rw [List.mem_singleton.mp href]
      exact hy
  refine (pureCall_yields (hg₁.trans hg₂) hargs hk .float).mono fun _ r' ⟨hw, hv⟩ => ⟨hw, ?_⟩
  intro e₀ e va vb hat hva hvb
  obtain ⟨⟨hna, hnb⟩, hsame, hwa, hwb⟩ := number_words ha hb hnumbers hva hvb
  obtain ⟨e₁, hat₁, hl₁, hword₁⟩ := hv₁ e₀ e hat
  obtain ⟨e₂, hat₂, hl₂, hword₂⟩ := hv₂ e₀ e₁ hat₁
  have hinvoke : HelperTable.standard.invoke e₂.heap HelperId.floatRem ([x, y].map e₂.word) =
      .ok ((va.asFloat.rem vb.asFloat).bits, e₂.heap) := by
    show Helper.floatRem e₂.heap [e₂.word x, e₂.word y] = _
    rw [hl₂.words x (hat₁.has hx), hword₁, hword₂, hl₁.words b (hat.has hb.makes), hwa, hwb]
    rfl
  obtain ⟨e₃, hat₃, hl₃, hstands⟩ :=
    hv e₀ e₂ _ (.float (va.asFloat.rem vb.asFloat)) hat₂ hinvoke rfl
    fun _ => rfl
  refine .inl ⟨e₃, _, hat₃, hl₁.trans (hl₂.trans hl₃), ?_, hstands⟩
  rw [← hsame] at hints
  rcases mixed_cases hna hnb hints with ⟨m, y, rfl, rfl⟩ | ⟨x, n, rfl, rfl⟩ | ⟨x, y, rfl, rfl⟩ <;>
    rfl

/-! ### Comparisons -/

theorem compareOps {op : BinOp} {c : Cond} (hc : compareCond op = some c) :
    (TraceOp.ofByte (TraceOp.eq.toByte + (op.toByte - BinOp.eq.toByte))).compare? =
      some (c, false) ∧
      (TraceOp.ofByte (TraceOp.feq.toByte + (op.toByte - BinOp.eq.toByte))).compare? =
        some (c, true) := by
  cases op <;> cases hc <;> exact ⟨rfl, rfl⟩

theorem compute_of_compare {op : TraceOp} {c : Cond} {float : Bool}
    (h : op.compare? = some (c, float))
    (x y : UInt64) :
    op.computes = true ∧ op.compute? x y = some (boolWord (c.holds float x y), none) := by
  constructor
  · simp [TraceOp.computes, h]
  · simp only [TraceOp.compute?, h]
    rfl

/-- Nulls and bools are equal when their words are. -/
theorem compare_words {h : StringHeap} {va vb : Value} {wa wb : UInt64} {t : Ty}
    {op : BinOp} {c : Cond}
    (hc : compareCond op = some c) (hop : op = .eq ∨ op = .ne) (hta : traceType? va = some t)
    (htb : traceType? vb = some t) (hnumber : t.isNumber = false) (hstr : t ≠ .str)
    (hwa : Represents h va wa) (hwb : Represents h vb wb) :
    compare op va vb = some (.bool (c.holds false wa wb)) := by
  cases va with
  | null =>
    cases hta
    cases vb <;> cases htb
    obtain rfl := hwa
    obtain rfl := hwb
    rcases hop with rfl | rfl <;> cases hc <;> rfl
  | bool x =>
    cases hta
    cases vb with
    | bool y =>
      obtain rfl := hwa
      obtain rfl := hwb
      rcases hop with rfl | rfl <;> cases hc <;> cases x <;> cases y <;> rfl
    | _ => cases htb
  | int m =>
    cases hta
    cases hnumber
  | float x =>
    cases hta
    cases hnumber
  | str s =>
    cases hta
    exact absurd rfl hstr
  | func f => cases hta
  | reserved tag => cases hta

/-- Values of different types that are not both numbers are different. -/
theorem equal_of_types {va vb : Value} {ta tb : Ty} (hta : traceType? va = some ta)
    (htb : traceType? vb = some tb) (hne : ta ≠ tb)
    (hnumbers : ¬(ta.isNumber && tb.isNumber) = true) :
    va.equal vb = false := by
  cases va <;> cases hta <;> cases vb <;> cases htb <;>
    first | rfl | exact absurd rfl hne | exact absurd rfl hnumbers

theorem equal_strings {h : StringHeap} {s t : Text} {i j : Handle}
    (hs : h.strings[i.toNat]? = some s)
    (ht : h.strings[j.toNat]? = some t) :
    HelperTable.standard.invoke h HelperId.equal [i.toUInt64, j.toUInt64] =
      .ok (boolWord (Value.equal (.str s) (.str t)), h) := by
  show Helper.equal h [i.toUInt64, j.toUInt64] = _
  simp only [Helper.equal, Helper.binary, Helper.stringOf, handle_of_word,
    StringHeap.lookup_of_strings hs, StringHeap.lookup_of_strings ht, boolWord,
    Value.equal, beq_iff_eq]
  rfl

theorem eq_zero_compute (x : Bool) :
    TraceOp.compute? .eq (boolWord x) 0 = some (boolWord !x, none) := by
  cases x <;> rfl

/-- A comparison was recorded into slot `k`: a pass puts into it what the interpreter says of the
values in the slots `ka` and `kb`. -/
def Compares (r : Recorder) (p : Primitive) (n ka kb k : Nat) (seen : Ty) (op : BinOp)
    (r' : Recorder) : Prop :=
  Writes r r' k seen ∧ ∀ e₀ e va vb, At e₀ r e → Stands r e ka va → Stands r e kb vb →
    Mirrors p n r r' e₀ e k seen fun v => compare op va vb = some v

section Comparison

variable (hr : Before r p n) (hk : k < 2 ^ 28) {op : BinOp}
include hr hk

theorem intCompare_yields (ha : r.Sees ka a .int) (hb : r.Sees kb b .int) {o : TraceOp} {c : Cond}
    (hc : compareCond op = some c) (ho : o.compare? = some (c, false)) :
    Yields (do Recorder.result p ⟨.ofSlot k, seen⟩ (← Recorder.emit o a b .bool) .bool) r
      fun _ r' => Compares r p n ka kb k seen op r' := by
  refine (plain_yields hr.wf ha.makes (.inr hb.makes) (compute_of_compare ho 0 0).1 hk p seen
    .bool).mono fun _ r' ⟨hw, hv⟩ => ⟨hw, ?_⟩
  intro e₀ e va vb hat hva hvb
  obtain ⟨m, rfl, hwa⟩ := int_of_type (hva.at ha).1 (hva.at ha).2
  obtain ⟨m', rfl, hwb⟩ := int_of_type (hvb.at hb).1 (hvb.at hb).2
  obtain ⟨e', hat', hl, hstands⟩ := hv e₀ e _ (.bool (c.holds false (intWord m) (intWord m'))) hat
    (by rw [hwa, hwb]; exact (compute_of_compare ho _ _).2) rfl fun _ => rfl
  exact .inl ⟨e', _, hat', hl, compare_ints hc m m', hstands⟩

theorem numberCompare_yields (ha : r.Sees ka a ta) (hb : r.Sees kb b tb)
    (hnumbers : (ta.isNumber && tb.isNumber) = true) (hints : ¬(ta == .int && tb == .int) = true)
    {o : TraceOp} {c : Cond} (hc : compareCond op = some c) (ho : o.compare? = some (c, true)) :
    Yields (Recorder.onFloats p ⟨.ofSlot k, seen⟩ o .bool (a, ta) (b, tb)) r
      fun _ r' => Compares r p n ka kb k seen op r' := by
  refine (onFloats_yields hr.wf ha.makes hb.makes (compute_of_compare ho 0 0).1 hk p seen
    .bool).mono fun _ r' ⟨hw, hv⟩ => ⟨hw, ?_⟩
  intro e₀ e va vb hat hva hvb
  obtain ⟨⟨hna, hnb⟩, hsame, hwa, hwb⟩ := number_words ha hb hnumbers hva hvb
  obtain ⟨e', hat', hl, hstands⟩ := hv e₀ e _
    (.bool (c.holds true va.asFloat.bits vb.asFloat.bits)) hat
    (by rw [hwa, hwb]; exact (compute_of_compare ho _ _).2) rfl fun _ => rfl
  refine .inl ⟨e', _, hat', hl, compare_floats hc hna hnb ?_, hstands⟩
  rw [hsame]
  exact Bool.eq_false_iff.mpr hints

/-- Values of different types are compared while recording. -/
theorem typeCompare_yields (ha : r.Sees ka a ta) (hb : r.Sees kb b tb) (hne : ta ≠ tb)
    (hnumbers : ¬(ta.isNumber && tb.isNumber) = true) (hop : op = .eq ∨ op = .ne) :
    Yields (do
        Recorder.result p ⟨.ofSlot k, seen⟩
          (← Recorder.immediate (.ofInt (if op == .ne then 1 else 0)) .bool) .bool) r
      fun _ r' => Compares r p n ka kb k seen op r' := by
  refine (immediate_yields hr.wf _ _).bind fun z r₁ ⟨hg, hz, hv⟩ => ?_
  refine (store_yields hg hz hk p seen).mono fun _ r' ⟨hw, _, hat', hstands⟩ => ⟨hw, ?_⟩
  intro e₀ e va vb hat hva hvb
  obtain ⟨e', hat₁, hl, hword⟩ := hv e₀ e hat
  have hequal := equal_of_types (hva.at ha).1 (hvb.at hb).1 hne hnumbers
  refine .inl ⟨e', .bool (op == .ne), hat' e₀ e' hat₁, hl, ?_, hstands e' _ rfl ?_⟩
  · rcases hop with rfl | rfl <;> simp only [compare, hequal] <;> rfl
  · rw [hword]
    rcases hop with rfl | rfl <;> rfl

/-- Strings are compared by a helper, whose answer is turned round for what is different. -/
theorem stringCompare_yields (ha : r.Sees ka a .str) (hb : r.Sees kb b .str)
    (hop : op = .eq ∨ op = .ne) :
    Yields (do
        let eq ← Recorder.callHelper HelperId.equal .bool [a, b]
        if op == .ne then
          let zero ← Recorder.immediate (.ofInt 0) .int
          Recorder.result p ⟨.ofSlot k, seen⟩ (← Recorder.emit .eq eq zero .bool) .bool
        else Recorder.result p ⟨.ofSlot k, seen⟩ eq .bool) r
      fun _ r' => Compares r p n ka kb k seen op r' := by
  have hargs : ∀ ref ∈ [a, b], Makes r.buffer ref := by
    intro ref href
    rcases List.mem_cons.mp href with rfl | href
    · exact ha.makes
    · rw [List.mem_singleton.mp href]
      exact hb.makes
  have hcall : ∀ e₀ e va vb, At e₀ r e → Stands r e ka va → Stands r e kb vb →
      HelperTable.standard.invoke e.heap HelperId.equal ([a, b].map e.word) =
        .ok (boolWord (va.equal vb), e.heap) := by
    intro e₀ e va vb hat hva hvb
    obtain ⟨s, i, rfl, hwa, hs⟩ := str_of_type (hva.at ha).1 (hva.at ha).2
    obtain ⟨t, j, rfl, hwb, ht⟩ := str_of_type (hvb.at hb).1 (hvb.at hb).2
    show HelperTable.standard.invoke e.heap HelperId.equal [e.word a, e.word b] = _
    rw [hwa, hwb]
    exact equal_strings hs ht
  refine (callHelper_yields hr.wf _ .bool hargs).bind fun z r₁ ⟨hg₁, hz, hv₁⟩ => ?_
  rcases hop with rfl | rfl
  · rw [if_neg (by decide)]
    refine (store_yields hg₁ hz hk p seen).mono fun _ r' ⟨hw, _, hat', hstands⟩ => ⟨hw, ?_⟩
    intro e₀ e va vb hat hva hvb
    obtain ⟨e', hat₁, hl, hword, -⟩ := hv₁ e₀ e _ _ hat (hcall e₀ e va vb hat hva hvb) hat.valid
      (.refl _) (Nat.le_succ _)
    refine .inl ⟨e', .bool (va.equal vb), hat' e₀ e' hat₁, hl, rfl, hstands e' _ rfl ?_⟩
    rw [hword]
    rfl
  · rw [if_pos (beq_self_eq_true BinOp.ne)]
    refine (immediate_yields hg₁.wf _ _).bind fun z' r₂ ⟨hg₂, hz', hv₂⟩ => ?_
    refine (emit_yields hg₂.wf rfl (hg₂.makes hz) (.inr hz') .bool).bind
      fun y r₃ ⟨hg₃, hy, _, hv₃⟩ => ?_
    refine (store_yields (hg₁.trans (hg₂.trans hg₃)) hy hk p seen).mono
      fun _ r' ⟨hw, _, hat', hstands⟩ => ⟨hw, ?_⟩
    intro e₀ e va vb hat hva hvb
    obtain ⟨e₁, hat₁, hl₁, hword₁, -⟩ := hv₁ e₀ e _ _ hat (hcall e₀ e va vb hat hva hvb) hat.valid
      (.refl _) (Nat.le_succ _)
    obtain ⟨e₂, hat₂, hl₂, hzero⟩ := hv₂ e₀ e₁ hat₁
    obtain ⟨e₃, hat₃, hl₃, hword₃, -⟩ := hv₃ e₀ e₂ _ _ hat₂ (by
      rw [hl₂.words z (hat₁.has hz), hword₁, hzero]
      exact eq_zero_compute _)
    refine .inl ⟨e₃, .bool (!va.equal vb), hat' e₀ e₃ hat₃, hl₁.trans (hl₂.trans hl₃), rfl,
      hstands e₃ _ rfl ?_⟩
    rw [hword₃]
    rfl

/-- Values of one type whose words say all are compared by their words. -/
theorem wordCompare_yields (ha : r.Sees ka a ta) (hb : r.Sees kb b ta)
    (hnumber : ta.isNumber = false) (hstr : ta ≠ .str) (hop : op = .eq ∨ op = .ne) {o : TraceOp}
    {c : Cond} (hc : compareCond op = some c) (ho : o.compare? = some (c, false)) :
    Yields (do Recorder.result p ⟨.ofSlot k, seen⟩ (← Recorder.emit o a b .bool) .bool) r
      fun _ r' => Compares r p n ka kb k seen op r' := by
  refine (plain_yields hr.wf ha.makes (.inr hb.makes) (compute_of_compare ho 0 0).1 hk p seen
    .bool).mono fun _ r' ⟨hw, hv⟩ => ⟨hw, ?_⟩
  intro e₀ e va vb hat hva hvb
  obtain ⟨hta, hwa⟩ := hva.at ha
  obtain ⟨htb, hwb⟩ := hvb.at hb
  obtain ⟨e', hat', hl, hstands⟩ := hv e₀ e _ (.bool (c.holds false (e.word a) (e.word b))) hat
    (compute_of_compare ho _ _).2 rfl fun _ => rfl
  exact .inl ⟨e', _, hat', hl, compare_words hc hop hta htb hnumber hstr hwa hwb, hstands⟩

/-- A comparison is recorded for the types of its operands. -/
theorem compare_yields (ha : r.Sees ka a ta) (hb : r.Sees kb b tb) {c : Cond}
    (hc : compareCond op = some c) :
    Yields (Recorder.compare p op ⟨.ofSlot k, seen⟩ (a, ta) (b, tb)) r
      fun _ r' => Compares r p n ka kb k seen op r' := by
  obtain ⟨hints, hfloats⟩ := compareOps hc
  unfold Recorder.compare
  simp only
  generalize TraceOp.ofByte (TraceOp.eq.toByte + (op.toByte - BinOp.eq.toByte)) = onInts at hints ⊢
  generalize TraceOp.ofByte (TraceOp.feq.toByte + (op.toByte - BinOp.eq.toByte)) =
    onFloats at hfloats ⊢
  by_cases hint : (ta == .int && tb == .int) = true
  · rw [if_pos hint]
    obtain ⟨hta, htb⟩ := Bool.and_eq_true_iff.mp hint
    obtain rfl := beq_iff_eq.mp hta
    obtain rfl := beq_iff_eq.mp htb
    exact intCompare_yields hr hk ha hb hc hints
  rw [if_neg hint]
  by_cases hnumbers : (ta.isNumber && tb.isNumber) = true
  · rw [if_pos hnumbers]
    exact numberCompare_yields hr hk ha hb hnumbers hint hc hfloats
  rw [if_neg hnumbers]
  by_cases hop : op ≠ .eq ∧ op ≠ .ne
  · rw [if_pos (by simp [hop])]
    exact Yields.giveUp hr.wf.slots _ _ _
  rw [if_neg (by simp only [Bool.and_eq_true, decide_eq_true_eq]; exact hop)]
  have hop' : op = .eq ∨ op = .ne := by
    by_cases heq : op = .eq
    · exact .inl heq
    · exact .inr (Classical.byContradiction fun hne => hop ⟨heq, hne⟩)
  by_cases hne : ta ≠ tb
  · rw [if_pos hne]
    exact typeCompare_yields hr hk ha hb hne hnumbers hop'
  rw [if_neg hne]
  obtain rfl : ta = tb := Classical.byContradiction hne
  by_cases hstr : ta = .str
  · subst hstr
    rw [if_pos (beq_self_eq_true Ty.str)]
    exact stringCompare_yields hr hk ha hb hop'
  · rw [if_neg fun heq => hstr (beq_iff_eq.mp heq)]
    rw [Bool.and_self] at hnumbers
    exact wordCompare_yields hr hk ha hb (Bool.eq_false_iff.mpr hnumbers) hstr hop' hc hints

end Comparison

end Binary

end LoopTracer.Interp
