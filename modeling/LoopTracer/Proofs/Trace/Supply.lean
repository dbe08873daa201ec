import LoopTracer.Proofs.Trace.Sealing

/-! The operands of a trace.

An instruction may leave operands out, and whoever compiles it relies on those that its operation
reads. A recorder that holds values in its slots (`Recorder.Stocked`) gives them to every
instruction that it appends, calls only helpers that there are, with no more arguments than they
take, lists in an exit only what was computed before, and tests for an overflow right behind the
operation that can overflow (`sealed_trace_supplied`). -/
namespace LoopTracer.Trace

/-- Whether an operation reads a first operand, exits for overflow aside. -/
def TraceOp.readsFirst (op : TraceOp) : Bool :=
  op.computes || op == .store || op == .exitUnless || op == .exitIf

/-- Whether an operation reads a second operand. -/
def TraceOp.readsSecond (op : TraceOp) : Bool := op.binary?.isSome || op.compare?.isSome

/-- An instruction with all operands that its operation reads; a helper that it calls is there. -/
structure Inst.Supplied (i : Inst) : Prop where
  first : i.op.readsFirst = true → 0 ≤ i.a
  second : i.op.readsSecond = true → 0 ≤ i.b
  helper : i.op = .call → ∃ d, HelperTable.standard.get i.helper = .ok d ∧
    i.args.length ≤ d.args.length

/-- What reads no operand and calls no helper has all it needs. -/
theorem supplied_plain {i : Inst} (hfirst : i.op.readsFirst = false)
    (hsecond : i.op.readsSecond = false)
    (hcall : i.op ≠ .call) : i.Supplied :=
  ⟨fun h => absurd h (Bool.eq_false_iff.mp hfirst),
    fun h => absurd h (Bool.eq_false_iff.mp hsecond), fun h => absurd h hcall⟩

/-- The instruction at `n` comes behind all that its exit lists, and right behind the operation
whose overflow it tests. -/
structure Inst.Placed (b : Buffer) (n : Nat) (i : Inst) : Prop where
  snapshot : ∀ q ∈ i.snapshotRefs, 0 ≤ q ∧ q < n
  follows : i.op = .exitOv → ∃ m j, n = m + 1 ∧ b.insts[m]? = some j ∧ j.op.setsOverflow = true

/-- A trace whose instructions have what they need. -/
structure Buffer.Supplied (b : Buffer) : Prop where
  insts : ∀ i ∈ b.insts, i.Supplied
  placed : ∀ (n : Nat) i, b.insts[n]? = some i → i.Placed b n

/-- A recorder whose slots and constants are values, and whose instructions have theirs. -/
structure Recorder.Stocked (r : Recorder) : Prop where
  trace : r.buffer.Supplied
  slots : r.slots.Valid
  held : ∀ k ref, r.slots.value? k = some ref → 0 ≤ ref
  table : ∀ (v : Immediate) (t : Ty) (ref : Ref), r.immediates[(v, t)]? = some ref → 0 ≤ ref

section Stocked

variable {r r' : Recorder} {i : Inst} {a b ref : Int} {t : Ty} {p : Primitive} {dest : Written}

/-- The offset is none of its instructions' operands. -/
theorem Recorder.Stocked.at_pc (h : r.Stocked) (pc : Int) : Recorder.Stocked { r with pc } :=
  ⟨h.trace, h.slots, h.held, h.table⟩

/-! ### Instructions -/

theorem append_stocked (h : r.Stocked) (hi : i.Supplied) :
    Ensures Anyhow (Recorder.append i) r fun ref r' => r'.Stocked ∧ 0 ≤ ref := by
  refine (append_appended i r).mono fun ref r' hadded => ?_
  obtain ⟨rfl, rfl, -, hsnapshot, hfollows⟩ := hadded
  refine ⟨⟨⟨fun j hj => ?_, fun n j hj => ?_⟩, h.slots, h.held, h.table⟩, Int.natCast_nonneg _⟩
  · rcases Array.mem_push.mp hj with hj | rfl
    · exact h.trace.insts j hj
    · exact ⟨hi.first, hi.second, hi.helper⟩
  · have hold : ∀ {m : Nat} {k : Inst}, r.buffer.insts[m]? = some k →
        (r.plus i).buffer.insts[m]? = some k := fun hk =>
      (Array.getElem?_push_lt (Array.getElem?_eq_some_iff.mp hk).1).trans
        (Array.getElem?_eq_getElem _ ▸ hk)
    change (r.buffer.insts.push _)[n]? = some j at hj
    rw [Array.getElem?_push] at hj
    split at hj
    · next hn =>
      cases hj
      refine ⟨fun q hq => hn ▸ hsnapshot q hq, fun hop => ?_⟩
      obtain ⟨hlast, k, hk, hsets⟩ := hfollows hop
      obtain ⟨m, hm⟩ := Int.eq_ofNat_of_zero_le (Buffer.get?_bounds hk).1
      rw [hm, Buffer.get?_eq] at hk
      rw [hm] at hlast
      have hsize : m + 1 = r.buffer.insts.size := Int.ofNat.inj hlast
      exact ⟨m, k, hn.trans hsize.symm, hold hk, hsets⟩
    · have hplaced := h.trace.placed n j hj
      refine ⟨hplaced.snapshot, fun hop => ?_⟩
      obtain ⟨m, k, hn, hk, hsets⟩ := hplaced.follows hop
      exact ⟨m, k, hn, hold hk, hsets⟩

/-- Whatever the operation, an instruction with two operands has what it needs. -/
theorem emit_stocked (h : r.Stocked) {op : TraceOp} (ha : 0 ≤ a)
    (hb : op.readsSecond = true → 0 ≤ b) :
    Ensures Anyhow (Recorder.emit op a b t) r fun ref r' => r'.Stocked ∧ 0 ≤ ref :=
  append_stocked h ⟨fun _ => ha, hb, fun _ => ⟨_, rfl, Nat.zero_le _⟩⟩

theorem callHelper_stocked (h : r.Stocked) {id : UInt8} {d : Helper}
    (hd : HelperTable.standard.get id = .ok d)
    {args : List Ref} (hargs : args.length ≤ d.args.length) :
    Ensures Anyhow (Recorder.callHelper id t args) r fun ref r' => r'.Stocked ∧ 0 ≤ ref :=
  append_stocked h ⟨fun h => (Bool.false_ne_true h).elim, fun h => (Bool.false_ne_true h).elim,
    fun _ => ⟨d, hd, hargs⟩⟩

theorem guard_stocked (h : r.Stocked) {op : TraceOp} (hop : op.isGuard = true)
    (ha : 0 ≤ a) (x : SideExit) :
    Ensures Anyhow (Recorder.guard op a x) r fun _ r' => r'.Stocked := by
  refine (append_stocked h ⟨fun _ => ha, ?_, ?_⟩).bind fun _ _ h' => .pure h'.1
  all_goals
    intro hop'
    cases op <;> first | (cases hop; done) | cases hop'

theorem immediate_stocked (h : r.Stocked) (v : Immediate) (t : Ty) :
    Ensures Anyhow (Recorder.immediate v t) r fun ref r' => r'.Stocked ∧ 0 ≤ ref := by
  unfold Recorder.immediate
  refine .get ?_
  cases hfound : r.immediates[(v, t)]? with
  | some n => exact .pure ⟨h, h.table v t n hfound⟩
  | none =>
    refine (append_stocked h (supplied_plain rfl rfl (by nofun))).bind fun n r₁ ⟨h₁, hn⟩ => ?_
    refine .modify_bind (.pure ⟨⟨h₁.trace, h₁.slots, h₁.held, fun v' t' ref href => ?_⟩, hn⟩)
    replace href : (r₁.immediates.insert (v, t) n)[(v', t')]? = some ref := href
    rw [Std.TreeMap.getElem?_insert] at href
    split at href
    · exact Option.some.inj href ▸ hn
    · exact h₁.table v' t' ref href

theorem toFloat_stocked (h : r.Stocked) (ha : 0 ≤ a) (t : Ty) :
    Ensures Anyhow (Recorder.toFloat a t) r fun ref r' => r'.Stocked ∧ 0 ≤ ref := by
  unfold Recorder.toFloat
  split
  · exact .pure ⟨h, ha⟩
  · refine (instOf_same a r).bind fun i r' hr => ?_
    subst hr
    split
    · exact immediate_stocked h _ _
    · exact emit_stocked h ha fun hreads => absurd hreads (by decide)

theorem valueOf_stocked (h : r.Stocked) (x : SlotAddr) :
    Ensures Anyhow (Recorder.valueOf x) r fun ref r' => r' = r ∧ 0 ≤ ref :=
  (valueOf_finds x r).mono fun _ _ ⟨hr, _, hvalue⟩ => ⟨hr, h.held _ _ hvalue⟩

theorem result_stocked (h : r.Stocked) (hm : 0 ≤ ref) (p : Primitive) (dest : Written) :
    Ensures Anyhow (Recorder.result p dest ref t) r fun _ r' => r'.Stocked := by
  have hset : Ensures Anyhow (Recorder.setSlot dest.slot ref t) r fun _ r' => r'.Stocked := by
    unfold Ensures Recorder.setSlot
    cases hsettable : SlotMap.settable dest.slot ref with
    | some f => trivial
    | none =>
      obtain ⟨hvalid, hvalue⟩ := SlotMap.insert_valid h.slots dest.slot hm
      refine ⟨h.trace, hvalid, fun k q hq => ?_, h.table⟩
      rw [show (r.slots.insert dest.slot ref).value? k = _ from hvalue k] at hq
      split at hq
      · exact Option.some.inj hq ▸ hm
      · exact h.held k q hq
  unfold Recorder.result
  dsimp only
  split
  · exact refused
  · exact hset

theorem snapshotFrom_same (k n : Nat) (r : Recorder) :
    Ensures Anyhow (Recorder.snapshotFrom k n) r fun _ r' => r' = r := by
  induction n generalizing k with
  | zero => exact .pure rfl
  | succ n ih =>
    unfold Recorder.snapshotFrom
    refine (valueOf_finds _ r).bind fun ref r₁ hfound => .get ?_
    obtain rfl := hfound.1
    split
    · exact .throw trivial
    · exact (ih (k + 1)).bind fun _ r₂ hr => .pure hr

theorem exitBefore_same (p : Primitive) (kind : ExitKind) (r : Recorder) :
    Ensures Anyhow (Recorder.exitBefore p kind) r fun _ r' => r' = r := by
  unfold Recorder.exitBefore
  refine .get ?_
  dsimp only
  split
  · exact .bind (Q := fun _ _ => False) (.throw trivial) fun _ _ => False.elim
  · exact (snapshotFrom_same 0 _ r).bind fun _ r₁ hr => .pure hr

/-! ### Primitives -/

theorem onFloats_stocked (h : r.Stocked) {op : TraceOp} {x y : Ref × Ty} (hx : 0 ≤ x.1)
    (hy : 0 ≤ y.1) :
    Ensures Anyhow (Recorder.onFloats p dest op t x y) r fun _ r' => r'.Stocked := by
  unfold Recorder.onFloats
  refine (toFloat_stocked h hx _).bind fun _ r₁ ⟨h₁, ha⟩ =>
    (toFloat_stocked h₁ hy _).bind fun _ r₂ ⟨h₂, hb⟩ => ?_
  exact (emit_stocked h₂ ha fun _ => hb).bind fun _ r₃ ⟨h₃, hm⟩ => result_stocked h₃ hm p dest

/-- An operation whose overflow is tested. -/
theorem checked_stocked {kind : ExitKind} (h : r.Stocked) {op : TraceOp} (ha : 0 ≤ a)
    (hb : op.readsSecond = true → 0 ≤ b) :
    Ensures Anyhow (do
      let exit ← Recorder.exitBefore p kind
      let v ← Recorder.emit op a b t
      Recorder.guard .exitOv v exit
      Recorder.result p dest v t) r fun _ r' => r'.Stocked := by
  refine (exitBefore_same p kind r).bind fun x r₁ hr => ?_
  subst hr
  refine (emit_stocked h ha hb).bind fun v r₂ ⟨h₂, hv⟩ => ?_
  exact (guard_stocked h₂ rfl hv x).bind fun _ r₃ h₃ => result_stocked h₃ hv p dest

theorem compare_stocked (h : r.Stocked) (op : BinOp) {x y : Ref × Ty} (hx : 0 ≤ x.1)
    (hy : 0 ≤ y.1) :
    Ensures Anyhow (Recorder.compare p op dest x y) r fun _ r' => r'.Stocked := by
  unfold Recorder.compare
  dsimp only
  have hemit : ∀ {r : Recorder}, r.Stocked →
    ∀ {op : TraceOp} {a b : Ref}, 0 ≤ a → 0 ≤ b →
      Ensures Anyhow (Recorder.emit op a b .bool >>= fun v => Recorder.result p dest v .bool) r
        fun _ r' => r'.Stocked := fun hr _ _ _ ha hb =>
    (emit_stocked hr ha fun _ => hb).bind fun _ r' ⟨h', hm⟩ => result_stocked h' hm p dest
  split
  · exact hemit h hx hy
  split
  · exact onFloats_stocked h hx hy
  split
  · exact .throw trivial
  split
  · exact (immediate_stocked h _ _).bind fun _ r' ⟨h', hm⟩ => result_stocked h' hm p dest
  split
  · refine (callHelper_stocked h rfl (Nat.le_refl _)).bind fun _ r₁ ⟨h₁, hm⟩ => ?_
    split
    · exact (immediate_stocked h₁ _ _).bind fun _ r₂ ⟨h₂, hz⟩ => hemit h₂ hm hz
    · exact result_stocked h₁ hm p dest
  · exact hemit h hx hy

theorem binary_stocked (h : r.Stocked) (op : BinOp) (x y : SlotAddr) :
    Ensures Anyhow (Recorder.binary p op x y dest) r fun _ r' => r'.Stocked := by
  unfold Recorder.binary
  refine (typeOf_same _ _).bind fun ta r₁ hr => ?_
  subst hr
  refine (typeOf_same _ _).bind fun tb r₁ hr => ?_
  subst hr
  refine (valueOf_stocked h _).bind fun ra r₁ ⟨hr, ha⟩ => ?_
  subst hr
  refine (valueOf_stocked h _).bind fun rb r₁ ⟨hr, hb⟩ => ?_
  subst hr
  dsimp only
  have hcall : ∀ {id : UInt8} {t : Ty} {d : Helper}, HelperTable.standard.get id = .ok d →
    [ra, rb].length ≤ d.args.length →
      Ensures Anyhow (Recorder.callHelper id t [ra, rb] >>= fun v => Recorder.result p dest v t) r₁
        fun _ r' => r'.Stocked := fun hd hargs =>
    (callHelper_stocked h hd hargs).bind fun _ r' ⟨h', hm⟩ => result_stocked h' hm p dest
  -- sums: strings are joined, ints tested, and all other numbers are floats
  have hsum : Ensures Anyhow (do
      if (op == .add && ta == .str && tb == .str) = true then
        Recorder.result p dest (← Recorder.callHelper HelperId.concat .str [ra, rb]) .str
      else if (!(ta.isNumber && tb.isNumber)) = true then
        Recorder.giveUp .unrecordable p.pc (op.name ++ " on " ++ ta.name ++ " and " ++ tb.name)
      else if (ta == .int && tb == .int) = true then
        if dest.type ≠ .int then
          Recorder.giveUp .guardFailed p.pc (op.name ++ " overflowed while recording")
        let exit ← Recorder.exitBefore p .overflow
        let v ← Recorder.emit (Recorder.overflowOp op) ra rb .int
        Recorder.guard .exitOv v exit
        Recorder.result p dest v .int
      else Recorder.onFloats p dest (Recorder.floatOp op) .float (ra, ta) (rb, tb)) r₁
        fun _ r' => r'.Stocked := by
    split
    · exact hcall rfl (Nat.le_refl _)
    split
    · exact .throw trivial
    split
    · dsimp only
      split
      · exact refused
      · exact checked_stocked h ha fun _ => hb
    · exact onFloats_stocked h ha hb
  have hbits : Ensures Anyhow (do
        if (!(ta == .int && tb == .int)) = true then
          Recorder.giveUp .unrecordable p.pc (op.name ++ " on " ++ ta.name ++ " and " ++ tb.name)
        else Recorder.result p dest (← Recorder.emit (Recorder.bitOp op) ra rb .int) .int) r₁
        fun _ r' => r'.Stocked := by
    split
    · exact .throw trivial
    · exact (emit_stocked h ha fun _ => hb).bind fun _ r' ⟨h', hm⟩ =>
        result_stocked h' hm p dest
  cases op with
  | add | sub | mul => exact hsum
  | div =>
    dsimp only
    split
    · exact .throw trivial
    · exact onFloats_stocked h ha hb
  | mod =>
    dsimp only
    split
    · exact .throw trivial
    split
    · have hrest : Ensures Anyhow (do
          let exit ← Recorder.exitBefore p .divZero
          let zero ← Recorder.immediate (.ofInt 0) .int
          let nonZero ← Recorder.emit .ne rb zero .bool
          Recorder.guard .exitUnless nonZero exit
          Recorder.result p dest (← Recorder.callHelper HelperId.intRem .int [ra, rb]) .int) r₁
          fun _ r' => r'.Stocked := by
        refine (exitBefore_same p .divZero r₁).bind fun x r₂ hr => ?_
        subst hr
        refine (immediate_stocked h _ _).bind fun zero r₃ ⟨h₃, hz⟩ => ?_
        refine (emit_stocked h₃ hb fun _ => hz).bind fun nonZero r₄ ⟨h₄, hn⟩ => ?_
        refine (guard_stocked h₄ rfl hn x).bind fun _ r₅ h₅ => ?_
        exact (callHelper_stocked h₅ rfl (Nat.le_refl _)).bind fun _ r₆ ⟨h₆, hm⟩ =>
          result_stocked h₆ hm p dest
      split
      · exact refused
      · exact hrest
    · refine (toFloat_stocked h ha _).bind fun _ r₂ ⟨h₂, _⟩ =>
        (toFloat_stocked h₂ hb _).bind fun _ r₃ ⟨h₃, _⟩ => ?_
      exact (callHelper_stocked h₃ rfl (Nat.le_refl _)).bind fun _ r₄ ⟨h₄, hm⟩ =>
        result_stocked h₄ hm p dest
  | bitAnd | bitOr | bitXor | shl | shr => exact hbits
  | eq | ne | lt | le | gt | ge | other => exact compare_stocked h _ ha hb

theorem unary_stocked (h : r.Stocked) (op : UnOp) (x : SlotAddr) :
    Ensures Anyhow (Recorder.unary p op x dest) r fun _ r' => r'.Stocked := by
  unfold Recorder.unary
  refine (typeOf_same _ _).bind fun t r₁ hr => ?_
  subst hr
  refine (valueOf_stocked h _).bind fun ref r₁ ⟨hr, hm⟩ => ?_
  subst hr
  have hzero : ∀ (v : Immediate) (t : Ty) (op : TraceOp), Ensures Anyhow (do
        let zero ← Recorder.immediate v t
        Recorder.result p dest (← Recorder.emit op ref zero .bool) .bool) r₁
            fun _ r' => r'.Stocked :=
    fun v t op => (immediate_stocked h v t).bind fun _ r₂ ⟨h₂, hz⟩ =>
      (emit_stocked h₂ hm fun _ => hz).bind fun _ r₃ ⟨h₃, hv⟩ => result_stocked h₃ hv p dest
  split
  · dsimp only
    split
    · exact refused
    · exact checked_stocked h hm fun hreads => absurd hreads (by decide)
  · exact (emit_stocked h hm fun hreads => absurd hreads (by decide)).bind fun _ r' ⟨h', hv⟩ =>
      result_stocked h' hv p dest
  · exact (emit_stocked h hm fun hreads => absurd hreads (by decide)).bind fun _ r' ⟨h', hv⟩ =>
      result_stocked h' hv p dest
  · exact hzero _ _ _
  · exact hzero _ _ _
  · exact .throw trivial

theorem branch_stocked (h : r.Stocked) (x : SlotAddr) (taken : Bool) :
    Ensures Anyhow (Recorder.branch p x taken) r fun _ r' => r'.Stocked := by
  unfold Recorder.branch
  refine (typeOf_same _ _).bind fun t r₁ hr => ?_
  subst hr
  refine (valueOf_stocked h _).bind fun ref r₁ ⟨hr, hm⟩ => ?_
  subst hr
  refine (instOf_same _ _).bind fun i r₂ hr => ?_
  subst hr
  split
  · dsimp only
    split
    · exact .throw trivial
    · exact .pure h
  · refine (exitBefore_same p .branch r₂).bind fun x r₃ hr => ?_
    subst hr
    have hguard : ∀ {r : Recorder}, r.Stocked → ∀ {ref : Ref}, 0 ≤ ref →
        Ensures Anyhow (Recorder.guard (if taken = true then .exitUnless else .exitIf) ref x) r
          fun _ r' => r'.Stocked := fun hr _ href => by
      refine guard_stocked hr ?_ href x
      cases taken <;> rfl
    dsimp only
    split
    · refine (immediate_stocked h _ _).bind fun zero r₄ ⟨h₄, hz⟩ => ?_
      exact (emit_stocked h₄ hm fun _ => hz).bind fun _ r₅ ⟨h₅, hv⟩ => hguard h₅ hv
    · exact .pure_bind (hguard h hm)

theorem callArgs_stocked (h : r.Stocked) (d : Helper) (k : Nat) (slots : List SlotAddr)
    (classes : List Machine.SizeClass) :
    Ensures Anyhow (Recorder.callArgs p d k slots classes) r fun refs r' =>
      r'.Stocked ∧ refs.length ≤ classes.length := by
  induction classes generalizing slots k r with
  | nil =>
    cases slots <;> exact .pure ⟨h, Nat.le_refl _⟩
  | cons c classes ih =>
    cases slots with
    | nil => exact .pure ⟨h, Nat.zero_le _⟩
    | cons x slots =>
      unfold Recorder.callArgs
      refine (typeOf_same _ _).bind fun t r₁ hr => ?_
      subst hr
      refine (valueOf_stocked h _).bind fun ref r₁ hfound => ?_
      obtain ⟨rfl, hm⟩ := hfound
      have hrest : ∀ {r : Recorder}, r.Stocked → ∀ (ref : Ref) (fits : Bool),
          Ensures Anyhow (do
            if (!fits) = true then
              Recorder.giveUp .unrecordable p.pc
                (d.name ++ " argument " ++ .ofNat k ++ " is " ++ t.name)
            return ref :: (← Recorder.callArgs p d (k + 1) slots classes) : Recording (List Ref)) r
            fun refs r' => r'.Stocked ∧ refs.length ≤ (c :: classes).length := by
        intro r hr ref fits
        dsimp only
        split
        · exact refused
        · exact (ih hr _ _).bind fun refs r' h' => .pure ⟨h'.1, Nat.succ_le_succ h'.2⟩
      dsimp only
      split
      · exact (toFloat_stocked h hm _).bind fun _ r' h' => hrest h'.1 _ _
      · exact .pure_bind (hrest h _ _)

/-- Every helper of the table goes by its own number. -/
theorem standard_get {id : UInt8} {d : Helper} (h : HelperTable.standard.get id = .ok d) :
    HelperTable.standard.get d.id.toUInt8 = .ok d := by
  have hall : ∀ k : Fin HelperTable.standard.helpers.size,
      (HelperTable.standard.helpers[k]).id.toUInt8.toNat = k := by decide
  unfold HelperTable.get at h ⊢
  split at h
  · next d' hd =>
    cases h
    obtain ⟨hlt, rfl⟩ := Array.getElem?_eq_some_iff.mp hd
    have hk : (HelperTable.standard.helpers[id.toNat]).id.toUInt8.toNat = id.toNat :=
      hall ⟨id.toNat, hlt⟩
    rw [hk, hd]
  · cases h

theorem call_stocked (h : r.Stocked) (id : UInt8) (args : List SlotAddr) :
    Ensures Anyhow (Recorder.call .standard p id args dest) r fun _ r' => r'.Stocked := by
  unfold Recorder.call
  have hget : Ensures Anyhow (Recorder.liftFault (HelperTable.standard.get id)) r fun d r' =>
      r' = r ∧ HelperTable.standard.get id = .ok d := by
    cases hd : HelperTable.standard.get id with
    | error f => exact .throw trivial
    | ok d => exact .pure ⟨rfl, rfl⟩
  refine hget.bind fun d r₁ ⟨hr, hd⟩ => ?_
  subst hr
  dsimp only
  split
  · exact refused
  · refine (callArgs_stocked h d 0 args d.args).bind fun refs r₂ ⟨h₂, hlength⟩ => ?_
    exact (callHelper_stocked h₂ (standard_get hd) hlength).bind fun _ r₃ ⟨h₃, hm⟩ =>
      result_stocked h₃ hm p dest

/-- A primitive that is not refused gives every instruction its operands. -/
theorem primitive_stocked (h : r.Stocked) (p : Primitive) :
    Ensures Anyhow (Recorder.primitive .standard p) r fun _ r' => r'.Stocked := by
  unfold Recorder.primitive
  split
  · exact (immediate_stocked h _ _).bind fun _ r' ⟨h', hm⟩ => result_stocked h' hm p _
  · refine (valueOf_stocked h _).bind fun ref r₁ ⟨hr, hm⟩ => ?_
    subst hr
    refine (typeOf_same _ _).bind fun t r₂ hr => ?_
    subst hr
    exact result_stocked h hm p _
  · exact binary_stocked h _ _ _
  · exact unary_stocked h _ _
  · exact branch_stocked h _ _
  · exact call_stocked h _ _
  all_goals exact .throw trivial

theorem record_stocked (h : r.Stocked) (maxLength : Int) (p : Primitive) :
    Ensures Anyhow (Recorder.record .standard maxLength p) r fun _ r' => r'.Stocked := by
  have horReset : ∀ {x : Recording Unit} {r₁ : Recorder},
    Ensures Anyhow x r₁ (fun _ r' => r'.Stocked) →
      Ensures Anyhow (Recorder.orReset x) r₁ fun _ r' => r'.Stocked := by
    intro x r₁ hx
    unfold Ensures Recorder.orReset
    cases hrun : x r₁ with
    | ok a r' => exact (ensures_ok hrun).mp hx
    | error e r' => cases e <;> trivial
  unfold Recorder.record
  refine .get ?_
  dsimp only
  split
  · exact .bind (Q := fun _ _ => False) (.throw trivial) fun _ _ => False.elim
  · refine .modify_bind
      (horReset ((primitive_stocked (h.at_pc p.pc) p).bind fun _ r₁ h₁ => .get ?_))
    split
    · exact .throw trivial
    · exact .pure h₁

/-- Primitives one after the other. -/
theorem recordAll_stocked (h : r.Stocked) (maxLength : Int) (ps : List Primitive) :
    Ensures Anyhow (ps.forM (Recorder.record .standard maxLength)) r fun _ r' => r'.Stocked := by
  induction ps generalizing r with
  | nil => exact .pure h
  | cons p ps ih =>
    exact (record_stocked h maxLength p).bind fun _ r₁ h₁ => ih h₁

/-! ### Sessions -/

theorem importSlots_stocked (h : r.Stocked) (k : Nat) (types : TypeMap) :
    Ensures Anyhow (Recorder.importSlots k types) r fun _ r' => r'.Stocked := by
  induction types generalizing k r with
  | nil => exact .pure h
  | cons t rest ih =>
    unfold Recorder.importSlots
    refine (append_stocked h (supplied_plain rfl rfl (by rintro ⟨⟩))).bind fun ref r₁ happended =>
      ?_
    obtain ⟨h₁, href⟩ := happended
    dsimp only
    split
    · exact .bind (Q := fun _ _ => False) (.throw trivial) fun _ _ => False.elim
    · obtain ⟨hvalid, hvalue⟩ := SlotMap.insert_valid h₁.slots (.ofSlot k) href
      refine .modify_bind (ih (r := { r₁ with slots := r₁.slots.insert (.ofSlot k) ref })
        ⟨h₁.trace, hvalid, fun j q hq => ?_, h₁.table⟩ (k + 1))
      rw [show (r₁.slots.insert (.ofSlot k) ref).value? j = _ from hvalue j] at hq
      split at hq
      · exact Option.some.inj hq ▸ href
      · exact h₁.held j q hq

theorem start_stocked {f : Fragment} {rootTypes entry : TypeMap}
    {anchor : Option (Guard × ExitRecord)} (hr : r.slots.Valid)
    (h : r.start f rootTypes entry anchor = .ok r') : r'.Stocked := by
  obtain ⟨-, r₁, hok, rfl⟩ := start_ok h
  obtain ⟨hclear, hempty⟩ := SlotMap.clear_valid hr
  have hopened : (r.opened f rootTypes entry anchor).Stocked := by
    refine ⟨⟨fun i hi => absurd hi (Array.not_mem_empty i), by rintro n i ⟨⟩⟩, hclear,
      fun k ref hk => ?_, fun v t ref href => ?_⟩
    · rw [show (r.opened f rootTypes entry anchor).slots.value? k = none from hempty k] at hk
      cases hk
    · simp [Recorder.opened] at href
  have h₁ := (ensures_ok hok).mp (importSlots_stocked hopened 0 entry)
  exact ⟨h₁.trace, h₁.slots, h₁.held, h₁.table⟩

theorem storeSlots_stocked (h : r.Stocked) (k : Nat) (types : TypeMap) :
    Ensures Anyhow (Recorder.storeSlots k types) r fun _ r' => r'.Stocked := by
  induction types generalizing k r with
  | nil => exact .pure h
  | cons t rest ih =>
    unfold Recorder.storeSlots
    refine (valueOf_stocked h _).bind fun ref r₁ hfound => .get ?_
    obtain ⟨rfl, href⟩ := hfound
    dsimp only
    split
    · have hstore : Inst.Supplied { op := .store, a := ref, slot := .ofSlot k, type := t } :=
        ⟨fun _ => href, fun h => (Bool.false_ne_true h).elim, by rintro ⟨⟩⟩
      exact (append_stocked h hstore).bind fun _ r₂ h₂ => ih h₂.1 (k + 1)
    · exact ih h (k + 1)

/-- A trace that is sealed has all that its instructions need. -/
theorem finish_supplied {f : Fragment} {stop : TypeMap} {target : Option Fragment}
    {b : Buffer} (h : r.Stocked)
    (hfinish : Recorder.finish f stop target r = .ok b r') : b.Supplied := by
  obtain ⟨-, -, -, -, -, r₁, r₂, n, hstore, happend, hclose, -⟩ := finish_ok hfinish
  have hstored := (ensures_ok hstore).mp (storeSlots_stocked (h.at_pc f.key.pc) 0 stop)
  have hjump : Inst.Supplied { op := if f.kind == .branch then .jumpTree else .loop } := by
    cases f.kind == .branch <;> exact supplied_plain rfl rfl (by nofun)
  obtain ⟨hended, -⟩ := (ensures_ok happend).mp (append_stocked hstored hjump)
  have hinsts : b.insts = r₂.buffer.insts := close_insts hclose
  refine ⟨fun i hi => hended.trace.insts i (hinsts ▸ hi), fun n i hi => ?_⟩
  obtain ⟨hsnapshot, hfollows⟩ := hended.trace.placed n i (hinsts ▸ hi)
  exact ⟨hsnapshot, hinsts ▸ hfollows⟩

/-- A trace that is sealed ends with a jump. -/
theorem finish_ends {f : Fragment} {stop : TypeMap} {target : Option Fragment} {b : Buffer}
    (hfinish : Recorder.finish f stop target r = .ok b r') :
    b.insts.back?.any (·.op.isTerminal) = true := by
  obtain ⟨-, -, -, -, -, r₁, r₂, n, -, -, hclose, -⟩ := finish_ok hfinish
  rw [show b.insts = r₂.buffer.insts from close_insts hclose]
  unfold Buffer.close at hclose
  split at hclose
  · cases hclose
  split at hclose
  · assumption
  · cases hclose

end Stocked

/-- The instructions of every trace that is recorded and sealed have their operands. -/
theorem sealed_trace_supplied {r r₁ r₂ r₃ : Recorder} (hr : r.Used) {f : Fragment}
    {rootTypes entry : TypeMap}
    {anchor : Option (Guard × ExitRecord)}
    (hstart : r.start f rootTypes entry anchor = .ok r₁) {maxLength : Int}
    {ps : List Primitive}
    (hrecord : ps.forM (Recorder.record .standard maxLength) r₁ = .ok () r₂)
    {g : Fragment} {stop : TypeMap}
    {target : Option Fragment} {b : Buffer}
    (hfinish : Recorder.finish g stop target r₂ = .ok b r₃) :
    b.Supplied := by
  have hstarted := start_stocked hr.valid hstart
  exact finish_supplied
    ((ensures_ok hrecord).mp (recordAll_stocked hstarted maxLength ps)) hfinish

end LoopTracer.Trace
