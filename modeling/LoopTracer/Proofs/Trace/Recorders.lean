import LoopTracer.Proofs.Computation
import LoopTracer.Proofs.Trace.SlotMap
import LoopTracer.Trace.Recorder

/-! Whose recording it is.

One recorder serves all recordings. An operation on the trace leaves alone whose trace it is, leaves
the slot map in order and puts no handles of strings into the trace but those it is told (`Same`);
what stops it gives the recording up, or is a fault that has nothing to do with code pages (`Calm`).
Giving up makes the recorder idle (`Stopped`), and only `finish` ends a recording otherwise
(`finish_ensures`). So the slot map of every recorder that there can be is in order
(`Recorder.Used.valid`). -/
namespace LoopTracer.Trace

/-! ### Faults -/

theorem HelperTable.tame_get {t : HelperTable} {id : UInt8} {f : Fault}
    (h : t.get id = .error f) : Tame f := by
  unfold HelperTable.get at h
  split at h
  · cases h
  · cases h
    nofun

theorem HelperTable.tame_spec {t : HelperTable} {id : UInt8} {f : Fault}
    (h : t.spec id = .error f) : Tame f := by
  unfold HelperTable.spec at h
  cases hd : t.get id with
  | ok d =>
    rw [hd] at h
    cases h
  | error e =>
    rw [hd] at h
    cases h
    exact tame_get hd

theorem SlotMap.tame_get {t : SlotMap} {a : SlotAddr} {f : Fault}
    (h : t.get a = .error f) : Tame f := by
  unfold SlotMap.get at h
  cases hfind : t.find? a with
  | ok found =>
    rw [hfind] at h
    cases found <;> cases h
    nofun
  | error e =>
    rw [hfind] at h
    cases h
    unfold SlotMap.find? at hfind
    split at hfind <;> cases hfind
    nofun

theorem SlotMap.tame_settable {a : SlotAddr} {ref : Ref} {f : Fault}
    (h : SlotMap.settable a ref = some f) : Tame f := by
  unfold SlotMap.settable at h
  split at h
  · cases h
    nofun
  · split at h
    · cases h
      nofun
    · cases h

theorem Buffer.tame_operandFault {b : Buffer} {i : Inst} {l : List Ref} {f : Fault}
    (h : b.operandFault? i l = some f) :
    Tame f := by
  induction l with
  | nil => cases h
  | cons r l ih =>
    unfold Buffer.operandFault? at h
    split at h
    · cases h
      nofun
    · split at h
      · exact ih h
      · cases h
        nofun

theorem Buffer.tame_appendFault {b : Buffer} {i : Inst} {f : Fault}
    (h : b.appendFault? i = some f) : Tame f := by
  unfold Buffer.appendFault? at h
  split at h
  · cases h
    nofun
  · simp only [Option.orElse_eq_orElse, Option.orElse_eq_or, Option.or_eq_some_iff,
      Option.map_eq_some_iff] at h
    rcases h with h | ⟨-, ⟨r, -, h⟩ | ⟨-, h | ⟨-, h⟩⟩⟩
    · exact tame_operandFault h
    · cases h
      nofun
    · split at h <;> cases h
      nofun
    · split at h <;> cases h
      nofun

theorem Buffer.tame_close {b : Buffer} {f : Fault} (h : b.close = .error f) : Tame f := by
  unfold Buffer.close at h
  split at h
  · cases h
    nofun
  · split at h
    · cases h
    · cases h
      nofun

/-- Nothing is wrong with any instruction of a trace that was found valid. -/
theorem Buffer.instError?_eq_none {buffer : Buffer} (h : buffer.validate = .ok ()) {k : Nat}
    {i : Inst} (hi : buffer.insts[k]? = some i) : Buffer.instError? buffer.size i k = none := by
  unfold Buffer.validate at h
  split at h
  · cases h
  split at h
  · cases h
  · next hnone =>
    have hmem : (i, k) ∈ buffer.insts.toList.zipIdx := by
      rw [List.mem_zipIdx_iff_getElem?, Array.getElem?_toList]
      exact hi
    exact List.findSome?_eq_none_iff.mp hnone (i, k) hmem

/-- A terminal instruction of a well-formed trace is its last one. -/
theorem Buffer.terminal_last {buffer : Buffer} (h : buffer.validate = .ok ()) {k : Nat} {i : Inst}
    (hi : buffer.insts[k]? = some i)
    (hterminal : i.op.isTerminal = true) : k + 1 = buffer.size := by
  have hfine := Buffer.instError?_eq_none h hi
  refine Classical.byContradiction fun hlast => ?_
  unfold Buffer.instError? at hfine
  simp [hterminal, hlast] at hfine

/-- The operations of a valid trace are known. -/
theorem Buffer.known_of_valid {buffer : Buffer} (h : buffer.validate = .ok ()) {k : Nat} {i : Inst}
    (hi : buffer.insts[k]? = some i) (op : UInt8) : i.op ≠ .other op := by
  intro hop
  have hfine := Buffer.instError?_eq_none h hi
  unfold Buffer.instError? at hfine
  simp [hop] at hfine

/-- The operands of an instruction of a valid trace stand before it. -/
theorem Buffer.operand_lt {buffer : Buffer} (h : buffer.validate = .ok ()) {k : Nat} {i : Inst}
    (hi : buffer.insts[k]? = some i) {ref : Ref} (href : ref ∈ i.operands) : 0 ≤ ref ∧ ref < k := by
  have hfine := Buffer.instError?_eq_none h hi
  unfold Buffer.instError? at hfine
  simp only [Option.orElse_eq_orElse, Option.orElse_eq_or, Option.or_eq_none_iff,
    Option.map_eq_none_iff, List.find?_eq_none] at hfine
  have hplace := hfine.2.2.1 ref href
  simpa using hplace

/-! ### Operations on the trace -/

/-- An instruction of a trace that is vouched for: the handle of a string is one of `V`, and the
exit of a guard is of a kind that is counted. -/
structure Inst.Vouched (V : Immediate → Prop) (i : Inst) : Prop where
  handle : i.imm.kind = .ptr → V i.imm
  exit : ∀ e, i.exit = some e → ∀ n, e.kind ≠ .other n

theorem Inst.Vouched.mono {V V' : Immediate → Prop} {i : Inst} (h : i.Vouched V)
    (hV : ∀ v, V v → V' v) : i.Vouched V' :=
  ⟨fun hptr => hV _ (h.handle hptr), h.exit⟩

/-- An operation on the trace: the slot map stays in order, whose trace it is stays the same, and what
comes into the trace is vouched for. -/
structure Same (V : Immediate → Prop) (r r' : Recorder) : Prop where
  valid : r.slots.Valid → r'.slots.Valid
  state : r'.state = r.state
  fragment : r'.fragment = r.fragment
  anchor : r'.anchor = r.anchor
  trace : ∀ i ∈ r'.buffer.insts, i ∈ r.buffer.insts ∨ i.Vouched V

variable {V : Immediate → Prop}

instance : IsPreorder Recorder (Same V) where
  refl _ := ⟨id, rfl, rfl, rfl, fun _ => .inl⟩
  trans _ _ _ h h' := ⟨h'.valid ∘ h.valid, h'.state.trans h.state, h'.fragment.trans h.fragment,
    h'.anchor.trans h.anchor, fun i hi => (h'.trace i hi).elim (h.trace i) .inr⟩

/-- The trace is not touched. -/
theorem Same.of_buffer {r r' : Recorder} (hvalid : r.slots.Valid → r'.slots.Valid)
    (hstate : r'.state = r.state)
    (hfragment : r'.fragment = r.fragment) (hanchor : r'.anchor = r.anchor)
    (hbuffer : r'.buffer = r.buffer) :
    Same V r r' :=
  ⟨hvalid, hstate, hfragment, hanchor, fun _ hi => .inl (hbuffer ▸ hi)⟩

/-- A fault that has nothing to do with code pages. -/
def Faulty : RecordStop → Prop
  | .fault f => Tame f
  | _ => False

/-- The same, or giving up for a reason that is counted. -/
def Calm : RecordStop → Prop
  | .notRecording => False
  | .fault f => Tame f
  | .abort a => ∀ n, a.reason ≠ .other n

/-- An operation on the trace that does not give up. -/
def Firm (V : Immediate → Prop) {α : Type} (x : Recording α) : Prop :=
  LoopTracer.Keeps (Same V) Faulty x

/-- An operation on the trace. -/
def Keeps (V : Immediate → Prop) {α : Type} (x : Recording α) : Prop :=
  LoopTracer.Keeps (Same V) Calm x

section Keeps

variable {α β : Type} {x : Recording α} {f : α → Recording β}

theorem Firm.keeps (hx : Firm V x) : Keeps V x :=
  LoopTracer.Keeps.mono hx (fun _ _ => id) fun e he => by
    cases e with
    | fault f => exact he
    | _ => exact he.elim

theorem Firm.bind (hx : Firm V x) (hf : ∀ a, Firm V (f a)) : Firm V (x >>= f) :=
  LoopTracer.Keeps.bind hx hf

theorem Firm.pure (a : α) : Firm V (Pure.pure a : Recording α) := LoopTracer.Keeps.pure a

theorem Firm.get : Firm V (get : Recording Recorder) := LoopTracer.Keeps.get

theorem Firm.fault {f : Fault} (h : Tame f) : Firm V (throw (.fault f) : Recording α) :=
  LoopTracer.Keeps.throw h

theorem Firm.bounds : Firm V (throw (.fault .bounds) : Recording α) :=
  .fault fun _ _ h => by cases h

theorem Firm.append (i : Inst) (hi : i.Vouched V) : Firm V (Recorder.append i) := by
  intro r
  unfold LoopTracer.KeepsAt Recorder.append
  dsimp only
  cases hfault : Buffer.appendFault? _ _ with
  | none =>
    refine ⟨id, rfl, rfl, rfl, fun j hj => ?_⟩
    rcases Array.mem_push.mp hj with hj | rfl
    · exact .inl hj
    · exact .inr ⟨hi.handle, hi.exit⟩
  | some fault => exact ⟨.of_buffer id rfl rfl rfl rfl, Buffer.tame_appendFault hfault⟩

theorem Firm.liftFault {x : Except Fault α} (h : ∀ f, x = .error f → Tame f) :
    Firm V (Recorder.liftFault x) := by
  cases x with
  | ok a => exact .pure a
  | error f => exact LoopTracer.Keeps.throw (h f rfl)

theorem Firm.valueOf (a : SlotAddr) : Firm V (Recorder.valueOf a) :=
  .bind .get fun _ => .liftFault fun _ => SlotMap.tame_get

theorem Firm.storeSlots (types : TypeMap) (i : Nat) : Firm V (Recorder.storeSlots i types) := by
  induction types generalizing i with
  | nil => exact .pure _
  | cons t rest ih =>
    unfold Recorder.storeSlots
    refine .bind (.valueOf _) fun ref => .bind .get fun r => ?_
    dsimp only
    split
    · exact .bind (.append _ ⟨nofun, nofun⟩) fun _ => ih _
    · exact ih _

theorem Keeps.bind (hx : Keeps V x) (hf : ∀ a, Keeps V (f a)) : Keeps V (x >>= f) :=
  LoopTracer.Keeps.bind hx hf

theorem Keeps.pure (a : α) : Keeps V (Pure.pure a : Recording α) := Firm.keeps (.pure a)

theorem Keeps.bounds : Keeps V (throw (.fault .bounds) : Recording α) := Firm.keeps .bounds

theorem Keeps.get : Keeps V (get : Recording Recorder) := Firm.keeps .get

theorem Keeps.giveUp (reason : AbortReason) (pc : Int) (detail : Text)
    (h : ∀ n, reason ≠ .other n) :
    Keeps V (Recorder.giveUp reason pc detail : Recording α) := LoopTracer.Keeps.throw h

theorem Keeps.modify {g : Recorder → Recorder} (h : ∀ r, Same V r (g r)) :
    Keeps V (modify g : Recording PUnit) := h

theorem Keeps.append (i : Inst) (hi : i.Vouched V) : Keeps V (Recorder.append i) :=
  (Firm.append i hi).keeps

theorem Keeps.valueOf (a : SlotAddr) : Keeps V (Recorder.valueOf a) := (Firm.valueOf a).keeps

theorem Keeps.setSlot (a : SlotAddr) (ref : Ref) (t : Ty) : Keeps V (Recorder.setSlot a ref t) := by
  intro r
  unfold LoopTracer.KeepsAt Recorder.setSlot
  cases hset : SlotMap.settable a ref with
  | some f => exact ⟨.of_buffer id rfl rfl rfl rfl, SlotMap.tame_settable hset⟩
  | none => exact .of_buffer (fun hr =>
    (SlotMap.insert_valid hr a (settable_nonneg hset)).1) rfl rfl rfl rfl

theorem Keeps.typeOf (a : SlotAddr) : Keeps V (Recorder.typeOf a) := by
  unfold Recorder.typeOf
  refine .bind .get fun r => ?_
  dsimp only
  repeat' with_reducible first | exact .bounds | exact .pure _ | refine .bind ?_ fun _ => ?_ | split

theorem Keeps.instOf (ref : Ref) : Keeps V (Recorder.instOf ref) := by
  unfold Recorder.instOf
  refine .bind .get fun r => ?_
  split
  · exact .pure _
  · exact .bounds

theorem Keeps.result (p : Primitive) (dest : Written) (ref : Ref) (t : Ty) :
    Keeps V (Recorder.result p dest ref t) := by
  unfold Recorder.result
  dsimp only
  split
  · exact .bind (.giveUp _ _ _ nofun) fun _ => .setSlot _ _ _
  · exact .setSlot _ _ _

theorem Keeps.immediate (v : Immediate) (t : Ty) (hv : v.kind = .ptr → V v) :
    Keeps V (Recorder.immediate v t) := by
  unfold Recorder.immediate
  refine .bind .get fun r => ?_
  split
  · exact .pure _
  · exact .bind (.append _ ⟨hv, nofun⟩) fun _ =>
      .bind (.modify fun _ => .of_buffer id rfl rfl rfl rfl) fun _ => .pure _

theorem Keeps.int (n : Int64) (t : Ty) : Keeps V (Recorder.immediate (.ofInt n) t) :=
  .immediate _ t nofun

theorem Keeps.float (x : Binary64) (t : Ty) : Keeps V (Recorder.immediate (.ofFloat x) t) :=
  .immediate _ t nofun

theorem Keeps.emit (op : TraceOp) (a b : Ref) (t : Ty) :
    Keeps V (Recorder.emit op a b t) := .append _ ⟨nofun, nofun⟩

theorem Keeps.callHelper (id : UInt8) (t : Ty) (args : List Ref) :
    Keeps V (Recorder.callHelper id t args) := .append _ ⟨nofun, nofun⟩

theorem Keeps.toFloat (ref : Ref) (t : Ty) : Keeps V (Recorder.toFloat ref t) := by
  unfold Recorder.toFloat
  repeat' with_reducible first
    | exact .pure _ | exact .instOf _ | exact .int _ _ | exact .float _ _ | exact .emit _ _ _ _
    | refine .bind ?_ fun _ => ?_ | split

theorem Keeps.snapshotFrom (i n : Nat) : Keeps V (Recorder.snapshotFrom i n) := by
  induction n generalizing i with
  | zero => exact .pure _
  | succ n ih =>
    unfold Recorder.snapshotFrom
    refine .bind (.valueOf _) fun ref => .bind .get fun r => ?_
    split
    · exact .bounds
    · exact .bind (ih _) fun _ => .pure _

theorem Keeps.exitBefore (p : Primitive) (kind : ExitKind) :
    Keeps V (Recorder.exitBefore p kind) := by
  unfold Recorder.exitBefore
  refine .bind .get fun r => ?_
  dsimp only
  repeat' with_reducible first
    | exact .bounds | exact .pure _ | exact .snapshotFrom _ _ | refine .bind ?_ fun _ => ?_ | split

/-- What follows the making of an exit knows its kind. -/
theorem Keeps.exiting {p : Primitive} {kind : ExitKind} {k : SideExit → Recording α}
    (hk : ∀ exit, exit.kind = kind → Keeps V (k exit)) :
    Keeps V (Recorder.exitBefore p kind >>= k) := by
  intro r
  refine .bind (Keeps.exitBefore p kind r) fun exit r' hexit => hk exit ?_ r'
  unfold Recorder.exitBefore at hexit
  obtain ⟨_, _, -, hexit⟩ := bind_eq_ok hexit
  dsimp only at hexit
  split at hexit
  · obtain ⟨_, _, hthrow, -⟩ := bind_eq_ok hexit
    cases hthrow
  · obtain ⟨_, _, -, hreturn⟩ := bind_eq_ok hexit
    cases hreturn
    rfl

theorem Keeps.guard (op : TraceOp) (condition : Ref) {exit : SideExit} {kind : ExitKind}
    (h : exit.kind = kind)
    (hkind : ∀ n, kind ≠ .other n) : Keeps V (Recorder.guard op condition exit) :=
  .bind (.append _ ⟨nofun, fun _ he => Option.some.inj he ▸ h ▸ hkind⟩) fun _ => .pure _

theorem Keeps.onFloats (p : Primitive) (dest : Written) (op : TraceOp) (t : Ty) (a b : Ref × Ty) :
    Keeps V (Recorder.onFloats p dest op t a b) :=
  .bind (.toFloat _ _) fun _ => .bind (.toFloat _ _) fun _ => .bind (.emit _ _ _ _) fun _ =>
    .result _ _ _ _

theorem Keeps.compare (p : Primitive) (op : BinOp) (dest : Written) (a b : Ref × Ty) :
    Keeps V (Recorder.compare p op dest a b) := by
  unfold Recorder.compare
  dsimp only
  repeat' with_reducible first
    | refine .giveUp _ _ _ ?_ | exact .onFloats _ _ _ _ _ _ | exact .result _ _ _ _
    | exact .emit _ _ _ _
    | exact .int _ _ | exact .float _ _ | exact .callHelper _ _ _
    | refine .bind ?_ fun _ => ?_ | split
  all_goals nofun

theorem Keeps.binary (p : Primitive) (op : BinOp) (a b : SlotAddr) (dest : Written) :
    Keeps V (Recorder.binary p op a b dest) := by
  unfold Recorder.binary
  refine .bind (.typeOf _) fun ta => .bind (.typeOf _) fun tb => .bind (.valueOf _) fun ra =>
    .bind (.valueOf _) fun rb => ?_
  dsimp only
  split
  all_goals repeat' with_reducible first
    | refine .giveUp _ _ _ ?_ | exact .result _ _ _ _ | exact .onFloats _ _ _ _ _ _
    | exact .compare _ _ _ _ _
    | exact .emit _ _ _ _ | exact .int _ _ | exact .float _ _ | exact .callHelper _ _ _
    | refine .guard _ _ ‹_› ?_
    | exact .toFloat _ _ | refine .exiting fun _ _ => ?_ | refine .bind ?_ fun _ => ?_ | split
  all_goals nofun

theorem Keeps.unary (p : Primitive) (op : UnOp) (a : SlotAddr) (dest : Written) :
    Keeps V (Recorder.unary p op a dest) := by
  unfold Recorder.unary
  refine .bind (.typeOf _) fun t => .bind (.valueOf _) fun ref => ?_
  split
  all_goals repeat' with_reducible first
    | refine .giveUp _ _ _ ?_ | exact .result _ _ _ _ | exact .emit _ _ _ _ | exact .int _ _
    | exact .float _ _
    | refine .guard _ _ ‹_› ?_ | refine .exiting fun _ _ => ?_ | refine .bind ?_ fun _ => ?_ | split
  all_goals nofun

theorem Keeps.branch (p : Primitive) (condition : SlotAddr) (taken : Bool) :
    Keeps V (Recorder.branch p condition taken) := by
  unfold Recorder.branch
  refine .bind (.typeOf _) fun t => .bind (.valueOf _) fun ref => .bind (.instOf _) fun i => ?_
  dsimp only
  repeat' with_reducible first
    | refine .giveUp _ _ _ ?_ | exact .pure _ | exact .emit _ _ _ _ | exact .int _ _
    | exact .float _ _
    | refine .guard _ _ ‹_› ?_ | refine .exiting fun _ _ => ?_ | refine .bind ?_ fun _ => ?_ | split
  all_goals nofun

theorem Keeps.callArgs (p : Primitive) (d : Helper) (i : Nat) (slots : List SlotAddr)
    (classes : List Machine.SizeClass) : Keeps V (Recorder.callArgs p d i slots classes) := by
  induction slots generalizing i classes with
  | nil => exact .pure _
  | cons a slots ih =>
    cases classes with
    | nil => exact .pure _
    | cons c classes =>
      unfold Recorder.callArgs
      refine .bind (.typeOf _) fun t => .bind (.valueOf _) fun ref => ?_
      dsimp only
      repeat' with_reducible first
        | refine .giveUp _ _ _ ?_ | exact ih _ _ | exact .pure _ | exact .toFloat _ _
        | refine .bind ?_ fun _ => ?_ | split
      all_goals nofun

theorem Keeps.call (helpers : HelperTable) (p : Primitive) (id : UInt8) (args : List SlotAddr)
    (dest : Written) : Keeps V (Recorder.call helpers p id args dest) := by
  unfold Recorder.call
  refine .bind (Firm.liftFault fun _ => HelperTable.tame_get).keeps fun d => ?_
  dsimp only
  repeat' with_reducible first
    | refine .giveUp _ _ _ ?_ | exact .callArgs _ _ _ _ _ | exact .result _ _ _ _
    | exact .callHelper _ _ _
    | refine .bind ?_ fun _ => ?_ | split
  all_goals nofun

theorem Keeps.primitive (helpers : HelperTable) (p : Primitive)
    (hp : ∀ v dest, p.action = .const v dest → v.kind = .ptr → V v) :
    Keeps V (Recorder.primitive helpers p) := by
  unfold Recorder.primitive
  split
  · next hconst => exact .bind (.immediate _ _ (hp _ _ hconst)) fun _ => .result _ _ _ _
  · exact .bind (.valueOf _) fun _ => .bind (.typeOf _) fun _ => .result _ _ _ _
  · exact .binary _ _ _ _ _
  · exact .unary _ _ _ _
  · exact .branch _ _ _
  · exact .call _ _ _ _ _
  · exact .giveUp _ _ _ nofun
  · exact .bounds
  · exact .giveUp _ _ _ nofun
  · exact .giveUp _ _ _ nofun

theorem reset_valid {r : Recorder} (h : r.slots.Valid) : r.reset.slots.Valid :=
  (SlotMap.clear_valid h).1

/-- How an operation stops in a recording that stood at `r`: giving up leaves an idle recorder. -/
def Stopped (r : Recorder) : RecordStop → Recorder → Prop
  | .abort a, r' =>
    (∀ n, a.reason ≠ .other n) ∧ r.state = .recording ∧
      ∃ r₁ : Recorder, (r.slots.Valid → r₁.slots.Valid) ∧ r' = r₁.reset
  | .notRecording, r' => r' = r ∧ r.isRecording = false
  | .fault f, _ => Tame f

theorem Firm.ensures {r r₁ : Recorder} (hx : Firm V x) (hr : Same V r r₁) :
    Ensures (Stopped r) x r₁ fun _ r' => Same V r r' := by
  unfold Ensures
  have hkept := hx r₁
  unfold LoopTracer.KeepsAt at hkept
  split
  · next h =>
    rw [h] at hkept
    exact trans_of (Same V) hr hkept
  · next e r' h =>
    rw [h] at hkept
    cases e with
    | fault f => exact hkept.2
    | _ => exact hkept.2.elim

theorem Keeps.orReset {x : Recording Unit} {r r₁ : Recorder}
    (hstate : r.state = .recording) (hx : Keeps V x)
    (hr : Same V r r₁) :
    Ensures (Stopped r) (Recorder.orReset x) r₁ fun _ r' => Same V r r' := by
  unfold Ensures Recorder.orReset
  have hkept := hx r₁
  unfold LoopTracer.KeepsAt at hkept
  cases h : x r₁ with
  | ok a r' =>
    rw [h] at hkept
    exact trans_of (Same V) hr hkept
  | error e r' =>
    rw [h] at hkept
    cases e with
    | abort a => exact ⟨hkept.2, hstate, r', hkept.1.valid ∘ hr.valid, rfl⟩
    | notRecording => exact hkept.2.elim
    | fault f => exact hkept.2

/-- Recording a primitive. -/
theorem record_ensures (helpers : HelperTable) (maxLength : Int) {p : Primitive} (r : Recorder)
    (hp : ∀ v dest, p.action = .const v dest → v.kind = .ptr → V v) :
    Ensures (Stopped r) (Recorder.record helpers maxLength p) r fun _ r' =>
    Same V r r' ∧ r.state = .recording := by
  unfold Recorder.record
  refine .get ?_
  dsimp only
  split
  · next hidle =>
      exact .bind (.throw (Q := fun _ _ => False) ⟨rfl, by simpa using hidle⟩) fun _ _ => False.elim
  · next hrecording =>
    have hstate : r.state = .recording := by simpa [Recorder.isRecording] using hrecording
    refine .modify_bind
      (.mono (Keeps.orReset hstate ?_ (.of_buffer id rfl rfl rfl rfl)) fun _ _ h => ⟨h, hstate⟩)
    repeat' with_reducible first
      | refine .giveUp _ _ _ ?_ | exact .pure _ | exact .get | exact .primitive _ _ hp
      | refine .bind ?_ fun _ => ?_ | split
    all_goals nofun

theorem Firm.importSlots (types : TypeMap) (i : Nat) : Firm V (Recorder.importSlots i types) := by
  induction types generalizing i with
  | nil => exact .pure _
  | cons t rest ih =>
    unfold Recorder.importSlots
    refine .bind (.append _ ⟨nofun, nofun⟩) fun ref => ?_
    split
    · next hset => exact .bind (.fault (SlotMap.tame_settable hset)) fun _ => ih _
    · next hset =>
      refine .bind (LoopTracer.Keeps.modify fun r => ?_) fun _ => ih _
      exact .of_buffer
        (fun hr => (SlotMap.insert_valid hr _ (settable_nonneg hset)).1) rfl rfl rfl rfl

theorem giveUp_ne_ok {α : Type} {reason : AbortReason} {pc : Int} {detail : Text} {r r' : Recorder}
    {a : α} : Recorder.giveUp reason pc detail r ≠ .ok a r' := nofun

/-- What the recorder does at the end, once the types are found to be right. -/
theorem finish_ok {f : Fragment} {stop : TypeMap} {target : Option Fragment} {r r' : Recorder}
    {b : Buffer} (h : Recorder.finish f stop target r = .ok b r') :
    r.state = .recording ∧ stop.length ≤ r.tracked ∧ r.mismatch? stop = none ∧
      (f.kind = .branch → target.isSome = true) ∧ (f.kind ≠ .branch → stop = f.types) ∧
      ∃ r₁ r₂ n, Recorder.storeSlots 0 stop { r with pc := f.key.pc } = .ok () r₁ ∧
        Recorder.append { op := if f.kind == .branch then .jumpTree else .loop } r₁ = .ok n r₂ ∧
        r₂.buffer.close = .ok b ∧ r' = { r₂ with buffer := b, state := .committing } := by
  unfold Recorder.finish at h
  obtain ⟨_, _, hget, h⟩ := bind_eq_ok h
  cases hget
  dsimp only at h
  split at h
  · obtain ⟨_, _, hthrow, _⟩ := bind_eq_ok h
    cases hthrow
  · next hrecording =>
    have hstate : r.state = .recording := by simpa [Recorder.isRecording] using hrecording
    obtain ⟨_, r₀, hcheck, h⟩ := bind_eq_ok h
    obtain ⟨_, _, hpc, h⟩ := bind_eq_ok h
    obtain ⟨_, r₁, hstore, h⟩ := bind_eq_ok h
    obtain ⟨n, r₂, happend, h⟩ := bind_eq_ok h
    obtain ⟨_, _, hget, h⟩ := bind_eq_ok h
    obtain ⟨_, _, hclose, h⟩ := bind_eq_ok h
    obtain ⟨_, _, hmodify, h⟩ := bind_eq_ok h
    cases hget
    cases hpc
    cases hmodify
    have hchecked : stop.length ≤ r.tracked ∧ r.mismatch? stop = none ∧
        (f.kind = .branch → target.isSome = true) ∧
            (f.kind ≠ .branch → stop = f.types) ∧ r₀ = r := by
      unfold Recorder.orReset at hcheck
      split at hcheck
      · cases hcheck
      · obtain ⟨_, _, hget, hcheck⟩ := bind_eq_ok hcheck
        cases hget
        split at hcheck
        · obtain ⟨_, _, hthrow, _⟩ := bind_eq_ok hcheck
          exact absurd hthrow giveUp_ne_ok
        · next htracked =>
          cases hmismatch : r.mismatch? stop with
          | some m =>
            rw [hmismatch] at hcheck
            obtain ⟨_, _, hthrow, _⟩ := bind_eq_ok hcheck
            exact absurd hthrow giveUp_ne_ok
          | none =>
            rw [hmismatch] at hcheck
            dsimp only at hcheck
            refine ⟨Nat.not_lt.mp htracked, rfl, ?_⟩
            split at hcheck
            · next hkind =>
              split at hcheck
              · exact absurd hcheck giveUp_ne_ok
              · split at hcheck
                · exact absurd hcheck giveUp_ne_ok
                · cases hcheck
                  exact ⟨fun _ => rfl, fun hloop => absurd (beq_iff_eq.mp hkind) hloop, rfl⟩
            · next hkind =>
              split at hcheck
              · exact absurd hcheck giveUp_ne_ok
              · next hsame =>
                cases hcheck
                exact ⟨fun hbranch => absurd (beq_iff_eq.mpr hbranch) hkind,
                  fun _ => Decidable.not_not.mp hsame, rfl⟩
    obtain ⟨htracked, hmismatch, htarget, htypes, rfl⟩ := hchecked
    refine ⟨hstate, htracked, hmismatch, htarget, htypes, r₁, r₂, n, hstore, happend, ?_⟩
    cases hb : r₂.buffer.close with
    | error e =>
      rw [hb] at hclose
      cases hclose
    | ok b' =>
      rw [hb] at hclose
      cases hclose
      cases h
      exact ⟨rfl, rfl⟩

/-- What a recording that ends well leaves: the trace of a branch goes on in another fragment, and
only instructions without a handle of a string were added to it. -/
structure Finished (f : Fragment) (target : Option Fragment) (b : Buffer)
    (r r' : Recorder) : Prop where
  recording : r.state = .recording
  state : r'.state = .committing
  fragment : r'.fragment = r.fragment
  anchor : r'.anchor = r.anchor
  valid : r.slots.Valid → r'.slots.Valid
  branch : f.kind = .branch → target.isSome = true ∧ b.insts.back?.any (·.op == .jumpTree) = true
  buffer : r'.buffer = b
  trace : ∀ i ∈ b.insts, i ∈ r.buffer.insts ∨ i.Vouched fun _ => False

theorem finish_finished {f : Fragment} {stop : TypeMap} {target : Option Fragment}
    {r r' : Recorder} {b : Buffer}
    (h : Recorder.finish f stop target r = .ok b r') : Finished f target b r r' := by
  obtain ⟨hstate, -, -, htarget, -, r₁, r₂, n, hstore, happend, hclose, rfl⟩ := finish_ok h
  have hsame : Same (fun _ => False) { r with pc := f.key.pc } r₂ :=
    trans_of (Same _) ((Firm.storeSlots stop 0).ok hstore)
      ((Firm.append { op := if f.kind == .branch then .jumpTree else .loop } ⟨nofun, nofun⟩).ok
        happend)
  have hinsts : b.insts = r₂.buffer.insts := by
    unfold Buffer.close at hclose
    split at hclose
    · cases hclose
    · split at hclose <;> cases hclose
      rfl
  refine ⟨hstate, rfl, hsame.fragment, hsame.anchor, hsame.valid,
    fun hkind => ⟨htarget hkind, ?_⟩, rfl,
    fun i hi => hsame.trace i (hinsts ▸ hi)⟩
  unfold Recorder.append at happend
  dsimp only at happend
  split at happend
  · cases happend
  · cases happend
    rw [hinsts]
    simp [hkind]

theorem finish_ensures (f : Fragment) (stop : TypeMap) (target : Option Fragment) (r : Recorder) :
    Ensures (Stopped r) (Recorder.finish f stop target) r fun b r' => Finished f target b r r' := by
  -- what is left is to see how it stops
  have hstops : Ensures (Stopped r) (Recorder.finish f stop target) r fun _ _ => True := by
    unfold Recorder.finish
    refine .get ?_
    dsimp only
    split
    · next hidle =>
        exact .bind (.throw (Q := fun _ _ => False) ⟨rfl, by simpa using hidle⟩) fun _ _ =>
          False.elim
    · next hrecording =>
      have hstate : r.state = .recording := by simpa [Recorder.isRecording] using hrecording
      refine .bind (Keeps.orReset (V := fun _ => False) hstate ?_ (refl_of _ r)) fun _ r₁ h₁ =>
        .modify_bind ?_
      · repeat' with_reducible first
          | refine .giveUp _ _ _ ?_ | exact .pure _ | exact .get
          | refine .bind ?_ fun _ => ?_ | split
        all_goals nofun
      · have h₁ : Same (fun _ => False) r { r₁ with pc := f.key.pc } :=
          ⟨h₁.valid, h₁.state, h₁.fragment, h₁.anchor, h₁.trace⟩
        refine .bind ((Firm.storeSlots stop 0).ensures h₁) fun _ r₂ h₂ => ?_
        refine .bind
          ((Firm.append { op := if f.kind == .branch then .jumpTree else .loop } ⟨nofun,
            nofun⟩).ensures h₂) fun _ r₃ h₃ => .get ?_
        refine .bind ((Firm.liftFault fun _ => Buffer.tame_close).ensures h₃) fun _ r₄ _ =>
          .modify_bind (.pure trivial)
  unfold Ensures at hstops ⊢
  split
  · next h => exact finish_finished h
  · next h =>
    rw [h] at hstops
    exact hstops

end Keeps

/-- The recorders that there can be: a new one, and what the operations make of one. An operation
that was given up leaves a recorder too. -/
inductive Recorder.Used : Recorder → Prop where
  | new : Used {}
  | started {r r' : Recorder} (h : Used r) {f : Fragment} {rootTypes entry : TypeMap}
      {anchor : Option (Guard × ExitRecord)}
      (hs : r.start f rootTypes entry anchor = .ok r') : Used r'
  | recorded {r r' : Recorder} (h : Used r) {helpers : HelperTable}
      {maxLength : Int} {p : Primitive}
      (hr : Recorder.record helpers maxLength p r = .ok () r' ∨
        ∃ a, Recorder.record helpers maxLength p r = .error (.abort a) r') : Used r'
  | finished {r r' : Recorder} (h : Used r) {f : Fragment} {stop : TypeMap}
      {target : Option Fragment}
      (hf : (∃ b, Recorder.finish f stop target r = .ok b r') ∨
        ∃ a, Recorder.finish f stop target r = .error (.abort a) r') : Used r'
  | reset {r : Recorder} (h : Used r) : Used r.reset

/-- The recorder that a recording starts with, before the slots are read. -/
def Recorder.opened (r : Recorder) (f : Fragment) (rootTypes entry : TypeMap)
    (anchor : Option (Guard × ExitRecord)) : Recorder :=
  { slots := r.slots.clear
    fragment := some f.id
    anchor := anchor.map fun (g, _) => g.id
    types := entry.zipIdx.foldl (fun types (t, i) => types.insert i t) {}
    tracked := entry.length
    params := entry.length
    locals := if f.kind == .branch then rootTypes.length else entry.length
    pc := f.key.pc }

theorem start_ok {r r' : Recorder} {f : Fragment} {rootTypes entry : TypeMap}
    {anchor : Option (Guard × ExitRecord)} (h : r.start f rootTypes entry anchor = .ok r') :
    (f.kind == .branch) = anchor.isSome ∧
      ∃ r₁, Recorder.importSlots 0 entry (r.opened f rootTypes entry anchor) = .ok () r₁ ∧
        r' = { r₁ with state := .recording } := by
  unfold Recorder.start at h
  split at h
  · cases h
  · split at h
    · cases h
    · next hkind =>
      dsimp only at h
      split at h
      · next r₁ hr₁ => exact ⟨Classical.not_not.mp hkind, r₁, hr₁, (Except.ok.inj h).symm⟩
      · cases h
      · cases h

/-- A recording that has begun. -/
structure Started (f : Fragment) (anchor : Option GuardId) (r r' : Recorder) : Prop where
  idle : r.state = .idle
  state : r'.state = .recording
  fragment : r'.fragment = some f.id
  anchor : r'.anchor = anchor
  trace : ∀ i ∈ r'.buffer.insts, i.Vouched fun _ => False

theorem start_started {r r' : Recorder} {f : Fragment} {rootTypes entry : TypeMap}
    {anchor : Option (Guard × ExitRecord)} (h : r.start f rootTypes entry anchor = .ok r') :
    Started f (anchor.map (·.1.id)) r r' := by
  have hidle : r.state = .idle := by
    unfold Recorder.start at h
    split at h
    · cases h
    · next hidle => exact Classical.not_not.mp hidle
  obtain ⟨-, r₁, hr₁, rfl⟩ := start_ok h
  have hsame : Same (fun _ => False) (r.opened f rootTypes entry anchor) r₁ :=
    (Firm.importSlots entry 0).ok hr₁
  exact ⟨hidle, rfl, hsame.fragment, hsame.anchor, fun i hi =>
    (hsame.trace i hi).resolve_left (Array.not_mem_empty i)⟩

/-- A recording is refused for a reason, or a fault that has nothing to do with code pages. -/
theorem tame_start {r : Recorder} {f : Fragment} {rootTypes entry : TypeMap}
    {anchor : Option (Guard × ExitRecord)}
    {fault : Fault}
    (h : r.start f rootTypes entry anchor = .error (.fault fault)) : Tame fault := by
  unfold Recorder.start at h
  split at h
  · cases h
  · split at h
    · cases h
    · dsimp only at h
      split at h
      · cases h
      · next hr₁ =>
        cases h
        exact ((Firm.importSlots (V := fun _ => False) entry 0).error hr₁).2
      · cases h
        rintro _ _ ⟨⟩

theorem commit_committing {r : Recorder}
    (h : r.state = .committing) : r.commit = .ok r.reset := if_pos h

theorem Stopped.valid {r r' : Recorder} {a : Abort} (h : Stopped r (.abort a) r')
    (hr : r.slots.Valid) :
    r'.slots.Valid := by
  obtain ⟨-, -, r₁, hvalid, rfl⟩ := h
  exact reset_valid (hvalid hr)

/-- The slot map of a recorder is in order. -/
theorem Recorder.Used.valid {r : Recorder} (h : r.Used) : r.slots.Valid := by
  induction h with
  | new => exact SlotMap.valid_default
  | @started r r' _ f rootTypes entry anchor hs ih =>
    obtain ⟨-, r₁, hr₁, rfl⟩ := start_ok hs
    exact ((Firm.importSlots (V := fun _ => False) entry 0).ok hr₁).valid (reset_valid ih)
  | @recorded r r' _ helpers maxLength p hr ih =>
    have hends := record_ensures (V := fun _ => True) (p := p) helpers maxLength r fun _ _ _ _ =>
      trivial
    rcases hr with hr | ⟨a, hr⟩
    · exact ((ensures_ok hr).mp hends).1.valid ih
    · exact Stopped.valid ((ensures_error hr).mp hends) ih
  | @finished r r' _ f stop target hf ih =>
    have hends := finish_ensures f stop target r
    rcases hf with ⟨b, hf⟩ | ⟨a, hf⟩
    · exact ((ensures_ok hf).mp hends).valid ih
    · exact Stopped.valid ((ensures_error hf).mp hends) ih
  | reset _ ih => exact reset_valid ih

end LoopTracer.Trace
