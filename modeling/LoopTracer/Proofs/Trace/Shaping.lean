import LoopTracer.Proofs.Trace.Recorders
import LoopTracer.Proofs.Trace.Shape

/-! Recording keeps the shape of a trace.

Between two primitives the trace has its shape, every constant is in the table, and every slot holds
a value of the trace (`Recorder.Ready`). An operation that is not refused may leave an instruction
behind that waits for its overflow guard (`Recorder.Tidy`), but a whole primitive does not
(`primitive_ready`). -/
namespace LoopTracer.Trace

/-- A recorder in the middle of a primitive. -/
structure Recorder.Tidy (entry : TypeMap) (locals : Nat) (r : Recorder) : Prop where
  wf : r.Wf
  shaped : r.buffer.Shaped entry locals
  read : entry.length ≤ r.buffer.size
  body : ∀ (n : Nat) i, r.buffer.insts[n]? = some i → i.op ≠ .store ∧ i.op.isTerminal = false
  table : ∀ (n : Nat) i, r.buffer.insts[n]? = some i → i.op = .imm →
    r.immediates[(i.imm, i.type)]? = some (n : Int)
  held : ∀ k ref, r.slots.value? k = some ref → Makes r.buffer ref
  params : r.params = entry.length
  locals : r.locals = locals

/-- A recorder between two primitives. -/
structure Recorder.Ready (entry : TypeMap) (locals : Nat) (r : Recorder) :
    Prop extends r.Tidy entry locals where
  settled : r.buffer.Settled

/-- An exit that lists what all live slots hold. -/
structure SideExit.Complete (locals : Nat) (b : Buffer) (x : SideExit) : Prop where
  width : 0 ≤ locals + x.depth
  slots : x.snapshot.map (·.addr.slot) = (List.range (locals + x.depth).toNat).map Int.ofNat
  makes : ∀ s ∈ x.snapshot, Makes b s.ref

/-- The operations of a primitive: what is neither read at the start, written at the end nor
shared. -/
def TraceOp.Inner (op : TraceOp) : Prop := op.computes = true ∨ op = .call ∨ op.isGuard = true

section Appending

variable {entry : TypeMap} {locals : Nat} {r r' : Recorder} {i : Inst} {a b ref : Int} {t : Ty}

theorem TraceOp.Inner.plain {op : TraceOp} (h : op.Inner) :
    op ≠ .param ∧ op ≠ .imm ∧ op ≠ .store ∧ op.isTerminal = false ∧ ∀ m, op ≠ .other m := by
  rcases h with h | rfl | h
  · cases op <;> first | (cases h; done) | exact ⟨nofun, nofun, nofun, rfl, nofun⟩
  · exact ⟨nofun, nofun, nofun, rfl, nofun⟩
  · cases op <;> first | (cases h; done) | exact ⟨nofun, nofun, nofun, rfl, nofun⟩

theorem SideExit.Complete.grown {x : SideExit} (h : x.Complete locals r.buffer) (hg : Grown r r') :
    x.Complete locals r'.buffer := ⟨h.width, h.slots, fun s hs => hg.makes (h.makes s hs)⟩

/-- The offset is not part of the shape. -/
theorem Recorder.Tidy.at_pc (h : r.Tidy entry locals) (pc : Int) :
    Recorder.Tidy entry locals { r with pc } :=
  ⟨⟨h.wf.slots, h.wf.unsealed, h.wf.shared⟩, h.shaped, h.read, h.body, h.table, h.held,
    h.params, h.locals⟩

/-- What an instruction has when it is appended. -/
structure Appended (r : Recorder) (i : Inst) (ref : Ref) (r' : Recorder) : Prop where
  place : ref = r.buffer.size
  state : r' = r.plus i
  operands : ∀ q ∈ i.operands, Makes r.buffer q
  snapshot : ∀ q ∈ i.snapshotRefs, 0 ≤ q ∧ q < r.buffer.size
  follows : i.op = .exitOv → i.a + 1 = r.buffer.size ∧ ∃ j, r.buffer.get? i.a = some j ∧
    j.op.setsOverflow = true

theorem operandFault?_makes {b : Buffer} {i : Inst} {l : List Ref}
    (h : b.operandFault? i l = none) :
    ∀ q ∈ l, Makes b q := by
  induction l with
  | nil => nofun
  | cons q rest ih =>
    unfold Buffer.operandFault? at h
    cases hget : b.get? q with
    | none =>
      rw [hget] at h
      cases h
    | some j =>
      rw [hget] at h
      dsimp only at h
      split at h
      · next hresult =>
        intro q' hq'
        rcases List.mem_cons.mp hq' with rfl | hq'
        · exact ⟨j, hget, hresult⟩
        · exact ih h q' hq'
      · cases h

theorem append_appended (i : Inst) (r : Recorder) :
    Ensures Anyhow (Recorder.append i) r (Appended r i) := by
  unfold Ensures Recorder.append
  dsimp only
  cases hfault : r.buffer.appendFault? { i with pc := r.pc } with
  | some f => trivial
  | none =>
    unfold Buffer.appendFault? at hfault
    split at hfault
    · cases hfault
    · simp only [Option.orElse_eq_orElse, Option.orElse_eq_or, Option.or_eq_none_iff] at hfault
      obtain ⟨hoperands, hsnapshot, hov, -⟩ := hfault
      have hplaced : ∀ q ∈ i.snapshotRefs, 0 ≤ q ∧ q < r.buffer.size := by
        intro q hq
        have hthere := List.find?_eq_none.mp (Option.map_eq_none_iff.mp hsnapshot) q hq
        cases hget : r.buffer.get? q with
        | none => simp [hget] at hthere
        | some j => exact Buffer.get?_bounds hget
      refine ⟨rfl, rfl, operandFault?_makes hoperands, hplaced, fun hop => ?_⟩
      split at hov
      · cases hov
      · next hfollows =>
        have hfollows : Buffer.appendFault?.follows r.buffer { i with pc := r.pc } = true := by
          simpa [hop] using hfollows
        obtain ⟨hlast, hsets⟩ := Bool.and_eq_true_iff.mp hfollows
        refine ⟨beq_iff_eq.mp hlast, ?_⟩
        cases hget : r.buffer.get? i.a with
        | none =>
          rw [hget] at hsets
          cases hsets
        | some j =>
          rw [hget] at hsets
          exact ⟨j, rfl, hsets⟩

/-- An operation of a primitive follows, if it is the guard of a pending one or none is pending. -/
theorem Recorder.Tidy.plus (h : r.Tidy entry locals) (hop : i.op.Inner)
    (hfits : i.Fits locals r.buffer r.buffer.size)
    (hpending : r.buffer.Settled ∨ i.op = .exitOv) : (r.plus i).Tidy entry locals := by
  obtain ⟨hparam, himm, hstore, hterminal, -⟩ := hop.plain
  have hg := plus_grown h.wf i
  -- every instruction of the longer trace is an old one or the new one
  have hcases : ∀ {n : Nat} {j}, (r.plus i).buffer.insts[n]? = some j →
      j.op = i.op ∨ r.buffer.insts[n]? = some j := by
    intro n j hj
    rw [show (r.plus i).buffer = r.buffer.push { i with pc := r.pc } from rfl,
      Buffer.push_get] at hj
    split at hj
    · exact .inl (Option.some.inj hj ▸ rfl)
    · exact .inr hj
  refine ⟨hg.wf, ?_, Nat.le_trans h.read hg.size, fun n j hj => ?_, fun n j hj hop => ?_,
    fun k q hq => hg.makes (h.held k q hq), h.params, h.locals⟩
  · refine h.shaped.push ⟨hfits.known, hfits.uses, hfits.few, hfits.exit,
      hfits.snapshot, hfits.follows⟩
      ⟨⟨fun heq => absurd heq hparam, fun hlt => absurd hlt (Nat.not_lt.mpr h.read)⟩,
        fun heq => absurd heq hparam⟩
      hpending fun heq => absurd heq himm
  · rcases hcases hj with hj | hj
    · rw [hj]
      exact ⟨hstore, hterminal⟩
    · exact h.body n j hj
  · rcases hcases hj with hj | hj
    · exact absurd (hj.symm.trans hop) himm
    · exact h.table n j hj hop

/-- An operation whose result is a value of the trace. -/
structure Added (entry : TypeMap) (locals : Nat) (r : Recorder) (ref : Ref)
    (r' : Recorder) : Prop where
  tidy : r'.Tidy entry locals
  grown : Grown r r'
  makes : Makes r'.buffer ref

theorem emit_added (h : r.Ready entry locals) {op : TraceOp} (hop : op.computes = true) :
    Ensures Anyhow (Recorder.emit op a b t) r fun ref r' => Added entry locals r ref r' ∧
      (op.setsOverflow = false → r'.buffer.Settled) := by
  have hinner : op.Inner := .inl hop
  obtain ⟨hresult, hguard, -⟩ := TraceOp.hasResult_of_computes hop
  refine (append_appended _ r).mono fun ref r' hadded => ?_
  obtain ⟨rfl, rfl, hoperands, -⟩ := hadded
  refine ⟨⟨h.toTidy.plus hinner ⟨hinner.plain.2.2.2.2, fun q hq => ?_, ?_,
    hguard, nofun, ?_⟩ (.inl h.settled),
    plus_grown h.wf _, plus_makes hresult⟩, fun hsets => Buffer.settled_push _ hsets⟩
  · have hq := hoperands q (by simpa [Inst.snapshotRefs] using hq)
    exact ⟨hq.bounds.2, hq⟩
  · rintro rfl
    cases hop
  · rintro rfl
    cases hop

theorem emit_ready (h : r.Ready entry locals) {op : TraceOp} (hop : op.computes = true)
    (hsets : op.setsOverflow = false) :
    Ensures Anyhow (Recorder.emit op a b t) r fun ref r' =>
    r'.Ready entry locals ∧ Grown r r' ∧ Makes r'.buffer ref :=
  (emit_added h hop).mono fun _ _ ⟨hadded, hsettled⟩ =>
    ⟨⟨hadded.tidy, hsettled hsets⟩, hadded.grown, hadded.makes⟩

theorem callHelper_ready (h : r.Ready entry locals) {id : UInt8} {args : List Ref}
    (hargs : args.length ≤ maxCallArgs) :
    Ensures Anyhow (Recorder.callHelper id t args) r fun ref r' =>
      r'.Ready entry locals ∧ Grown r r' ∧ Makes r'.buffer ref := by
  have hinner : TraceOp.Inner .call := .inr (.inl rfl)
  refine (append_appended _ r).mono fun ref r' hadded => ?_
  obtain ⟨rfl, rfl, hoperands, -⟩ := hadded
  refine ⟨⟨h.toTidy.plus hinner ⟨nofun, fun q hq => ?_, fun _ => hargs,
    rfl, nofun, nofun⟩ (.inl h.settled),
    Buffer.settled_push _ rfl⟩, plus_grown h.wf _, plus_makes rfl⟩
  have hq := hoperands q (by simpa [Inst.snapshotRefs] using hq)
  exact ⟨hq.bounds.2, hq⟩

/-- A guard of a complete exit; one that tests for overflow may follow what waits for it. -/
theorem guard_ready (h : r.Tidy entry locals) {op : TraceOp} (hop : op.isGuard = true)
    (hpending : r.buffer.Settled ∨ op = .exitOv) {x : SideExit} (hx : x.Complete locals r.buffer) :
    Ensures Anyhow (Recorder.guard op ref x) r fun _ r' => r'.Ready entry locals ∧ Grown r r' := by
  have hinner : op.Inner := .inr (.inr hop)
  refine (append_appended _ r).bind fun n r' hadded => .pure ?_
  obtain ⟨rfl, rfl, hoperands, -, hfollows⟩ := hadded
  refine ⟨⟨h.plus hinner ⟨hinner.plain.2.2.2.2, fun q hq => ?_, ?_, hop,
    fun y hy => ?_, fun hov => ?_⟩ hpending,
    Buffer.settled_push _ ?_⟩, plus_grown h.wf _⟩
  · have hq : Makes r.buffer q := by
      rcases List.mem_append.mp hq with hq | hq
      · exact hoperands q hq
      · obtain ⟨s, hs, rfl⟩ := List.mem_map.mp hq
        exact hx.makes s hs
    exact ⟨hq.bounds.2, hq⟩
  · rintro rfl
    cases hop
  · cases hy
    exact ⟨hx.width, hx.slots⟩
  · obtain ⟨hlast, j, hget, hsets⟩ := hfollows hov
    have hresult : j.op.hasResult = true := by
      cases hj : j.op <;> rw [hj] at hsets <;> first | rfl | cases hsets
    obtain ⟨m, k, rfl, hk, -⟩ := makes_iff.mp ⟨j, hget, hresult⟩
    have hlast : (m : Int) + 1 = r.buffer.size := hlast
    rw [Buffer.get?_eq] at hget
    exact ⟨m, j, by omega, rfl, hget, hsets⟩
  · cases op <;> first | rfl | cases hop

/-! ### Values -/

theorem immediate_ready (h : r.Ready entry locals) (v : Immediate) (t : Ty) :
    Ensures Anyhow (Recorder.immediate v t) r fun ref r' =>
      r'.Ready entry locals ∧ Grown r r' ∧ Makes r'.buffer ref := by
  obtain ⟨ref, r', hok, hg, hm, -⟩ := immediate_gives h.wf v t
  refine (ensures_ok hok).mpr ⟨?_, hg, hm⟩
  unfold Recorder.immediate at hok
  obtain ⟨_, _, hget, hok⟩ := bind_eq_ok hok
  cases hget
  cases hfound : r.immediates[(v, t)]? with
  | some n =>
    rw [hfound] at hok
    cases hok
    exact h
  | none =>
    rw [hfound] at hok
    obtain ⟨n, r₁, happend, hok⟩ := bind_eq_ok hok
    obtain ⟨rfl, rfl, -, -⟩ := (ensures_ok happend).mp (append_appended _ r)
    cases hok
    have hnew : ∀ (n : Nat) j, r.buffer.insts[n]? = some j → j.op = .imm →
        ¬(j.imm = v ∧ j.type = t) := by
      rintro n j hj hop ⟨rfl, rfl⟩
      rw [h.table n j hj hop] at hfound
      cases hfound
    let i : Inst := { op := .imm, type := t, imm := v, pc := r.pc }
    have hshaped : (r.buffer.push i).Shaped entry locals :=
      h.shaped.push ⟨nofun, nofun, nofun, rfl, nofun, nofun⟩
        ⟨⟨nofun, fun hlt => absurd hlt (Nat.not_lt.mpr h.read)⟩, nofun⟩ (.inl h.settled)
        fun _ n j hj hop himm htype => hnew n j hj hop ⟨himm, htype⟩
    -- the new constant is the only one that the table did not have
    have hcases : ∀ {n : Nat} {j}, (r.buffer.push i).insts[n]? = some j →
        (n = r.buffer.size ∧ j = i) ∨ r.buffer.insts[n]? = some j := by
      intro n j hj
      rw [Buffer.push_get] at hj
      split at hj
      · next heq => exact .inl ⟨heq, (Option.some.inj hj).symm⟩
      · exact .inr hj
    refine ⟨⟨hg.wf, hshaped, Nat.le_trans h.read hg.size, fun n j hj => ?_, fun n j hj hop => ?_,
      fun k q hq => hg.makes (h.held k q hq), h.params, h.locals⟩, Buffer.settled_push _ rfl⟩
    · rcases hcases hj with ⟨-, rfl⟩ | hj
      · exact ⟨nofun, rfl⟩
      · exact h.body n j hj
    · show (r.immediates.insert (v, t) (r.buffer.size : Int))[(j.imm, j.type)]? = _
      rw [Std.TreeMap.getElem?_insert]
      rcases hcases hj with ⟨rfl, rfl⟩ | hj
      · rw [if_pos (Std.compare_eq_iff_eq.mpr rfl)]
      · rw [if_neg fun heq => hnew n j hj hop ?_]
        · exact h.table n j hj hop
        · obtain ⟨rfl, rfl⟩ := Prod.mk.inj (Std.compare_eq_iff_eq.mp heq)
          exact ⟨rfl, rfl⟩

theorem instOf_same (ref : Ref) (r : Recorder) :
    Ensures Anyhow (Recorder.instOf ref) r fun _ r' => r' = r := by
  unfold Recorder.instOf
  refine .get ?_
  split
  · exact .pure rfl
  · exact .throw trivial

theorem toFloat_ready (h : r.Ready entry locals) (ref : Ref) (t : Ty) :
    Ensures Anyhow (Recorder.toFloat ref t) r fun _ r' => r'.Ready entry locals ∧ Grown r r' := by
  unfold Recorder.toFloat
  split
  · exact .pure ⟨h, .refl h.wf⟩
  · refine (instOf_same ref r).bind fun i r' hr => ?_
    subst hr
    split
    · exact (immediate_ready h _ _).mono fun _ _ ⟨h', hg, _⟩ => ⟨h', hg⟩
    · exact (emit_ready h rfl rfl).mono fun _ _ ⟨h', hg, _⟩ => ⟨h', hg⟩

theorem typeOf_same (a : SlotAddr) (r : Recorder) :
    Ensures Anyhow (Recorder.typeOf a) r fun _ r' => r' = r := by
  unfold Recorder.typeOf
  refine .get ?_
  dsimp only
  split
  · exact .bind (Q := fun _ _ => False) (.throw trivial) fun _ _ => False.elim
  · split
    · exact .pure rfl
    · exact .throw trivial

/-- The value of a slot that can be named. -/
theorem valueOf_finds (a : SlotAddr) (r : Recorder) :
    Ensures Anyhow (Recorder.valueOf a) r fun ref r' =>
    r' = r ∧ a.valid = true ∧ r.slots.value? a.slot.toNat = some ref := by
  unfold Recorder.valueOf
  refine .get ?_
  cases hvalid : a.valid with
  | false =>
    unfold SlotMap.get SlotMap.find?
    rw [hvalid]
    trivial
  | true =>
    unfold SlotMap.get
    rw [SlotMap.find?_eq _ hvalid]
    cases hvalue : r.slots.value? a.slot.toNat with
    | none => trivial
    | some ref => exact ⟨rfl, rfl, rfl⟩

theorem valueOf_makes (h : r.Tidy entry locals) (a : SlotAddr) :
    Ensures Anyhow (Recorder.valueOf a) r fun ref r' => r' = r ∧ Makes r.buffer ref :=
  (valueOf_finds a r).mono fun _ _ ⟨hr, _, hvalue⟩ => ⟨hr, h.held _ _ hvalue⟩

theorem result_ready (h : r.Ready entry locals) (hm : Makes r.buffer ref) (p : Primitive)
    (dest : Written) :
    Ensures Anyhow (Recorder.result p dest ref t) r fun _ r' => r'.Ready entry locals := by
  have hset : Ensures Anyhow (Recorder.setSlot dest.slot ref t) r fun _ r' =>
      r'.Ready entry locals := by
    unfold Ensures Recorder.setSlot
    cases hsettable : SlotMap.settable dest.slot ref with
    | some f => trivial
    | none =>
      obtain ⟨hvalid, hvalue⟩ := SlotMap.insert_valid h.wf.slots dest.slot hm.bounds.1
      refine ⟨⟨⟨hvalid, h.wf.unsealed, h.wf.shared⟩, h.shaped, h.read, h.body, h.table,
        fun k q hq => ?_, h.params,
        h.locals⟩, h.settled⟩
      rw [show (r.slots.insert dest.slot ref).value? k = _ from hvalue k] at hq
      split at hq
      · cases hq
        exact hm
      · exact h.held k q hq
  unfold Recorder.result
  dsimp only
  split
  · exact .bind (Q := fun _ _ => False) (.throw trivial) fun _ _ => False.elim
  · exact hset

/-! ### Exits -/

/-- The first slot that cannot be named is far behind. -/
theorem lt_of_valid_ofSlot {k : Nat} (hk : k ≤ 2 ^ 28)
    (h : (SlotAddr.ofSlot k).valid = true) : k < 2 ^ 28 := by
  refine Nat.lt_of_le_of_ne hk ?_
  rintro rfl
  revert h
  decide

theorem snapshotFrom_complete (h : r.Tidy entry locals) {k : Nat} (hk : k ≤ 2 ^ 28) (n : Nat) :
    Ensures Anyhow (Recorder.snapshotFrom k n) r fun snap r' => r' = r ∧
      snap.map (·.addr.slot) = (List.range' k n).map Int.ofNat ∧
      ∀ s ∈ snap, Makes r.buffer s.ref := by
  induction n generalizing k with
  | zero => exact .pure ⟨rfl, rfl, fun _ hs => absurd hs List.not_mem_nil⟩
  | succ n ih =>
    unfold Recorder.snapshotFrom
    refine (valueOf_finds _ r).bind fun ref r' hfound => .get ?_
    obtain ⟨rfl, hvalid, hvalue⟩ := hfound
    have hlt := lt_of_valid_ofSlot hk hvalid
    split
    · exact .throw trivial
    · refine (ih hlt).bind fun snap r' hsnap => .pure ?_
      obtain ⟨hr, hslots, hmakes⟩ := hsnap
      refine ⟨hr, ?_, fun s hs => ?_⟩
      · rw [List.map_cons, List.range'_succ, List.map_cons, hslots, SlotAddr.slot_ofSlot hlt]
        rfl
      · rcases List.mem_cons.mp hs with rfl | hs
        · exact h.held _ _ hvalue
        · exact hmakes s hs

theorem exitBefore_complete (h : r.Tidy entry locals) (p : Primitive) (kind : ExitKind) :
    Ensures Anyhow (Recorder.exitBefore p kind) r fun x r' =>
    r' = r ∧ x.Complete locals r.buffer := by
  unfold Recorder.exitBefore
  refine .get ?_
  dsimp only
  split
  · exact .bind (Q := fun _ _ => False) (.throw trivial) fun _ _ => False.elim
  · next hfits =>
    refine (snapshotFrom_complete h (Nat.zero_le _) _).bind fun snap r' ⟨hr, hslots, hmakes⟩ =>
      .pure ⟨hr, ?_, ?_, hmakes⟩
    · rw [Bool.not_eq_true, Bool.not_eq_false', blockFits, Bool.and_eq_true,
        decide_eq_true_eq, h.locals] at hfits
      exact hfits.1
    · rw [hslots, List.range_eq_range', h.locals]

/-! ### Primitives -/

/-- A primitive with an operation that has a name. -/
def Primitive.Named (p : Primitive) : Prop :=
  ∀ op a b dest, p.action = .binary op a b dest → ∀ n, op ≠ .other n

variable {p : Primitive} {dest : Written}

/-- Refusing a primitive ends it, whatever would follow. -/
theorem refused {α β : Type} {reason : AbortReason} {pc : Int} {detail : Text} {f : α → Recording β}
    {Q : β → Recorder → Prop} : Ensures Anyhow (Recorder.giveUp reason pc detail >>= f) r Q :=
  .bind (Q := fun _ _ => False) (.throw trivial) fun _ _ => False.elim

theorem two_args {x y : Ref} : [x, y].length ≤ maxCallArgs := Nat.le_of_ble_eq_true rfl

theorem onFloats_ready (h : r.Ready entry locals) {op : TraceOp} (hop : op.computes = true)
    (hsets : op.setsOverflow = false)
    (x y : Ref × Ty) : Ensures Anyhow (Recorder.onFloats p dest op t x y) r fun _ r' =>
    r'.Ready entry locals := by
  unfold Recorder.onFloats
  refine (toFloat_ready h _ _).bind fun _ r₁ ⟨h₁, _⟩ =>
    (toFloat_ready h₁ _ _).bind fun _ r₂ ⟨h₂, _⟩ => ?_
  exact (emit_ready h₂ hop hsets).bind fun _ r₃ ⟨h₃, _, hm⟩ => result_ready h₃ hm p dest

/-- An operation whose overflow is tested. -/
theorem checked_ready {kind : ExitKind} (h : r.Ready entry locals) {op : TraceOp}
    (hop : op.computes = true) :
    Ensures Anyhow (do
      let exit ← Recorder.exitBefore p kind
      let v ← Recorder.emit op a b t
      Recorder.guard .exitOv v exit
      Recorder.result p dest v t) r fun _ r' => r'.Ready entry locals := by
  refine (exitBefore_complete h.toTidy p kind).bind fun x r₁ ⟨hr, hx⟩ => ?_
  subst hr
  refine (emit_added h hop).bind fun v r₂ ⟨hadded, _⟩ => ?_
  refine (guard_ready hadded.tidy rfl (.inr rfl) (hx.grown hadded.grown)).bind fun _ r₃ ⟨h₃, hg⟩ =>
    ?_
  exact result_ready h₃ (hg.makes hadded.makes) p dest

theorem compare_ready (h : r.Ready entry locals) {op : BinOp} (hop : op.isCompare = true)
    (hnamed : ∀ n, op ≠ .other n)
    (x y : Ref × Ty) : Ensures Anyhow (Recorder.compare p op dest x y) r fun _ r' =>
    r'.Ready entry locals := by
  obtain ⟨hints, hfloats⟩ : (TraceOp.ofByte
    (TraceOp.eq.toByte + (op.toByte - BinOp.eq.toByte))).compare?.isSome = true ∧
      (TraceOp.ofByte (TraceOp.feq.toByte + (op.toByte - BinOp.eq.toByte))).compare?.isSome =
          true := by
    cases op <;> first | exact ⟨rfl, rfl⟩ | (exact absurd rfl (hnamed _)) | (revert hop; decide)
  unfold Recorder.compare
  dsimp only
  generalize TraceOp.ofByte (TraceOp.eq.toByte + (op.toByte - BinOp.eq.toByte)) = onInts at hints ⊢
  generalize TraceOp.ofByte (TraceOp.feq.toByte + (op.toByte - BinOp.eq.toByte)) =
    onFloats at hfloats ⊢
  have hcompares : ∀ {op : TraceOp}, op.compare?.isSome = true →
      op.computes = true ∧ op.setsOverflow = false := by
    intro op hop
    cases op <;> first | exact ⟨rfl, rfl⟩ | cases hop
  have hemit : ∀ {r : Recorder}, r.Ready entry locals →
    ∀ {op : TraceOp} (a b : Ref), op.compare?.isSome = true →
      Ensures Anyhow (Recorder.emit op a b .bool >>= fun v => Recorder.result p dest v .bool) r
        fun _ r' => r'.Ready entry locals := fun hr _ _ _ hop =>
    (emit_ready hr (hcompares hop).1 (hcompares hop).2).bind fun _ r' ⟨h', _, hm⟩ =>
      result_ready h' hm p dest
  split
  · exact hemit h _ _ hints
  split
  · exact onFloats_ready h (hcompares hfloats).1 (hcompares hfloats).2 _ _
  split
  · exact .throw trivial
  split
  · exact (immediate_ready h _ _).bind fun _ r' ⟨h', _, hm⟩ => result_ready h' hm p dest
  split
  · refine (callHelper_ready h two_args).bind fun _ r₁ ⟨h₁, _, hm⟩ => ?_
    split
    · exact (immediate_ready h₁ _ _).bind fun _ r₂ ⟨h₂, _, _⟩ => hemit h₂ _ _ rfl
    · exact result_ready h₁ hm p dest
  · exact hemit h _ _ hints

theorem binary_ready (h : r.Ready entry locals) {op : BinOp} (hnamed : ∀ n, op ≠ .other n)
    (x y : SlotAddr) :
    Ensures Anyhow (Recorder.binary p op x y dest) r fun _ r' => r'.Ready entry locals := by
  unfold Recorder.binary
  refine (typeOf_same _ _).bind fun ta r₁ hr => ?_
  subst hr
  refine (typeOf_same _ _).bind fun tb r₁ hr => ?_
  subst hr
  refine (valueOf_finds _ _).bind fun ra r₁ ⟨hr, _⟩ => ?_
  subst hr
  refine (valueOf_finds _ _).bind fun rb r₁ ⟨hr, _⟩ => ?_
  subst hr
  dsimp only
  -- sums: strings are joined, ints tested, and all other numbers are floats
  have hsum : ∀ hplain : op = .add ∨ op = .sub ∨ op = .mul, Ensures Anyhow (do
      if (op == .add && ta == .str && tb == .str) = true then
        Recorder.result p dest (← Recorder.callHelper HelperId.concat .str [ra, rb]) .str
      else if (!(ta.isNumber && tb.isNumber)) = true then
        Recorder.giveUp .unrecordable p.pc (op.name ++ " on " ++ ta.name ++ " and " ++ tb.name)
      else if (ta == .int && tb == .int) = true then
        if dest.type ≠ .int then
          Recorder.giveUp .guardFailed p.pc (op.name ++ " overflowed while recording")
        let exit ← Recorder.exitBefore p .overflow
        let v ← Recorder.emit (Recorder.overflowOp op) ra rb .int
        Recorder.guard .exitOv v exit
        Recorder.result p dest v .int
      else Recorder.onFloats p dest (Recorder.floatOp op) .float (ra, ta) (rb, tb)) r₁
        fun _ r' => r'.Ready entry locals := by
    intro hplain
    split
    · exact (callHelper_ready h two_args).bind fun _ r' ⟨h', _, hm⟩ => result_ready h' hm p dest
    split
    · exact .throw trivial
    split
    · have hop : (Recorder.overflowOp op).computes = true := by
        rcases hplain with rfl | rfl | rfl <;> rfl
      dsimp only
      split
      · exact refused
      · exact checked_ready h hop
    · have hop : (Recorder.floatOp op).computes = true ∧
          (Recorder.floatOp op).setsOverflow = false := by
        rcases hplain with rfl | rfl | rfl <;> exact ⟨rfl, rfl⟩
      exact onFloats_ready h hop.1 hop.2 _ _
  have hbits : ∀ hop : (Recorder.bitOp op).computes = true ∧
    (Recorder.bitOp op).setsOverflow = false,
      Ensures Anyhow (do
        if (!(ta == .int && tb == .int)) = true then
          Recorder.giveUp .unrecordable p.pc (op.name ++ " on " ++ ta.name ++ " and " ++ tb.name)
        else Recorder.result p dest (← Recorder.emit (Recorder.bitOp op) ra rb .int) .int) r₁
        fun _ r' => r'.Ready entry locals := by
    intro hop
    split
    · exact .throw trivial
    · exact (emit_ready h hop.1 hop.2).bind fun _ r' ⟨h', _, hm⟩ => result_ready h' hm p dest
  cases op with
  | add => exact hsum (.inl rfl)
  | sub => exact hsum (.inr (.inl rfl))
  | mul => exact hsum (.inr (.inr rfl))
  | div =>
    dsimp only
    split
    · exact .throw trivial
    · exact onFloats_ready h rfl rfl _ _
  | mod =>
    dsimp only
    split
    · exact .throw trivial
    split
    · have hrest : Ensures Anyhow (do
          let exit ← Recorder.exitBefore p .divZero
          let zero ← Recorder.immediate (.ofInt 0) .int
          let nonZero ← Recorder.emit .ne rb zero .bool
          Recorder.guard .exitUnless nonZero exit
          Recorder.result p dest (← Recorder.callHelper HelperId.intRem .int [ra, rb]) .int) r₁
          fun _ r' => r'.Ready entry locals := by
        refine (exitBefore_complete h.toTidy p .divZero).bind fun x r₂ ⟨hr, hx⟩ => ?_
        subst hr
        refine (immediate_ready h _ _).bind fun zero r₃ ⟨h₃, hg₃, _⟩ => ?_
        refine (emit_ready h₃ rfl rfl).bind fun nonZero r₄ ⟨h₄, hg₄, _⟩ => ?_
        refine (guard_ready h₄.toTidy rfl (.inl h₄.settled) (hx.grown (hg₃.trans hg₄))).bind
          fun _ r₅ ⟨h₅, _⟩ => ?_
        exact (callHelper_ready h₅ two_args).bind fun _ r₆ ⟨h₆, _, hm⟩ => result_ready h₆ hm p dest
      split
      · exact refused
      · exact hrest
    · refine (toFloat_ready h _ _).bind fun _ r₂ ⟨h₂, _⟩ =>
        (toFloat_ready h₂ _ _).bind fun _ r₃ ⟨h₃, _⟩ => ?_
      exact (callHelper_ready h₃ two_args).bind fun _ r₄ ⟨h₄, _, hm⟩ => result_ready h₄ hm p dest
  | bitAnd => exact hbits ⟨rfl, rfl⟩
  | bitOr => exact hbits ⟨rfl, rfl⟩
  | bitXor => exact hbits ⟨rfl, rfl⟩
  | shl => exact hbits ⟨rfl, rfl⟩
  | shr => exact hbits ⟨rfl, rfl⟩
  | other n => exact absurd rfl (hnamed n)
  | eq | ne | lt | le | gt | ge => exact compare_ready h (by decide) hnamed _ _

theorem unary_ready (h : r.Ready entry locals) (op : UnOp) (x : SlotAddr) :
    Ensures Anyhow (Recorder.unary p op x dest) r fun _ r' => r'.Ready entry locals := by
  unfold Recorder.unary
  refine (typeOf_same _ _).bind fun t r₁ hr => ?_
  subst hr
  refine (valueOf_finds _ _).bind fun ref r₁ ⟨hr, _⟩ => ?_
  subst hr
  have hzero : ∀ (v : Immediate) (t : Ty) (op : TraceOp), op.computes = true →
    op.setsOverflow = false →
      Ensures Anyhow (do
        let zero ← Recorder.immediate v t
        Recorder.result p dest (← Recorder.emit op ref zero .bool) .bool) r₁ fun _ r' =>
            r'.Ready entry locals :=
    fun v t op hop hsets => (immediate_ready h v t).bind fun _ r₂ ⟨h₂, _⟩ =>
      (emit_ready h₂ hop hsets).bind fun _ r₃ ⟨h₃, _, hm⟩ => result_ready h₃ hm p dest
  split
  · dsimp only
    split
    · exact refused
    · exact checked_ready h rfl
  · exact (emit_ready h rfl rfl).bind fun _ r' ⟨h', _, hm⟩ => result_ready h' hm p dest
  · exact (emit_ready h rfl rfl).bind fun _ r' ⟨h', _, hm⟩ => result_ready h' hm p dest
  · exact hzero _ _ _ rfl rfl
  · exact hzero _ _ _ rfl rfl
  · exact .throw trivial

theorem branch_ready (h : r.Ready entry locals) (x : SlotAddr) (taken : Bool) :
    Ensures Anyhow (Recorder.branch p x taken) r fun _ r' => r'.Ready entry locals := by
  unfold Recorder.branch
  refine (typeOf_same _ _).bind fun t r₁ hr => ?_
  subst hr
  refine (valueOf_finds _ _).bind fun ref r₁ ⟨hr, _⟩ => ?_
  subst hr
  refine (instOf_same _ _).bind fun i r₂ hr => ?_
  subst hr
  split
  · dsimp only
    split
    · exact .throw trivial
    · exact .pure h
  · refine (exitBefore_complete h.toTidy p .branch).bind fun x r₃ ⟨hr, hx⟩ => ?_
    subst hr
    have hguard : ∀ {r : Recorder}, r.Ready entry locals → Grown r₃ r → ∀ ref,
        Ensures Anyhow (Recorder.guard (if taken = true then .exitUnless else .exitIf) ref x) r
          fun _ r' => r'.Ready entry locals := fun hr hg ref => by
      refine (guard_ready hr.toTidy ?_ (.inl hr.settled) (hx.grown hg)).mono fun _ _ h' => h'.1
      cases taken <;> rfl
    dsimp only
    split
    · refine (immediate_ready h _ _).bind fun zero r₄ ⟨h₄, hg₄, _⟩ => ?_
      exact (emit_ready h₄ rfl rfl).bind fun _ r₅ ⟨h₅, hg₅, _⟩ => hguard h₅ (hg₄.trans hg₅) _
    · exact .pure_bind (hguard h (.refl h.wf) _)

theorem callArgs_ready (h : r.Ready entry locals) (d : Helper) (k : Nat) (slots : List SlotAddr)
    (classes : List Machine.SizeClass) :
    Ensures Anyhow (Recorder.callArgs p d k slots classes) r fun refs r' =>
      r'.Ready entry locals ∧ refs.length ≤ classes.length := by
  induction classes generalizing slots k r with
  | nil =>
    cases slots <;> exact .pure ⟨h, Nat.le_refl _⟩
  | cons c classes ih =>
    cases slots with
    | nil => exact .pure ⟨h, Nat.zero_le _⟩
    | cons x slots =>
      unfold Recorder.callArgs
      refine (typeOf_same _ _).bind fun t r₁ hr => ?_
      subst hr
      refine (valueOf_finds _ _).bind fun ref r₁ hfound => ?_
      obtain rfl := hfound.1
      have hrest : ∀ {r : Recorder}, r.Ready entry locals → ∀ (ref : Ref) (fits : Bool),
          Ensures Anyhow (do
            if (!fits) = true then
              Recorder.giveUp .unrecordable p.pc
                (d.name ++ " argument " ++ .ofNat k ++ " is " ++ t.name)
            return ref :: (← Recorder.callArgs p d (k + 1) slots classes) : Recording (List Ref)) r
            fun refs r' => r'.Ready entry locals ∧ refs.length ≤ (c :: classes).length := by
        intro r hr ref fits
        dsimp only
        split
        · exact refused
        · exact (ih hr _ _).bind fun refs r' h' => .pure ⟨h'.1, Nat.succ_le_succ h'.2⟩
      dsimp only
      split
      · exact (toFloat_ready h _ _).bind fun _ r' h' => hrest h'.1 _ _
      · exact .pure_bind (hrest h _ _)

theorem call_ready (h : r.Ready entry locals) {helpers : HelperTable}
    (hfew : ∀ d ∈ helpers.helpers, d.args.length ≤ maxCallArgs) (id : UInt8)
    (args : List SlotAddr) :
    Ensures Anyhow (Recorder.call helpers p id args dest) r fun _ r' => r'.Ready entry locals := by
  unfold Recorder.call
  have hget : Ensures Anyhow (Recorder.liftFault (helpers.get id)) r fun d r' =>
      r' = r ∧ d.args.length ≤ maxCallArgs := by
    unfold HelperTable.get
    cases hd : helpers.helpers[id.toNat]? with
    | none => exact .throw trivial
    | some d => exact .pure ⟨rfl, hfew d (Array.mem_of_getElem? hd)⟩
  refine hget.bind fun d r₁ ⟨hr, hargs⟩ => ?_
  subst hr
  dsimp only
  split
  · exact refused
  · refine (callArgs_ready h d 0 args d.args).bind fun refs r₂ ⟨h₂, hlength⟩ => ?_
    exact (callHelper_ready h₂ (Nat.le_trans hlength hargs)).bind fun _ r₃ ⟨h₃, _, hm⟩ =>
      result_ready h₃ hm p dest

/-- A primitive that is not refused keeps the shape. -/
theorem primitive_ready (h : r.Ready entry locals) {helpers : HelperTable}
    (hfew : ∀ d ∈ helpers.helpers, d.args.length ≤ maxCallArgs) (hnamed : p.Named) :
    Ensures Anyhow (Recorder.primitive helpers p) r fun _ r' => r'.Ready entry locals := by
  unfold Recorder.primitive
  split
  · exact (immediate_ready h _ _).bind fun _ r' ⟨h', _, hm⟩ => result_ready h' hm p _
  · refine (valueOf_makes h.toTidy _).bind fun ref r₁ ⟨hr, hm⟩ => ?_
    subst hr
    refine (typeOf_same _ _).bind fun t r₂ hr => ?_
    subst hr
    exact result_ready h hm p _
  · next haction => exact binary_ready h (hnamed _ _ _ _ haction) _ _
  · exact unary_ready h _ _
  · exact branch_ready h _ _
  · exact call_ready h hfew _ _
  all_goals exact .throw trivial

theorem record_ready (h : r.Ready entry locals) {helpers : HelperTable}
    (hfew : ∀ d ∈ helpers.helpers, d.args.length ≤ maxCallArgs) (maxLength : Int)
    (hnamed : p.Named) :
    Ensures Anyhow (Recorder.record helpers maxLength p) r fun _ r' => r'.Ready entry locals := by
  have horReset : ∀ {x : Recording Unit} {r₁ : Recorder},
    Ensures Anyhow x r₁ (fun _ r' => r'.Ready entry locals) →
      Ensures Anyhow (Recorder.orReset x) r₁ fun _ r' => r'.Ready entry locals := by
    intro x r₁ hx
    unfold Ensures Recorder.orReset
    cases hrun : x r₁ with
    | ok a r' => exact (ensures_ok hrun).mp hx
    | error e r' => cases e <;> trivial
  unfold Recorder.record
  refine .get ?_
  dsimp only
  split
  · exact .bind (Q := fun _ _ => False) (.throw trivial) fun _ _ => False.elim
  · have hpc : Recorder.Ready entry locals { r with pc := p.pc } := ⟨h.at_pc p.pc, h.settled⟩
    refine .modify_bind (horReset ((primitive_ready hpc hfew hnamed).bind fun _ r₁ h₁ => .get ?_))
    split
    · exact .throw trivial
    · exact .pure h₁

/-- Primitives one after the other. -/
theorem recordAll_ready (h : r.Ready entry locals) {helpers : HelperTable}
    (hfew : ∀ d ∈ helpers.helpers, d.args.length ≤ maxCallArgs) (maxLength : Int)
    {ps : List Primitive}
    (hnamed : ∀ p ∈ ps, p.Named) :
    Ensures Anyhow (ps.forM (Recorder.record helpers maxLength)) r fun _ r' =>
    r'.Ready entry locals := by
  induction ps generalizing r with
  | nil => exact .pure h
  | cons p ps ih =>
    exact (record_ready h hfew maxLength (hnamed p List.mem_cons_self)).bind fun _ r₁ h₁ =>
      ih h₁ fun q hq => hnamed q (List.mem_cons_of_mem p hq)

end Appending

end LoopTracer.Trace
