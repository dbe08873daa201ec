import LoopTracer.Proofs.Trace.Sessions
import LoopTracer.Proofs.Trace.Shaping

/-! The shape of a sealed trace.

A recording starts with the `param`s (`start_ready`) and ends with the stores and the jump
(`finish_wellFormed`). With the primitives in between, every trace that is sealed has the shape that
the compiler relies on (`sealed_trace_wellFormed`). -/
namespace LoopTracer.Trace

/-! ### The start -/

section Start

variable {entry : TypeMap} {r r' : Recorder}

/-- The instruction that reads a slot. -/
def readSlot (pc : Int) (t : Ty) (k : Nat) : Inst :=
  { op := .param, type := t, slot := .ofSlot k, pc }

/-- The slots from `k` on are read, and each then holds its own `param`. -/
theorem importSlots_lists (types : TypeMap) {k : Nat} (hr : r.slots.Valid) (hk : k ≤ 2 ^ 28)
    (hsize : r.buffer.size = k) :
    Ensures Anyhow (Recorder.importSlots k types) r fun _ r' =>
    k + types.length ≤ 2 ^ 28 ∧ r'.slots.Valid ∧
      r' = { r with buffer := { r.buffer with insts := r'.buffer.insts }, slots := r'.slots } ∧
      r'.buffer.insts.toList = r.buffer.insts.toList ++
        (types.zipIdx k).map (fun (t, j) => readSlot r.pc t j) ∧
      ∀ j, r'.slots.value? j = if k ≤ j ∧ j < k + types.length then some
      (j : Int) else r.slots.value? j := by
  induction types generalizing k r with
  | nil =>
    refine .pure ⟨hk, hr, rfl, (List.append_nil _).symm, fun j => ?_⟩
    rw [if_neg fun h => by simp at h; omega]
  | cons t rest ih =>
    unfold Recorder.importSlots
    refine (append_appended _ r).bind fun ref r₁ hadded => ?_
    obtain ⟨rfl, rfl, -, -⟩ := hadded
    dsimp only
    cases hsettable : SlotMap.settable (.ofSlot k) r.buffer.size with
    | some f => exact .bind (Q := fun _ _ => False) (.throw trivial) fun _ _ => False.elim
    | none =>
      have hlt : k < 2 ^ 28 := by
        refine lt_of_valid_ofSlot hk ?_
        unfold SlotMap.settable at hsettable
        split at hsettable
        · cases hsettable
        · next hvalid => simpa using hvalid
      obtain ⟨hvalid, hvalue⟩ :=
        SlotMap.insert_valid hr (.ofSlot k) (Int.natCast_nonneg r.buffer.size)
      let inst : Inst := { op := .param, type := t, slot := .ofSlot k }
      let r₁ : Recorder := { r.plus inst with slots := r.slots.insert (.ofSlot k) r.buffer.size }
      have hsize₁ : r₁.buffer.size = k + 1 := (plus_size r inst).trans (by rw [hsize])
      refine .modify_bind ((ih (r := r₁) hvalid hlt hsize₁).mono fun _ r' hafter => ?_)
      obtain ⟨hlength, hvalid', hframe, hinsts, hslots⟩ := hafter
      refine ⟨by rw [List.length_cons]; omega, hvalid', ?_, ?_, fun j => ?_⟩
      · rw [hframe]
        rfl
      · rw [hinsts, List.zipIdx_cons, List.map_cons]
        show (r.buffer.insts.push _).toList ++ _ = _
        rw [Array.toList_push, List.append_assoc]
        rfl
      · rw [hslots, List.length_cons]
        show (if _ then _ else (r.slots.insert (.ofSlot k) r.buffer.size).value? j) = _
        rw [hvalue, SlotAddr.slot_ofSlot hlt, Int.toNat_natCast, hsize]
        by_cases hj : j = k
        · subst hj
          rw [if_neg (by omega), if_pos rfl, if_pos (by omega)]
        · rw [if_neg hj]
          by_cases hin : k + 1 ≤ j ∧ j < k + 1 + rest.length
          · rw [if_pos hin, if_pos (by omega)]
          · rw [if_neg hin, if_neg (by omega)]

/-- A recording that was started has its shape. -/
theorem start_ready {f : Fragment} {rootTypes : TypeMap} {anchor : Option (Guard × ExitRecord)}
    (hr : r.slots.Valid)
    (h : r.start f rootTypes entry anchor = .ok r') :
    r'.Ready entry (if f.kind == .branch then rootTypes.length else entry.length) := by
  obtain ⟨-, r₁, hok, rfl⟩ := start_ok h
  obtain ⟨hclear, hempty⟩ := SlotMap.clear_valid hr
  obtain ⟨hlength, hvalid, hframe, hinsts, hslots⟩ :=
    (ensures_ok hok).mp (importSlots_lists (r := r.opened f rootTypes entry anchor) entry hclear
      (Nat.zero_le _) rfl)
  have hget : ∀ (n : Nat) i, r₁.buffer.insts[n]? = some i →
      ∃ t, entry[n]? = some t ∧ i = readSlot f.key.pc t n := by
    intro n i hi
    rw [← Array.getElem?_toList, hinsts] at hi
    obtain ⟨⟨t, j⟩, htj, rfl⟩ := List.mem_map.mp (List.mem_of_getElem? hi)
    rw [show (r.opened f rootTypes entry anchor).buffer.insts.toList = [] from rfl, List.nil_append,
      List.getElem?_map,
      List.getElem?_zipIdx] at hi
    cases ht : entry[n]? with
    | none =>
      rw [ht] at hi
      cases hi
    | some t =>
      rw [ht] at hi
      refine ⟨t, rfl, ?_⟩
      rw [← Option.some.inj hi, Nat.zero_add]
      rfl
  have hsize : r₁.buffer.size = entry.length := by
    have hlist := congrArg List.length hinsts
    rw [show (r.opened f rootTypes entry anchor).buffer.insts.toList = [] from rfl,
      List.nil_append, List.length_map,
      List.length_zipIdx, Array.length_toList] at hlist
    exact hlist
  have hread : ∀ (n : Nat), n < entry.length → ∃ i, r₁.buffer.insts[n]? = some i ∧
      i.op.hasResult = true := by
    intro n hn
    obtain ⟨i, hi⟩ : ∃ i, r₁.buffer.insts[n]? = some i :=
      ⟨_, Array.getElem?_eq_getElem (show n < r₁.buffer.size by omega)⟩
    obtain ⟨t, -, rfl⟩ := hget n i hi
    exact ⟨_, hi, rfl⟩
  refine ⟨⟨⟨hvalid, ?_, ?_⟩, ⟨?_, ?_, ?_, ?_⟩, Nat.le_of_eq hsize.symm, ?_, ?_, ?_, ?_, ?_⟩, ?_⟩
  · show r₁.buffer.isSealed = false
    rw [hframe]
    rfl
  · intro v t ref href
    have htable : r₁.immediates[(v, t)]? = some ref := href
    rw [hframe] at htable
    simp [Recorder.opened] at htable
  · intro n i hi
    obtain ⟨t, -, rfl⟩ := hget n i hi
    exact ⟨(fun _ h => by cases h), (fun _ h => by cases h), (fun h => by cases h), rfl,
      (fun _ h => by cases h), fun h => by cases h⟩
  · intro n i hi
    obtain ⟨t, ht, rfl⟩ := hget n i hi
    have hlt := (List.getElem?_eq_some_iff.mp ht).1
    exact ⟨⟨fun _ => hlt, fun _ => rfl⟩, fun _ => ⟨SlotAddr.slot_ofSlot (by omega), ht⟩⟩
  · intro n i j hi hsets
    obtain ⟨t, -, rfl⟩ := hget n i hi
    cases hsets
  · intro m n i j hi _ hop
    obtain ⟨t, -, rfl⟩ := hget m i hi
    cases hop
  · intro n i hi
    obtain ⟨t, -, rfl⟩ := hget n i hi
    exact ⟨(fun h => by cases h), rfl⟩
  · intro n i hi hop
    obtain ⟨t, -, rfl⟩ := hget n i hi
    cases hop
  · intro k ref hk
    rw [show r₁.slots.value? k = _ from hslots k] at hk
    split at hk
    · next hlt =>
      cases hk
      obtain ⟨i, hi, hresult⟩ := hread k (by omega)
      exact makes_iff.mpr ⟨k, i, rfl, hi, hresult⟩
    · rw [show (r.opened f rootTypes entry anchor).slots.value? k = none from hempty k] at hk
      cases hk
  · show r₁.params = _
    rw [hframe]
    rfl
  · show r₁.locals = _
    rw [hframe]
    rfl
  · intro i hi
    have hi : r₁.buffer.insts[r₁.buffer.insts.size - 1]? = some i := by
      rw [← Array.back?_eq_getElem?]; exact hi
    obtain ⟨t, -, rfl⟩ := hget _ i hi
    rfl

end Start

/-! ### The end -/

section End

variable {entry stop : TypeMap} {locals : Nat} {r r' : Recorder}

/-- The store that writes back a slot, unless it still holds its own `param`. -/
def Recorder.writeBack (r : Recorder) (k : Nat) (t : Ty) : Option Inst :=
  (r.slots.value? k).bind fun ref =>
    if k < r.params ∧ ref = k then none
      else some { op := .store, a := ref, slot := .ofSlot k, type := t, pc := r.pc }

theorem writeBack_eq_some {k : Nat} {t : Ty} {i : Inst} (h : r.writeBack k t = some i) :
    ∃ ref, r.slots.value? k = some ref ∧ ¬(k < r.params ∧ ref = k) ∧
      i = { op := .store, a := ref, slot := .ofSlot k, type := t, pc := r.pc } := by
  obtain ⟨ref, hvalue, hi⟩ := Option.bind_eq_some_iff.mp h
  split at hi
  · cases hi
  · next hchanged => exact ⟨ref, hvalue, hchanged, (Option.some.inj hi).symm⟩

/-- The stores for the slots from `k` on. -/
def Recorder.stores (r : Recorder) (k : Nat) (types : TypeMap) : List Inst :=
  (types.zipIdx k).filterMap fun (t, j) => r.writeBack j t

theorem stores_cons (r : Recorder) (k : Nat) (t : Ty) (rest : TypeMap) :
    r.stores k (t :: rest) = (r.writeBack k t).toList ++ r.stores (k + 1) rest := by
  unfold Recorder.stores
  rw [List.zipIdx_cons, List.filterMap_cons]
  dsimp only
  cases r.writeBack k t with
  | none => rfl
  | some i => rfl

theorem mem_stores {types : TypeMap} {i : Inst} :
    i ∈ r.stores 0 types ↔ ∃ (k : Nat) (t : Ty), types[k]? = some t ∧ r.writeBack k t = some i := by
  unfold Recorder.stores
  rw [List.mem_filterMap]
  constructor
  · rintro ⟨⟨t, k⟩, hmem, hi⟩
    exact ⟨k, t, List.mem_zipIdx_iff_getElem?.mp hmem, hi⟩
  · rintro ⟨k, t, ht, hi⟩
    exact ⟨(t, k), List.mem_zipIdx_iff_getElem?.mpr ht, hi⟩

/-- The slots are written in ascending order, so each once. -/
theorem sorted_stores {types : TypeMap} (h : types.length ≤ 2 ^ 28) :
    (r.stores 0 types).Pairwise fun i j => i.slot.slot < j.slot.slot := by
  have hplaces : (types.zipIdx 0).Pairwise fun a b => a.2 < b.2 ∧ b.2 < 2 ^ 28 := by
    refine List.pairwise_iff_getElem.mpr fun m n hm hn hlt => ?_
    rw [List.getElem_zipIdx, List.getElem_zipIdx]
    rw [List.length_zipIdx] at hn
    dsimp only
    omega
  refine List.pairwise_filterMap.mpr (hplaces.imp fun {a b} hab i hi j hj => ?_)
  obtain ⟨_, -, -, rfl⟩ := writeBack_eq_some hi
  obtain ⟨_, -, -, rfl⟩ := writeBack_eq_some hj
  show (SlotAddr.ofSlot a.2).slot < (SlotAddr.ofSlot b.2).slot
  rw [SlotAddr.slot_ofSlot (by omega), SlotAddr.slot_ofSlot hab.2]
  exact Int.ofNat_lt.mpr hab.1

/-- A shaped trace that all its slots were read in and that nothing is pending in. -/
structure Buffer.Whole (entry : TypeMap) (locals : Nat) (b : Buffer) : Prop where
  shaped : b.Shaped entry locals
  read : entry.length ≤ b.size
  settled : b.Settled

/-- What comes after the primitives follows. -/
theorem Buffer.Whole.push {b : Buffer} (h : b.Whole entry locals) {i : Inst}
    (hop : i.op = .store ∨ i.op.isTerminal = true)
    (huses : ∀ q ∈ i.operands, Makes b q) (hexit : i.exit = none) :
    (b.push i).Whole entry locals := by
  have hplain : (∀ m, i.op ≠ .other m) ∧ i.op ≠ .call ∧ i.op.isGuard = false ∧
    i.op ≠ .exitOv ∧ i.op ≠ .param ∧
      i.op ≠ .imm ∧ i.op.setsOverflow = false := by
    rcases hop with hop | hop
    · rw [hop]
      exact ⟨nofun, nofun, rfl, nofun, nofun, nofun, rfl⟩
    · cases h : i.op <;> rw [h] at hop <;>
        first | (cases hop; done) | exact ⟨nofun, nofun, rfl, nofun, nofun, nofun, rfl⟩
  obtain ⟨hknown, hcall, hguard, hov, hparam, himm, hsets⟩ := hplain
  refine ⟨h.shaped.push ⟨hknown, fun q hq => ?_, fun heq => absurd heq hcall,
    by rw [hguard, hexit]; rfl,
    fun x hx => ?_, fun heq => absurd heq hov⟩
    ⟨⟨fun heq => absurd heq hparam, fun hlt => absurd hlt (Nat.not_lt.mpr h.read)⟩,
      fun heq => absurd heq hparam⟩
    (.inl h.settled) fun heq => absurd heq himm, ?_, b.settled_push hsets⟩
  · have hq : Makes b q := by
      rcases List.mem_append.mp hq with hq | hq
      · exact huses q hq
      · rw [Inst.snapshotRefs, hexit] at hq
        cases hq
    exact ⟨hq.bounds.2, hq⟩
  · rw [hexit] at hx
    cases hx
  · show entry.length ≤ (b.insts.push i).size
    rw [Array.size_push]
    exact Nat.le_succ_of_le h.read

/-- The slots from `k` on that changed are written back. -/
theorem storeSlots_lists (types : TypeMap) {k : Nat} (h : r.buffer.Whole entry locals)
    (hk : k ≤ 2 ^ 28) :
    Ensures Anyhow (Recorder.storeSlots k types) r fun _ r' => k + types.length ≤ 2 ^ 28 ∧
      (∀ j, k ≤ j → j < k + types.length → ∃ ref, r.slots.value? j = some ref) ∧
      r' = { r with buffer := { r.buffer with insts := r'.buffer.insts } } ∧
      r'.buffer.insts.toList = r.buffer.insts.toList ++ r.stores k types ∧
      r'.buffer.Whole entry locals := by
  induction types generalizing k r with
  | nil => exact .pure ⟨hk, fun j hle hlt => absurd hlt (Nat.not_lt.mpr hle), rfl,
    (List.append_nil _).symm, h⟩
  | cons t rest ih =>
    unfold Recorder.storeSlots
    refine (valueOf_finds _ r).bind fun ref r₁ hfound => .get ?_
    obtain ⟨rfl, hvalid, hvalue⟩ := hfound
    have hlt := lt_of_valid_ofSlot hk hvalid
    rw [SlotAddr.slot_ofSlot hlt, Int.toNat_natCast] at hvalue
    have hvalues : (∀ j, k + 1 ≤ j → j < k + 1 + rest.length →
      ∃ ref, r₁.slots.value? j = some ref) →
        ∀ j, k ≤ j → j < k + (t :: rest).length → ∃ ref, r₁.slots.value? j = some ref := by
      intro hrest j hle hlt
      rw [List.length_cons] at hlt
      by_cases hj : j = k
      · exact ⟨ref, hj ▸ hvalue⟩
      · exact hrest j (by omega) (by omega)
    dsimp only
    split
    · next hchanged =>
      let i : Inst := { op := .store, a := ref, slot := .ofSlot k, type := t, pc := r₁.pc }
      have hi : r₁.writeBack k t = some i := by
        unfold Recorder.writeBack
        rw [hvalue, Option.bind_some, if_neg]
        rintro ⟨hlt, rfl⟩
        simp [hlt] at hchanged
      refine (append_appended _ r₁).bind fun n r₂ hadded => ?_
      obtain ⟨rfl, rfl, hoperands, -⟩ := hadded
      have hpush : (r₁.buffer.push i).Whole entry locals := h.push (.inl rfl) hoperands rfl
      refine (ih (r := r₁.plus { op := .store, a := ref, slot := .ofSlot k, type := t }) hpush
        hlt).mono fun _ r' hstored => ?_
      obtain ⟨hlength, hrest, hframe, hinsts, hwhole⟩ := hstored
      refine ⟨by rw [List.length_cons]; omega, hvalues hrest, ?_, ?_, hwhole⟩
      · rw [hframe]
        rfl
      · rw [hinsts, stores_cons, hi]
        show (r₁.buffer.insts.push i).toList ++ _ = _
        rw [Array.toList_push, List.append_assoc]
        rfl
    · next hsame =>
      have hi : r₁.writeBack k t = none := by
        unfold Recorder.writeBack
        rw [hvalue, Option.bind_some, if_pos]
        simpa using hsame
      refine (ih h hlt).mono fun _ r' hstored => ?_
      obtain ⟨hlength, hrest, hframe, hinsts, hwhole⟩ := hstored
      refine ⟨by rw [List.length_cons]; omega, hvalues hrest, hframe, ?_, hwhole⟩
      rw [hinsts, stores_cons, hi]
      rfl

/-- A trace that the compiler can rely on. It reads the slots first, one `param` for every type of
`entry`; it tests at once whatever may overflow; it writes back at its end the slots that do not
hold their own `param` any more, each once; and it ends with `last` and has no other jump. -/
structure Buffer.WellFormed (entry stop : TypeMap) (locals : Nat) (last : TraceOp)
    (value : Nat → Option Ref) (b : Buffer) :
    Prop extends b.Shaped entry locals where
  read : entry.length ≤ b.size
  tested : ∀ (n : Nat) i, b.insts[n]? = some i → i.op.setsOverflow = true →
    ∃ j, b.insts[n + 1]? = some j ∧ j.op = .exitOv
  held : ∀ k < stop.length, ∃ ref, value k = some ref
  written : ∀ (k : Nat) ref, k < stop.length → value k = some ref →
    ((∃ i ∈ b.insts, i.op = .store ∧ i.slot.slot = k) ↔ ¬(k < entry.length ∧ ref = k))
  stores : ∀ i ∈ b.insts, i.op = .store → ∃ k : Nat, i.slot.slot = k ∧ stop[k]? = some i.type ∧
    value k = some i.a
  distinct : ∀ (m n : Nat) i j, b.insts[m]? = some i → b.insts[n]? = some j →
    i.op = .store → j.op = .store →
    i.slot.slot = j.slot.slot → m = n
  behind : ∀ (m n : Nat) i j, b.insts[m]? = some i → b.insts[n]? = some j →
    i.op.isGuard = true ∨ i.op = .call →
    j.op = .store → m < n
  ends : ∀ (n : Nat) i, b.insts[n]? = some i → (i.op.isTerminal = true ↔ n + 1 = b.size) ∧
    (n + 1 = b.size → i.op = last)
  nonempty : 0 < b.size
  valid : b.validate = .ok ()

theorem close_isSealed {b b' : Buffer} (h : b.close = .ok b') : b'.isSealed = true := by
  unfold Buffer.close at h
  split at h
  · cases h
  · split at h <;> cases h
    rfl

/-- Whether instructions fit has nothing to do with the seal. -/
theorem Buffer.Shaped.of_insts {b b' : Buffer} (h : b.Shaped entry locals)
    (hinsts : b'.insts = b.insts) :
    b'.Shaped entry locals := by
  refine ⟨fun n i hi => ?_, fun n i hi => h.params n i (hinsts ▸ hi),
    fun n i j hi hsets hj => h.guarded n i j (hinsts ▸ hi) hsets (hinsts ▸ hj),
    fun m n i j hi hj => h.single m n i j (hinsts ▸ hi) (hinsts ▸ hj)⟩
  have hfits := h.fits n i (hinsts ▸ hi)
  refine ⟨hfits.known, fun q hq => ⟨(hfits.uses q hq).1, ?_⟩, hfits.few, hfits.exit,
    hfits.snapshot, fun hov => ?_⟩
  · obtain ⟨m, j, rfl, hj, hresult⟩ := makes_iff.mp (hfits.uses q hq).2
    exact makes_iff.mpr ⟨m, j, rfl, hinsts ▸ hj, hresult⟩
  · obtain ⟨m, j, hn, ha, hj, hsets⟩ := hfits.follows hov
    exact ⟨m, j, hn, ha, hinsts ▸ hj, hsets⟩

/-- A buffer whose instructions fit and whose only jump is its last instruction is found valid. -/
theorem Buffer.Shaped.validate {b : Buffer} (h : b.Shaped entry locals)
    (hsealed : b.isSealed = true)
    (hlast : ∀ (n : Nat) i, b.insts[n]? = some i →
      i.op.isTerminal = true → n + 1 = b.size) : b.validate = .ok () := by
  have hnone : b.insts.toList.zipIdx.findSome? (fun x => Buffer.instError? b.size x.1 x.2) =
      none := by
    refine List.findSome?_eq_none_iff.mpr fun x hmem => ?_
    obtain ⟨i, n⟩ := x
    have hi : b.insts[n]? = some i := by
      rw [← Array.getElem?_toList]
      exact List.mem_zipIdx_iff_getElem?.mp hmem
    have hfits := h.fits n i hi
    have hjump : (if (i.op.isTerminal && n + 1 ≠ b.size) = true
        then some (BufferError.terminal i.op n) else none) = none := by
      refine if_neg fun hbad => ?_
      obtain ⟨hterminal, hne⟩ := Bool.and_eq_true_iff.mp hbad
      exact of_decide_eq_true hne (hlast n i hi hterminal)
    have huses : (i.operands.find? fun q => q < 0 || (n : Int) ≤ q) = none := by
      refine List.find?_eq_none.mpr fun q hq => ?_
      obtain ⟨hlt, hmakes⟩ := hfits.uses q (List.mem_append_left _ hq)
      have hnonneg := hmakes.bounds.1
      have hlt' : ¬(n : Int) ≤ q := Int.not_le.mpr hlt
      have hneg : ¬q < 0 := Int.not_lt.mpr hnonneg
      simp [hlt', hneg]
    have hargs : (if (i.op == .call && maxCallArgs < i.args.length) = true then
        some (BufferError.callArgs n i.args.length) else none) = none := by
      refine if_neg fun hbad => ?_
      obtain ⟨hcall, hmany⟩ := Bool.and_eq_true_iff.mp hbad
      exact Nat.not_lt.mpr (hfits.few (beq_iff_eq.mp hcall)) (of_decide_eq_true hmany)
    unfold Buffer.instError?
    dsimp only at hjump huses hargs ⊢
    split
    · next op heq => exact absurd heq (hfits.known op)
    · rw [hjump, huses, hargs]
      rfl
  unfold Buffer.validate
  rw [hsealed]
  erw [hnone]
  rfl

/-- What computes, tests or calls does not end a trace. -/
theorem TraceOp.not_terminal {op : TraceOp}
    (h : op.setsOverflow = true ∨ op.isGuard = true ∨ op = .call) :
    op.isTerminal = false := by
  rcases h with h | h | rfl
  · cases op <;> first | rfl | cases h
  · cases op <;> first | rfl | cases h
  · rfl

/-- The parts of a sealed trace: what was recorded, the stores, and the jump. -/
structure Recorder.Closed (r : Recorder) (stop : TypeMap) (b : Buffer) (last : Inst) : Prop where
  few : stop.length ≤ 2 ^ 28
  held : ∀ k < stop.length, ∃ ref, r.slots.value? k = some ref
  insts : b.insts.toList = r.buffer.insts.toList ++ (r.stores 0 stop ++ [last])
  jump : last.op.isTerminal = true

theorem finish_closed {f : Fragment} {target : Option Fragment} {b : Buffer}
    (h : r.Ready entry locals)
    (hfinish : Recorder.finish f stop target r = .ok b r') :
    b.isSealed = true ∧ b.Shaped entry locals ∧
      ∃ last, { r with pc := f.key.pc : Recorder }.Closed stop b last ∧
        last.op = if f.kind == .branch then .jumpTree else .loop := by
  obtain ⟨-, -, -, -, -, r₁, r₂, n, hstore, happend, hclose, -⟩ := finish_ok hfinish
  have hstart : Buffer.Whole entry locals r.buffer := ⟨h.shaped, h.read, h.settled⟩
  obtain ⟨hlength, hheld, -, hinsts, hwhole⟩ :=
    (ensures_ok hstore).mp
      (storeSlots_lists (r := { r with pc := f.key.pc }) stop hstart (Nat.zero_le _))
  rw [Nat.zero_add] at hlength hheld
  obtain ⟨rfl, rfl, -, -⟩ := (ensures_ok happend).mp (append_appended _ r₁)
  let last : Inst := { op := if f.kind == .branch then .jumpTree else .loop, pc := r₁.pc }
  have hjump : last.op.isTerminal = true := by
    show (if f.kind == .branch then TraceOp.jumpTree else .loop).isTerminal = true
    split <;> rfl
  have hpushed : (r₁.buffer.push last).Whole entry locals := hwhole.push (.inr hjump) nofun rfl
  have hsame : b.insts = (r₁.buffer.push last).insts := close_insts hclose
  refine ⟨close_isSealed hclose, hpushed.shaped.of_insts hsame, last,
    ⟨hlength, fun k => hheld k (Nat.zero_le k), ?_, hjump⟩, rfl⟩
  rw [hsame]
  show (r₁.buffer.insts.push last).toList = _
  rw [Array.toList_push, hinsts, List.append_assoc]

/-- An instruction of a sealed trace stands in one of its parts. -/
theorem Recorder.Closed.cases {b : Buffer} {last i : Inst} (h : r.Closed stop b last) {n : Nat}
    (hi : b.insts[n]? = some i) :
    (n < r.buffer.size ∧ n + 1 < b.size ∧ r.buffer.insts[n]? = some i) ∨
      (∃ m, n = r.buffer.size + m ∧ n + 1 < b.size ∧ (r.stores 0 stop)[m]? = some i) ∨
      (n + 1 = b.size ∧ i = last) := by
  have hsize : b.insts.size = r.buffer.insts.size + (r.stores 0 stop).length + 1 := by
    have := congrArg List.length h.insts
    simp only [List.length_append, Array.length_toList, List.length_singleton] at this
    omega
  unfold Buffer.size
  rw [← Array.getElem?_toList, h.insts] at hi
  by_cases hbody : n < r.buffer.insts.toList.length
  · rw [List.getElem?_append_left hbody, Array.getElem?_toList] at hi
    rw [Array.length_toList] at hbody
    exact .inl ⟨hbody, by omega, hi⟩
  · rw [List.getElem?_append_right (Nat.not_lt.mp hbody), Array.length_toList] at hi
    rw [Array.length_toList] at hbody
    by_cases hstores : n - r.buffer.insts.size < (r.stores 0 stop).length
    · rw [List.getElem?_append_left hstores] at hi
      exact .inr (.inl ⟨n - r.buffer.insts.size, by omega, by omega, hi⟩)
    · rw [List.getElem?_append_right (Nat.not_lt.mp hstores)] at hi
      have hlt := (List.getElem?_eq_some_iff.mp hi).1
      rw [List.length_singleton] at hlt
      rw [show n - r.buffer.insts.size - (r.stores 0 stop).length = 0 by omega] at hi
      exact .inr (.inr ⟨by omega, (Option.some.inj hi).symm⟩)

/-- The stores are the second part. -/
theorem Recorder.Closed.store {b : Buffer} {last i : Inst} (h : r.Closed stop b last)
    (hr : r.Tidy entry locals) {n : Nat}
    (hi : b.insts[n]? = some i) (hop : i.op = .store) :
    ∃ m, n = r.buffer.size + m ∧ (r.stores 0 stop)[m]? = some i := by
  rcases h.cases hi with ⟨-, -, hold⟩ | ⟨m, hn, -, hm⟩ | ⟨-, rfl⟩
  · exact absurd hop (hr.body n i hold).1
  · exact ⟨m, hn, hm⟩
  · have hjump := h.jump
    rw [hop] at hjump
    cases hjump

/-- A store writes back a slot that changed. -/
theorem Recorder.Closed.written {b : Buffer} {last i : Inst} (h : r.Closed stop b last)
    (hi : i ∈ r.stores 0 stop) :
    ∃ (k : Nat) (t : Ty) (ref : Int), stop[k]? = some t ∧ k < 2 ^ 28 ∧ r.slots.value? k = some ref ∧
    ¬(k < r.params ∧ ref = k) ∧
      i = { op := .store, a := ref, slot := .ofSlot k, type := t, pc := r.pc } := by
  obtain ⟨k, t, ht, hi⟩ := mem_stores.mp hi
  obtain ⟨ref, hvalue, hchanged, rfl⟩ := writeBack_eq_some hi
  have hlt := (List.getElem?_eq_some_iff.mp ht).1
  exact ⟨k, t, ref, ht, Nat.lt_of_lt_of_le hlt h.few, hvalue, hchanged, rfl⟩

/-- The only jump is the last instruction. -/
theorem Recorder.Closed.ends {b : Buffer} {last i : Inst} (h : r.Closed stop b last)
    (hr : r.Tidy entry locals) {n : Nat}
    (hi : b.insts[n]? = some i) :
    (i.op.isTerminal = true ↔ n + 1 = b.size) ∧ (n + 1 = b.size → i.op = last.op) := by
  rcases h.cases hi with ⟨-, hn, hold⟩ | ⟨m, -, hn, hm⟩ | ⟨hn, rfl⟩
  · have hbody := (hr.body n i hold).2
    rw [hbody]
    exact ⟨⟨nofun, fun hlast => absurd hlast (Nat.ne_of_lt hn)⟩,
      fun hlast => absurd hlast (Nat.ne_of_lt hn)⟩
  · obtain ⟨k, t, ref, -, -, -, -, rfl⟩ := h.written (List.mem_of_getElem? hm)
    exact ⟨⟨nofun, fun hlast => absurd hlast (Nat.ne_of_lt hn)⟩,
      fun hlast => absurd hlast (Nat.ne_of_lt hn)⟩
  · exact ⟨⟨fun _ => hn, fun _ => h.jump⟩, fun _ => rfl⟩

/-- A trace that has its shape and its parts is one that the compiler can rely on. -/
theorem Recorder.Closed.wellFormed {b : Buffer} {last : Inst} (h : r.Closed stop b last)
    (hr : r.Tidy entry locals)
    (hshaped : b.Shaped entry locals) (hsealed : b.isSealed = true) :
    b.WellFormed entry stop locals last.op r.slots.value? := by
  have hsize : r.buffer.size < b.size := by
    have := congrArg List.length h.insts
    simp only [List.length_append, Array.length_toList, List.length_singleton] at this
    unfold Buffer.size
    omega
  refine ⟨hshaped, Nat.le_trans hr.read (Nat.le_of_lt hsize), fun n i hi hsets => ?_, h.held,
    fun k ref hk hvalue => ⟨?_, fun hchanged => ?_⟩,
    fun i hi hop => ?_, fun m n i j hi hj hop hop' hslot => ?_, fun m n i j hi hj hop hop' =>
      ?_, fun n i hi => h.ends hr hi,
    Nat.lt_of_le_of_lt (Nat.zero_le _) hsize, hshaped.validate hsealed fun n i hi =>
      (h.ends hr hi).1.mp⟩
  · have hlt : n < b.size := (Array.getElem?_eq_some_iff.mp hi).1
    have hnext : n + 1 < b.size := by
      refine Nat.lt_of_le_of_ne hlt fun hlast => ?_
      have hterminal := (h.ends hr hi).1.mpr hlast
      rw [TraceOp.not_terminal (.inl hsets)] at hterminal
      cases hterminal
    have hj := Array.getElem?_eq_getElem hnext
    exact ⟨_, hj, hshaped.guarded n i _ hi hsets hj⟩
  · rintro ⟨i, hi, hop, hslot⟩
    obtain ⟨n, hn⟩ := Array.mem_iff_getElem?.mp hi
    obtain ⟨m, -, hm⟩ := h.store hr hn hop
    obtain ⟨k', t, ref', -, hlt, hvalue', hchanged, rfl⟩ := h.written (List.mem_of_getElem? hm)
    rw [show (SlotAddr.ofSlot k').slot = k' from SlotAddr.slot_ofSlot hlt] at hslot
    obtain rfl := Int.ofNat.inj hslot
    rw [hvalue] at hvalue'
    cases hvalue'
    exact hr.params ▸ hchanged
  · have ht : stop[k]? = some stop[k] := List.getElem?_eq_getElem hk
    let i : Inst := { op := .store, a := ref, slot := .ofSlot k, type := stop[k], pc := r.pc }
    have hi : r.writeBack k stop[k] = some i := by
      unfold Recorder.writeBack
      rw [hvalue, Option.bind_some, if_neg (hr.params ▸ hchanged)]
    have hmem : i ∈ b.insts := by
      rw [← Array.mem_toList_iff, h.insts]
      exact List.mem_append_right _ (List.mem_append_left _ (mem_stores.mpr ⟨k, _, ht, hi⟩))
    have hlt : k < 2 ^ 28 := Nat.lt_of_lt_of_le hk h.few
    exact ⟨i, hmem, rfl, SlotAddr.slot_ofSlot hlt⟩
  · obtain ⟨n, hn⟩ := Array.mem_iff_getElem?.mp hi
    obtain ⟨m, -, hm⟩ := h.store hr hn hop
    obtain ⟨k, t, ref, ht, hlt, hvalue, -, rfl⟩ := h.written (List.mem_of_getElem? hm)
    exact ⟨k, SlotAddr.slot_ofSlot hlt, ht, hvalue⟩
  · obtain ⟨m', rfl, hm⟩ := h.store hr hi hop
    obtain ⟨n', rfl, hn⟩ := h.store hr hj hop'
    obtain ⟨hlt, rfl⟩ := List.getElem?_eq_some_iff.mp hm
    obtain ⟨hlt', rfl⟩ := List.getElem?_eq_some_iff.mp hn
    have hsorted := List.pairwise_iff_getElem.mp (sorted_stores (r := r) h.few)
    rcases Nat.lt_trichotomy m' n' with hbefore | heq | hafter
    · exact absurd hslot (Int.ne_of_lt (hsorted m' n' hlt hlt' hbefore))
    · rw [heq]
    · exact absurd hslot.symm (Int.ne_of_lt (hsorted n' m' hlt' hlt hafter))
  · obtain ⟨n', rfl, -⟩ := h.store hr hj hop'
    rcases h.cases hi with ⟨hm, -⟩ | ⟨m', -, -, hm⟩ | ⟨-, rfl⟩
    · omega
    · obtain ⟨k, t, ref, -, -, -, -, rfl⟩ := h.written (List.mem_of_getElem? hm)
      rcases hop with hop | hop <;> cases hop
    · have hjump := h.jump
      rw [TraceOp.not_terminal (.inr hop)] at hjump
      cases hjump

/-- A trace that is sealed has the shape that the compiler relies on. -/
theorem finish_wellFormed {f : Fragment} {target : Option Fragment} {b : Buffer}
    (h : r.Ready entry locals)
    (hfinish : Recorder.finish f stop target r = .ok b r') :
    b.WellFormed entry stop locals (if f.kind == .branch
      then .jumpTree else .loop) r.slots.value? := by
  obtain ⟨hsealed, hshaped, last, hclosed, hlast⟩ := finish_closed h hfinish
  exact hlast ▸ hclosed.wellFormed (h.at_pc f.key.pc) hshaped hsealed

end End

/-- Every trace that is recorded and sealed has the shape that the compiler relies on, whatever the
types at the start, the kind of the fragment and the primitives in between. -/
theorem sealed_trace_wellFormed {helpers : HelperTable}
    (hfew : ∀ d ∈ helpers.helpers, d.args.length ≤ maxCallArgs)
    {r r₁ r₂ r₃ : Recorder} (hr : r.Used) {f : Fragment} {rootTypes entry : TypeMap}
    {anchor : Option (Guard × ExitRecord)}
    (hstart : r.start f rootTypes entry anchor = .ok r₁) {maxLength : Int} {ps : List Primitive}
    (hnamed : ∀ p ∈ ps, p.Named)
    (hrecord : ps.forM (Recorder.record helpers maxLength) r₁ = .ok () r₂)
    {g : Fragment} {stop : TypeMap}
    {target : Option Fragment} {b : Buffer}
    (hfinish : Recorder.finish g stop target r₂ = .ok b r₃) :
    b.WellFormed entry stop (if f.kind == .branch then rootTypes.length else entry.length)
      (if g.kind == .branch then .jumpTree else .loop) r₂.slots.value? := by
  have hready := start_ready hr.valid hstart
  exact finish_wellFormed
    ((ensures_ok hrecord).mp (recordAll_ready hready hfew maxLength hnamed)) hfinish

/-- A loop with one local variable, which is an int. -/
def doublingLoop : Fragment :=
  { id := 1, key := { code := 1, pc := 0, depth := 1 }, kind := .root,
    entryTypes := some [.int], root := 1 }

/-- The local is added to itself. -/
def doubling (t : Ty) : Primitive :=
  { pc := 3, depth := 0, action := .binary .add (.ofSlot 0) (.ofSlot 0) ⟨.ofSlot 0, t⟩ }

theorem doubling_named {t : Ty} : ∀ p ∈ [doubling t], p.Named := by
  intro p hp op a b dest haction n hop
  rw [List.mem_singleton.mp hp, hop] at haction
  cases haction

/-- The trace that is sealed when primitives of the loop were recorded. -/
def loopTrace (ps : List Primitive) : Option Buffer :=
  match Recorder.start doublingLoop [] [.int] none {} with
  | .ok r =>
    match (ps.forM (Recorder.record .standard 100) >>= fun _ =>
      Recorder.finish doublingLoop [.int] none) r with
    | .ok b _ => some b
    | .error _ _ => none
  | .error _ => none

theorem loopTrace_eq_some {ps : List Primitive} {b : Buffer} (h : loopTrace ps = some b) :
    ∃ r₁ r₂ r₃, Recorder.start doublingLoop [] [.int] none {} = .ok r₁ ∧
    ps.forM (Recorder.record .standard 100) r₁ = .ok () r₂ ∧
    Recorder.finish doublingLoop [.int] none r₂ = .ok b r₃ := by
  unfold loopTrace at h
  split at h
  · next r₁ hstart =>
    split at h
    · next b' r₃ hrun =>
      cases h
      obtain ⟨_, r₂, hrecord, hfinish⟩ := bind_eq_ok hrun
      exact ⟨r₁, r₂, r₃, hstart, hrecord, hfinish⟩
    · cases h
  · cases h

theorem doubling_records : ∃ b, loopTrace [doubling .int] = some b ∧
    b.insts.toList.map (·.op) = [.param, .addOv, .exitOv, .store, .loop] :=
  Option.map_eq_some_iff.mp (by decide +kernel)

/-- The theorem at that loop: its local is doubled, tested for overflow and written back. -/
theorem doubling_wellFormed : ∃ r₁ r₂ r₃ b, Recorder.start doublingLoop [] [.int] none {} = .ok r₁ ∧
    [doubling .int].forM (Recorder.record .standard 100) r₁ = .ok () r₂ ∧
    Recorder.finish doublingLoop [.int] none r₂ = .ok b r₃ ∧
    b.insts.toList.map (·.op) = [.param, .addOv, .exitOv, .store, .loop] ∧
    b.WellFormed [.int] [.int] 1 .loop r₂.slots.value? := by
  obtain ⟨b, htrace, hops⟩ := doubling_records
  obtain ⟨r₁, r₂, r₃, hstart, hrecord, hfinish⟩ := loopTrace_eq_some htrace
  have hfew : ∀ d ∈ HelperTable.standard.helpers, d.args.length ≤ maxCallArgs := by decide
  exact ⟨r₁, r₂, r₃, b, hstart, hrecord, hfinish, hops,
    sealed_trace_wellFormed hfew .new hstart doubling_named hrecord hfinish⟩

/-- A comparison of the local with itself whose number is past those of the comparisons. -/
def straying : Primitive :=
  { pc := 3, depth := 0, action := .binary (.other 27) (.ofSlot 0) (.ofSlot 0) ⟨.ofSlot 1, .bool⟩ }

/-- Where a comparison has no name, the instruction whose number it comes to is emitted; this
one jumps. -/
theorem straying_records : ∃ b, loopTrace [straying] = some b ∧
    b.insts.toList.map (·.op) = [.param, .loop, .loop] ∧ b.validate ≠ .ok () := by
  obtain ⟨b, htrace, hfacts⟩ :
      ∃ b, loopTrace [straying] = some b ∧ (b.insts.toList.map (·.op), b.validate.toBool) =
        ([.param, .loop, .loop], false) :=
    Option.map_eq_some_iff.mp (by decide +kernel)
  obtain ⟨hops, hinvalid⟩ := Prod.mk.inj hfacts
  refine ⟨b, htrace, hops, fun hvalid => ?_⟩
  rw [hvalid] at hinvalid
  cases hinvalid

/-- Without names for all the operations, a trace may be sealed that has a jump before its end. -/
theorem straying_not_wellFormed :
    ∃ r₁ r₂ r₃ b, Recorder.start doublingLoop [] [.int] none {} = .ok r₁ ∧
    [straying].forM (Recorder.record .standard 100) r₁ = .ok () r₂ ∧
    Recorder.finish doublingLoop [.int] none r₂ = .ok b r₃ ∧ b.validate ≠ .ok () ∧
    ¬ b.WellFormed [.int] [.int] 1 .loop r₂.slots.value? := by
  obtain ⟨b, htrace, -, hinvalid⟩ := straying_records
  obtain ⟨r₁, r₂, r₃, hstart, hrecord, hfinish⟩ := loopTrace_eq_some htrace
  exact ⟨r₁, r₂, r₃, b, hstart, hrecord, hfinish, hinvalid, fun hwf => hinvalid hwf.valid⟩

end LoopTracer.Trace
