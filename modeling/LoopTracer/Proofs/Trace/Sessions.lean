import LoopTracer.Proofs.Trace.Recorders
import LoopTracer.Proofs.Trace.Recording

/-! Recorders from one recording to the next.

One recorder serves all recordings, and the pages of its slot map go from each to the next. Whatever
it was used for, its slot map is in order (`Used.valid`). A recording starts with a trace that reads
the slots (`start_reads`) and ends with one that writes back those that changed (`finish_writes`). -/
namespace LoopTracer.Trace

/-! ### The start of a recording -/

/-- The table of the types of a list. -/
theorem typeTable_getD (entry : TypeMap) (n : Nat) (types : Std.TreeMap Nat Ty) (k : Nat) :
    ((entry.zipIdx n).foldl (fun types (t, i) => types.insert i t) types).getD k .null =
      if n ≤ k then entry[k - n]?.getD (types.getD k .null) else types.getD k .null := by
  induction entry generalizing n types with
  | nil => simp
  | cons t rest ih =>
    rw [List.zipIdx_cons, List.foldl_cons, ih, Std.TreeMap.getD_insert]
    by_cases hk : n = k
    · subst hk
      rw [if_neg (by omega)]
      simp
    · simp only [Std.compare_eq_iff_eq, hk, if_false]
      by_cases hle : n ≤ k
      · rw [if_pos hle, if_pos (by omega), show k - n = (k - (n + 1)) + 1 by omega,
          List.getElem?_cons_succ]
      · rw [if_neg hle, if_neg (by omega)]

theorem settable_ofSlot {k : Nat} (hk : k < 2 ^ 28) {ref : Int} (href : 0 ≤ ref) :
    SlotMap.settable (.ofSlot k) ref = none := by
  unfold SlotMap.settable
  rw [SlotAddr.valid_ofSlot hk, if_neg (by decide), if_neg (Int.not_lt.mpr href)]

/-- The slots from `i` on are read, one instruction for each, and each then holds its word. -/
theorem importSlots_reads (types : TypeMap) {i : Nat} {r : Recorder} (h : r.Wf)
    (hi : r.buffer.size = i) (hn : i + types.length < 2 ^ 28) :
    ∃ r', Recorder.importSlots i types r = .ok () r' ∧ r'.Wf ∧
      r' = { r with buffer := r'.buffer, slots := r'.slots } ∧
      (∀ ref, Makes r.buffer ref → Makes r'.buffer ref) ∧
      (∀ k < i, r'.slots.value? k = r.slots.value? k) ∧
      (∀ k, i ≤ k → k < i + types.length → r'.slots.value? k = some (k : Int) ∧ Makes r'.buffer k) ∧
      ∀ e₀ e, At e₀ r e → ∃ e', At e₀ r' e' ∧ e.Later e' ∧ e'.heap = e.heap ∧
        ∀ k : Nat, i ≤ k → k < i + types.length → e'.word k = e₀.slots[k]?.getD 0 := by
  induction types generalizing i r with
  | nil =>
    exact ⟨r, rfl, h, rfl, fun _ hm => hm, fun _ _ => rfl, fun k hle hlt => by simp at hlt; omega,
      fun e₀ e hat => ⟨e, hat, .refl e, rfl, fun k hle hlt => by simp at hlt; omega⟩⟩
  | cons t rest ih =>
    rw [List.length_cons] at hn
    let inst : Inst := { op := .param, type := t, slot := .ofSlot i }
    have happend : Recorder.append inst r = .ok i (r.plus inst) := by
      rw [← hi]
      exact append_eq h
        (fun _ h => by cases h) (fun _ h => by cases h) (fun h => by cases h) fun h => by cases h
    have hgrown := plus_grown h inst
    have hinsert := SlotMap.insert_valid h.slots (.ofSlot i) (Int.natCast_nonneg i)
    let r₁ : Recorder := { r.plus inst with slots := r.slots.insert (.ofSlot i) i }
    have hwf₁ : r₁.Wf := ⟨hinsert.1, hgrown.wf.unsealed, hgrown.wf.shared⟩
    have hvalue₁ : ∀ k, r₁.slots.value? k = if k = i then some (i : Int) else r.slots.value? k := by
      intro k
      rw [hinsert.2, SlotAddr.slot_ofSlot (by omega), Int.toNat_natCast]
    have hmakes₁ : Makes r₁.buffer i := hi ▸ plus_makes rfl
    obtain ⟨r', hok, hwf, hframe, hkept, hbefore, hread, hpass⟩ :=
      ih (i := i + 1) (r := r₁) hwf₁ ((plus_size r inst).trans (by rw [hi])) (by omega)
    refine ⟨r', ?_, hwf, ?_, fun ref hm => hkept ref (hgrown.makes hm), fun k hk => ?_,
      fun k hle hlt => ?_,
      fun e₀ e hat => ?_⟩
    · unfold Recorder.importSlots
      show (Recorder.append inst >>= _) r = _
      rw [bind_ok happend, settable_ofSlot (by omega) (Int.natCast_nonneg i)]
      exact hok
    · rw [hframe]
      rfl
    · rw [hbefore k (by omega), hvalue₁, if_neg (by omega)]
    · by_cases hk : k = i
      · subst hk
        refine ⟨?_, hkept _ hmakes₁⟩
        rw [hbefore k (by omega), hvalue₁, if_pos rfl]
      · exact hread k (by omega) (by rw [List.length_cons] at hlt; omega)
    · have hexec : e.exec .standard inst = .on (Env.push { e with overflow := e.overflow }
          (e.slots[i]?.getD 0)) := by
        show Pass.on (e.push (e.slots[(SlotAddr.ofSlot i).slot.toNat]?.getD 0)) = _
        rw [SlotAddr.slot_ofSlot (by omega), Int.toNat_natCast]
      obtain ⟨hat₁, hlater₁, hword₁⟩ := hat.plus_word hexec fun h => by cases h
      have hat₁ : At e₀ r₁ _ :=
        ⟨hat₁.pass, hat₁.size, hat₁.imm, hat₁.slots, hat₁.valid, hat₁.later, hat₁.few⟩
      obtain ⟨e', hat', hlater, hheap, hwords⟩ := hpass e₀ _ hat₁
      refine ⟨e', hat', hlater₁.trans hlater, hheap, fun k hle hlt => ?_⟩
      by_cases hk : k = i
      · subst hk
        rw [hlater.words k (hat₁.has hmakes₁), ← hat.slots]
        exact hi ▸ hword₁
      · exact hwords k (by omega) (by rw [List.length_cons] at hlt; omega)

/-- A recording that was started holds every slot at its type, and passes over its trace start with
the words of the slots. -/
theorem start_reads {r r' : Recorder} {f : Fragment} {rootTypes entry : TypeMap}
    {anchor : Option (Guard × ExitRecord)} (hr : r.slots.Valid) (hn : entry.length < 2 ^ 28)
    (h : r.start f rootTypes entry anchor = .ok r') :
    r'.Wf ∧ r'.state = .recording ∧ r'.params = entry.length ∧
      r'.locals = (if f.kind == .branch then rootTypes.length else entry.length) ∧
      (∀ (k : Nat) t, entry[k]? = some t → r'.Sees k k t) ∧
      ∀ e₀, e₀.values = #[] → e₀.heap.Valid → ∃ e, At e₀ r' e ∧ e.heap = e₀.heap ∧
        ∀ k : Nat, k < entry.length → e.word k = e₀.slots[k]?.getD 0 := by
  obtain ⟨-, r₁, hok, rfl⟩ := start_ok h
  have hclear := SlotMap.clear_valid hr
  have hwf₀ : (r.opened f rootTypes entry anchor).Wf :=
    ⟨hclear.1, rfl, fun v t ref href => by simp [Recorder.opened] at href⟩
  obtain ⟨r₂, hok', hwf, hframe, -, -, hread, hpass⟩ :=
    importSlots_reads entry (i := 0) hwf₀ rfl (by omega)
  obtain rfl : r₁ = r₂ := by
    rw [hok] at hok'
    exact (EStateM.Result.ok.inj hok').2
  refine ⟨⟨hwf.slots, hwf.unsealed, hwf.shared⟩, rfl, by rw [hframe]; rfl, by rw [hframe]; rfl,
    fun k t ht => ?_, fun e₀ hvalues hheap => ?_⟩
  · have hlt := (List.getElem?_eq_some_iff.mp ht).1
    obtain ⟨hvalue, hmakes⟩ := hread k (by omega) (by omega)
    refine ⟨hvalue, ?_, hmakes⟩
    show r₁.type? k = _
    rw [hframe]
    show (if k < entry.length then some ((r.opened f rootTypes entry anchor).types.getD k .null)
      else none) = _
    rw [if_pos hlt, Recorder.opened, typeTable_getD, if_pos (by omega), Nat.sub_zero, ht]
    rfl
  · have hat₀ : At e₀ (r.opened f rootTypes entry anchor) e₀ := by
      refine ⟨rfl, by rw [hvalues]; rfl, fun ref i hget _ => ?_, rfl, hheap, .refl _,
        Nat.le_add_right _ _⟩
      unfold Buffer.get? at hget
      split at hget
      · cases hget
      · cases (Array.getElem?_eq_some_iff.mp hget).1
    obtain ⟨e, hat, -, hheap', hwords⟩ := hpass e₀ e₀ hat₀
    exact ⟨e, ⟨hat.pass, hat.size, hat.imm, hat.slots, hat.valid, hat.later, hat.few⟩, hheap',
      fun k hk => hwords k (by omega) (by omega)⟩

/-! ### The end of a recording -/

/-- The types at the end are those that the recorder has. -/
theorem mismatch?_none {r : Recorder} {stop : TypeMap} (h : r.mismatch? stop = none)
    (htracked : stop.length ≤ r.tracked) {k : Nat} {t : Ty} (hk : stop[k]? = some t) :
    r.type? k = some t := by
  have hlt := (List.getElem?_eq_some_iff.mp hk).1
  have hnone := List.findSome?_eq_none_iff.mp h (t, k) (List.mem_zipIdx_iff_getElem?.mpr hk)
  have htype : r.type? k = some (r.types.getD k .null) := if_pos (by omega)
  dsimp only at hnone
  rw [htype] at hnone ⊢
  split at hnone
  · next heq => exact congrArg some heq
  · cases hnone

/-- The instruction that writes a slot back. -/
def storeOf (i : Nat) (ref : Int) (t : Ty) : Inst :=
  { op := .store, a := ref, slot := .ofSlot i, type := t }

theorem append_store {r : Recorder} (h : r.Wf) {ref : Int} (hmakes : Makes r.buffer ref) (i : Nat)
    (t : Ty) :
    Recorder.append (storeOf i ref t) r = .ok r.buffer.size (r.plus (storeOf i ref t)) := by
  refine append_eq h (fun q hq => ?_) (fun _ h => by cases h) (fun h => by cases h)
    fun h => by cases h
  have hne : (ref == Ref.none) = false := by
    have hnonneg := hmakes.bounds.1
    rw [beq_eq_false_iff_ne]
    show ref ≠ -1
    omega
  simp only [storeOf, Inst.operands, hne] at hq
  obtain rfl := List.mem_singleton.mp hq
  exact hmakes

/-- A pass that writes a slot back goes on with its word there. -/
theorem exec_store {x : Inst} {i : Nat} (hop : x.op = .store) (hslot : x.slot = .ofSlot i)
    (hi : i < 2 ^ 28) (e : Env) :
    ∃ e₁, e.exec .standard x = .on e₁ ∧ e.Later e₁ ∧ e₁.values.size = e.values.size + 1 ∧
      e₁.heap = e.heap ∧ e₁.slots.size = e.slots.size ∧
      ∀ k, i < e.slots.size →
        e₁.slots[k]? = if k = i then some (e.word x.a) else e.slots[k]? := by
  let written : Env := { e with slots := e.slots.set! i (e.word x.a) }
  refine ⟨written.push 0, ?_, @Env.later_push e written rfl (.refl _) 0, Env.push_size _ _, rfl, ?_,
    fun k hlt => ?_⟩
  · unfold Env.exec
    rw [hop, hslot]
    show Pass.on _ = _
    rw [SlotAddr.slot_ofSlot (by omega), Int.toNat_natCast]
  · show (e.slots.set! i (e.word x.a)).size = _
    rw [Array.set!_eq_setIfInBounds, Array.size_setIfInBounds]
  · show (e.slots.set! i (e.word x.a))[k]? = _
    rw [Array.set!_eq_setIfInBounds, Array.getElem?_setIfInBounds]
    by_cases hk : k = i
    · rw [if_pos hk.symm, if_pos hk, if_pos hlt]
    · rw [if_neg (Ne.symm hk), if_neg hk]

/-- The slots from `i` on that changed are written back: a pass goes on with every slot holding the
word of its value. -/
theorem storeSlots_writes (types : TypeMap) {i : Nat} {r : Recorder} (h : r.Wf)
    (hn : i + types.length < 2 ^ 28) (hread : r.params ≤ r.buffer.size)
    (hlive : ∀ k, i ≤ k → k < i + types.length → ∃ ref t, r.Sees k ref t) :
    ∃ r' more, Recorder.storeSlots i types r = .ok () r' ∧ Grown r r' ∧
      r'.buffer.insts.toList = r.buffer.insts.toList ++ more ∧
      ∀ e, e.values.size = r.buffer.size → i + types.length ≤ e.slots.size →
        (∀ k : Nat, i ≤ k → k < r.params → e.slots[k]? = some (e.word k)) →
        ∃ e', Env.run .standard more e = .on e' ∧ e'.heap = e.heap ∧
          e'.slots.size = e.slots.size ∧ (∀ k < i, e'.slots[k]? = e.slots[k]?) ∧
          ∀ k ref t, i ≤ k → k < i + types.length → r.Sees k ref t →
            e'.slots[k]? = some (e.word ref) := by
  induction types generalizing i r with
  | nil =>
    exact ⟨r, [], rfl, .refl h, (List.append_nil _).symm,
      fun e _ _ _ => ⟨e, rfl, rfl, rfl, fun _ _ => rfl,
      fun k _ _ hle hlt => by simp at hlt; omega⟩⟩
  | cons t rest ih =>
    rw [List.length_cons] at hn hlive
    obtain ⟨ref, t', hsees⟩ := hlive i (by omega) (by omega)
    have hvalue := valueOf_eq (by omega) hsees
    by_cases hsame : (decide (i < r.params) && ref == (i : Int)) = true
    · -- The slot still holds its `param`, and the state still has that word.
      obtain ⟨r', more, hok, hg, hmore, hpass⟩ :=
        ih (i := i + 1) h (by omega) hread fun k hle hlt => hlive k (by omega) (by omega)
      refine ⟨r', more, ?_, hg, hmore, fun e hsize hslots hparams => ?_⟩
      · unfold Recorder.storeSlots
        rw [bind_ok hvalue]
        show (if (!(decide (i < r.params) && ref == (i : Int))) = true then _
          else _ : Recording Unit) r = _
        rw [hsame]
        exact hok
      · obtain ⟨e', hrun, hheap, hsize', hbefore, hwords⟩ := hpass e hsize
          (by rw [List.length_cons] at hslots; omega) fun k hle hk => hparams k (by omega) hk
        refine ⟨e', hrun, hheap, hsize', fun k hk => hbefore k (by omega),
          fun k ref' t'' hle hlt hs => ?_⟩
        by_cases hk : k = i
        · subst hk
          obtain ⟨rfl, rfl⟩ := hsees.unique hs
          obtain ⟨hparam, href⟩ := Bool.and_eq_true_iff.mp hsame
          rw [hbefore k (by omega), beq_iff_eq.mp href]
          exact hparams k (by omega) (of_decide_eq_true hparam)
        · exact hwords k ref' t'' (by omega) (by rw [List.length_cons] at hlt; omega) hs
    · have hgrown := plus_grown h (storeOf i ref t)
      obtain ⟨r', more, hok, hg, hmore, hpass⟩ := ih (i := i + 1) hgrown.wf (by omega)
        (Nat.le_trans hread hgrown.size) fun k hle hlt => by
          obtain ⟨ref', t'', hs⟩ := hlive k (by omega) (by omega)
          exact ⟨ref', t'', hs.grown hgrown⟩
      have hinsts : (r.plus (storeOf i ref t)).buffer.insts.toList =
          r.buffer.insts.toList ++ [{ storeOf i ref t with pc := r.pc }] := Array.toList_push
      refine ⟨r', { storeOf i ref t with pc := r.pc } :: more, ?_, hgrown.trans hg, ?_,
        fun e hsize hslots hparams => ?_⟩
      · unfold Recorder.storeSlots
        rw [bind_ok hvalue]
        show (if (!(decide (i < r.params) && ref == (i : Int))) = true then _
          else _ : Recording Unit) r = _
        rw [Bool.eq_false_iff.mpr hsame]
        show (Recorder.append (storeOf i ref t) >>= _) r = _
        rw [bind_ok (append_store h hsees.makes i t)]
        exact hok
      · rw [hmore, hinsts, List.append_assoc]
        rfl
      · rw [List.length_cons] at hslots
        obtain ⟨e₁, hexec, hlater, hvalues, hheap₁, hslots₁, hget⟩ :=
          exec_store (x := { storeOf i ref t with pc := r.pc }) rfl rfl (by omega) e
        obtain ⟨e', hrun, hheap, hsize', hbefore, hwords⟩ := hpass e₁
          (by rw [plus_size, ← hsize]; exact hvalues) (by omega)
          fun k hle hk => by
            have hk : k < r.params := hk
            rw [hget k (by omega), if_neg (by omega), hlater.words k ⟨by omega, by omega⟩]
            exact hparams k (by omega) hk
        refine ⟨e', ?_, hheap.trans hheap₁, by omega, fun k hk => ?_,
          fun k ref' t'' hle hlt hs => ?_⟩
        · rw [Env.run, hexec]
          exact hrun
        · rw [hbefore k (by omega), hget k (by omega), if_neg (by omega)]
        · by_cases hk : k = i
          · subst hk
            obtain ⟨rfl, rfl⟩ := hsees.unique hs
            rw [hbefore k (by omega), hget k (by omega), if_pos rfl]
            rfl
          · rw [hwords k ref' t'' (by omega) (by rw [List.length_cons] at hlt; omega)
              (hs.grown hgrown),
              hlater.words ref' ⟨hs.makes.bounds.1, by rw [hsize]; exact hs.makes.bounds.2⟩]

theorem close_insts {b b' : Buffer} (h : b.close = .ok b') : b'.insts = b.insts := by
  unfold Buffer.close at h
  split at h
  · cases h
  · split at h
    · cases h
      rfl
    · cases h

/-- The whole end of a trace: what was recorded, the slots that changed, and the jump back. -/
theorem finish_writes {f : Fragment} {stop : TypeMap} {target : Option Fragment} {r r' : Recorder}
    {b : Buffer} (h : Recorder.finish f stop target r = .ok b r') (hwf : r.Wf)
    (hn : stop.length < 2 ^ 28) (hread : r.params ≤ r.buffer.size) (hlive : r.Live stop.length) :
    (∀ (k : Nat) t, stop[k]? = some t → r.type? k = some t) ∧
      ∃ more, b.insts.toList = r.buffer.insts.toList ++ more ∧
        ∀ e, e.values.size = r.buffer.size → stop.length ≤ e.slots.size →
          (∀ k : Nat, k < r.params → e.slots[k]? = some (e.word k)) →
          ∃ e', Env.run .standard more e = .on e' ∧ e'.heap = e.heap ∧
            ∀ k ref t, k < stop.length → r.Sees k ref t → e'.slots[k]? = some (e.word ref) := by
  obtain ⟨-, htracked, hmismatch, -, -, r₁, r₂, n, hstore, happend, hclose, -⟩ := finish_ok h
  refine ⟨fun k t hk => mismatch?_none hmismatch htracked hk, ?_⟩
  let r₀ : Recorder := { r with pc := f.key.pc }
  have hwf₀ : r₀.Wf := ⟨hwf.slots, hwf.unsealed, hwf.shared⟩
  obtain ⟨r₁', more, hok, hg, hmore, hpass⟩ :=
    storeSlots_writes stop (i := 0) hwf₀ (by omega) hread fun k _ hlt => by
      obtain ⟨ref, t, hs⟩ := hlive k (by omega)
      exact ⟨ref, t, hs.value, hs.type, hs.makes⟩
  obtain rfl : r₁ = r₁' := by
    rw [hstore] at hok
    exact (EStateM.Result.ok.inj hok).2
  let last : Inst := { op := if f.kind == .branch then .jumpTree else .loop }
  have hlast : Recorder.append last r₁ = .ok r₁.buffer.size (r₁.plus last) := by
    refine append_eq hg.wf (fun _ h => by cases h) (fun _ h => by cases h) (fun hov => ?_)
      fun hguard => ?_
    · simp only [last] at hov
      split at hov <;> cases hov
    · simp only [last] at hguard
      split at hguard <;> cases hguard
  obtain rfl : r₂ = r₁.plus last := by
    rw [hlast] at happend
    exact (EStateM.Result.ok.inj happend).2.symm
  have hinsts : (r₁.plus last).buffer.insts.toList = r₁.buffer.insts.toList ++
      [{ last with pc := r₁.pc }] :=
    Array.toList_push
  refine ⟨more ++ [{ last with pc := r₁.pc }], ?_, fun e hsize hslots hparams => ?_⟩
  · rw [close_insts hclose, hinsts, hmore, List.append_assoc]
  · obtain ⟨e', hrun, hheap, -, -, hwords⟩ := hpass e hsize (by omega) fun k _ hk => hparams k hk
    refine ⟨e'.push 0, ?_, hheap, fun k ref t hk hs =>
      hwords k ref t (Nat.zero_le k) (by omega) ⟨hs.value, hs.type, hs.makes⟩⟩
    rw [Env.run_append, hrun]
    have hexec : e'.exec .standard { last with pc := r₁.pc } = .on (e'.push 0) := by
      by_cases hkind : (f.kind == .branch) = true
      · simp only [Env.exec, last, if_pos hkind]
      · simp only [Env.exec, last, if_neg hkind]
    dsimp only [Env.run]
    rw [hexec]

end LoopTracer.Trace
