import LoopTracer.Interp.Traced
import LoopTracer.Proofs.Interp.LocalStep
import LoopTracer.Proofs.Interp.Recorded

/-! Recording and running in step.

An instruction was executed on one list of locals and operands, and the primitive for it was
recorded. `primitive_follows` says what this is worth for any other lists of the same lengths: where
a pass over the trace so far stands for such lists, it goes on, behind the primitive, to stand for
what `localStep` makes of them, at the same next offset; or it leaves, and then its exit stands for
the lists themselves. -/
namespace LoopTracer.Interp

open Bytecode Trace

/-! ### Live slots -/

/-- The live slots of a frame: its locals, then its operands from the bottom up. -/
def live (l ops : List Value) : List Value := l ++ ops.reverse

theorem live_cons (l ops : List Value) (v : Value) : live l (v :: ops) = live l ops ++ [v] := by
  rw [live, live, List.reverse_cons, List.append_assoc]

@[simp] theorem length_live (l ops : List Value) : (live l ops).length = l.length + ops.length := by
  rw [live, List.length_append, List.length_reverse]

/-- The slots of the recorder stand for a list of values. -/
def StandsAll (r : Recorder) (e : Env) (vals : List Value) : Prop :=
  ∀ (k : Nat) (v : Value), vals[k]? = some v → Stands r e k v

/-- The slots of the recorder have the types of a list of values. -/
def TypedAs (r : Recorder) (vals : List Value) : Prop :=
  ∀ (k : Nat) (v : Value), vals[k]? = some v → ∃ ref t, r.Sees k ref t ∧ traceType? v = some t

section Live

variable {r r' : Recorder} {e₀ e e' : Env} {vals vals' : List Value} {k n n' : Nat} {v : Value}

/-- The values of a list are those of another one, except that slot `k` has the value `v`. -/
def Sets (vals vals' : List Value) (k : Nat) (v : Value) : Prop :=
  ∀ (j : Nat) (w : Value), vals'[j]? = some w → (j = k ∧ w = v) ∨ (j ≠ k ∧ vals[j]? = some w)

/-- A value at the end, in place of what there was behind the others. -/
theorem sets_last (first more : List Value) (v : Value) :
    Sets (first ++ more) (first ++ [v]) first.length v := by
  intro j w hj
  rw [List.getElem?_append] at hj
  split at hj
  · next hlt =>
    refine .inr ⟨by omega, ?_⟩
    rw [List.getElem?_append_left hlt]
    exact hj
  · next hge =>
    have hlt := (List.getElem?_eq_some_iff.mp hj).1
    rw [List.length_singleton] at hlt
    obtain rfl : j = first.length := by omega
    rw [Nat.sub_self] at hj
    exact .inl ⟨rfl, (Option.some.inj hj).symm⟩

/-- The value on top of the operands goes to a local. -/
theorem sets_store {l : List Value} (ops : List Value) {m : Nat} (hm : m < l.length) (v : Value) :
    Sets (live l (v :: ops)) (live (l.set m v) ops) m v := by
  intro j w hj
  rw [live, List.getElem?_append, List.length_set] at hj
  rw [live_cons, live, List.append_assoc, List.getElem?_append]
  split at hj
  · next hlt =>
    rw [if_pos hlt]
    rw [List.getElem?_set] at hj
    split at hj
    · next heq => exact .inl ⟨heq.symm, (Option.some.inj hj).symm⟩
    · next hne => exact .inr ⟨Ne.symm hne, hj⟩
  · next hge =>
    rw [if_neg hge]
    refine .inr ⟨by omega, ?_⟩
    rw [List.getElem?_append_left (List.getElem?_eq_some_iff.mp hj).1]
    exact hj

/-- Writing one slot. -/
theorem StandsAll.writes (h : StandsAll r e vals) (hw : Writes r r' k t) (hat : At e₀ r e)
    (hl : e.Later e') (hk : Stands r' e' k v)
    (hvals : Sets vals vals' k v) : StandsAll r' e' vals' := by
  intro j w hj
  rcases hvals j w hj with ⟨rfl, rfl⟩ | ⟨hne, hold⟩
  · exact hk
  · exact (h j w hold).writes hw hne hat hl

theorem TypedAs.writes (h : TypedAs r vals) (hw : Writes r r' k t) (ht : traceType? v = some t)
    (hvals : Sets vals vals' k v) : TypedAs r' vals' := by
  intro j w hj
  rcases hvals j w hj with ⟨rfl, rfl⟩ | ⟨hne, hold⟩
  · obtain ⟨ref, hsees⟩ := hw.written
    exact ⟨ref, t, hsees, ht⟩
  · obtain ⟨ref, t', hsees, htype⟩ := h j w hold
    exact ⟨ref, t', hw.others j ref t' hne hsees, htype⟩

theorem TypedAs.grown (h : TypedAs r vals) (hg : Grown r r') : TypedAs r' vals := by
  intro j w hj
  obtain ⟨ref, t, hsees, ht⟩ := h j w hj
  exact ⟨ref, t, hsees.grown hg, ht⟩

/-- Some of the values, in their places. -/
theorem TypedAs.sublist (h : TypedAs r vals)
    (hvals : ∀ (j : Nat) w, vals'[j]? = some w → vals[j]? = some w) :
    TypedAs r vals' := fun j w hj => h j w (hvals j w hj)

/-- Slots that have types are live. -/
theorem TypedAs.live (h : TypedAs r vals) : r.Live vals.length := fun k hk =>
  let ⟨ref, t, hsees, _⟩ := h k vals[k] (List.getElem?_eq_getElem hk)
  ⟨ref, t, hsees⟩

theorem StandsAll.grown (h : StandsAll r e vals) (hg : Grown r r') (hat : At e₀ r e)
    (hl : e.Later e') : StandsAll r' e' vals := fun j w hj => (h j w hj).grown hg hat hl

theorem live_writes (h : r.Live n) (hw : Writes r r' k t) (hn : ∀ j < n', j = k ∨ j < n) :
    r'.Live n' := by
  intro j hj
  by_cases heq : j = k
  · subst heq
    obtain ⟨ref, hsees⟩ := hw.written
    exact ⟨ref, t, hsees⟩
  · obtain ⟨ref, t, hsees⟩ := h j ((hn j hj).resolve_left heq)
    exact ⟨ref, t, hw.others j ref t heq hsees⟩

end Live

/-! ### Results -/

theorem ofInt_typed (n : Int) : (traceType? (.ofInt n)).isSome = true := by
  unfold Value.ofInt
  split <;> rfl

/-- The result of an arithmetic operation has a type. -/
theorem arith_typed {op : BinOp} {a b v : Value} (h : arith op a b = some v) :
    (traceType? v).isSome = true := by
  unfold arith at h
  split at h
  · unfold arithInts at h
    split at h <;> cases h <;>
      first | rfl | exact ofInt_typed _ | (split <;> first | rfl | exact ofInt_typed _)
  · split at h <;> cases h
    rfl
  · split at h
    · unfold arithFloats at h
      split at h <;> cases h <;> rfl
    · cases h

/-- The result of a comparison has a type. -/
theorem compare_typed {op : BinOp} {a b v : Value} (h : compare op a b = some v) :
    (traceType? v).isSome = true := by
  unfold compare at h
  split at h
  · cases h
    rfl
  · cases h
    rfl
  · split at h
    · cases h
    · cases h
      rfl
    · unfold ordered at h
      split at h <;> cases h <;> rfl

/-- The result of an operation on one value has a type. -/
theorem unary_typed {op : UnOp} {a v : Value} (h : unary op a = some v) :
    (traceType? v).isSome = true := by
  unfold unary at h
  split at h <;> cases h <;> first | rfl | exact ofInt_typed _

/-- The result of a builtin has a type. -/
theorem applyBuiltin_typed {o : Builtin} {args : List Value} {v : Value}
    (h : applyBuiltin o args = .ok v) :
    (traceType? v).isSome = true := by
  have hnumber : ∀ {name f x}, onNumber name f x = .ok v → (traceType? v).isSome = true := by
    intro name f x h
    unfold onNumber at h
    split at h <;> cases h
    rfl
  have hstring : ∀ {name} {f : Text → Value} {x}, (∀ s, (traceType? (f s)).isSome = true) →
    onString name f x = .ok v →
      (traceType? v).isSome = true := by
    intro name f x hf h
    unfold onString at h
    split at h <;> cases h
    exact hf _
  unfold applyBuiltin at h
  split at h
  · exact hnumber h
  · exact hnumber h
  · exact hnumber h
  · split at h
    · cases h
    · split at h <;> cases h
      rfl
  · exact hstring (fun _ => rfl) h
  · exact hstring (fun _ => rfl) h
  · cases h

/-! ### Primitives of instructions -/

/-- The action that an executed instruction is reported as, if it is reported; `word` is the word
of a value that was pushed. -/
def actionOf (locals depth : Int) (word : UInt64) : Event → Option Action
  | .quiet | .looped _ => none
  | .pushed v =>
    match traceType? v with
    | none => some .unrecordable
    | some t => some (.const (.ofWord t word) ⟨.ofSlot (locals + depth), t⟩)
  | .copied source target v =>
    match traceType? v with
    | none => some .unrecordable
    | some t => some (.copy (.ofSlot source) ⟨.ofSlot target, t⟩)
  | .computed op v =>
    let a := SlotAddr.ofSlot (locals + (depth - 2))
    some (.binary op a (.ofSlot (locals + (depth - 1))) ⟨a, (traceType? v).getD .null⟩)
  | .converted op v =>
    let a := SlotAddr.ofSlot (locals + (depth - 1))
    some (.unary op a ⟨a, (traceType? v).getD .null⟩)
  | .branched taken _ => some (.branch (.ofSlot (locals + (depth - 1))) taken)
  | .called d arity v =>
    let args := (List.range arity).map fun (k : Nat) =>
      SlotAddr.ofSlot (locals + (depth - arity + k))
    some (.call d.id.toUInt8 args ⟨.ofSlot (locals + (depth - arity)), (traceType? v).getD .null⟩)

/-- The word of a pushed value in every heap that extends `heap`. -/
def Pushes (heap : StringHeap) (word : UInt64) : Event → Prop
  | .pushed v => ∀ t, traceType? v = some t → Represents heap v word
  | _ => True

/-- A recorder whose trace is longer; the recording is the same. -/
structure Advanced (r r' : Recorder) : Prop where
  wf : r'.Wf
  insts : ∃ more, r'.buffer.insts.toList = r.buffer.insts.toList ++ more
  state : r'.state = r.state
  locals : r'.locals = r.locals
  params : r'.params = r.params

theorem Advanced.refl {r : Recorder} (h : r.Wf) : Advanced r r :=
  ⟨h, ⟨[], (List.append_nil _).symm⟩, rfl, rfl, rfl⟩

theorem Writes.advanced {r r' : Recorder} {k : Nat} {t : Ty}
    (h : Writes r r' k t) : Advanced r r' :=
  ⟨h.wf, h.insts, by rw [h.frame], by rw [h.frame], by rw [h.frame]⟩

theorem Advanced.of_grown {r r' : Recorder} (h : Grown r r') : Advanced r r' :=
  ⟨h.wf, h.insts, by rw [h.frame], by rw [h.frame], by rw [h.frame]⟩

theorem Advanced.size {r r' : Recorder} (h : Advanced r r') : r.buffer.size ≤ r'.buffer.size := by
  obtain ⟨more, hmore⟩ := h.insts
  have := congrArg List.length hmore
  simp only [List.length_append, Array.length_toList] at this
  unfold Buffer.size
  omega

/-- How passes over the trace follow an instruction that led to `ip`: from lists that they stand for
to what the instruction makes of them, or out of the trace. -/
def Follows (c : Chunk) (op : Opcode) (i : Nat) (ip : Int) (heap : StringHeap) (p : Primitive)
    (locals depth : Nat) (r r' : Recorder) : Prop :=
  ∀ e₀ e l ops, At e₀ r e → e₀.heap.Extends heap → e₀.heap.size + r'.buffer.size < 2 ^ 32 →
    l.length = locals → ops.length = depth → StandsAll r e (live l ops) →
    (∃ e' l' ops' event, At e₀ r' e' ∧ e.Later e' ∧
      localStep c op i l ops = some (.next ip l' ops' event) ∧ StandsAll r' e' (live l' ops')) ∨
    ∃ x e', Gone e₀ r' x e' ∧ e.Later e' ∧ Exits r p (locals + depth) x

/-- Recording the primitive of an executed instruction gives a recorder for the frame behind it, whose
passes follow the instruction; its types go on to be those of the frame. -/
def Tracks (c : Chunk) (op : Opcode) (i : Nat) (l ops : List Value) (ip : Int)
    (l' ops' : List Value)
    (heap : StringHeap) (action : Action) (r : Recorder) : Prop :=
  Yields (Recorder.primitive .standard ⟨i, ops.length, action⟩) r fun _ r' => Advanced r r' ∧
    r'.Live (l'.length + ops'.length) ∧
    Follows c op i ip heap ⟨i, ops.length, action⟩ l.length ops.length r r' ∧
    (TypedAs r (live l ops) → TypedAs r' (live l' ops'))

/-- An executed instruction: what it made of the frame, and the recorder that hears of it. -/
structure Heard (fn : Function) (c : Chunk) (op : Opcode) (i : Nat) (l ops : List Value) (ip : Int)
    (l' ops' : List Value) (event : Event) (r : Recorder) : Prop where
  whole : Whole fn c i op
  locals : (l.length : Int) = fn.locals
  step : localStep c op i l ops = some (.next ip l' ops' event)
  wf : r.Wf
  frame : r.locals = l.length
  live : r.Live (l.length + ops.length)
  small : l.length + ops.length + 1 < 2 ^ 28

section Follows

variable {fn : Function} {c : Chunk} {op : Opcode} {i : Nat} {l ops l' ops' : List Value} {ip : Int}
variable {event : Event} {r : Recorder} {action : Action} {word : UInt64} {heap : StringHeap}

theorem Heard.before (h : Heard fn c op i l ops ip l' ops' event r) (action : Action) :
    Before r ⟨i, ops.length, action⟩ (l.length + ops.length) :=
  ⟨h.wf, ⟨ops.length, rfl, by rw [h.frame]⟩, by have := h.small; omega, h.live⟩

/-- The word of an immediate. -/
theorem bits_ofWord (t : Ty) (w : UInt64) : (Immediate.ofWord t w).bits = w := by
  cases t <;> rfl

/-- A primitive that writes one slot follows its instruction, if in every pass it puts the value there
that the instruction does. -/
theorem Follows.of_writes {p : Primitive} {r' : Recorder} {k : Nat} {t : Ty} (hw : Writes r r' k t)
    (h : ∀ e₀ e l₁ ops₁, At e₀ r e → e₀.heap.Extends heap → e₀.heap.size + r'.buffer.size < 2 ^ 32 →
      l₁.length = l.length → ops₁.length = ops.length → StandsAll r e (Interp.live l₁ ops₁) →
      Continues p (l.length + ops.length) r r' e₀ e k fun v => ∃ l₂ ops₂ event,
        localStep c op i l₁ ops₁ = some (.next ip l₂ ops₂ event) ∧
        Sets (Interp.live l₁ ops₁) (Interp.live l₂ ops₂) k v) :
    Follows c op i ip heap p l.length ops.length r r' := by
  intro e₀ e l₁ ops₁ hat hheap hroom hl₁ hops₁ hstands
  rcases h e₀ e l₁ ops₁ hat hheap hroom hl₁ hops₁ hstands with
    ⟨e', v, hat', hlater, ⟨l₂, ops₂, event, hstep, hsets⟩, hnew⟩ | hgone
  · exact .inl ⟨e', l₂, ops₂, event, hat', hlater, hstep, hstands.writes hw hat hlater hnew hsets⟩
  · exact .inr hgone

/-- An instruction that pushes a value that does not depend on the frame. -/
theorem pushed_follows (h : Heard fn c op i l ops ip l' ops' event r) {v : Value}
    (hpush : ∀ l₁ ops₁ : List Value,
      localStep c op i l₁ ops₁ = some (.next ip l₁ (v :: ops₁) (.pushed v)))
    (haction : actionOf l.length ops.length word event = some action)
    (hword : Pushes heap word event) :
    Tracks c op i l ops ip l' ops' heap action r := by
  have hstep := h.step
  rw [hpush] at hstep
  cases hstep
  have hsmall := h.small
  simp only [actionOf] at haction
  cases ht : traceType? v with
  | none =>
    rw [ht] at haction
    obtain rfl := Option.some.inj haction
    exact Yields.giveUp h.wf.slots _ _ _
  | some t =>
    rw [ht] at haction
    obtain rfl := Option.some.inj haction
    have hslot : (l.length : Int) + ops.length = ((l.length + ops.length : Nat) : Int) := by omega
    rw [hslot]
    have hsets : ∀ l₁ ops₁ : List Value, l₁.length = l.length → ops₁.length = ops.length →
        Sets (Interp.live l₁ ops₁) (Interp.live l₁ (v :: ops₁)) (l.length + ops.length) v := by
      intro l₁ ops₁ hl₁ hops₁
      have hsets := sets_last (Interp.live l₁ ops₁) [] v
      rw [List.append_nil, length_live, hl₁, hops₁] at hsets
      rw [live_cons]
      exact hsets
    refine (const_yields h.wf (by omega) _ _ t).mono fun _ r' ⟨hw, hv⟩ =>
      ⟨hw.advanced, ?_, .of_writes hw ?_, fun htyped => htyped.writes hw ht (hsets l ops rfl rfl)⟩
    · exact live_writes h.live hw fun j hj => by rw [List.length_cons] at hj; omega
    · intro e₀ e l₁ ops₁ hat hheap _ hl₁ hops₁ hstands
      have hrep : Represents e.heap v (Immediate.ofWord t word).bits := by
        rw [bits_ofWord]
        exact (hword t ht).mono (hat.later.trans hheap)
      obtain ⟨e', hat', hlater, hnew⟩ := hv e₀ e v hat ht hrep
      exact .inl ⟨e', v, hat', hlater,
        ⟨l₁, v :: ops₁, _, hpush l₁ ops₁, hsets l₁ ops₁ hl₁ hops₁⟩, hnew⟩

/-- An instruction that copies slot `j` to slot `k`. -/
theorem copied_follows (h : Heard fn c op i l ops ip l' ops' event r) {j k : Nat} {v : Value}
    (hevent : event = .copied j k v) (hj : j < l.length + ops.length)
    (hk : k ≤ l.length + ops.length)
    (hnew : ∀ q < l'.length + ops'.length, q = k ∨ q < l.length + ops.length)
    (hcopy : ∀ l₁ ops₁ : List Value, l₁.length = l.length → ops₁.length = ops.length →
      ∃ l₂ ops₂ source target v, (Interp.live l₁ ops₁)[j]? = some v ∧
        localStep c op i l₁ ops₁ = some (.next ip l₂ ops₂ (.copied source target v)) ∧
        Sets (Interp.live l₁ ops₁) (Interp.live l₂ ops₂) k v)
    (haction : actionOf l.length ops.length word event = some action) :
    Tracks c op i l ops ip l' ops' heap action r := by
  subst hevent
  have hsmall := h.small
  simp only [actionOf] at haction
  cases ht : traceType? v with
  | none =>
    rw [ht] at haction
    obtain rfl := Option.some.inj haction
    exact Yields.giveUp h.wf.slots _ _ _
  | some t =>
    rw [ht] at haction
    obtain rfl := Option.some.inj haction
    obtain ⟨ref, tj, hsees⟩ := h.live j hj
    refine (copy_yields h.wf (by omega) (by omega) hsees _ t).mono fun _ r' ⟨hw, hv⟩ =>
      ⟨hw.advanced, live_writes h.live hw hnew, .of_writes hw ?_, fun htyped => ?_⟩
    · intro e₀ e l₁ ops₁ hat _ _ hl₁ hops₁ hstands
      obtain ⟨l₂, ops₂, _, _, w, hget, hstep, hsets⟩ := hcopy l₁ ops₁ hl₁ hops₁
      obtain ⟨hat', hnew'⟩ := hv e₀ e w hat (hstands j w hget)
      exact .inl ⟨e, w, hat', .refl e, ⟨l₂, ops₂, _, hstep, hsets⟩, hnew'⟩
    · obtain ⟨l₂, ops₂, _, _, w, -, hstep, hsets⟩ := hcopy l ops rfl rfl
      rw [h.step] at hstep
      cases hstep
      exact htyped.writes hw ht hsets

/-- An instruction that puts the result of an operation in place of two operands. -/
theorem computed_follows (h : Heard fn c op i l ops ip l' ops' event r) {b : BinOp} {v : Value}
    (hevent : event = .computed b v) (htype : (traceType? v).isSome = true) {x y : Value}
    {rest : List Value} (hops : ops = y :: x :: rest)
    (hlists : l' = l ∧ ops' = v :: rest) {value : Value → Value → Option Value}
    (hcompute : ∀ l₁ x₁ y₁ rest₁ v₁, value x₁ y₁ = some v₁ →
      localStep c op i l₁ (y₁ :: x₁ :: rest₁) = some (.next ip l₁ (v₁ :: rest₁) (.computed b v₁)))
    (hyields : ∀ {p n k ka kb a a' ta tb seen}, Before r p n → r.Sees ka a ta → r.Sees kb a' tb →
      ka < 2 ^ 28 → kb < 2 ^ 28 → k < 2 ^ 28 →
      Yields (Recorder.binary p b (.ofSlot (ka : Nat)) (.ofSlot (kb : Nat))
        ⟨.ofSlot (k : Nat), seen⟩) r
        fun _ r' => Writes r r' k seen ∧ ∀ e₀ e va vb, At e₀ r e →
          e₀.heap.size + r'.buffer.size < 2 ^ 32 → Stands r e ka va → Stands r e kb vb →
          Mirrors p n r r' e₀ e k seen fun v => value va vb = some v)
    (haction : actionOf l.length ops.length word event = some action) :
    Tracks c op i l ops ip l' ops' heap action r := by
  subst hevent hops
  obtain ⟨rfl, rfl⟩ := hlists
  have hsmall := h.small
  have hbefore := h.before action
  have hlive := h.live
  simp only [List.length_cons] at hsmall
  obtain rfl := Option.some.inj haction
  have ha : (l'.length : Int) + ((y :: x :: rest).length - 2) =
      ((l'.length + rest.length : Nat) : Int) := by
    simp only [List.length_cons]
    omega
  have hb : (l'.length : Int) + ((y :: x :: rest).length - 1) =
      ((l'.length + rest.length + 1 : Nat) : Int) := by
    simp only [List.length_cons]
    omega
  simp only [ha, hb] at hbefore ⊢
  obtain ⟨ra, ta, hsa⟩ := hlive (l'.length + rest.length) (by simp only [List.length_cons]; omega)
  obtain ⟨rb, tb, hsb⟩ :=
    hlive (l'.length + rest.length + 1) (by simp only [List.length_cons]; omega)
  have hsets : ∀ (l₁ rest₁ : List Value) (x₁ y₁ w : Value), l₁.length = l'.length →
    rest₁.length = rest.length →
      Sets (Interp.live l₁ (y₁ :: x₁ :: rest₁)) (Interp.live l₁ (w :: rest₁))
          (l'.length + rest.length) w := by
    intro l₁ rest₁ x₁ y₁ w hl₁ hrest₁
    have hsets := sets_last (Interp.live l₁ rest₁) [x₁, y₁] w
    rw [length_live, hl₁, hrest₁] at hsets
    rw [live_cons, live_cons, live_cons, List.append_assoc]
    exact hsets
  obtain ⟨t, ht⟩ := Option.isSome_iff_exists.mp htype
  refine (hyields hbefore hsa hsb (by omega) (by omega) (by omega)).mono fun _ r' ⟨hw, hv⟩ =>
    ⟨hw.advanced, live_writes hlive hw fun j hj => ?_, .of_writes hw ?_,
      fun htyped => htyped.writes hw (by rw [ht]; rfl) (hsets l' rest x y v rfl rfl)⟩
  · simp only [List.length_cons] at hj ⊢
    omega
  · intro e₀ e l₁ ops₁ hat _ hroom hl₁ hops₁ hstands
    match ops₁, hops₁ with
    | y₁ :: x₁ :: rest₁, hops₁ =>
      simp only [List.length_cons] at hops₁
      have hx : (Interp.live l₁ (y₁ :: x₁ :: rest₁))[l'.length + rest.length]? = some x₁ := by
        rw [live_cons, live_cons, List.append_assoc, List.getElem?_append_right (by simp; omega),
          length_live, show l'.length + rest.length - (l₁.length + rest₁.length) = 0 by omega]
        rfl
      have hy : (Interp.live l₁ (y₁ :: x₁ :: rest₁))[l'.length + rest.length + 1]? = some y₁ := by
        rw [live_cons, List.getElem?_append_right (by simp; omega), length_live, List.length_cons,
          show l'.length + rest.length + 1 - (l₁.length + (rest₁.length + 1)) = 0 by omega]
        rfl
      rcases hv e₀ e x₁ y₁ hat hroom (hstands _ _ hx) (hstands _ _ hy) with
        ⟨e', w, hat', hlater, hw', hnew⟩ | ⟨x, e', hgone, hlater, hx, -⟩
      · exact .inl ⟨e', w, hat', hlater, ⟨l₁, w :: rest₁, _, hcompute l₁ x₁ y₁ rest₁ w hw',
          hsets l₁ rest₁ x₁ y₁ w hl₁ (by omega)⟩, hnew⟩
      · exact .inr ⟨x, e', hgone, hlater, hx⟩

/-- An instruction that puts the result of an operation in place of its operand. -/
theorem converted_follows (h : Heard fn c op i l ops ip l' ops' event r) {u : UnOp} {v : Value}
    (hu : unaryOp? op = some u) (hevent : event = .converted u v)
    (htype : (traceType? v).isSome = true)
    {x : Value} {rest : List Value} (hops : ops = x :: rest) (hlists : l' = l ∧ ops' = v :: rest)
    (hcompute : ∀ l₁ x₁ rest₁ v₁, unary u x₁ = some v₁ →
      localStep c op i l₁ (x₁ :: rest₁) = some (.next ip l₁ (v₁ :: rest₁) (.converted u v₁)))
    (haction : actionOf l.length ops.length word event = some action) :
    Tracks c op i l ops ip l' ops' heap action r := by
  subst hevent hops
  obtain ⟨rfl, rfl⟩ := hlists
  have hsmall := h.small
  have hbefore := h.before action
  have hlive := h.live
  simp only [List.length_cons] at hsmall
  obtain rfl := Option.some.inj haction
  have ha : (l'.length : Int) + ((x :: rest).length - 1) =
      ((l'.length + rest.length : Nat) : Int) := by
    simp only [List.length_cons]
    omega
  simp only [ha] at hbefore ⊢
  obtain ⟨ra, ta, hsa⟩ := hlive (l'.length + rest.length) (by simp only [List.length_cons]; omega)
  have hsets : ∀ (l₁ rest₁ : List Value) (x₁ w : Value), l₁.length = l'.length →
    rest₁.length = rest.length →
      Sets (Interp.live l₁ (x₁ :: rest₁)) (Interp.live l₁ (w :: rest₁))
          (l'.length + rest.length) w := by
    intro l₁ rest₁ x₁ w hl₁ hrest₁
    have hsets := sets_last (Interp.live l₁ rest₁) [x₁] w
    rw [length_live, hl₁, hrest₁] at hsets
    rw [live_cons, live_cons]
    exact hsets
  obtain ⟨t, ht⟩ := Option.isSome_iff_exists.mp htype
  refine (unary_yields hu hbefore hsa (by omega) (by omega)).mono fun _ r' ⟨hw, hv⟩ =>
    ⟨hw.advanced, live_writes hlive hw fun j hj => ?_, .of_writes hw ?_,
      fun htyped => htyped.writes hw (by rw [ht]; rfl) (hsets l' rest x v rfl rfl)⟩
  · simp only [List.length_cons] at hj ⊢
    omega
  · intro e₀ e l₁ ops₁ hat _ _ hl₁ hops₁ hstands
    match ops₁, hops₁ with
    | x₁ :: rest₁, hops₁ =>
      simp only [List.length_cons] at hops₁
      have hx : (Interp.live l₁ (x₁ :: rest₁))[l'.length + rest.length]? = some x₁ := by
        rw [live_cons, List.getElem?_append_right (by simp; omega), length_live,
          show l'.length + rest.length - (l₁.length + rest₁.length) = 0 by omega]
        rfl
      rcases hv e₀ e x₁ hat (hstands _ _ hx) with
        ⟨e', w, hat', hlater, hw', hnew⟩ | ⟨x, e', hgone, hlater, hx, -⟩
      · exact .inl ⟨e', w, hat', hlater, ⟨l₁, w :: rest₁, _, hcompute l₁ x₁ rest₁ w hw',
          hsets l₁ rest₁ x₁ w hl₁ (by omega)⟩, hnew⟩
      · exact .inr ⟨x, e', hgone, hlater, hx⟩

/-- A conditional jump: passes on which the condition goes the other way leave before it. -/
theorem branched_follows (h : Heard fn c op i l ops ip l' ops' event r) {taken : Bool}
    {target : Option Int} (hevent : event = .branched taken target) {x : Value} {rest : List Value}
    (hops : ops = x :: rest) (hlists : l' = l ∧ ops' = rest)
    (hjump : ∀ l₁ x₁ rest₁, x₁.truthy = taken → ∃ event,
      localStep c op i l₁ (x₁ :: rest₁) = some (.next ip l₁ rest₁ event))
    (haction : actionOf l.length ops.length word event = some action) :
    Tracks c op i l ops ip l' ops' heap action r := by
  subst hevent hops
  obtain ⟨rfl, rfl⟩ := hlists
  have hsmall := h.small
  have hbefore := h.before action
  have hlive := h.live
  simp only [List.length_cons] at hsmall
  obtain rfl := Option.some.inj haction
  have ha : (l'.length : Int) + ((x :: ops').length - 1) =
      ((l'.length + ops'.length : Nat) : Int) := by
    simp only [List.length_cons]
    omega
  simp only [ha] at hbefore ⊢
  obtain ⟨ra, ta, hsa⟩ := hlive (l'.length + ops'.length) (by simp only [List.length_cons]; omega)
  refine (branch_yields hbefore hsa (by omega) taken).mono fun _ r' ⟨hg, hv⟩ =>
    ⟨Advanced.of_grown hg, fun j hj => hlive.grown hg j (by simp only [List.length_cons]; omega),
      ?_,
      fun htyped => (htyped.grown hg).sublist fun j w hj => ?_⟩
  swap
  · rw [live_cons, List.getElem?_append_left (List.getElem?_eq_some_iff.mp hj).1]
    exact hj
  intro e₀ e l₁ ops₁ hat _ _ hl₁ hops₁ hstands
  match ops₁, hops₁ with
  | x₁ :: rest₁, hops₁ =>
    simp only [List.length_cons] at hops₁
    have hx : (Interp.live l₁ (x₁ :: rest₁))[l'.length + ops'.length]? = some x₁ := by
      rw [live_cons, List.getElem?_append_right (by simp; omega), length_live,
        show l'.length + ops'.length - (l₁.length + rest₁.length) = 0 by omega]
      rfl
    rcases hv e₀ e x₁ hat (hstands _ _ hx)
      with ⟨e', hat', hlater, htaken⟩ | ⟨x, e', hgone, hlater, hx, -⟩
    · obtain ⟨event, hstep⟩ := hjump l₁ x₁ rest₁ htaken
      refine .inl ⟨e', l₁, rest₁, event, hat', hlater, hstep, fun j w hj => ?_⟩
      refine (hstands j w ?_).grown hg hat hlater
      rw [live_cons, List.getElem?_append_left (List.getElem?_eq_some_iff.mp hj).1]
      exact hj
    · exact .inr ⟨x, e', hgone, hlater, hx⟩

/-- Consecutive values of a list. -/
theorem getElem?_live_drop {l ops : List Value} {m j : Nat} (hm : m ≤ ops.length) {v : Value}
    (hj : (ops.take m).reverse[j]? = some v) :
    (Interp.live l ops)[l.length + (ops.length - m) + j]? = some v := by
  have hlt := (List.getElem?_eq_some_iff.mp hj).1
  rw [List.length_reverse, List.length_take] at hlt
  rw [Interp.live, List.getElem?_append_right (by omega),
    show l.length + (ops.length - m) + j - l.length = ops.length - m + j by omega]
  rw [List.getElem?_reverse (by omega)]
  rw [List.getElem?_reverse (by rw [List.length_take]; omega), List.length_take] at hj
  rw [List.getElem?_take] at hj
  split at hj
  · rw [show ops.length - 1 - (ops.length - m + j) = min m ops.length - 1 - j by omega]
    exact hj
  · cases hj

/-- A call of a builtin. -/
theorem called_follows (h : Heard fn c .builtin i l ops ip l' ops' event r)
    {o : Builtin} {v : Value}
    {n : UInt8} (hn : c.byte? (i + 1) = some n) (ho : Builtin.ofByte? n = some o)
    (hevent : event = .called (builtinHelper o) o.arity v) (htype : (traceType? v).isSome = true)
    (harity : o.arity ≤ ops.length)
    (hip : ip = i + Opcode.builtin.size) (hlists : l' = l ∧ ops' = v :: ops.drop o.arity)
    (haction : actionOf l.length ops.length word event = some action) :
    Tracks c .builtin i l ops ip l' ops' heap action r := by
  subst hevent hip
  obtain ⟨rfl, rfl⟩ := hlists
  have hsmall := h.small
  have hbefore := h.before action
  have hlive := h.live
  have hpos : 0 < o.arity := by cases o <;> decide
  obtain rfl := Option.some.inj haction
  have hfirst : (l'.length : Int) + (ops.length - o.arity) =
      ((l'.length + (ops.length - o.arity) : Nat) : Int) := by omega
  have hargs : ((List.range o.arity).map fun (k : Nat) =>
      SlotAddr.ofSlot ((l'.length : Int) + (ops.length - o.arity + k))) =
      (((List.range o.arity).map fun (k : Nat) => l'.length + (ops.length - o.arity) + k).map
        fun (k : Nat) => SlotAddr.ofSlot k) := by
    rw [List.map_map]
    refine List.map_congr_left fun k _ => ?_
    show SlotAddr.ofSlot _ = SlotAddr.ofSlot ((l'.length + (ops.length - o.arity) + k : Nat) : Int)
    congr 1
    omega
  simp only [hfirst, hargs] at hbefore ⊢
  have hks : ∀ j ∈ (List.range o.arity).map fun (k : Nat) => l'.length + (ops.length - o.arity) + k,
      j < 2 ^ 28 ∧ ∃ ref t, r.Sees j ref t := by
    intro j hj
    obtain ⟨k, hk, rfl⟩ := List.mem_map.mp hj
    have hk := List.mem_range.mp hk
    exact ⟨show l'.length + (ops.length - o.arity) + k < 2 ^ 28 by omega,
      hlive _ (show l'.length + (ops.length - o.arity) + k < _ by omega)⟩
  have hsets : ∀ (l₁ ops₁ : List Value) (w : Value), l₁.length = l'.length →
    ops₁.length = ops.length →
      Sets (Interp.live l₁ ops₁) (Interp.live l₁ (w :: ops₁.drop o.arity))
          (l'.length + (ops.length - o.arity)) w := by
    intro l₁ ops₁ w hl₁ hops₁
    have hsets := sets_last (Interp.live l₁ (ops₁.drop o.arity)) (ops₁.take o.arity).reverse w
    rw [length_live, List.length_drop, hl₁, hops₁] at hsets
    have hsplit : Interp.live l₁ ops₁ =
        Interp.live l₁ (ops₁.drop o.arity) ++ (ops₁.take o.arity).reverse := by
      rw [Interp.live, Interp.live, List.append_assoc, ← List.reverse_append, List.take_append_drop]
    rw [live_cons, hsplit]
    exact hsets
  obtain ⟨t, ht⟩ := Option.isSome_iff_exists.mp htype
  refine (call_yields o h.wf hks (by omega)).mono fun _ r' ⟨hw, hv⟩ =>
    ⟨hw.advanced, live_writes hlive hw fun j hj => ?_, .of_writes hw ?_,
      fun htyped => htyped.writes hw (by rw [ht]; rfl) (hsets l' ops v rfl rfl)⟩
  · rw [List.length_cons, List.length_drop] at hj
    omega
  · intro e₀ e l₁ ops₁ hat _ _ hl₁ hops₁ hstands
    obtain ⟨e', w, hat', hlater, happly, hnew⟩ := hv e₀ e (ops₁.take o.arity).reverse hat (by
      refine ⟨by simp; omega, fun j q u hq hu => hstands q u ?_⟩
      rw [List.getElem?_map] at hq
      obtain ⟨k, hk, rfl⟩ := Option.map_eq_some_iff.mp hq
      obtain ⟨hlt, hk⟩ := List.getElem?_eq_some_iff.mp hk
      rw [List.getElem_range] at hk
      subst hk
      have hget := getElem?_live_drop (l := l₁) (m := o.arity) (by omega) hu
      rwa [hl₁, hops₁] at hget)
    refine .inl ⟨e', w, hat', hlater,
      ⟨l₁, w :: ops₁.drop o.arity, .called (builtinHelper o) o.arity w, ?_,
        hsets l₁ ops₁ w hl₁ hops₁⟩, hnew⟩
    simp only [localStep, hn, ho, Option.bind_eq_bind, Option.bind_some]
    rw [if_neg (by omega), happly]

/-- An instruction for an arithmetic operation or a comparison. -/
theorem operation_follows (h : Heard fn c op i l ops ip l' ops' event r) {b : BinOp} {x y : Value}
    {rest : List Value} (hops : ops = y :: x :: rest) {value : Value → Value → Option Value}
    {d : Value → Value → Text} (htyped : ∀ {v}, value x y = some v → (traceType? v).isSome = true)
    (hlocal : ∀ l₁ x₁ y₁ rest₁, localStep c op i l₁ (y₁ :: x₁ :: rest₁) =
      some (.ofValue (value x₁ y₁)
        (fun v => .next ((i : Int) + op.size) l₁ (v :: rest₁) (.computed b v)) (d x₁ y₁)))
    (hyields : ∀ {p n k ka kb a a' ta tb seen}, Before r p n → r.Sees ka a ta → r.Sees kb a' tb →
      ka < 2 ^ 28 → kb < 2 ^ 28 → k < 2 ^ 28 →
      Yields (Recorder.binary p b (.ofSlot (ka : Nat)) (.ofSlot (kb : Nat))
        ⟨.ofSlot (k : Nat), seen⟩) r
        fun _ r' => Writes r r' k seen ∧ ∀ e₀ e va vb, At e₀ r e →
          e₀.heap.size + r'.buffer.size < 2 ^ 32 → Stands r e ka va → Stands r e kb vb →
          Mirrors p n r r' e₀ e k seen fun v => value va vb = some v)
    (haction : actionOf l.length ops.length word event = some action) :
    Tracks c op i l ops ip l' ops' heap action r := by
  have hstep := h.step
  rw [hops, hlocal] at hstep
  obtain ⟨v, hv, rfl, hl, hops', hevent⟩ := LocalOutcome.ofValue_eq_next (Option.some.inj hstep)
  refine computed_follows h hevent (htyped hv) hops ⟨hl, hops'⟩
    (fun l₁ x₁ y₁ rest₁ v₁ hv₁ => ?_) hyields haction
  rw [hlocal, hv₁]
  rfl

/-- An instruction for an arithmetic operation. -/
theorem arithmetic_follows (h : Heard fn c op i l ops ip l' ops' event r) {b : BinOp}
    (hb : arithOp? op = some b) {x y : Value} {rest : List Value} (hops : ops = y :: x :: rest)
    (haction : actionOf l.length ops.length word event = some action) :
    Tracks c op i l ops ip l' ops' heap action r := by
  refine operation_follows h hops arith_typed (fun l₁ x₁ y₁ rest₁ => ?_) (arith_yields hb) haction
    (d := fun x y => "cannot " ++ b.name ++ " " ++ x.typeName ++ " and " ++ y.typeName)
  cases op <;> first | (cases hb; done) | (cases hb; rfl)

/-- An instruction for a comparison. -/
theorem comparison_follows (h : Heard fn c op i l ops ip l' ops' event r) {b : BinOp}
    (hb : compareOp? op = some b) {x y : Value} {rest : List Value} (hops : ops = y :: x :: rest)
    (haction : actionOf l.length ops.length word event = some action) :
    Tracks c op i l ops ip l' ops' heap action r := by
  refine operation_follows h hops compare_typed (fun l₁ x₁ y₁ rest₁ => ?_)
      (fun hr hx hy hkx hky hk =>
    (comparison_yields hb hr hx hy hkx hky hk).mono fun _ r' ⟨hw, hv⟩ =>
      ⟨hw, fun e₀ e va vb hat _ => hv e₀ e va vb hat⟩) haction
    (d := fun x y => "cannot compare " ++ x.typeName ++ " and " ++ y.typeName)
  cases op <;> first | (cases hb; done) | (cases hb; rfl)

/-- An instruction for an operation on one value. -/
theorem conversion_follows (h : Heard fn c op i l ops ip l' ops' event r) {u : UnOp}
    (hu : unaryOp? op = some u) {x : Value} {rest : List Value} (hops : ops = x :: rest)
    (haction : actionOf l.length ops.length word event = some action) :
    Tracks c op i l ops ip l' ops' heap action r := by
  have hlocal : ∀ l₁ x₁ rest₁, localStep c op i l₁ (x₁ :: rest₁) =
      some (.ofValue (unary u x₁)
        (fun v => .next ((i : Int) + op.size) l₁ (v :: rest₁) (.converted u v))
        ("cannot " ++ u.name ++ " " ++ x₁.typeName)) := by
    intro l₁ x₁ rest₁
    cases op <;> first | (cases hu; done) | (cases hu; rfl)
  have hstep := h.step
  rw [hops, hlocal] at hstep
  obtain ⟨v, hv, rfl, hl, hops', hevent⟩ := LocalOutcome.ofValue_eq_next (Option.some.inj hstep)
  refine converted_follows h hu hevent (unary_typed hv) hops ⟨hl, hops'⟩
    (fun l₁ x₁ rest₁ v₁ hv₁ => ?_) haction
  rw [hlocal, hv₁]
  rfl

/-- The top of the operands is copied. -/
theorem dup_follows (h : Heard fn c .dup i l ops ip l' ops' event r)
    (haction : actionOf l.length ops.length word event = some action) :
    Tracks c .dup i l ops ip l' ops' heap action r := by
  have hstep := h.step
  cases ops with
  | nil => cases hstep
  | cons v rest =>
    cases hstep
    refine copied_follows h (j := l.length + rest.length) (k := l.length + rest.length + 1) (v := v)
      ?_ ?_ ?_ ?_ ?_ haction
    · simp only [List.length_cons]
      congr 1; omega
    · simp only [List.length_cons]
      omega
    · simp only [List.length_cons]
      omega
    · simp only [List.length_cons]
      omega
    · intro l₁ ops₁ hl₁ hops₁
      match ops₁, hops₁ with
      | v₁ :: rest₁, hops₁ =>
        simp only [List.length_cons] at hops₁
        refine ⟨l₁, v₁ :: v₁ :: rest₁, _, _, v₁, ?_, rfl, ?_⟩
        · rw [live_cons, List.getElem?_append_right (by simp; omega), length_live,
            show l.length + rest.length - (l₁.length + rest₁.length) = 0 by omega]
          rfl
        · have hsets := sets_last (Interp.live l₁ (v₁ :: rest₁)) [] v₁
          rw [List.append_nil, length_live, List.length_cons,
            show l₁.length + (rest₁.length + 1) = l.length + rest.length + 1 by omega] at hsets
          rw [live_cons l₁ (v₁ :: rest₁)]
          exact hsets

/-- A local is copied to the top of the operands. -/
theorem load_follows (h : Heard fn c .load i l ops ip l' ops' event r)
    (haction : actionOf l.length ops.length word event = some action) :
    Tracks c .load i l ops ip l' ops' heap action r := by
  have hstep := h.step
  have hlocals := h.locals
  obtain ⟨n, hn, hlt⟩ := h.whole.slot rfl
  simp only [localStep, hn, Option.bind_eq_bind, Option.bind_some] at hstep
  obtain ⟨v, hv, hstep⟩ := Option.bind_eq_some_iff.mp hstep
  cases hstep
  refine copied_follows h (j := n.toNat) (k := l.length + ops.length) (v := v)
    (by rw [Int.natCast_add]) (by omega) (by omega) ?_ ?_ haction
  · simp only [List.length_cons]
    omega
  · intro l₁ ops₁ hl₁ hops₁
    obtain ⟨v₁, hget⟩ : ∃ v₁, l₁[n.toNat]? = some v₁ := ⟨_, List.getElem?_eq_getElem (by omega)⟩
    refine ⟨l₁, v₁ :: ops₁, n.toNat, (l₁.length : Int) + ops₁.length, v₁, ?_, ?_, ?_⟩
    · rw [Interp.live, List.getElem?_append_left (by omega)]
      exact hget
    · simp only [localStep, hn, hget, Option.bind_eq_bind, Option.bind_some]
      rfl
    · have hsets := sets_last (Interp.live l₁ ops₁) [] v₁
      rw [List.append_nil, length_live, hl₁, hops₁] at hsets
      rw [live_cons]
      exact hsets

/-- The top of the operands goes to a local. -/
theorem store_follows (h : Heard fn c .store i l ops ip l' ops' event r)
    (haction : actionOf l.length ops.length word event = some action) :
    Tracks c .store i l ops ip l' ops' heap action r := by
  have hstep := h.step
  have hlocals := h.locals
  obtain ⟨n, hn, hlt⟩ := h.whole.slot rfl
  cases ops with
  | nil => cases hstep
  | cons v rest =>
    simp only [localStep, hn, Option.bind_eq_bind, Option.bind_some] at hstep
    obtain ⟨rfl, rfl, rfl, rfl⟩ := LocalOutcome.next.inj (Option.some.inj hstep)
    refine copied_follows h (j := l.length + rest.length) (k := n.toNat)
      (v := v) ?_ ?_ ?_ ?_ ?_ haction
    · simp only [List.length_cons]
      congr 1
      omega
    · simp only [List.length_cons]
      omega
    · omega
    · simp only [List.length_cons, List.length_set]
      omega
    · intro l₁ ops₁ hl₁ hops₁
      cases ops₁ with
      | nil => cases hops₁
      | cons v₁ rest₁ =>
        simp only [List.length_cons] at hops₁
        refine ⟨l₁.set n.toNat v₁, rest₁, (l₁.length : Int) + (v₁ :: rest₁).length - 1,
          n.toNat, v₁, ?_, ?_, ?_⟩
        · rw [live_cons, List.getElem?_append_right (by simp; omega), length_live,
            show l.length + rest.length - (l₁.length + rest₁.length) = 0 by omega]
          rfl
        · simp only [localStep, hn, Option.bind_eq_bind, Option.bind_some]
          rfl
        · exact sets_store rest₁ (by omega) v₁

/-- Events without an action. -/
theorem actionOf_none {locals depth : Int} (h : actionOf locals depth word event = none) :
    event = .quiet ∨ ∃ header, event = .looped header := by
  cases event with
  | quiet => exact .inl rfl
  | looped header => exact .inr ⟨header, rfl⟩
  | pushed v =>
    cases ht : traceType? v <;> simp [actionOf, ht] at h
  | copied source target v =>
    cases ht : traceType? v <;> simp [actionOf, ht] at h
  | computed | converted | branched | called => cases h

/-- The instructions with such events. -/
theorem localStep_quiet (h : localStep c op i l ops = some (.next ip l' ops' event))
    (hquiet : event = .quiet ∨ ∃ header, event = .looped header) :
    op = .pop ∨ op = .jump ∨ op = .loop := by
  have hno : ∀ v, event ≠ .pushed v ∧ (∀ a b, event ≠ .copied a b v) ∧
      (∀ b, event ≠ .computed b v) ∧ (∀ u, event ≠ .converted u v) ∧
      (∀ a b, event ≠ .branched a b) ∧ ∀ d n, event ≠ .called d n v := by
    rcases hquiet with rfl | ⟨header, rfl⟩ <;> simp
  cases op with
  | pop => exact .inl rfl
  | jump => exact .inr (.inl rfl)
  | loop => exact .inr (.inr rfl)
  | const =>
    obtain ⟨n, -, h⟩ := Option.bind_eq_some_iff.mp h
    obtain ⟨v, -, h⟩ := Option.bind_eq_some_iff.mp h
    cases h
    exact absurd rfl (hno v).1
  | null | true | false =>
    cases h
    exact absurd rfl (hno _).1
  | load =>
    obtain ⟨n, -, h⟩ := Option.bind_eq_some_iff.mp h
    obtain ⟨v, -, h⟩ := Option.bind_eq_some_iff.mp h
    cases h
    exact absurd rfl ((hno v).2.1 _ _)
  | dup =>
    cases ops with
    | nil => cases h
    | cons v rest =>
      cases h
      exact absurd rfl ((hno v).2.1 _ _)
  | store =>
    cases ops with
    | nil => cases h
    | cons v rest =>
      obtain ⟨n, -, h⟩ := Option.bind_eq_some_iff.mp h
      cases h
      exact absurd rfl ((hno v).2.1 _ _)
  | jumpIfFalse | jumpIfTrue =>
    cases ops with
    | nil => cases h
    | cons v rest =>
      cases h
      exact absurd rfl ((hno v).2.2.2.2.1 _ _)
  | builtin =>
    obtain ⟨n, -, h⟩ := Option.bind_eq_some_iff.mp h
    obtain ⟨o, -, h⟩ := Option.bind_eq_some_iff.mp h
    split at h
    · cases h
    · split at h
      · cases h
        exact absurd rfl ((hno _).2.2.2.2.2 _ _)
      · cases h
  | call | ret | print | halt => cases ops <;> cases h
  | neg | bitNot | not =>
    cases ops with
    | nil => cases h
    | cons x rest =>
      obtain ⟨v, -, -, -, -, hevent⟩ := LocalOutcome.ofValue_eq_next (Option.some.inj h)
      exact absurd hevent ((hno v).2.2.2.1 _)
  | add | sub | mul | div | mod | bitAnd | bitOr | bitXor | shl | shr | eq | ne
  | lt | le | gt | ge =>
    match ops, h with
    | y :: x :: rest, h =>
      obtain ⟨v, -, -, -, -, hevent⟩ := LocalOutcome.ofValue_eq_next (Option.some.inj h)
      exact absurd hevent ((hno v).2.2.1 _)

/-- An instruction that nothing is recorded of. -/
theorem quiet_follows (h : Heard fn c op i l ops ip l' ops' event r)
    (hquiet : actionOf l.length ops.length word event = none) (hloop : op ≠ .loop)
    (heap : StringHeap)
    (p : Primitive) :
    r.Live (l'.length + ops'.length) ∧ Follows c op i ip heap p l.length ops.length r r ∧
      (TypedAs r (Interp.live l ops) → TypedAs r (Interp.live l' ops')) := by
  have hstep := h.step
  rcases localStep_quiet hstep (actionOf_none hquiet) with rfl | rfl | rfl
  · cases ops with
    | nil => cases hstep
    | cons v rest =>
      cases hstep
      refine ⟨fun j hj => h.live j (by rw [List.length_cons]; omega), ?_,
        fun htyped => htyped.sublist fun j w hj => ?_⟩
      swap
      · rw [live_cons, List.getElem?_append_left (List.getElem?_eq_some_iff.mp hj).1]
        exact hj
      intro e₀ e l₁ ops₁ hat _ _ hl₁ hops₁ hstands
      match ops₁, hops₁ with
      | v₁ :: rest₁, _ =>
        refine .inl ⟨e, l₁, rest₁, .quiet, hat, .refl e, rfl, fun j w hj => hstands j w ?_⟩
        rw [live_cons, List.getElem?_append_left (List.getElem?_eq_some_iff.mp hj).1]
        exact hj
  · cases hstep
    exact ⟨h.live, fun e₀ e l₁ ops₁ hat _ _ _ _ hstands =>
      .inl ⟨e, l₁, ops₁, .quiet, hat, .refl e, rfl, hstands⟩, fun htyped => htyped⟩
  · exact absurd rfl hloop

/-- Recording follows execution: the primitive that an executed instruction is reported as. -/
theorem primitive_follows (h : Heard fn c op i l ops ip l' ops' event r)
    (haction : actionOf l.length ops.length word event = some action)
    (hword : Pushes heap word event) : Tracks c op i l ops ip l' ops' heap action r := by
  have hstep := h.step
  cases op with
  | const =>
    obtain ⟨n, hn, hlt⟩ := h.whole.constant rfl
    have hget : c.constants[n.toNat]? = some c.constants[n.toNat] := Array.getElem?_eq_getElem hlt
    simp only [localStep, hn, hget, Option.bind_eq_bind, Option.bind_some] at hstep
    cases hstep
    refine pushed_follows h (v := c.constants[n.toNat]) (fun l₁ ops₁ => ?_) haction hword
    simp only [localStep, hn, hget, Option.bind_eq_bind, Option.bind_some]
    rfl
  | null | true | false =>
    cases hstep
    exact pushed_follows h (fun _ _ => rfl) haction hword
  | jump | loop =>
    cases hstep
    cases haction
  | pop =>
    cases ops with
    | nil => cases hstep
    | cons v rest =>
      cases hstep
      cases haction
  | dup => exact dup_follows h haction
  | load => exact load_follows h haction
  | store => exact store_follows h haction
  | jumpIfFalse | jumpIfTrue =>
    cases ops with
    | nil => cases hstep
    | cons v rest =>
      cases hstep
      refine branched_follows h rfl rfl ⟨rfl, rfl⟩
        (fun l₁ x₁ rest₁ hx => ⟨.branched v.truthy (some (c.jumpTarget i)), ?_⟩) haction
      simp only [localStep, hx]
  | builtin =>
    obtain ⟨n, o, hn, ho⟩ := h.whole.builtin
    simp only [localStep, hn, ho, Option.bind_eq_bind, Option.bind_some] at hstep
    split at hstep
    · cases hstep
    · next harity =>
      split at hstep
      · next happly =>
        cases hstep
        exact called_follows h hn ho rfl (applyBuiltin_typed happly) (by omega) rfl
          ⟨rfl, rfl⟩ haction
      · cases hstep
  | call | ret | print | halt => cases ops <;> cases hstep
  | neg | bitNot | not =>
    cases ops with
    | nil => cases hstep
    | cons x rest => exact conversion_follows h rfl rfl haction
  | add | sub | mul | div | mod | bitAnd | bitOr | bitXor | shl | shr =>
    obtain _ | ⟨y, _ | ⟨x, rest⟩⟩ := ops
    · cases hstep
    · cases hstep
    · exact arithmetic_follows h rfl rfl haction
  | eq | ne | lt | le | gt | ge =>
    obtain _ | ⟨y, _ | ⟨x, rest⟩⟩ := ops
    · cases hstep
    · cases hstep
    · exact comparison_follows h rfl rfl haction

end Follows

end LoopTracer.Interp
