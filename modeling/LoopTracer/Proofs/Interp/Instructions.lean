import LoopTracer.Proofs.Interp.Builtins

/-! What every instruction leaves alone.

However an instruction ends, of verified code or not, the string heap has the strings that it had
before, and every frame runs a function that one ran before or that is loaded (`Regular`). Builtins
are the only instructions that use the heap: they drop again what they put there. -/
namespace LoopTracer.Interp

open Bytecode Trace

/-- Nothing but the stack and the counters has changed: the frames run what they ran. -/
structure Aside (s s' : State) : Prop where
  heap : s'.heap = s.heap
  frames : s'.frames.map (·.fn) = s.frames.map (·.fn)

/-- On an indexed heap: the strings stay the same, and the frames run what they ran. -/
def Steady (s s' : State) : Prop := s.heap.Indexed →
  s'.heap.Indexed ∧ s'.heap.strings = s.heap.strings ∧ s'.frames.map (·.fn) = s.frames.map (·.fn)

/-- On an indexed heap: the strings stay the same, and frames are made for loaded functions only. -/
def Regular (units : Units) (s s' : State) : Prop := s.heap.Indexed →
  s'.heap.Indexed ∧ s'.heap.strings = s.heap.strings ∧
    ∀ f' ∈ s'.frames, (∃ f ∈ s.frames, f.fn = f'.fn) ∨ ∃ ref, units.function? ref = some f'.fn

/-- A relation that allows for changes of the stack. -/
class Lax (R : State → State → Prop) : Prop extends IsPreorder State R where
  aside : ∀ {s s'}, Aside s s' → R s s'

/-- What stops a computation may be a fault. -/
class Forgiving (E : Stop → Prop) : Prop where
  fault : ∀ f, E (.fault f)

/-- A fault stops the interpreter. -/
def Faulty (stop : Stop) : Prop := ∃ f, stop = .fault f

instance : Forgiving Faulty := ⟨fun f => ⟨f, rfl⟩⟩

/-- What stops a computation may be anything but that the outermost call returns. -/
class Tolerant (E : Stop → Prop) : Prop extends Forgiving E where
  error : ∀ e, E (.error e)
  printFailed : E .printFailed

/-- The outermost call goes on. -/
def Unreturned (stop : Stop) : Prop := ∀ v, stop ≠ .returned v

instance : Tolerant fun _ => True where
  fault _ := trivial
  error _ := trivial
  printFailed := trivial

instance : Tolerant Unreturned where
  fault _ := nofun
  error _ := nofun
  printFailed := nofun

variable {units : Units} {s s' : State} {α : Type}

instance : Lax Aside where
  refl _ := ⟨rfl, rfl⟩
  trans _ _ _ h h' := ⟨h'.heap.trans h.heap, h'.frames.trans h.frames⟩
  aside h := h

theorem Steady.of_same (hheap : s.heap.Same s'.heap)
    (hframes : s'.frames.map (·.fn) = s.frames.map (·.fn)) : Steady s s' :=
  fun hi => ⟨(hheap hi).1, (hheap hi).2, hframes⟩

theorem Aside.steady (h : Aside s s') : Steady s s' :=
  .of_same (h.heap ▸ refl_of StringHeap.Same _) h.frames

instance : Lax Steady where
  refl _ := Aside.steady (refl_of Aside _)
  trans _ _ _ h h' hi := by
    obtain ⟨hi₁, hstrings₁, hframes₁⟩ := h hi
    obtain ⟨hi₂, hstrings₂, hframes₂⟩ := h' hi₁
    exact ⟨hi₂, hstrings₂.trans hstrings₁, hframes₂.trans hframes₁⟩
  aside := Aside.steady

theorem Steady.regular (h : Steady s s') : Regular units s s' := by
  refine fun hi => ⟨(h hi).1, (h hi).2.1, fun f' hf' => .inl ?_⟩
  have hfn : f'.fn ∈ s.frames.map (·.fn) := (h hi).2.2 ▸ List.mem_map_of_mem hf'
  exact List.mem_map.mp hfn

instance : Lax (Regular units) where
  refl _ := Steady.regular (refl_of Steady _)
  trans _ _ _ h h' hi := by
    obtain ⟨hi₁, hstrings₁, hframes₁⟩ := h hi
    obtain ⟨hi₂, hstrings₂, hframes₂⟩ := h' hi₁
    refine ⟨hi₂, hstrings₂.trans hstrings₁, fun f' hf' => ?_⟩
    obtain ⟨f, hf, heq⟩ | hloaded := hframes₂ f' hf'
    · rw [← heq]
      exact hframes₁ f hf
    · exact .inr hloaded
  aside h := h.steady.regular

theorem Steady.keeps {x : Interpreting α} (h : Keeps Steady (fun _ => True) x) :
    Keeps (Regular units) (fun _ => True) x :=
  h.mono (fun _ _ => Steady.regular) fun _ h => h

/-! ### The stack and the frames -/

section Lax

variable {R : State → State → Prop} [Lax R] {E : Stop → Prop} [Forgiving E]

theorem keeps_faulty : Keeps R E (faulty : Interpreting α) := .throw (Forgiving.fault _)

omit [Forgiving E] in
theorem keeps_failing [Tolerant E] (detail : Text) : Keeps R E (failing detail : Interpreting α) :=
  fun s => ⟨refl_of R s, Tolerant.error _⟩

theorem keeps_ofOption (o : Option α) : Keeps R E (ofOption o) := by
  cases o with
  | none => exact keeps_faulty
  | some a => exact .pure a

theorem keeps_read (i : Int) : Keeps R E (read i) := by
  intro s
  unfold KeepsAt read
  split_ifs
  · exact ⟨refl_of R s, Forgiving.fault _⟩
  · cases s.stack[i.toNat]? with
    | none => exact ⟨refl_of R s, Forgiving.fault _⟩
    | some v => exact refl_of R s

theorem keeps_write (i : Int) (v : Value) : Keeps R E (write i v) := by
  intro s
  unfold KeepsAt write
  split_ifs
  · exact ⟨refl_of R s, Forgiving.fault _⟩
  · exact Lax.aside ⟨rfl, rfl⟩

omit [Forgiving E] in
theorem keeps_setSp (sp : Int) : Keeps R E (setSp sp) := fun _ => Lax.aside ⟨rfl, rfl⟩

theorem keeps_push (v : Value) : Keeps R E (push v) := by
  intro s
  unfold KeepsAt push
  split_ifs
  · exact ⟨refl_of R s, Forgiving.fault _⟩
  · exact Lax.aside ⟨rfl, rfl⟩

theorem keeps_pop : Keeps R E pop := by
  intro s
  have hsp : R s { s with sp := s.sp - 1 } := Lax.aside ⟨rfl, rfl⟩
  unfold KeepsAt pop
  dsimp only
  split_ifs
  · exact ⟨hsp, Forgiving.fault _⟩
  · cases s.stack[(s.sp - 1).toNat]? with
    | none => exact ⟨hsp, Forgiving.fault _⟩
    | some v => exact hsp

theorem keeps_peek (distance : Int) : Keeps R E (peek distance) := fun s => keeps_read _ s

theorem keeps_jumpTo (ip : Int) : Keeps R E (jumpTo ip) := by
  intro s
  unfold KeepsAt jumpTo
  cases hframes : s.frames with
  | nil => exact ⟨refl_of R s, Forgiving.fault _⟩
  | cons f rest => exact Lax.aside ⟨rfl, by rw [hframes]; rfl⟩

theorem keeps_clear (i : Int) (n : Nat) : Keeps R E (clear i n) := by
  induction n generalizing i with
  | zero => exact .pure _
  | succ n ih => exact .bind (keeps_write i .null) fun _ => ih (i + 1)

omit [Forgiving E] in
theorem keeps_fetch [Tolerant E] : Keeps R E fetch := by
  intro s
  unfold KeepsAt fetch
  cases hframes : s.frames with
  | nil => exact ⟨refl_of R s, Forgiving.fault _⟩
  | cons f rest =>
    dsimp only
    cases f.fn.chunk with
    | none => exact ⟨refl_of R s, Forgiving.fault _⟩
    | some chunk =>
      dsimp only
      split_ifs
      · exact ⟨refl_of R s, Tolerant.error _⟩
      · cases chunk.byte? f.ip with
        | none => exact ⟨refl_of R s, Forgiving.fault _⟩
        | some byte => exact Lax.aside ⟨rfl, by rw [hframes]; rfl⟩

theorem keeps_readMany (i : Int) (n : Nat) : Keeps R E (readMany i n) := by
  induction n generalizing i with
  | zero => exact .pure _
  | succ n ih => exact .bind (keeps_read i) fun _ => .bind (ih (i + 1)) fun _ => .pure _

theorem keeps_replace (v : Value) (n : Int) : Keeps R E (executeOp.replace v n) :=
  .bind .get fun _ => .bind (keeps_setSp _) fun _ => keeps_write _ _

omit [Forgiving E] in
theorem keeps_pushFrame [Tolerant E] (fn : Function) (argc : Nat) (hframe : ∀ s sp bp counters,
    R s { s with sp, frames := { fn, ip := 0, bp } :: s.frames, counters }) : Keeps R E
      (pushFrame fn argc) := by
  unfold pushFrame
  refine .bind .get fun s₀ => ?_
  have hmade : Keeps R E (do
      clear (s₀.sp - argc + argc) (fn.locals - argc).toNat
      modify fun s => { s with
        sp := s₀.sp - argc + fn.locals
        frames := { fn, ip := 0, bp := s₀.sp - argc } :: s.frames
        counters := { s.counters with calls := s.counters.calls + 1 } } : Interpreting Unit) :=
    .bind (keeps_clear _ _) fun _ => .modify fun s => hframe s _ _ _
  dsimp only
  split_ifs
  · exact .bind (keeps_failing _) fun _ => .bind (keeps_failing _) fun _ => hmade
  · exact .bind (keeps_failing _) fun _ => hmade
  · exact .bind (keeps_failing _) fun _ => hmade
  · exact hmade

end Lax

theorem pushFrame_regular {fn : Function} {ref : FuncRef}
    (hfn : units.function? ref = some fn) (argc : Nat) :
    Keeps (Regular units) (fun _ => True) (pushFrame fn argc) := by
  refine keeps_pushFrame fn argc fun s sp bp counters hi => ⟨hi, rfl, fun f' hf' => ?_⟩
  rcases List.mem_cons.mp hf' with rfl | hf'
  · exact .inr ⟨ref, hfn⟩
  · exact .inl ⟨f', hf', rfl⟩

theorem leave_regular (frame : Frame) (result : Value) :
    Keeps (Regular units) (fun _ => True) (leave frame result) := by
  unfold leave
  refine .bind (.modify fun s hi =>
      ⟨hi, rfl, fun f' hf' => .inl ⟨f', List.mem_of_mem_tail hf', rfl⟩⟩) fun _ =>
    .bind .get fun s => ?_
  split_ifs
  · exact .bind (.throw trivial) fun _ => .bind (keeps_push _) fun _ => .pure _
  · exact .bind (keeps_push _) fun _ => .pure _

/-! ### Builtins -/

theorem length_readMany {i : Int} {n : Nat} {args : List Value}
    (h : readMany i n s = .ok args s') : args.length = n := by
  induction n generalizing i args s s' with
  | zero =>
    cases h
    rfl
  | succ n ih =>
    obtain ⟨v, s₁, -, h⟩ := bind_eq_ok h
    obtain ⟨rest, s₂, hrest, h⟩ := bind_eq_ok h
    cases h
    rw [List.length_cons, ih hrest]

/-- A helper that looks at one string. -/
theorem callBuiltin_string_steady {d : Helper} (hptr : d.args[0]? = some .ptr)
    (hrun : ∀ (h : StringHeap) (a : UInt64) (t : Text), h.lookup a.toUInt32 = .ok t →
      ∃ w v, d.run h [a] = .ok (w, h) ∧ rebox h w d.resultType = .ok v) (x :
      Value) (hi : s.heap.Indexed) :
    KeepsAt Steady (fun _ => True) (callBuiltin d [x]) s := by
  have hargs : builtinArgs d 0 [x] s = _ := builtinArgs_ptr hptr
  by_cases hx : x.isString = true
  · rw [if_pos hx] at hargs
    obtain ⟨t, ht⟩ : ∃ t, (s.heap.intern x.asString).1.lookup (s.heap.intern x.asString).2 =
        .ok t :=
      ⟨_, StringHeap.lookup_of_strings (Array.getElem?_eq_getElem (hi.intern_lt x.asString))⟩
    rw [← handle_of_word (s.heap.intern x.asString).2] at ht
    obtain ⟨w, v, hw, hv⟩ := hrun _ _ t ht
    refine (keepsAt_ok (callBuiltin_pure hargs hw hv)).mpr ?_
    exact .of_same (StringHeap.truncate_grown (StringHeap.grows_intern _ _)) rfl
  · rw [if_neg hx] at hargs
    exact (keepsAt_error (callBuiltin_error hargs)).mpr ⟨refl_of Steady s, trivial⟩

/-- Calling a builtin. -/
theorem callBuiltin_steady (b : Builtin) {args : List Value} (hlen : args.length = b.arity)
    (hi : s.heap.Indexed) :
    KeepsAt Steady (fun _ => True) (callBuiltin (builtinHelper b) args) s := by
  have float : ∀ {id name f x}, id ≠ 3 →
      KeepsAt Steady (fun _ => True) (callBuiltin (floatHelper id name f) [x]) s := by
    intro id name f x hid
    have heq := callBuiltin_floatHelper hid name f x s
    cases hx : onNumber name f x with
    | ok v =>
      rw [hx] at heq
      exact (keepsAt_ok heq).mpr (refl_of Steady s)
    | error detail =>
      rw [hx] at heq
      exact (keepsAt_error heq).mpr ⟨refl_of Steady s, trivial⟩
  cases b with
  | sqrt =>
    obtain ⟨x, rfl⟩ := List.length_eq_one_iff.mp hlen
    exact float (by decide)
  | floor =>
    obtain ⟨x, rfl⟩ := List.length_eq_one_iff.mp hlen
    exact float (by decide)
  | abs =>
    obtain ⟨x, rfl⟩ := List.length_eq_one_iff.mp hlen
    exact float (by decide)
  | fmod =>
    match args, hlen with
    | [x, y], _ =>
      have hfirst : builtinArgs (builtinHelper .fmod) 0 [x, y] s = _ := builtinArgs_float rfl
      have hsecond : builtinArgs (builtinHelper .fmod) 1 [y] s = _ := builtinArgs_float rfl
      have refused : ∀ {e}, builtinArgs (builtinHelper .fmod) 0 [x, y] s = .error e s →
          KeepsAt Steady (fun _ => True) (callBuiltin (builtinHelper .fmod) [x, y]) s := fun he =>
        (keepsAt_error (callBuiltin_error he)).mpr ⟨refl_of Steady s, trivial⟩
      cases hx : x.isNumber with
      | false =>
        rw [hx] at hfirst
        exact refused hfirst
      | true =>
        rw [hx, if_pos rfl] at hfirst
        cases hy : y.isNumber with
        | false =>
          rw [hy] at hsecond
          exact refused (hfirst.trans (bind_error hsecond))
        | true =>
          rw [hy, if_pos rfl] at hsecond
          refine (keepsAt_ok (callBuiltin_pure (hfirst.trans (bind_ok hsecond)) rfl rfl)).mpr ?_
          exact Aside.steady ⟨truncate_self, rfl⟩
  | len =>
    obtain ⟨x, rfl⟩ := List.length_eq_one_iff.mp hlen
    refine callBuiltin_string_steady rfl
      (fun h a t ht => ⟨(Int32.ofNat t.size).toInt64.toUInt64, _, ?_, rfl⟩) x hi
    simp only [builtinHelper, Helper.length, Helper.unary, Helper.stringOf, ht]
    rfl
  | number =>
    obtain ⟨x, rfl⟩ := List.length_eq_one_iff.mp hlen
    refine callBuiltin_string_steady rfl
      (fun h a t ht => ⟨(Helper.toNumber t).bits, _, ?_, rfl⟩) x hi
    simp only [builtinHelper, Helper.number, Helper.unary, Helper.stringOf, ht]
    rfl

/-! ### Instructions -/

/-- It is enough to look at heaps that are indexed. -/
theorem keepsAt_steady {x : Interpreting α}
    (h : s.heap.Indexed → KeepsAt Steady (fun _ => True) x s) :
    KeepsAt Steady (fun _ => True) x s := by
  by_cases hi : s.heap.Indexed
  · exact h hi
  · cases hx : x s with
    | ok a s' => exact (keepsAt_ok hx).mpr fun hi' => absurd hi' hi
    | error e s' => exact (keepsAt_error hx).mpr ⟨fun hi' => absurd hi' hi, trivial⟩

theorem builtin_steady (i : Fetched) :
    Keeps Steady (fun _ => True) (executeOp units .standard i .builtin) := by
  refine .bind (keeps_ofOption _) fun n => .bind (keeps_ofOption _) fun b => ?_
  rw [standard_get]
  dsimp only
  rw [pure_bind]
  refine .bind .get fun s₀ s => keepsAt_steady fun hi => ?_
  refine .bind (keeps_readMany _ _ s) fun args s₁ hargs => ?_
  have hread : Keeps Steady (fun _ => True) (readMany (s₀.sp - b.arity) b.arity) :=
    keeps_readMany _ _
  refine .bind (callBuiltin_steady b (length_readMany hargs) (hread.ok hargs hi).1) fun v s₂ _ => ?_
  exact Keeps.bind (keeps_setSp _) (fun _ => .bind (keeps_push _) fun _ => .pure _) s₂

section Lax

variable {R : State → State → Prop} [Lax R] {E : Stop → Prop} [Tolerant E]

/-- An operation on values that takes its operands from the stack. -/
theorem keeps_operate (o : Option Value) (complaint : Text) (drop : Int) (event : Value → Event) :
    Keeps R E (match o with
      | none => failing complaint
      | some v => do
        executeOp.replace v drop
        return event v : Interpreting Event) := by
  cases o with
  | none => exact keeps_failing _
  | some v => exact .bind (keeps_replace _ _) fun _ => .pure _

/-- All instructions but calls, returns and builtins work on the stack alone. -/
theorem keeps_executeOp {helpers : HelperTable} (i : Fetched) {op : Opcode} (hcall : op ≠ .call)
    (hret : op ≠ .ret)
    (hhalt : op = .halt → E (.returned .null))
    (hbuiltin : op = .builtin → Keeps R E (executeOp units helpers i .builtin)) :
    Keeps R E (executeOp units helpers i op) := by
  have hbranch : ∀ (taken want : Bool), Keeps R E (do
      if taken == want then jumpTo (← ofOption (i.chunk.target? i.pc))
      return .branched taken (i.chunk.target? i.pc) : Interpreting Event) := by
    intro taken want
    dsimp only
    split_ifs
    · exact .bind (keeps_ofOption _) fun _ => .bind (keeps_jumpTo _) fun _ => .pure _
    · exact .pure _
  cases op with
  | call => exact absurd rfl hcall
  | ret => exact absurd rfl hret
  | builtin => exact hbuiltin rfl
  | const =>
    exact .bind (keeps_ofOption _) fun _ => .bind (keeps_ofOption _) fun _ =>
      .bind (keeps_push _) fun _ => .pure _
  | null => exact .bind (keeps_push _) fun _ => .pure _
  | true => exact .bind (keeps_push _) fun _ => .pure _
  | false => exact .bind (keeps_push _) fun _ => .pure _
  | pop => exact .bind keeps_pop fun _ => .pure _
  | dup => exact .bind (keeps_peek _) fun _ => .bind (keeps_push _) fun _ => .pure _
  | load =>
    exact .bind (keeps_ofOption _) fun _ => .bind (keeps_read _) fun _ =>
      .bind (keeps_push _) fun _ => .pure _
  | store =>
    exact .bind (keeps_ofOption _) fun _ => .bind keeps_pop fun _ =>
      .bind (keeps_write _ _) fun _ => .pure _
  | jump => exact .bind (keeps_ofOption _) fun _ => .bind (keeps_jumpTo _) fun _ => .pure _
  | jumpIfFalse => exact .bind keeps_pop fun v => hbranch _ _
  | jumpIfTrue => exact .bind keeps_pop fun v => hbranch _ _
  | loop =>
    exact .bind (keeps_ofOption _) fun _ => .bind (keeps_jumpTo _) fun _ =>
      .bind (.modify fun _ => Lax.aside ⟨rfl, rfl⟩) fun _ => .pure _
  | print =>
    refine .bind keeps_pop fun v => .bind .get fun s => ?_
    have hprint : Keeps R E (do
        modify fun s =>
          let out := s.out
          { { s with out := ∅ } with out := out ++ v.render ++ "\n" }
        return .quiet : Interpreting Event) :=
          .bind (.modify fun _ => Lax.aside ⟨rfl, rfl⟩) fun _ => .pure _
    split_ifs
    · exact .bind (.throw Tolerant.printFailed) fun _ => hprint
    · exact hprint
  | halt => exact .throw (hhalt rfl)
  | eq | ne =>
    exact .bind (keeps_peek _) fun _ => .bind (keeps_peek _) fun _ =>
      .bind (keeps_replace _ _) fun _ => .pure _
  | not => exact .bind (keeps_peek _) fun _ => .bind (keeps_replace _ _) fun _ => .pure _
  | neg | bitNot => exact .bind (keeps_peek _) fun _ => keeps_operate _ _ _ _
  | _ => exact .bind (keeps_peek _) fun _ => .bind (keeps_peek _) fun _ => keeps_operate _ _ _ _

/-- A call makes a frame for a loaded function. -/
theorem keeps_call {helpers : HelperTable} (i : Fetched)
    (hframe : ∀ ref fn, units.function? ref = some fn → ∀ argc, Keeps R E (pushFrame fn argc)) :
    Keeps R E (executeOp units helpers i .call) := by
  refine .bind (keeps_ofOption _) fun argc => .bind (keeps_peek _) fun callee => ?_
  dsimp only
  split
  · exact keeps_failing _
  · next fn hfn =>
    obtain ⟨ref, href⟩ : ∃ ref, units.function? ref = some fn := by
      split at hfn
      · exact ⟨_, hfn⟩
      · cases hfn
    split_ifs
    · exact .bind (keeps_failing _) fun _ => .bind (hframe ref fn href _) fun _ => .pure _
    · exact .bind (hframe ref fn href _) fun _ => .pure _

end Lax

/-- All instructions but calls and returns stay in their frame. -/
theorem executeOp_steady (i : Fetched) {op : Opcode} (hcall : op ≠ .call) (hret : op ≠ .ret) :
    Keeps Steady (fun _ => True) (executeOp units .standard i op) :=
  keeps_executeOp i hcall hret (fun _ => trivial) fun _ => builtin_steady i

theorem execute_regular (i : Fetched) :
    Keeps (Regular units) (fun _ => True) (execute units .standard i) := by
  unfold execute
  split
  · next op _ =>
    by_cases hcall : op = .call
    · exact hcall ▸ keeps_call i fun _ _ hfn _ => pushFrame_regular hfn _
    by_cases hret : op = .ret
    · exact hret ▸ .bind keeps_pop fun _ => leave_regular _ _
    exact Steady.keeps (executeOp_steady i hcall hret)
  · exact keeps_failing _

/-! ### Returns -/

/-- Nothing is said about what has changed. -/
def Whatever (_ _ : State) : Prop := True

instance : Lax Whatever where
  refl _ := trivial
  trans _ _ _ _ _ := trivial
  aside _ := trivial

theorem builtinArgs_unreturned (d : Helper) (n : Nat) (args : List Value) :
    Keeps Whatever Unreturned (builtinArgs d n args) := by
  induction args generalizing n with
  | nil => exact .pure _
  | cons a rest ih =>
    have hrest : ∀ word : UInt64, Keeps Whatever Unreturned (do
        return word :: (← builtinArgs d (n + 1) rest) : Interpreting (List UInt64)) :=
          fun _ => .bind (ih _) fun _ => .pure _
    unfold builtinArgs
    dsimp only
    split
    · exact .bind keeps_faulty fun _ => hrest _
    · split_ifs
      · exact .bind (keeps_failing _) fun _ => hrest _
      · exact hrest _
    · split_ifs
      · exact .bind (keeps_failing _) fun _ => .bind (fun _ => trivial) fun _ => hrest _
      · exact .bind (fun _ => trivial) fun _ => hrest _
    · split_ifs
      · exact .bind (keeps_failing _) fun _ => hrest _
      · exact hrest _

theorem callBuiltin_unreturned (d : Helper) (args : List Value) :
    Keeps Whatever Unreturned (callBuiltin d args) := by
  refine .bind .get fun _ => .bind (builtinArgs_unreturned d 0 args) fun words =>
    .bind .get fun s => ?_
  cases d.run s.heap words with
  | error f => exact .throw (Forgiving.fault f)
  | ok r =>
    refine .bind (.modify fun _ => trivial) fun _ => ?_
    cases rebox r.2 r.1 d.resultType with
    | error f => exact .throw (Forgiving.fault f)
    | ok v => exact .bind (.modify fun _ => trivial) fun _ => .pure _

theorem builtin_unreturned {helpers : HelperTable} (i : Fetched) :
    Keeps Whatever Unreturned (executeOp units helpers i .builtin) := by
  refine .bind (keeps_ofOption _) fun n => .bind (keeps_ofOption _) fun b => ?_
  extract_lets callIt
  have hcall : ∀ d, Keeps Whatever Unreturned (callIt d) :=
    fun d => .bind .get fun _ => .bind (keeps_readMany _ _) fun args =>
    .bind (callBuiltin_unreturned d args) fun v => .bind (keeps_setSp _) fun _ =>
      .bind (keeps_push _) fun _ => .pure _
  clear_value callIt
  cases helpers.get (helperOf b) with
  | error f => exact .bind (.throw (Forgiving.fault f)) hcall
  | ok d => exact .bind (.pure d) hcall

/-- Only a return or a halt ends the outermost call. -/
theorem execute_returned {helpers : HelperTable} {i : Fetched} {v : Value}
    (h : execute units helpers i s = .error (.returned v) s') :
    Opcode.ofByte? i.byte = some .ret ∨ Opcode.ofByte? i.byte = some .halt := by
  unfold execute at h
  cases hop : Opcode.ofByte? i.byte with
  | none =>
    rw [hop] at h
    cases h
  | some op =>
    rw [hop] at h
    by_contra hother
    obtain ⟨hret, hhalt⟩ : op ≠ .ret ∧ op ≠ .halt := by simpa using hother
    have hkeeps : Keeps Whatever Unreturned (executeOp units helpers i op) := by
      by_cases hcall : op = .call
      · exact hcall ▸ keeps_call i fun _ _ _ _ => keeps_pushFrame _ _ fun _ _ _ _ => trivial
      · exact keeps_executeOp i hcall hret (fun h => absurd h hhalt) fun _ => builtin_unreturned i
    exact (hkeeps.error h).2 v rfl

/-! ### Events -/

/-- The events that an instruction may have: calls and returns have nothing to tell, only a constant
is a string that is new on the stack, and only a loop instruction closes a loop. -/
def Fits (i : Fetched) (op : Opcode) : Event → Prop
  | .quiet => True
  | .pushed v =>
    op = .const ∧ v ∈ i.chunk.constants ∨ (op = .null ∨ op = .true ∨ op = .false) ∧ ∀ s, v ≠ .str s
  | .looped _ => op = .loop
  | _ => op ≠ .call ∧ op ≠ .ret

section Events

variable {β : Type} {Q : β → State → Prop}

/-- It does not matter what came before. -/
theorem ensures_last {x : Interpreting α} {k : α → Interpreting β}
    (h : ∀ a s', Ensures Anyhow (k a) s' Q) :
    Ensures Anyhow (x >>= k) s Q := by
  refine .bind (Q := fun _ _ => True) ?_ fun a s' _ => h a s'
  unfold Ensures
  split
  · trivial
  · trivial

theorem executeOp_fits {helpers : HelperTable} (i : Fetched) (op : Opcode) (s : State) :
    Ensures Anyhow (executeOp units helpers i op) s fun e _ => Fits i op e := by
  have operate : ∀ (o : Option Value) (complaint : Text) (drop : Int)
    (event : Value → Event) (s : State),
      (∀ v, Fits i op (event v)) → Ensures Anyhow (match o with
        | none => failing complaint
        | some v => do
          executeOp.replace v drop
          return event v : Interpreting Event) s fun e _ => Fits i op e := by
    intro o complaint drop event s hevent
    cases o with
    | none => trivial
    | some v => exact ensures_last fun _ _ => .pure (hevent v)
  cases op with
  | const =>
    refine ensures_last fun n s₁ => ?_
    cases hv : i.chunk.constants[n.toNat]? with
    | none => trivial
    | some v =>
      exact .pure_bind (ensures_last fun _ _ => .pure (.inl ⟨rfl, Array.mem_of_getElem? hv⟩))
  | null => exact ensures_last fun _ _ => .pure (.inr ⟨.inl rfl, nofun⟩)
  | true => exact ensures_last fun _ _ => .pure (.inr ⟨.inr (.inl rfl), nofun⟩)
  | false => exact ensures_last fun _ _ => .pure (.inr ⟨.inr (.inr rfl), nofun⟩)
  | pop => exact ensures_last fun _ _ => .pure trivial
  | dup => exact ensures_last fun _ _ => ensures_last fun _ _ => .pure ⟨nofun, nofun⟩
  | load | store =>
    exact ensures_last fun _ _ => ensures_last fun _ _ => ensures_last fun _ _ =>
      .pure ⟨nofun, nofun⟩
  | jump => exact ensures_last fun _ _ => ensures_last fun _ _ => .pure trivial
  | jumpIfFalse | jumpIfTrue =>
    refine ensures_last fun v s₁ => ?_
    dsimp only
    split_ifs
    · exact ensures_last fun _ _ => ensures_last fun _ _ => .pure ⟨nofun, nofun⟩
    · exact .pure ⟨nofun, nofun⟩
  | loop => exact ensures_last fun _ _ => ensures_last fun _ _ => ensures_last fun _ _ => .pure rfl
  | builtin =>
    refine ensures_last fun n s₁ => ensures_last fun b s₂ => ?_
    extract_lets callIt
    have hcall : ∀ d s, Ensures Anyhow (callIt d) s fun e _ => Fits i .builtin e := fun d s =>
      ensures_last fun _ _ => ensures_last fun _ _ => ensures_last fun _ _ =>
          ensures_last fun _ _ => ensures_last fun _ _ =>
        .pure ⟨nofun, nofun⟩
    clear_value callIt
    cases helpers.get (helperOf b) with
    | error f => exact ensures_last fun d s => hcall d s
    | ok d => exact ensures_last fun d s => hcall d s
  | call =>
    refine ensures_last fun argc s₁ => ensures_last fun callee s₂ => ?_
    dsimp only
    split
    · trivial
    · split_ifs
      · exact ensures_last fun _ _ => ensures_last fun _ _ => .pure trivial
      · exact ensures_last fun _ _ => .pure trivial
  | ret =>
    refine ensures_last fun v s₁ => ensures_last fun _ s₂ => ensures_last fun s s₃ => ?_
    split_ifs
    · trivial
    · exact ensures_last fun _ _ => .pure trivial
  | print =>
    refine ensures_last fun v s₁ => ensures_last fun s s₂ => ?_
    dsimp only
    split_ifs
    · trivial
    · exact ensures_last fun _ _ => .pure trivial
  | halt => trivial
  | eq | ne =>
    exact ensures_last fun _ _ => ensures_last fun _ _ => ensures_last fun _ _ =>
      .pure ⟨nofun, nofun⟩
  | not => exact ensures_last fun _ _ => ensures_last fun _ _ => .pure ⟨nofun, nofun⟩
  | neg | bitNot => exact ensures_last fun _ _ => operate _ _ _ _ _ fun _ => ⟨nofun, nofun⟩
  | _ => exact ensures_last fun _ _ => ensures_last fun _ _ => operate _ _ _ _ _ fun _ => ⟨nofun,
    nofun⟩

/-- An instruction that was carried out has an event of its own. -/
theorem execute_fits {helpers : HelperTable} {i : Fetched} {e : Event}
    (h : execute units helpers i s = .ok e s') :
    ∃ op, Opcode.ofByte? i.byte = some op ∧ Fits i op e := by
  unfold execute at h
  cases hop : Opcode.ofByte? i.byte with
  | none =>
    rw [hop] at h
    cases h
  | some op =>
    rw [hop] at h
    exact ⟨op, rfl, (ensures_ok h).mp (executeOp_fits i op s)⟩

end Events

end LoopTracer.Interp
