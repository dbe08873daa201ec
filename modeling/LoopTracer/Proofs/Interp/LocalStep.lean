import LoopTracer.Proofs.Interp.Slots
import LoopTracer.Proofs.Verification.Depths

/-! The instructions that stay in their frame.

Such an instruction sees the frame's locals and its operands, and nothing else. `localStep` says
what it does to these two lists. `Poised.step_local` is the bridge: where the stack shows the
lists, a step of the interpreter does the same to the stack, with the same event, and keeps
everything else. -/
namespace LoopTracer.Interp

open Bytecode Trace

/-- How such an instruction ends: at an offset with new locals and operands, or in an error. -/
inductive LocalOutcome where
  | next (ip : Int) (locals operands : List Value) (event : Event)
  | error (detail : Text)

/-- The end of an instruction that computes a value, or cannot. -/
def LocalOutcome.ofValue (v : Option Value) (done : Value → LocalOutcome) (detail : Text) :
    LocalOutcome :=
  match v with
  | some v => done v
  | none => .error detail

theorem LocalOutcome.ofValue_eq_next {result : Option Value} {ip ip' : Int}
    {l l' ops ops' : List Value} {detail : Text} {event : Value → Event} {e : Event}
    (h : ofValue result (fun v => .next ip l (v :: ops) (event v)) detail = .next ip' l' ops' e) :
    ∃ v, result = some v ∧ ip' = ip ∧ l' = l ∧ ops' = v :: ops ∧ e = event v := by
  cases result with
  | none => cases h
  | some v =>
    cases h
    exact ⟨v, rfl, rfl, rfl, rfl, rfl⟩

/-- Instructions that leave the frame, or write. -/
def leavesFrame : Opcode → Bool
  | .call | .ret | .print | .halt => true
  | _ => false

/-- What the operation at `i` does to locals and operands. -/
def localStep (c : Chunk) (op : Opcode) (i : Nat) (locals operands : List Value) :
    Option LocalOutcome :=
  let next : Int := i + op.size
  let top : Int := locals.length + operands.length
  match op, operands with
  | .const, _ => do
    let n ← c.u16? (i + 1)
    let v ← c.constants[n.toNat]?
    return .next next locals (v :: operands) (.pushed v)
  | .null, _ => some (.next next locals (.null :: operands) (.pushed .null))
  | .true, _ => some (.next next locals (.bool true :: operands) (.pushed (.bool true)))
  | .false, _ => some (.next next locals (.bool false :: operands) (.pushed (.bool false)))
  | .pop, _ :: rest => some (.next next locals rest .quiet)
  | .dup, v :: rest => some (.next next locals (v :: v :: rest) (.copied (top - 1) top v))
  | .load, _ => do
    let n ← c.u16? (i + 1)
    let v ← locals[n.toNat]?
    return .next next locals (v :: operands) (.copied n.toNat top v)
  | .store, v :: rest => do
    let n ← c.u16? (i + 1)
    return .next next (locals.set n.toNat v) rest (.copied (top - 1) n.toNat v)
  | .jump, _ => some (.next (c.jumpTarget i) locals operands .quiet)
  | .loop, _ => some (.next (c.jumpTarget i) locals operands (.looped (c.jumpTarget i)))
  | .jumpIfFalse, v :: rest =>
    some (.next (if v.truthy then next else c.jumpTarget i) locals rest
      (.branched v.truthy (some (c.jumpTarget i))))
  | .jumpIfTrue, v :: rest =>
    some (.next (if v.truthy then c.jumpTarget i else next) locals rest
      (.branched v.truthy (some (c.jumpTarget i))))
  | .builtin, _ => do
    let n ← c.byte? (i + 1)
    let b ← Builtin.ofByte? n
    if operands.length < b.arity then none
    else match applyBuiltin b (operands.take b.arity).reverse with
      | .ok v => some (.next next locals (v :: operands.drop b.arity)
          (.called (builtinHelper b) b.arity v))
      | .error detail => some (.error detail)
  | op, y :: rest =>
    match arithOp? op, compareOp? op, unaryOp? op, rest with
    | some b, _, _, x :: rest =>
      some (.ofValue (arith b x y) (fun v => .next next locals (v :: rest) (.computed b v))
        ("cannot " ++ b.name ++ " " ++ x.typeName ++ " and " ++ y.typeName))
    | _, some b, _, x :: rest =>
      some (.ofValue (compare b x y) (fun v => .next next locals (v :: rest) (.computed b v))
        ("cannot compare " ++ x.typeName ++ " and " ++ y.typeName))
    | _, _, some u, rest =>
      some (.ofValue (unary u y) (fun v => .next next locals (v :: rest) (.converted u v))
        ("cannot " ++ u.name ++ " " ++ y.typeName))
    | _, _, _, _ => none
  | _, _ => none

section

variable (c : Chunk) (i : Nat) (l ops : List Value)

theorem localStep_const : localStep c .const i l ops = do
    let n ← c.u16? (i + 1)
    let v ← c.constants[n.toNat]?
    return .next (i + Opcode.const.size) l (v :: ops) (.pushed v) := rfl

theorem localStep_load : localStep c .load i l ops = do
    let n ← c.u16? (i + 1)
    let v ← l[n.toNat]?
    return .next (i + Opcode.load.size) l (v :: ops)
      (.copied n.toNat (l.length + ops.length) v) := rfl

theorem localStep_store (v : Value) : localStep c .store i l (v :: ops) = do
    let n ← c.u16? (i + 1)
    return .next (i + Opcode.store.size) (l.set n.toNat v) ops
      (.copied (l.length + (v :: ops).length - 1) n.toNat v) := rfl

theorem localStep_builtin : localStep c .builtin i l ops = (do
    let n ← c.byte? (i + 1)
    let b ← Builtin.ofByte? n
    if ops.length < b.arity then none
    else match applyBuiltin b (ops.take b.arity).reverse with
      | .ok v => some (.next (i + Opcode.builtin.size) l (v :: ops.drop b.arity)
          (.called (builtinHelper b) b.arity v))
      | .error detail => some (.error detail)) := rfl

end

/-! ### One step -/

/-- The state in which the instruction at `i`, of `size` bytes, is carried out. -/
def State.fetched (s : State) (f : Frame) (rest : List Frame) (i : Int) (size : Nat) : State :=
  { s with
    opStart := i
    frames := { f with ip := i + size } :: rest
    counters := { s.counters with instructions := s.counters.instructions + 1 } }

/-- The running frame is about to execute the operation `op` at `i`. -/
structure Poised (s : State) (f : Frame) (rest : List Frame) (c : Chunk) (i : Nat) (op : Opcode) :
    Prop where
  frames : s.frames = f :: rest
  chunk : f.fn.chunk = some c
  ip : f.ip = i
  whole : Whole f.fn c i op

/-- What `fetch` answers there. -/
def fetchedAt (s : State) (f : Frame) (c : Chunk) (i : Nat) (b : UInt8) : Fetched :=
  { frame := f, chunk := c, pc := i, byte := b, depth := s.sp - f.base }

namespace Poised

variable {s : State} {f : Frame} {rest : List Frame} {c : Chunk} {i : Nat} {op : Opcode}

/-- An instruction that stands whole in the code is fetched and carried out. -/
theorem step_eq (h : Poised s f rest c i op) (units : Units) (helpers : HelperTable) :
    ∃ b, Opcode.ofByte? b = some op ∧
      fetch s = .ok (fetchedAt s f c i b) (s.fetched f rest i op.size) ∧
      step units helpers s =
        executeOp units helpers (fetchedAt s f c i b) op (s.fetched f rest i op.size) := by
  obtain ⟨b, -, hb, ho⟩ := h.whole.byte
  have hlt := h.whole.lt_size
  have hfetch : fetch s = .ok (fetchedAt s f c i b) (s.fetched f rest i op.size) := by
    unfold fetch
    rw [h.frames]
    simp only [h.chunk, h.ip, hb, byteSize_of_opcode ho]
    rw [if_neg (by omega)]
    rfl
  refine ⟨b, ho, hfetch, ?_⟩
  unfold step
  rw [bind_ok hfetch]
  unfold execute
  simp only [fetchedAt, ho]

end Poised

theorem Kept.fetched (bp : Int) {s : State} {f : Frame} {rest : List Frame}
    (hs : s.frames = f :: rest)
    (i : Int) (size : Nat) : Kept bp s (s.fetched f rest i size) :=
  ⟨rfl, fun _ _ => rfl, by rw [hs]; rfl, rfl, rfl, rfl, rfl, id⟩

/-- An answer of the interpreter that is the outcome of an instruction of the frame `f`, carried out
in the state `s`. -/
def Agrees (s : State) (f : Frame) (rest : List Frame) (answer : EStateM.Result Stop State Event) :
    LocalOutcome → Prop
  | .next ip l ops event => ∃ s', answer = .ok event s' ∧ s'.frames = { f with ip } :: rest ∧
      Shows s' f l ops ∧ Kept f.bp s s'
  | .error detail => answer = .error (.error (s.errorHere detail)) s

theorem Agrees.of_kept {s s₀ : State} {f : Frame} {rest : List Frame} {ip : Int}
    {l ops : List Value}
    {event : Event} {answer : EStateM.Result Stop State Event}
    (h : Agrees s f rest answer (.next ip l ops event)) (hkept : Kept f.bp s₀ s) :
    Agrees s₀ f rest answer (.next ip l ops event) := by
  obtain ⟨s', hanswer, hframes, hshows, hkept'⟩ := h
  exact ⟨s', hanswer, hframes, hshows, hkept.trans hkept'⟩

section Instructions

variable {s : State} {f : Frame} {rest : List Frame} {c : Chunk} {i : Nat} {op : Opcode}
variable {l ops : List Value} {next : Int}

/-- Pushing a value. -/
theorem agrees_push (hframes : s.frames = { f with ip := next } :: rest) (hs : Shows s f l ops)
    (hroom : s.sp < s.stack.size) (v : Value) (event : Event) :
    Agrees s f rest ((push v >>= fun _ => pure event) s) (.next next l (v :: ops) event) := by
  obtain ⟨s', hpush, hshows, hkept, hsame⟩ := hs.push hroom v
  exact ⟨s', bind_ok hpush, hsame.trans hframes, hshows, hkept⟩

/-- Putting a value in place of operands. -/
theorem agrees_replace (hframes : s.frames = { f with ip := next } :: rest) (hs : Shows s f l ops)
    {n : Nat} {x : Value} {ops' : List Value} (hn : ops.drop n = x :: ops') (v : Value)
    (event : Event) :
    Agrees s f rest ((executeOp.replace v n >>= fun _ => pure event) s)
      (.next next l (v :: ops') event) := by
  obtain ⟨s', hreplace, hshows, hkept, hsame⟩ := hs.replace hn v
  exact ⟨s', bind_ok hreplace, hsame.trans hframes, hshows, hkept⟩

/-- Putting a result in place of operands, if there is one. -/
theorem agrees_computed (hframes : s.frames = { f with ip := next } :: rest) (hs : Shows s f l ops)
    {n : Nat} {x : Value} {ops' : List Value} (hn : ops.drop n = x :: ops') (result : Option Value)
    (detail : Text) (event : Value → Event) :
    Agrees s f rest
      ((match result with
        | none => failing detail
        | some v => executeOp.replace v n >>= fun _ => pure (event v) : Interpreting Event) s)
      (.ofValue result (fun v => .next next l (v :: ops') (event v)) detail) := by
  cases result with
  | none => rfl
  | some v => exact agrees_replace hframes hs hn v (event v)

/-- Going on elsewhere. -/
theorem jumpTo_eq (hframes : s.frames = { f with ip := next } :: rest) (target : Int) :
    jumpTo target s = .ok () { s with frames := { f with ip := target } :: rest } := by
  unfold jumpTo
  rw [hframes]

theorem Kept.jump (bp : Int) (hframes : s.frames = { f with ip := next } :: rest) (target : Int) :
    Kept bp s { s with frames := { f with ip := target } :: rest } :=
  ⟨rfl, fun _ _ => rfl, by rw [hframes]; rfl, rfl, rfl, rfl, rfl, id⟩

/-- A conditional jump that is taken when the condition is `sense`. -/
theorem agrees_branch {v : Value} (hframes : s.frames = { f with ip := next } :: rest)
    (hs : Shows s f l (v :: ops)) (target : Int) (sense : Bool) :
    Agrees s f rest
      ((pop >>= fun v =>
        if (v.truthy == sense) = true then do
          let t ← ofOption (some target)
          jumpTo t
          pure (Event.branched v.truthy (some target))
        else pure (Event.branched v.truthy (some target))) s)
      (.next (if (v.truthy == sense) = true then target else next) l ops
        (.branched v.truthy (some target))) := by
  obtain ⟨hpop, hshows⟩ := hs.pop
  rw [bind_ok hpop]
  have hkept := Kept.setSp f.bp s (s.sp - 1)
  by_cases htaken : (v.truthy == sense) = true
  · simp only [if_pos htaken]
    rw [bind_ok (ofOption_some target _), 
      bind_ok (jumpTo_eq (s := { s with sp := s.sp - 1 }) hframes target)]
    refine ⟨_, rfl, rfl, hshows.congr rfl rfl, hkept.trans ?_⟩
    exact Kept.jump (s := { s with sp := s.sp - 1 }) _ hframes _
  · simp only [if_neg htaken]
    exact ⟨_, rfl, hframes, hshows, hkept⟩

/-- An effect that grows the stack by one fits where the top is free. -/
theorem room_of_fit {e : StackDepth.Effect} (hgrows : e.pushes = e.pops + 1)
    (hfit : s.sp - e.pops + e.pushes ≤ s.stack.size) : s.sp < s.stack.size := by
  omega

/-- A call of a builtin puts its answer in the place of its arguments. -/
theorem executeOp_builtin (units : Units) {b : UInt8} (hw : Whole f.fn c i .builtin)
    (hframes : s.frames = { f with ip := (i : Int) + Opcode.builtin.size } :: rest)
    (hs : Shows s f l ops) (hvalid : s.heap.Valid) (hroom : s.heap.size < 2 ^ 32)
    {o : LocalOutcome} (ho : localStep c .builtin i l ops = some o) :
    Agrees s f rest
      (executeOp units .standard { frame := f, chunk := c, pc := i, byte := b, depth := ops.length }
        .builtin s) o := by
  obtain ⟨a, n, ha, hn⟩ := hw.builtin
  simp only [localStep_builtin, ha, hn, Option.bind_eq_bind, Option.bind_some] at ho
  split at ho
  · cases ho
  · next harity =>
    have hlen : (ops.take n.arity).reverse.length = n.arity := by
      rw [List.length_reverse, List.length_take]
      omega
    have hcall := callBuiltin_eq hvalid hroom n _ hlen
    have hmany := hs.readMany (n := n.arity) (by omega)
    simp only [executeOp, ha]
    rw [bind_ok (ofOption_some _ _), hn, bind_ok (ofOption_some _ _), standard_get]
    show Agrees s f rest ((readMany (s.sp - n.arity) n.arity >>= _) s) o
    rw [bind_ok hmany]
    split at ho
    · next v hv =>
      obtain rfl := Option.some.inj ho
      rw [hv] at hcall
      obtain ⟨h, hcall, hheap, hstrings⟩ := hcall
      rw [bind_ok hcall]
      have hkept : Kept f.bp s { s with heap := h, sp := s.sp - n.arity } :=
        ⟨rfl, fun _ _ => rfl, rfl, rfl, rfl, rfl, hstrings, fun _ => hheap⟩
      have hdrop : Shows { s with heap := h, sp := s.sp - n.arity } f l (ops.drop n.arity) :=
        (hs.drop (by omega)).congr rfl rfl
      have hspace : s.sp - n.arity < s.stack.size := by
        have := hs.holds.fits
        have : 0 < n.arity := by cases n <;> decide
        omega
      have hpush := agrees_push (s := { s with heap := h, sp := s.sp - n.arity }) hframes hdrop
        hspace v (.called (builtinHelper n) n.arity v)
      exact hpush.of_kept hkept
    · next detail hv =>
      obtain rfl := Option.some.inj ho
      rw [hv] at hcall
      exact bind_error hcall

/-- An instruction that stays in its frame does what `localStep` says. -/
theorem executeOp_local (units : Units) {b : UInt8} (hw : Whole f.fn c i op)
    (hframes : s.frames = { f with ip := (i : Int) + op.size } :: rest) (hs : Shows s f l ops)
    (hvalid : s.heap.Valid) (hroom : s.heap.size < 2 ^ 32)
    (hfit : s.sp - (StackDepth.effectOf c op i).pops + (StackDepth.effectOf c op i).pushes ≤
      s.stack.size)
    {o : LocalOutcome} (ho : localStep c op i l ops = some o) :
    Agrees s f rest
      (executeOp units .standard { frame := f, chunk := c, pc := i, byte := b,
                                   depth := ops.length } op
        s) o := by
  have hlocals := hs.locals
  have htop : f.fn.locals + (ops.length : Int) = l.length + ops.length := by omega
  cases op with
  | const =>
    obtain ⟨n, hn, hlt⟩ := hw.constant rfl
    have hget : c.constants[n.toNat]? = some c.constants[n.toNat] := Array.getElem?_eq_getElem hlt
    simp only [localStep_const, hn, hget, Option.bind_eq_bind, Option.bind_some] at ho
    obtain rfl := Option.some.inj ho
    simp only [executeOp, hn]
    rw [bind_ok (ofOption_some _ _), hget, bind_ok (ofOption_some _ _)]
    exact agrees_push hframes hs (room_of_fit rfl hfit) _ _
  | null =>
    obtain rfl := Option.some.inj ho
    exact agrees_push hframes hs (room_of_fit rfl hfit) _ _
  | true =>
    obtain rfl := Option.some.inj ho
    exact agrees_push hframes hs (room_of_fit rfl hfit) _ _
  | false =>
    obtain rfl := Option.some.inj ho
    exact agrees_push hframes hs (room_of_fit rfl hfit) _ _
  | pop =>
    cases ops with
    | nil => cases ho
    | cons v ops =>
      obtain rfl := Option.some.inj ho
      obtain ⟨hpop, hshows⟩ := hs.pop
      simp only [executeOp]
      rw [bind_ok hpop]
      exact ⟨_, rfl, hframes, hshows, Kept.setSp _ _ _⟩
  | dup =>
    cases ops with
    | nil => cases ho
    | cons v ops =>
      obtain rfl := Option.some.inj ho
      simp only [executeOp, htop]
      rw [bind_ok hs.peek_top]
      exact agrees_push hframes hs (room_of_fit rfl hfit) _ _
  | load =>
    obtain ⟨n, hn, hlt⟩ := hw.slot rfl
    have hget : l[n.toNat]? = some l[n.toNat] := List.getElem?_eq_getElem (by omega)
    simp only [localStep_load, hn, hget, Option.bind_eq_bind, Option.bind_some] at ho
    obtain rfl := Option.some.inj ho
    simp only [executeOp, hn, htop]
    rw [bind_ok (ofOption_some _ _), bind_ok (hs.load hget)]
    exact agrees_push hframes hs (room_of_fit rfl hfit) _ _
  | store =>
    obtain ⟨n, hn, hlt⟩ := hw.slot rfl
    cases ops with
    | nil => cases ho
    | cons v ops =>
      simp only [localStep_store, hn, Option.bind_eq_bind, Option.bind_some] at ho
      obtain rfl := Option.some.inj ho
      obtain ⟨hpop, hshows⟩ := hs.pop
      obtain ⟨s', hwrite, hshows', hkept, hsame⟩ := hshows.store (k := n.toNat) (by omega) v
      simp only [executeOp, hn, htop]
      rw [bind_ok (ofOption_some _ _), bind_ok hpop, bind_ok hwrite]
      exact ⟨s', rfl, hsame.trans hframes, hshows', (Kept.setSp _ _ _).trans hkept⟩
  | jump =>
    obtain rfl := Option.some.inj ho
    simp only [executeOp, hw.target]
    rw [bind_ok (ofOption_some _ _), bind_ok (jumpTo_eq hframes _)]
    exact ⟨_, rfl, rfl, hs.congr rfl rfl, Kept.jump _ hframes _⟩
  | loop =>
    obtain rfl := Option.some.inj ho
    simp only [executeOp, hw.target]
    rw [bind_ok (ofOption_some _ _), bind_ok (jumpTo_eq hframes _)]
    refine ⟨_, rfl, rfl, hs.congr rfl rfl, (Kept.jump _ hframes (c.jumpTarget i)).trans ?_⟩
    exact ⟨rfl, fun _ _ => rfl, rfl, rfl, rfl, rfl, rfl, id⟩
  | jumpIfFalse =>
    cases ops with
    | nil => cases ho
    | cons v ops =>
      obtain rfl := Option.some.inj ho
      simp only [executeOp, hw.target]
      have hbranch := agrees_branch hframes hs (c.jumpTarget i) false
      cases htruthy : v.truthy <;> rw [htruthy] at hbranch <;> exact hbranch
  | jumpIfTrue =>
    cases ops with
    | nil => cases ho
    | cons v ops =>
      obtain rfl := Option.some.inj ho
      simp only [executeOp, hw.target]
      have hbranch := agrees_branch hframes hs (c.jumpTarget i) true
      cases htruthy : v.truthy <;> rw [htruthy] at hbranch <;> exact hbranch
  | builtin => exact executeOp_builtin units hw hframes hs hvalid hroom ho
  | call => cases ops <;> cases ho
  | ret => cases ops <;> cases ho
  | print => cases ops <;> cases ho
  | halt => cases ops <;> cases ho
  | neg | bitNot | not =>
    cases ops with
    | nil => cases ho
    | cons y ops =>
      obtain rfl := Option.some.inj ho
      simp only [executeOp, arithOp?, compareOp?, unaryOp?]
      rw [bind_ok hs.peek_top]
      generalize unary _ y = result
      exact agrees_computed hframes hs (n := 0) rfl result _ _
  | add | sub | mul | div | mod | bitAnd | bitOr | bitXor | shl | shr =>
    match ops with
    | [] => cases ho
    | [_] => cases ho
    | y :: x :: ops =>
      obtain rfl := Option.some.inj ho
      simp only [executeOp, arithOp?, compareOp?, unaryOp?]
      rw [bind_ok hs.peek_top, bind_ok hs.peek_next]
      generalize arith _ x y = result
      exact agrees_computed hframes hs (n := 1) rfl result _ _
  | eq | ne | lt | le | gt | ge =>
    match ops with
    | [] => cases ho
    | [_] => cases ho
    | y :: x :: ops =>
      obtain rfl := Option.some.inj ho
      simp only [executeOp, arithOp?, compareOp?, unaryOp?]
      rw [bind_ok hs.peek_top, bind_ok hs.peek_next]
      generalize compare _ x y = result
      exact agrees_computed hframes hs (n := 1) rfl result _ _

/-- The operation at an offset, carried out from there on. -/
theorem Poised.step_local (h : Poised s f rest c i op) (units : Units) (hs : Shows s f l ops)
    (hvalid : s.heap.Valid) (hroom : s.heap.size < 2 ^ 32)
    (hfit : s.sp - (StackDepth.effectOf c op i).pops + (StackDepth.effectOf c op i).pushes ≤
      s.stack.size)
    {o : LocalOutcome} (ho : localStep c op i l ops = some o) :
    match o with
    | .next ip l' ops' event => ∃ s', step units .standard s = .ok event s' ∧
        s'.frames = { f with ip } :: rest ∧ Shows s' f l' ops' ∧ Kept f.bp s s'
    | .error detail => step units .standard s =
        .error (.error { function := f.fn.signature, offset := i, line := c.line i, detail })
          (s.fetched f rest i op.size) := by
  obtain ⟨b, -, -, hstep⟩ := h.step_eq units .standard
  have hdepth : s.sp - f.base = ops.length := hs.depth_eq
  have hagrees : Agrees (s.fetched f rest i op.size) f rest _ o :=
    executeOp_local (s := s.fetched f rest i op.size) (b := b) units h.whole rfl (hs.congr rfl rfl)
      hvalid hroom hfit ho
  rw [fetchedAt, hdepth] at hstep
  rw [hstep]
  cases o with
  | next ip l' ops' event => exact hagrees.of_kept (Kept.fetched _ h.frames _ _)
  | error detail =>
    refine hagrees.trans ?_
    simp only [State.errorHere, State.fetched, h.chunk, Option.getD_some]

end Instructions

/-! ### Depths -/

section Depths

open StackDepth

variable {fn : Function} {c : Chunk} {i : Nat} {op : Opcode} {l ops : List Value}

/-- An instruction with all its operands has an outcome. -/
theorem localStep_isSome (hw : Whole fn c i op) (hlocals : (l.length : Int) = fn.locals)
    (hstays : leavesFrame op = false) (hpops : (effectOf c op i).pops ≤ ops.length) :
    ∃ o, localStep c op i l ops = some o := by
  cases op with
  | const =>
    obtain ⟨n, hn, hlt⟩ := hw.constant rfl
    have hget : c.constants[n.toNat]? = some c.constants[n.toNat] := Array.getElem?_eq_getElem hlt
    simp only [localStep_const, hn, hget, Option.bind_eq_bind, Option.bind_some]
    exact ⟨_, rfl⟩
  | load =>
    obtain ⟨n, hn, hlt⟩ := hw.slot rfl
    have hget : l[n.toNat]? = some l[n.toNat] := List.getElem?_eq_getElem (by omega)
    simp only [localStep_load, hn, hget, Option.bind_eq_bind, Option.bind_some]
    exact ⟨_, rfl⟩
  | store =>
    obtain ⟨n, hn, hlt⟩ := hw.slot rfl
    obtain ⟨v, ops, rfl⟩ := List.exists_cons_of_length_pos hpops
    simp only [localStep_store, hn, Option.bind_eq_bind, Option.bind_some]
    exact ⟨_, rfl⟩
  | builtin =>
    obtain ⟨a, n, ha, hn⟩ := hw.builtin
    have harity : n.arity ≤ ops.length := by
      simpa [effectOf, effect, ha, hn] using hpops
    simp only [localStep_builtin, ha, hn, Option.bind_eq_bind, Option.bind_some]
    rw [if_neg (by omega)]
    split <;> exact ⟨_, rfl⟩
  | null | true | false | jump | loop => exact ⟨_, rfl⟩
  | pop | dup | jumpIfFalse | jumpIfTrue | neg | bitNot | not =>
    obtain ⟨v, ops, rfl⟩ := List.exists_cons_of_length_pos hpops
    exact ⟨_, rfl⟩
  | add | sub | mul | div | mod | bitAnd | bitOr | bitXor | shl | shr | eq | ne
  | lt | le | gt | ge =>
    match ops, hpops with
    | y :: x :: ops, _ => exact ⟨_, rfl⟩
  | call | ret | print | halt => cases hstays

/-- The operands behind an instruction are as many as the depth analysis says, and control goes
where it says. -/
theorem localStep_next (hw : Whole fn c i op) {ip : Int} {l' ops' : List Value} {event : Event}
    (h : localStep c op i l ops = some (.next ip l' ops' event)) :
    l'.length = l.length ∧ ops'.length = after c op i ops.length ∧ ip ∈ flow c op i := by
  cases op with
  | const =>
    obtain ⟨n, hn, hlt⟩ := hw.constant rfl
    have hget : c.constants[n.toNat]? = some c.constants[n.toNat] := Array.getElem?_eq_getElem hlt
    simp only [localStep_const, hn, hget, Option.bind_eq_bind, Option.bind_some] at h
    cases h
    exact ⟨rfl, rfl, List.mem_singleton.mpr rfl⟩
  | load =>
    obtain ⟨n, hn, hlt⟩ := hw.slot rfl
    simp only [localStep_load, hn, Option.bind_eq_bind, Option.bind_some] at h
    obtain ⟨v, -, hv⟩ := Option.bind_eq_some_iff.mp h
    cases hv
    exact ⟨rfl, rfl, List.mem_singleton.mpr rfl⟩
  | store =>
    obtain ⟨n, hn, hlt⟩ := hw.slot rfl
    cases ops with
    | nil => cases h
    | cons v ops =>
      simp only [localStep_store, hn, Option.bind_eq_bind, Option.bind_some] at h
      cases h
      exact ⟨List.length_set, rfl, List.mem_singleton.mpr rfl⟩
  | builtin =>
    obtain ⟨a, n, ha, hn⟩ := hw.builtin
    simp only [localStep_builtin, ha, hn, Option.bind_eq_bind, Option.bind_some] at h
    split at h
    · cases h
    · split at h
      · cases h
        refine ⟨rfl, ?_, List.mem_singleton.mpr rfl⟩
        simp [after, effectOf, effect, ha, hn]
      · cases h
  | jumpIfFalse | jumpIfTrue =>
    cases ops with
    | nil => cases h
    | cons v ops =>
      cases h
      refine ⟨rfl, rfl, ?_⟩
      cases v.truthy <;> simp [flow]
  | null | true | false | jump | loop =>
    cases h
    exact ⟨rfl, rfl, List.mem_singleton.mpr rfl⟩
  | pop | dup =>
    cases ops with
    | nil => cases h
    | cons v ops =>
      cases h
      exact ⟨rfl, rfl, List.mem_singleton.mpr rfl⟩
  | neg | bitNot | not =>
    cases ops with
    | nil => cases h
    | cons v ops =>
      obtain ⟨w, -, rfl, rfl, rfl, -⟩ := LocalOutcome.ofValue_eq_next (Option.some.inj h)
      exact ⟨rfl, rfl, List.mem_singleton.mpr rfl⟩
  | add | sub | mul | div | mod | bitAnd | bitOr | bitXor | shl | shr | eq | ne
  | lt | le | gt | ge =>
    obtain _ | ⟨y, _ | ⟨x, ops⟩⟩ := ops
    · cases h
    · cases h
    · obtain ⟨w, -, rfl, rfl, rfl, -⟩ := LocalOutcome.ofValue_eq_next (Option.some.inj h)
      exact ⟨rfl, rfl, List.mem_singleton.mpr rfl⟩
  | call | ret | print | halt => cases ops <;> cases h

end Depths

end LoopTracer.Interp
