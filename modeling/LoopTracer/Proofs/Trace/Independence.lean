import LoopTracer.Proofs.Trace.Recorders

/-! Recordings that follow each other on one recorder.

The slot map keeps its pages from one recording to the next, and the recorder keeps the slot map. No
operation can tell two slot maps apart that hold the same values (`Blind`), however their pages are
laid out, and what a recording begins with is a cleared map. So a recording gives the same answers
and the same trace after any history as it does on a new recorder, and a slot that it has given no
value has none. -/
namespace LoopTracer.Trace

/-! ### Slot maps that hold the same values -/

/-- Two slot maps with the same values, in none but the slots `S`. -/
structure Alike (S : SlotAddr → Prop) (t t' : SlotMap) : Prop where
  left : t.Valid
  right : t'.Valid
  values : ∀ k, t'.value? k = t.value? k
  unset : ∀ a : SlotAddr, a.valid = true → ¬S a → t.value? a.slot.toNat = none

variable {S D : SlotAddr → Prop} {t t' : SlotMap}

theorem Alike.mono (h : Alike S t t') (hD : ∀ a, S a → D a) : Alike D t t' :=
  ⟨h.left, h.right, h.values, fun a ha hnot => h.unset a ha fun hs => hnot (hD a hs)⟩

theorem Alike.clear (ht : t.Valid) (ht' : t'.Valid) : Alike S t.clear t'.clear :=
  have hleft := SlotMap.clear_valid ht
  have hright := SlotMap.clear_valid ht'
  ⟨hleft.1, hright.1, fun k => (hright.2 k).trans (hleft.2 k).symm, fun _ _ _ => hleft.2 _⟩

theorem Alike.get (h : Alike S t t') (a : SlotAddr) : t'.get a = t.get a := by
  have hfind : t'.find? a = t.find? a := by
    cases ha : a.valid with
    | true => rw [SlotMap.find?_eq t' ha, SlotMap.find?_eq t ha, h.values]
    | false => simp only [SlotMap.find?, ha, Bool.not_false, if_true]
  unfold SlotMap.get
  rw [hfind]

/-- A slot outside is not found. -/
theorem Alike.get_unset (h : Alike S t t') {a : SlotAddr} (ha : a.valid = true) (hS : ¬S a) :
    t.get a = .error (.untracked a.render) := by
  unfold SlotMap.get
  rw [SlotMap.find?_eq t ha, h.unset a ha hS]
  rfl

theorem Alike.insert (h : Alike S t t') {a : SlotAddr} {ref : Ref}
    (hset : SlotMap.settable a ref = none)
    (hS : ∀ b, S b → D b) (ha : D a) : Alike D (t.insert a ref) (t'.insert a ref) := by
  obtain ⟨hleft, hvalue⟩ := SlotMap.insert_valid h.left a (settable_nonneg hset)
  obtain ⟨hright, hvalue'⟩ := SlotMap.insert_valid h.right a (settable_nonneg hset)
  refine ⟨hleft, hright, fun k => ?_, fun b hb hnot => ?_⟩
  · rw [hvalue, hvalue', h.values]
  · have hne : b.slot.toNat ≠ a.slot.toNat := by
      intro heq
      obtain rfl := SlotAddr.eq_of_slot hb (valid_of_settable hset) heq
      exact hnot ha
    rw [hvalue, if_neg hne]
    exact h.unset b hb fun hs => hnot (hS b hs)

/-! ### Operations that cannot tell them apart -/

variable {α β : Type}

/-- Two ends of an operation that differ in the slot map alone. Success may have given the slots `D`
values, an operation that stops has left it at `S`. -/
inductive Matched (S D : SlotAddr → Prop) :
    (x y : EStateM.Result RecordStop Recorder α) → Prop where
  | ok {a : α} {r : Recorder} {t : SlotMap} (h : Alike D r.slots t) :
      Matched S D (.ok a r) (.ok a { r with slots := t })
  | error {e : RecordStop} {r : Recorder} {t : SlotMap} (h : Alike S r.slots t) :
      Matched S D (.error e r) (.error e { r with slots := t })

/-- On slot maps with the same values in `S` the operation does the same. -/
def Blind (S D : SlotAddr → Prop) (x : Recording α) : Prop :=
  ∀ (r : Recorder) (t : SlotMap), Alike S r.slots t → Matched S D (x r) (x { r with slots := t })

namespace Blind

variable {x : Recording α} {f : α → Recording β}

theorem pure (a : α) : Blind S S (Pure.pure a : Recording α) := fun _ _ h => .ok h

theorem throw (e : RecordStop) : Blind S D (throw e : Recording α) := fun _ _ h => .error h

theorem giveUp (reason : AbortReason) (pc : Int) (detail : Text) :
    Blind S D (Recorder.giveUp reason pc detail : Recording α) := .throw _

theorem ends (hx : Blind S D x) {r : Recorder} {t : SlotMap} (h : Alike S r.slots t) :
    (∃ a r₁ t₁, x r = .ok a r₁ ∧ x { r with slots := t } = .ok a { r₁ with slots := t₁ } ∧
      Alike D r₁.slots t₁) ∨
      ∃ e r₁ t₁, x r = .error e r₁ ∧ x { r with slots := t } = .error e { r₁ with slots := t₁ } ∧
        Alike S r₁.slots t₁ := by
  have hends := hx r t h
  generalize x r = u at hends ⊢
  generalize x { r with slots := t } = v at hends ⊢
  cases hends with
  | ok h₁ => exact .inl ⟨_, _, _, rfl, rfl, h₁⟩
  | error h₁ => exact .inr ⟨_, _, _, rfl, rfl, h₁⟩

theorem bind (hx : Blind S S x) (hf : ∀ a, Blind S D (f a)) : Blind S D (x >>= f) := by
  intro r t h
  obtain ⟨a, r₁, t₁, hr, ht, h₁⟩ | ⟨e, r₁, t₁, hr, ht, h₁⟩ := hx.ends h
  · rw [bind_ok hr, bind_ok ht]
    exact hf a r₁ t₁ h₁
  · rw [bind_error hr, bind_error ht]
    exact .error h₁

/-- Nothing is lost if more slots may have been given values. -/
theorem mono (hx : Blind S S x) (hD : ∀ a, S a → D a) : Blind S D x := by
  intro r t h
  obtain ⟨a, r₁, t₁, hr, ht, h₁⟩ | ⟨e, r₁, t₁, hr, ht, h₁⟩ := hx.ends h
  · rw [hr, ht]
    exact .ok (h₁.mono hD)
  · rw [hr, ht]
    exact .error h₁

/-- A look at the recorder that is not one at the slot map. -/
theorem look {f : Recorder → Recording β}
    (hsame : ∀ (r : Recorder) (t : SlotMap), f { r with slots := t } = f r)
    (hf : ∀ r, Blind S D (f r)) : Blind S D (get >>= f) := by
  intro r t h
  show Matched S D (f r r) (f { r with slots := t } { r with slots := t })
  rw [hsame r t]
  exact hf r r t h

theorem modify {g : Recorder → Recorder} (hslots : ∀ r, (g r).slots = r.slots)
    (hsame : ∀ (r : Recorder) (t : SlotMap), g { r with slots := t } = { g r with slots := t }) :
    Blind S S (modify g : Recording PUnit) := by
  intro r t h
  show Matched S S (.ok PUnit.unit (g r)) (.ok PUnit.unit (g { r with slots := t }))
  rw [hsame r t]
  refine .ok ?_
  rw [hslots]
  exact h

theorem liftFault (x : Except Fault α) : Blind S S (Recorder.liftFault x) := by
  cases x with
  | ok a => exact .pure a
  | error f => exact .throw _

theorem append (i : Inst) : Blind S S (Recorder.append i) := by
  intro r t h
  unfold Recorder.append
  dsimp only
  cases Buffer.appendFault? _ _ with
  | none => exact Matched.ok (r := { r with buffer := _ }) h
  | some fault => exact Matched.error (r := { r with buffer := _ }) h

theorem valueOf (a : SlotAddr) : Blind S S (Recorder.valueOf a) := by
  intro r t h
  show Matched S S (Recorder.liftFault (r.slots.get a) r)
    (Recorder.liftFault (t.get a) { r with slots := t })
  rw [h.get]
  exact liftFault _ r t h

theorem typeOf (a : SlotAddr) : Blind S S (Recorder.typeOf a) := by
  unfold Recorder.typeOf
  refine .look (fun _ _ => rfl) fun r => ?_
  dsimp only
  repeat' with_reducible
    first | exact .throw _ | exact .pure _ | refine .bind ?_ fun _ => ?_ | split

theorem instOf (ref : Ref) : Blind S S (Recorder.instOf ref) := by
  unfold Recorder.instOf
  refine .look (fun _ _ => rfl) fun r => ?_
  split
  · exact .pure _
  · exact .throw _

theorem setSlot (a : SlotAddr) (ref : Ref) (t : Ty) (hS : ∀ a, S a → D a) (ha : D a) :
    Blind S D (Recorder.setSlot a ref t) := by
  intro r t' h
  unfold Recorder.setSlot
  cases hset : SlotMap.settable a ref with
  | some f => exact .error h
  | none =>
    exact Matched.ok (r := { r with slots := r.slots.insert a ref, types := _, tracked := _ })
      (h.insert hset hS ha)

/-- What stores its result gives a value to the slot it writes. -/
theorem result (p : Primitive) (dest : Written) (ref : Ref) (t : Ty) (hS : ∀ a, S a → D a)
    (hdest : D dest.slot) :
    Blind S D (Recorder.result p dest ref t) := by
  unfold Recorder.result
  dsimp only
  split
  · exact .bind (.giveUp _ _ _) fun _ => .setSlot _ _ _ hS hdest
  · exact .setSlot _ _ _ hS hdest

theorem emit (op : TraceOp) (a b : Ref) (t : Ty) : Blind S S (Recorder.emit op a b t) := .append _

theorem immediate (v : Immediate) (t : Ty) : Blind S S (Recorder.immediate v t) := by
  unfold Recorder.immediate
  refine .look (fun _ _ => rfl) fun r => ?_
  split
  · exact .pure _
  · exact .bind (.append _) fun _ => .bind (.modify (fun _ => rfl) fun _ _ => rfl) fun _ => .pure _

theorem callHelper (id : UInt8) (t : Ty) (args : List Ref) :
    Blind S S (Recorder.callHelper id t args) := .append _

theorem toFloat (ref : Ref) (t : Ty) : Blind S S (Recorder.toFloat ref t) := by
  unfold Recorder.toFloat
  repeat' with_reducible first
    | exact .pure _ | exact .instOf _ | exact .immediate _ _ | exact .emit _ _ _ _
    | refine .bind ?_ fun _ => ?_ | split

theorem snapshotFrom (i n : Nat) : Blind S S (Recorder.snapshotFrom i n) := by
  induction n generalizing i with
  | zero => exact .pure _
  | succ n ih =>
    unfold Recorder.snapshotFrom
    refine .bind (.valueOf _) fun ref => .look (fun _ _ => rfl) fun r => ?_
    split
    · exact .throw _
    · exact .bind (ih _) fun _ => .pure _

theorem exitBefore (p : Primitive) (kind : ExitKind) : Blind S S (Recorder.exitBefore p kind) := by
  unfold Recorder.exitBefore
  refine .look (fun _ _ => rfl) fun r => ?_
  dsimp only
  repeat' with_reducible first
    | exact .throw _ | exact .pure _ | exact .snapshotFrom _ _ | refine .bind ?_ fun _ => ?_ | split

theorem guard (op : TraceOp) (condition : Ref) (exit : SideExit) :
    Blind S S (Recorder.guard op condition exit) :=
  .bind (.append _) fun _ => .pure _

section Primitives

variable (p : Primitive) (dest : Written) (hS : ∀ a, S a → D a) (hdest : D dest.slot)

include hS hdest

theorem onFloats (op : TraceOp) (t : Ty) (a b : Ref × Ty) :
    Blind S D (Recorder.onFloats p dest op t a b) :=
  .bind (.toFloat _ _) fun _ => .bind (.toFloat _ _) fun _ => .bind (.emit _ _ _ _) fun _ =>
    .result _ _ _ _ hS hdest

theorem compare (op : BinOp) (a b : Ref × Ty) : Blind S D (Recorder.compare p op dest a b) := by
  unfold Recorder.compare
  dsimp only
  repeat' with_reducible first
    | exact .giveUp _ _ _ | exact .onFloats _ _ hS hdest _ _ _ _ | exact .result _ _ _ _ hS hdest
    | exact .emit _ _ _ _
    | exact .immediate _ _ | exact .callHelper _ _ _ | refine .bind ?_ fun _ => ?_ | split

theorem binary (op : BinOp) (a b : SlotAddr) : Blind S D (Recorder.binary p op a b dest) := by
  unfold Recorder.binary
  refine .bind (.typeOf _) fun ta => .bind (.typeOf _) fun tb => .bind (.valueOf _) fun ra =>
    .bind (.valueOf _) fun rb => ?_
  dsimp only
  split
  all_goals repeat' with_reducible first
    | exact .giveUp _ _ _ | exact .result _ _ _ _ hS hdest | exact .onFloats _ _ hS hdest _ _ _ _
    | exact .compare _ _ hS hdest _ _ _ | exact .emit _ _ _ _ | exact .immediate _ _
    | exact .callHelper _ _ _
    | exact .guard _ _ _ | exact .toFloat _ _ | exact .exitBefore _ _
    | refine .bind ?_ fun _ => ?_ | split

theorem unary (op : UnOp) (a : SlotAddr) : Blind S D (Recorder.unary p op a dest) := by
  unfold Recorder.unary
  refine .bind (.typeOf _) fun t => .bind (.valueOf _) fun ref => ?_
  split
  all_goals repeat' with_reducible first
    | exact .giveUp _ _ _ | exact .result _ _ _ _ hS hdest | exact .emit _ _ _ _
    | exact .immediate _ _
    | exact .guard _ _ _ | exact .exitBefore _ _ | refine .bind ?_ fun _ => ?_ | split

end Primitives

theorem branch (p : Primitive) (condition : SlotAddr) (taken : Bool) :
    Blind S S (Recorder.branch p condition taken) := by
  unfold Recorder.branch
  refine .bind (.typeOf _) fun t => .bind (.valueOf _) fun ref => .bind (.instOf _) fun i => ?_
  dsimp only
  repeat' with_reducible first
    | exact .giveUp _ _ _ | exact .pure _ | exact .emit _ _ _ _ | exact .immediate _ _
    | exact .guard _ _ _
    | exact .exitBefore _ _ | refine .bind ?_ fun _ => ?_ | split

theorem callArgs (p : Primitive) (d : Helper) (i : Nat) (slots : List SlotAddr)
    (classes : List Machine.SizeClass) :
    Blind S S (Recorder.callArgs p d i slots classes) := by
  induction slots generalizing i classes with
  | nil => exact .pure _
  | cons a slots ih =>
    cases classes with
    | nil => exact .pure _
    | cons c classes =>
      unfold Recorder.callArgs
      refine .bind (.typeOf _) fun t => .bind (.valueOf _) fun ref => ?_
      dsimp only
      repeat' with_reducible first
        | exact .giveUp _ _ _ | exact ih _ _ | exact .pure _ | exact .toFloat _ _
        | refine .bind ?_ fun _ => ?_ | split

theorem call (helpers : HelperTable) (p : Primitive) (id : UInt8)
    (args : List SlotAddr) (dest : Written)
    (hS : ∀ a, S a → D a) (hdest : D dest.slot) :
    Blind S D (Recorder.call helpers p id args dest) := by
  unfold Recorder.call
  refine .bind (.liftFault _) fun d => ?_
  dsimp only
  repeat' with_reducible first
    | exact .giveUp _ _ _ | exact .callArgs _ _ _ _ _ | exact .result _ _ _ _ hS hdest
    | exact .callHelper _ _ _
    | refine .bind ?_ fun _ => ?_ | split

end Blind

/-- The slot that an action writes. -/
def Action.dest? : Action → Option SlotAddr
  | .const _ dest | .copy _ dest | .binary _ _ _ dest | .unary _ _ dest | .call _ _ dest =>
    some dest.slot
  | _ => none

namespace Blind

/-- A primitive gives a value to no slot but the one it writes. -/
theorem primitive (helpers : HelperTable) (p : Primitive) (hS : ∀ a, S a → D a)
    (hdest : ∀ a, p.action.dest? = some a → D a) : Blind S D (Recorder.primitive helpers p) := by
  unfold Recorder.primitive
  cases haction : p.action with
  | const v dest =>
    exact .bind (.immediate _ _) fun _ => .result _ _ _ _ hS (hdest _ (by rw [haction]; rfl))
  | copy source dest =>
    exact .bind (.valueOf _) fun _ => .bind (.typeOf _) fun _ =>
      .result _ _ _ _ hS (hdest _ (by rw [haction]; rfl))
  | binary op a b dest => exact .binary _ _ hS (hdest _ (by rw [haction]; rfl)) _ _ _
  | unary op a dest => exact .unary _ _ hS (hdest _ (by rw [haction]; rfl)) _ _
  | branch condition taken => exact (Blind.branch _ _ _).mono hS
  | call id args dest => exact .call _ _ _ _ _ hS (hdest _ (by rw [haction]; rfl))
  | loopEdge target => exact .giveUp _ _ _
  | unrecordable => exact .giveUp _ _ _
  | incomplete kind => exact .throw _
  | other n => exact .giveUp _ _ _

/-- Giving the recording up leaves a cleared map, whatever was written before. -/
theorem orReset_bind {x : Recording α} {f : α → Recording Unit} (hx : Blind S D x)
    (hf : ∀ a, Blind D D (f a))
    (habort : ∀ a r e r', f a r = .error e r' → ∃ abort, e = .abort abort) :
    Blind S D (Recorder.orReset (x >>= f)) := by
  intro r t h
  unfold Recorder.orReset
  obtain ⟨a, r₁, t₁, hr, ht, h₁⟩ | ⟨e, r₁, t₁, hr, ht, h₁⟩ := hx.ends h
  · rw [bind_ok hr, bind_ok ht]
    obtain ⟨u, r₂, t₂, hr₁, ht₁, h₂⟩ | ⟨e, r₂, t₂, hr₁, ht₁, h₂⟩ := (hf a).ends h₁
    · rw [hr₁, ht₁]
      exact .ok h₂
    · obtain ⟨abort, rfl⟩ := habort a r₁ e r₂ hr₁
      rw [hr₁, ht₁]
      exact Matched.error (r := r₂.reset) (.clear h₂.left h₂.right)
  · rw [bind_error hr, bind_error ht]
    cases e with
    | abort a => exact Matched.error (r := r₁.reset) (.clear h₁.left h₁.right)
    | notRecording => exact .error h₁
    | fault f => exact .error h₁

theorem orReset {x : Recording Unit} (hx : Blind S S x) : Blind S S (Recorder.orReset x) := by
  rw [← bind_pure x]
  exact orReset_bind hx .pure fun a r e r' (hstop : EStateM.Result.ok a r = .error e r') =>
    nomatch hstop

theorem record (helpers : HelperTable) (maxLength : Int) (p : Primitive) (hS : ∀ a, S a → D a)
    (hdest : ∀ a, p.action.dest? = some a → D a) :
    Blind S D (Recorder.record helpers maxLength p) := by
  unfold Recorder.record
  refine .look (fun _ _ => rfl) fun r => ?_
  dsimp only
  split
  · exact fun r t h => .error h
  · refine .bind (.modify (fun _ => rfl) fun _ _ => rfl) fun _ =>
      .orReset_bind (.primitive _ _ hS hdest) (fun _ => ?_)
      fun _ r e r' hstop => ?_
    · refine .look (fun _ _ => rfl) fun r => ?_
      split
      · exact .giveUp _ _ _
      · exact .pure _
    · obtain hget | ⟨_, _, hget, hstop⟩ := bind_eq_error hstop
      · cases hget
      · cases hget
        split at hstop
        · cases hstop
          exact ⟨_, rfl⟩
        · cases hstop

theorem importSlots (types : TypeMap) (i : Nat)
    (hS : ∀ k < types.length, S (.ofSlot (i + k : Nat))) :
    Blind S S (Recorder.importSlots i types) := by
  induction types generalizing i with
  | nil => exact .pure _
  | cons t rest ih =>
    have hrest : Blind S S (Recorder.importSlots (i + 1) rest) :=
      ih (i + 1) fun k hk => by
        rw [show i + 1 + k = i + (k + 1) by omega]
        exact hS (k + 1) (Nat.succ_lt_succ hk)
    unfold Recorder.importSlots
    refine .bind (.append _) fun ref => ?_
    dsimp only
    split
    · exact .bind (.throw _) fun _ => hrest
    · next hset =>
      refine .bind (fun r t h => ?_) fun _ => hrest
      exact Matched.ok (r := { r with slots := r.slots.insert _ ref })
        (h.insert hset (fun _ => id) (hS 0 (Nat.succ_pos _)))

theorem storeSlots (types : TypeMap) (i : Nat) : Blind S S (Recorder.storeSlots i types) := by
  induction types generalizing i with
  | nil => exact .pure _
  | cons t rest ih =>
    unfold Recorder.storeSlots
    refine .bind (.valueOf _) fun ref => .look (fun _ _ => rfl) fun r => ?_
    dsimp only
    split
    · exact .bind (.append _) fun _ => ih _
    · exact ih _

theorem finish (f : Fragment) (stop : TypeMap) (target : Option Fragment) :
    Blind S S (Recorder.finish f stop target) := by
  unfold Recorder.finish
  refine .look (fun _ _ => rfl) fun r => ?_
  dsimp only
  split
  · exact fun r t h => .error h
  · refine .bind (.orReset ?_) fun _ => .bind (.modify (fun _ => rfl) fun _ _ => rfl) fun _ =>
      .bind (.storeSlots _ _) fun _ => .bind (.append _) fun _ => .look (fun _ _ => rfl) fun r =>
      .bind (.liftFault _) fun b => .bind (.modify (fun _ => rfl) fun _ _ => rfl) fun _ => .pure _
    refine .look (fun _ _ => rfl) fun r => ?_
    repeat' with_reducible
      first | exact .giveUp _ _ _ | exact .pure _ | refine .bind ?_ fun _ => ?_ | split

end Blind

/-! ### Histories -/

/-- How a request is answered, and the recorder after it. -/
def answered {ε : Type} (x : EStateM ε Recorder α) (r : Recorder) : Except ε α × Recorder :=
  match x r with
  | .ok a r' => (.ok a, r')
  | .error e r' => (.error e, r')

theorem answered_ok {ε : Type} {x : EStateM ε Recorder α} {r r' : Recorder} {a : α}
    (h : x r = .ok a r') :
    answered x r = (.ok a, r') := by
  rw [answered, h]

theorem answered_error {ε : Type} {x : EStateM ε Recorder α} {r r' : Recorder} {e : ε}
    (h : x r = .error e r') :
    answered x r = (.error e, r') := by
  rw [answered, h]

/-- How a recorder is asked to start. -/
structure Opening where
  fragment : Fragment
  rootTypes : TypeMap := []
  entry : TypeMap
  anchor : Option (Guard × ExitRecord) := none

/-- The recorder before the slots are read. -/
abbrev Opening.opened (o : Opening) (r : Recorder) : Recorder :=
  r.opened o.fragment o.rootTypes o.entry o.anchor

/-- A recorder is asked to start. Where that is refused, it stays as it is. -/
def Opening.start (o : Opening) : EStateM StartError Recorder Unit := fun r =>
  match r.start o.fragment o.rootTypes o.entry o.anchor with
  | .ok r' => .ok () r'
  | .error (.fault f) =>
    .error (.fault f) (answered (Recorder.importSlots 0 o.entry) (o.opened r)).2
  | .error e => .error e r

/-- What can be asked of a recorder. -/
inductive Request where
  | start (o : Opening)
  | record (p : Primitive)
  | close (f : Fragment) (stop : TypeMap) (target : Option Fragment)
  | commit
  | abort

section Histories

variable (helpers : HelperTable) (maxLength : Int)

/-- The recorder after a request, whatever the answer was. -/
def Recorder.after (r : Recorder) : Request → Recorder
  | .start o => (answered o.start r).2
  | .record p => (answered (Recorder.record helpers maxLength p) r).2
  | .close f stop target => (answered (Recorder.finish f stop target) r).2
  | .commit => match r.commit with | .ok r' => r' | .error _ => r
  | .abort => r.reset

/-- The recorder that a history of requests leaves. -/
def Recorder.history (requests : List Request) : Recorder :=
  requests.foldl (Recorder.after helpers maxLength) {}

/-- Primitives one after the other, also after one that was not recorded: how each was answered. -/
def Recorder.records : List Primitive → Recorder → List (Except RecordStop Unit) × Recorder
  | [], r => ([], r)
  | p :: ps, r =>
    let (answer, r₁) := answered (Recorder.record helpers maxLength p) r
    let (answers, r₂) := records ps r₁
    (answer :: answers, r₂)

end Histories

variable {helpers : HelperTable} {maxLength : Int}

theorem Blind.answered {x : Recording α} (hx : Blind S D x) {r : Recorder} {t : SlotMap}
    (h : Alike S r.slots t) :
    ∃ t₁, answered x { r with slots := t } =
      ((answered x r).1, { (answered x r).2 with slots := t₁ }) ∧
      Alike (if (answered x r).1.isOk then D else S) (answered x r).2.slots t₁ := by
  obtain ⟨a, r₁, t₁, hr, ht, h₁⟩ | ⟨e, r₁, t₁, hr, ht, h₁⟩ := hx.ends h
  · rw [answered_ok hr, answered_ok ht]
    exact ⟨t₁, rfl, h₁⟩
  · rw [answered_error hr, answered_error ht]
    exact ⟨t₁, rfl, h₁⟩

/-- What a blind operation leaves is in order. -/
theorem Blind.valid {x : Recording α} (hx : Blind (fun _ => True) (fun _ => True) x) {r : Recorder}
    (h : r.slots.Valid) :
    (Trace.answered x r).2.slots.Valid := by
  have hsame : Alike (fun _ => True) r.slots r.slots :=
    ⟨h, h, fun _ => rfl, fun _ _ hnot => absurd trivial hnot⟩
  obtain ⟨_, _, h₁⟩ := hx.answered hsame
  exact h₁.left

theorem after_valid {r : Recorder} (h : r.slots.Valid) (request : Request) :
    (r.after helpers maxLength request).slots.Valid := by
  cases request with
  | start o =>
    have himport : (answered (Recorder.importSlots 0 o.entry) (o.opened r)).2.slots.Valid :=
      Blind.valid (.importSlots _ _ fun _ _ => trivial) (reset_valid h)
    show (answered o.start r).2.slots.Valid
    unfold answered Opening.start
    cases hstart : r.start o.fragment o.rootTypes o.entry o.anchor with
    | ok r' =>
      obtain ⟨-, r₁, hr₁, rfl⟩ := start_ok hstart
      unfold answered at himport
      rw [hr₁] at himport
      exact himport
    | error e =>
      cases e with
      | fault f => exact himport
      | busy => exact h
      | anchor => exact h
  | record p => exact Blind.valid (.record _ _ _ (fun _ => id) fun _ _ => trivial) h
  | close f stop target => exact Blind.valid (.finish _ _ _) h
  | commit =>
    show (match r.commit with | .ok r' => r' | .error _ => r).slots.Valid
    unfold Recorder.commit
    split_ifs
    · exact reset_valid h
    · exact h
  | abort => exact reset_valid h

theorem history_valid (requests : List Request) :
    (Recorder.history helpers maxLength requests).slots.Valid := by
  unfold Recorder.history
  generalize hr : ({} : Recorder) = r
  have h : r.slots.Valid := hr ▸ SlotMap.valid_default
  clear hr
  induction requests generalizing r with
  | nil => exact h
  | cons request rest ih => exact ih _ (after_valid h request)

/-! ### Sessions -/

/-- A session of a recorder: a start, primitives and a close. -/
structure Script extends Opening where
  primitives : List Primitive
  stop : TypeMap
  target : Option Fragment := none

/-- How the requests of a session are answered. -/
structure Transcript where
  start : Except StartError Unit
  records : List (Except RecordStop Unit)
  close : Except RecordStop Buffer

def Script.run (helpers : HelperTable) (maxLength : Int) (s : Script) (r : Recorder) : Transcript :=
  let (start, r₁) := answered s.start r
  let (records, r₂) := Recorder.records helpers maxLength s.primitives r₁
  let (close, _) := answered (Recorder.finish s.fragment s.stop s.target) r₂
  { start, records, close }

/-- The slots that were given a value: those a recording starts with and those that the primitives
wrote that were recorded. -/
def Given (entry : TypeMap) (ps : List Primitive) (answers : List (Except RecordStop Unit))
    (a : SlotAddr) : Prop :=
  (∃ i < entry.length, a = .ofSlot (i : Nat)) ∨ ∃ p, (p, .ok ()) ∈ ps.zip answers ∧
    p.action.dest? = some a

theorem records_alike (ps : List Primitive) {r : Recorder} (h : Alike S r.slots t) :
    ∃ t', Recorder.records helpers maxLength ps { r with slots := t } =
        ((Recorder.records helpers maxLength ps r).1,
          { (Recorder.records helpers maxLength ps r).2 with slots := t' }) ∧
      Alike (fun a => S a ∨ ∃ p, (p, .ok ()) ∈ ps.zip (Recorder.records helpers maxLength ps r).1 ∧
        p.action.dest? = some a)
        (Recorder.records helpers maxLength ps r).2.slots t' := by
  induction ps generalizing r S t with
  | nil => exact ⟨t, rfl, h.mono fun _ => .inl⟩
  | cons p ps ih =>
    have hrecord : Blind S (fun a => S a ∨ p.action.dest? = some a)
        (Recorder.record helpers maxLength p) :=
      .record _ _ _ (fun _ => .inl) fun _ => .inr
    obtain ⟨t₁, heq, h₁⟩ := hrecord.answered h
    obtain ⟨t₂, heq₂, h₂⟩ := ih h₁
    refine ⟨t₂, ?_, ?_⟩
    · simp only [Recorder.records, heq, heq₂]
    · refine h₂.mono fun a ha => ?_
      simp only [Recorder.records, List.zip_cons_cons]
      obtain hgiven | ⟨q, hq, hdest⟩ := ha
      · cases hanswer : (answered (Recorder.record helpers maxLength p) r).1 with
        | error e =>
          rw [hanswer] at hgiven
          exact .inl hgiven
        | ok u =>
          rw [hanswer] at hgiven
          exact hgiven.imp_right fun hdest => ⟨p, List.mem_cons_self, hdest⟩
      · exact .inr ⟨q, List.mem_cons_of_mem _ hq, hdest⟩

/-- What a start comes to: it is refused, or it reads the slots. -/
theorem Opening.start_eq (o : Opening) {r : Recorder} (hidle : r.state = .idle) :
    o.start r =
      if (o.fragment.kind == .branch) ≠ o.anchor.isSome then
        .error (.anchor o.fragment.render (o.anchor.elim "<nil>" fun (g, e) => g.render e)) r
      else
        match Recorder.importSlots 0 o.entry (o.opened r) with
        | .ok _ r₁ => .ok () { r₁ with state := .recording }
        | .error (.fault f) r₁ => .error (.fault f) r₁
        | .error _ r₁ => .error (.fault .bounds) r₁ := by
  by_cases hkind : (o.fragment.kind == .branch) ≠ o.anchor.isSome
  · unfold Opening.start Recorder.start
    rw [if_neg (not_not_intro hidle), if_pos hkind, if_pos hkind]
  · have hstart : r.start o.fragment o.rootTypes o.entry o.anchor =
        match Recorder.importSlots 0 o.entry (o.opened r) with
        | .ok _ r₁ => .ok { r₁ with state := .recording }
        | .error (.fault f) _ => .error (.fault f)
        | .error _ _ => .error (.fault .bounds) := by
      unfold Recorder.start
      rw [if_neg (not_not_intro hidle), if_neg hkind]
      rfl
    unfold Opening.start answered
    rw [hstart, if_neg hkind]
    generalize Recorder.importSlots 0 o.entry (o.opened r) = v
    obtain ⟨u, r₁⟩ | ⟨e, r₁⟩ := v
    · rfl
    · cases e <;> rfl

/-- Two idle recorders start alike, and stay idle where they do not. -/
theorem Opening.start_alike (o : Opening) {r r' : Recorder} (hr : r.state = .idle)
    (hr' : r'.state = .idle)
    (h : r.slots.Valid) (h' : r'.slots.Valid) :
    (∃ r₁ t₁, o.start r = .ok () r₁ ∧ o.start r' = .ok () { r₁ with slots := t₁ } ∧
      Alike (fun a => ∃ i < o.entry.length, a = .ofSlot (i : Nat)) r₁.slots t₁) ∨
      ∃ e r₁ r₁', o.start r = .error e r₁ ∧ o.start r' = .error e r₁' ∧ r₁.state = .idle ∧
      r₁'.state = .idle := by
  rw [o.start_eq hr, o.start_eq hr']
  split_ifs
  · exact .inr ⟨_, _, _, rfl, rfl, hr, hr'⟩
  · have himport : Blind (fun a => ∃ i < o.entry.length, a = .ofSlot (i : Nat)) _
        (Recorder.importSlots 0 o.entry) :=
      .importSlots o.entry 0 fun k hk => ⟨k, hk, by rw [Nat.zero_add]⟩
    have hopened : Alike (fun a => ∃ i < o.entry.length, a = .ofSlot (i : Nat))
        (o.opened r).slots r'.slots.clear :=
      .clear h h'
    have hsame : o.opened r' = { o.opened r with slots := r'.slots.clear } := rfl
    obtain ⟨a, r₁, t₁, hok, hok', h₁⟩ | ⟨e, r₁, t₁, herror, herror', h₁⟩ := himport.ends hopened
    · rw [hsame, hok, hok']
      exact .inl ⟨_, t₁, rfl, rfl, h₁⟩
    · -- what was begun is still idle
      have hstate : r₁.state = .idle :=
        ((Firm.importSlots (V := fun _ => False) o.entry 0).error herror).1.state
      rw [hsame, herror, herror']
      cases e <;> exact .inr ⟨_, _, _, rfl, rfl, hstate, hstate⟩

theorem records_idle (ps : List Primitive) {r : Recorder} (hidle : r.state = .idle) :
    Recorder.records helpers maxLength ps r = (ps.map fun _ => .error .notRecording, r) := by
  have hrecord : ∀ p, answered (Recorder.record helpers maxLength p) r =
      (.error .notRecording, r) := by
    intro p
    have hstop : Recorder.record helpers maxLength p r = .error .notRecording r := by
      unfold Recorder.record
      show (if (!r.isRecording) = true then _ else _ : Recording Unit) r = _
      rw [if_pos (by rw [Recorder.isRecording, hidle]; rfl)]
      rfl
    exact answered_error hstop
  induction ps with
  | nil => rfl
  | cons p ps ih => simp only [Recorder.records, hrecord, ih, List.map_cons]

theorem finish_idle (f : Fragment) (stop : TypeMap) (target : Option Fragment) {r : Recorder}
    (hidle : r.state = .idle) :
    answered (Recorder.finish f stop target) r = (.error .notRecording, r) := by
  have hstop : Recorder.finish f stop target r = .error .notRecording r := by
    unfold Recorder.finish
    show (if (!r.isRecording) = true then _ else _ : Recording Buffer) r = _
    rw [if_pos (by rw [Recorder.isRecording, hidle]; rfl)]
    rfl
  exact answered_error hstop

/-- Recordings do not know of each other. Whatever a recorder was asked before, once it is idle the
requests of a session are answered as on a new recorder, and the trace is the same. While it lasts,
a slot that the session has given no value has none. -/
theorem sessions_independent (helpers : HelperTable) (maxLength : Int) (requests : List Request)
    (hidle : (Recorder.history helpers maxLength requests).state = .idle) (s : Script) :
    s.run helpers maxLength (Recorder.history helpers maxLength requests) =
      s.run helpers maxLength {} ∧
      ∀ r₁, s.start (Recorder.history helpers maxLength requests) = .ok () r₁ →
        ∀ a : SlotAddr, a.valid = true →
        ¬Given s.entry s.primitives (Recorder.records helpers maxLength s.primitives r₁).1 a →
          Recorder.valueOf a (Recorder.records helpers maxLength s.primitives r₁).2 =
            .error (.fault (.untracked a.render))
            (Recorder.records helpers maxLength s.primitives r₁).2 := by
  have hstart := s.start_alike hidle (show ({} : Recorder).state = .idle from rfl)
    (history_valid requests) SlotMap.valid_default
  generalize Recorder.history helpers maxLength requests = r at hstart
  obtain ⟨r₁, t₁, hok, hok', h₁⟩ | ⟨e, r₁, r₁', herror, herror', hstate, hstate'⟩ := hstart
  · obtain ⟨t₂, heq, h₂⟩ := @records_alike _ _ helpers maxLength s.primitives _ h₁
    obtain ⟨t₃, heq', -⟩ := (Blind.finish s.fragment s.stop s.target).answered h₂
    constructor
    · simp only [Script.run, answered_ok hok, answered_ok hok', heq, heq']
    · intro r₂ hr₂ a ha hnot
      rw [hok] at hr₂
      cases hr₂
      show Recorder.liftFault (SlotMap.get _ a) _ = _
      rw [h₂.get_unset ha hnot]
      rfl
  · constructor
    · simp only [Script.run, answered_error herror, answered_error herror', records_idle _ hstate,
        records_idle _ hstate',
        finish_idle _ _ _ hstate, finish_idle _ _ _ hstate']
    · intro r₂ hr₂
      rw [herror] at hr₂
      cases hr₂

/-- A loop with one local variable. -/
def countingLoop : Fragment :=
  { id := 1, key := { code := 1, pc := 0, depth := 1 }, kind := .root,
    entryTypes := some [.int], root := 1 }

/-- A recording that gave a value to slot 70 was given up; the next one does not find it there. -/
theorem given_up_forgotten :
    let past : List Request := [.start { fragment := countingLoop, entry := [.int] },
      .record { pc := 3, depth := 70, action := .const (.ofInt 5) ⟨.ofSlot 70, .int⟩ }, .abort]
    let next : Script :=
      { fragment := countingLoop, entry := [.int], primitives := [], stop := [.int] }
    (Recorder.history .standard 100 past).state = .idle ∧
      next.run .standard 100 (Recorder.history .standard 100 past) = next.run .standard 100 {} ∧
      ∀ r, next.start (Recorder.history .standard 100 past) = .ok () r →
        Recorder.valueOf (.ofSlot 70) r =
            .error (.fault (.untracked (SlotAddr.ofSlot 70).render)) r := by
  intro past next
  have hidle : (Recorder.history .standard 100 past).state = .idle := rfl
  obtain ⟨hrun, hunset⟩ := sessions_independent .standard 100 past hidle next
  refine ⟨hidle, hrun, fun r hstart => hunset r hstart (.ofSlot 70) (by decide) ?_⟩
  rintro (⟨i, hi, heq⟩ | ⟨p, hp, -⟩)
  · obtain rfl : i = 0 := Nat.lt_one_iff.mp hi
    exact absurd heq (by decide)
  · cases hp

end LoopTracer.Trace
