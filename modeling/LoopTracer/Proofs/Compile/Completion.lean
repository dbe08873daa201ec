import LoopTracer.Proofs.Compile.Allotment
import LoopTracer.Proofs.Compile.Assembling
import LoopTracer.Proofs.Trace.Supply

/-! Compiling a trace comes to an end.

An instruction that has its operands is compiled, or a limit stops it (`generate_orderly`): after
it the values that are needed were all made before it. So at the start of the trace no value is
needed any more. -/
namespace LoopTracer.Compile

open Machine Trace

/-- Instruction `n` of the trace that is compiled has all that it needs. -/
structure Job.Offers (job : Job) (n : Nat) (i : Inst) : Prop where
  get : job.set.buffer.insts[n]? = some i
  known : ∀ m, i.op ≠ .other m
  uses : ∀ ref ∈ i.operands ++ i.snapshotRefs, ref < n ∧ Makes job.set.buffer ref
  supplied : i.Supplied

namespace Job.Offers

variable {job : Job} {n : Nat} {i : Inst} (h : job.Offers n i)
include h

theorem size : n < job.set.buffer.size := (Array.getElem?_eq_some_iff.mp h.get).1

theorem makes (hresult : i.op.hasResult = true) : Makes job.set.buffer n :=
  makes_iff.mpr ⟨n, i, rfl, h.get, hresult⟩

/-- A value other than this one is made by none without a result. -/
theorem not_makes (hresult : i.op.hasResult = false) : ¬ Makes job.set.buffer n := by
  intro hm
  obtain ⟨m, j, hm, hj, hjresult⟩ := makes_iff.mp hm
  obtain rfl := Int.ofNat.inj hm
  rw [h.get] at hj
  cases hj
  rw [hresult] at hjresult
  cases hjresult

theorem left (hne : i.a ≠ Ref.none) : i.a < n ∧ Makes job.set.buffer i.a :=
  h.uses _ (by simp [Inst.operands, hne])

theorem right (hne : i.b ≠ Ref.none) : i.b < n ∧ Makes job.set.buffer i.b :=
  h.uses _ (by simp [Inst.operands, hne])

theorem first (hop : i.op.readsFirst = true) : i.a < n ∧ Makes job.set.buffer i.a :=
  h.left fun heq => absurd (heq ▸ h.supplied.first hop) (by decide)

theorem second (hop : i.op.readsSecond = true) : i.b < n ∧ Makes job.set.buffer i.b :=
  h.right fun heq => absurd (heq ▸ h.supplied.second hop) (by decide)

end Job.Offers

/-- The helpers take few arguments. -/
theorem standard_few {id : UInt8} {d : Helper}
    (h : HelperTable.standard.get id = .ok d) : d.args.length ≤ 2 := by
  have hall : ∀ d ∈ HelperTable.standard.helpers, d.args.length ≤ 2 := by decide
  unfold HelperTable.get at h
  split at h
  · next d' hd =>
    cases h
    exact hall d (Array.mem_of_getElem? hd)
  · cases h

namespace Assembler

variable {α : Type} {job : Job} {r : CodePages} {l : List Nat} {n k : Nat}
  {s : Assembler} {i : Inst}

theorem allocating_ends {x : Allocating α} {Q : α → Allocation → Prop}
    (hx : job.Allots r x s.alloc Q) :
    job.Ends r (allocating x) s fun a s' => Q a s'.alloc := by
  cases h : x s.alloc with
  | ok a alloc =>
    have heq : allocating x s = .ok a { s with alloc } := by simp only [allocating, h]
    exact (ensures_ok heq).mpr ((ensures_ok h).mp hx)
  | error e alloc =>
    have heq : allocating x s = .error e { s with alloc } := by simp only [allocating, h]
    obtain ⟨x, rfl, hexceeded⟩ := (ensures_error h).mp hx
    exact (ensures_error heq).mpr ⟨x, rfl, .alloc hexceeded⟩

/-- A computation that begins with an answer. -/
theorem liftFault_bind {β : Type} {a : α} {x : Except Fault α} {f : α → Assembling β}
    {Q : β → Assembler → Prop}
    (h : x = .ok a) (hf : job.Ends r (f a) s Q) : job.Ends r (liftFault x >>= f) s Q := by
  subst h
  exact .pure_bind hf

section

variable (h : Orderly job r l n s.alloc)
include h

theorem coding_orderly {x : Coding α}
    (hx : Ensures (Code.Stops r.pages.size) x s.alloc.code fun _ c => Code.Tidy r l c) :
    job.Ends r (coding x) s fun _ s' => Orderly job r l n s'.alloc :=
  (allocating_ends (Allocation.coding_ends hx)).mono fun _ _ ⟨hregs, htidy⟩ => h.coded hregs htidy

theorem regOf_bind {β : Type} (hk : k < job.set.buffer.size) {f : Reg → Assembling β}
    {Q : β → Assembler → Prop}
    (hf : ∀ x, job.Ends r (f x) s Q) : job.Ends r (regOf k >>= f) s Q := by
  obtain ⟨x, hx⟩ := h.regs.regOf_eq hk
  show job.Ends r ((do liftFault ((← get).alloc.regs.regOf k)) >>= f) s Q
  rw [bind_assoc]
  exact .get (liftFault_bind hx (hf x))

/-- A jump that leaves the trace is counted. -/
theorem countExitJump_orderly : job.Ends r (countExitJump job) s fun _ s' =>
    Orderly job r l n s'.alloc := by
  refine .modify_bind (.get ?_)
  dsimp only
  split
  · next hmany => exact .throw ⟨_, rfl, .exits hmany⟩
  · exact .pure h

/-- The registers of operands are at most two. -/
theorem operandRegs_bind (hjob : job.Fit r) (ha : i.a ≠ Ref.none → Makes job.set.buffer i.a)
    (hb : i.b ≠ Ref.none → Makes job.set.buffer i.b) {β : Type} {f : RegSet → Assembling β}
    {Q : β → Assembler → Prop}
    (hf : ∀ avoid, job.set.target.Spared avoid → job.Ends r (f avoid) s Q) :
    job.Ends r (operandRegs i >>= f) s Q := by
  have hstep : ∀ (set : RegSet) (ref : Ref), (ref ≠ Ref.none → Makes job.set.buffer ref) →
      ∀ {γ : Type} {g : RegSet → Assembling γ} {Q : γ → Assembler → Prop},
        (∀ x, job.Ends r (g (set.insert x)) s Q) →
        job.Ends r (g set) s Q →
        job.Ends r ((do
          if ref = Ref.none then return set
          return set.insert (← regOf ref) : Assembling RegSet) >>= g) s Q := by
    intro set ref href γ g Q hinsert hsame
    split
    · exact .pure_bind hsame
    · next hne =>
      obtain ⟨k, rfl⟩ := Int.eq_ofNat_of_zero_le (href hne).bounds.1
      have hk := (href hne).bounds.2
      rw [bind_assoc]
      exact regOf_bind h (by omega) fun x => .pure_bind (hinsert x)
  have htwo : ∀ avoid x y, (∀ z, avoid.contains z = true → z = x ∨ z = y) →
      job.Ends r (f avoid) s Q := fun avoid x y havoid =>
    hf avoid (hjob.target.spare x y havoid)
  have hone : ∀ {x y : Reg}, (RegSet.insert ∅ x).contains y = true → y = x := by
    intro x y hy
    rcases RegSet.contains_insert.mp hy with ⟨rfl, -⟩ | hy
    · rfl
    · rw [RegSet.contains_empty] at hy
      cases hy
  unfold operandRegs
  simp only [List.foldlM_cons, List.foldlM_nil, bind_assoc]
  refine hstep ∅ i.a ha
    (fun x => hstep _ i.b hb (fun y => .pure_bind (htwo _ x y fun z hz => ?_)) (.pure_bind ?_))
    (hstep ∅ i.b hb (fun x => .pure_bind ?_) (.pure_bind ?_))
  · rcases RegSet.contains_insert.mp hz with ⟨rfl, -⟩ | hz
    · exact .inr rfl
    · exact .inl (hone hz)
  · exact htwo _ x x fun z hz => .inl (hone hz)
  · exact htwo _ x x fun z hz => .inl (hone hz)
  · exact htwo ∅ 0 0 fun z hz => by rw [RegSet.contains_empty] at hz; cases hz

end

section

variable (hjob : job.Fit r)
include hjob

theorem emit_orderly (h : Orderly job r l n s.alloc) (side : Side) {x : Instr} (hx : x.Known) :
    job.Ends r (emit job side x) s fun _ s' => Orderly job r l n s'.alloc :=
  coding_orderly h (Code.emit_room hjob.laid hjob.page h.tidy hx)

theorem regFor_orderly (h : Orderly job r l n s.alloc) {ref : Ref} (href : ref < n)
    (hmakes : Makes job.set.buffer ref)
    {avoid : RegSet} (havoid : job.set.target.Spared avoid) :
    job.Ends r (allocating (Allocation.regFor job.set ref avoid)) s fun _ s' =>
    Orderly job r l n s'.alloc := by
  obtain ⟨k, rfl⟩ := Int.eq_ofNat_of_zero_le hmakes.bounds.1
  exact allocating_ends (Allocation.regFor_orderly hjob h (Int.ofNat_lt.mp href) hmakes havoid)

theorem resultReg_orderly (h : Orderly job r l (n + 1) s.alloc) (hmakes : Makes job.set.buffer n)
    {avoid : RegSet} (havoid : job.set.target.Spared avoid) :
    job.Ends r (allocating (Allocation.resultReg job.set n avoid)) s fun _ s' =>
    Orderly job r l n s'.alloc :=
  allocating_ends (Allocation.resultReg_orderly hjob h hmakes havoid)

theorem spare_one {avoid : RegSet} (x : Reg) (havoid : ∀ z, avoid.contains z = true → z = x) :
    job.set.target.Spared avoid := hjob.target.spare x x fun z hz => .inl (havoid z hz)

theorem spare_none : job.set.target.Spared ∅ :=
  hjob.target.spare 0 0 fun z hz => by rw [RegSet.contains_empty] at hz; cases hz

/-- Two operands are put into registers. -/
theorem operands_orderly (h : Orderly job r l n s.alloc) {a b : Ref} (ha : a < n) (hb : b < n)
    (hmakes : Makes job.set.buffer a) (hmakes' : Makes job.set.buffer b) :
    job.Ends r (operands job a b) s fun _ s' => Orderly job r l n s'.alloc := by
  unfold operands
  split
  · exact (regFor_orderly hjob h ha hmakes (spare_none hjob)).bind fun _ _ h₁ => .pure h₁
  · obtain ⟨k, rfl⟩ := Int.eq_ofNat_of_zero_le hmakes'.bounds.1
    have hk := hmakes'.bounds.2
    refine regOf_bind h (by omega) fun x => ?_
    refine (regFor_orderly hjob h ha hmakes (spare_one hjob x fun z hz => ?_)).bind fun y s₁ h₁ =>
      ?_
    · rcases RegSet.contains_insert.mp hz with ⟨rfl, -⟩ | hz
      · rfl
      · rw [show RegSet.empty = (∅ : RegSet) from rfl, RegSet.contains_empty] at hz
        cases hz
    · refine (regFor_orderly hjob h₁ hb hmakes' (spare_one hjob y fun z hz => ?_)).bind
        fun _ _ h₂ => .pure h₂
      exact List.mem_singleton.mp (RegSet.contains_ofList.mp hz).1

/-! ### Guards -/

/-- The values of a snapshot are found. -/
theorem locate_orderly (h : Orderly job r l n s.alloc) {es : List SnapshotEntry}
    (hes : ∀ e ∈ es, e.ref < n ∧ Makes job.set.buffer e.ref) :
    job.Ends r (locate job es) s fun _ s' => Orderly job r l n s'.alloc := by
  induction es generalizing s with
  | nil => exact .pure h
  | cons e es ih =>
    have hrest : ∀ (place : Place) (s₁ : Assembler), Orderly job r l n s₁.alloc →
        job.Ends r (do return { addr := e.addr, type := e.type,
                                place } :: (← locate job es) : Assembling (List SlotLocation)) s₁
          fun _ s' => Orderly job r l n s'.alloc := fun place s₁ h₁ =>
      (ih h₁ fun e' he' => hes e' (List.mem_cons_of_mem e he')).bind fun _ _ h₂ => .pure h₂
    obtain ⟨hlt, hmakes⟩ := hes e List.mem_cons_self
    obtain ⟨k, hk⟩ := Int.eq_ofNat_of_zero_le hmakes.bounds.1
    have hsize := hmakes.bounds.2
    obtain ⟨i, hget, -⟩ := id hmakes
    unfold locate
    rw [hget]
    dsimp only
    split
    · next heq => cases heq
    · exact .pure_bind (hrest _ s h)
    · rw [hk]
      refine regOf_bind h (by omega) fun x => ?_
      split
      · exact .pure_bind (hrest _ s h)
      · have hslot := Allocation.slotFor_orderly hjob h (Int.ofNat_lt.mp (hk ▸ hlt)) (hk ▸ hmakes)
        exact (allocating_ends hslot).bind fun _ s₁ h₁ => .pure_bind (hrest _ s₁ h₁)

omit hjob in
/-- What writes a value back can be written. -/
theorem writeBack_known (t : Target) (x : SlotLocation) : ∀ i ∈ writeBack t x, i.Known := by
  intro i hi
  unfold writeBack at hi
  dsimp only at hi
  split at hi <;> simp only [List.mem_cons, List.not_mem_nil, or_false] at hi
  · exact hi ▸ trivial
  · rcases hi with rfl | rfl <;> trivial
  · rcases hi with rfl | rfl <;> trivial

theorem exitCode_orderly (h : Orderly job r l n s.alloc) (id : GuardId)
    (locations : List SlotLocation) :
    job.Ends r (exitCode job id locations) s fun _ s' => Orderly job r l n s'.alloc := by
  have hmany : ∀ (xs : List Instr) {s : Assembler}, (∀ x ∈ xs, x.Known) →
    Orderly job r l n s.alloc →
      job.Ends r (xs.forM (emit job .exits)) s fun _ s' => Orderly job r l n s'.alloc := by
    intro xs
    induction xs with
    | nil => exact fun _ h => .pure h
    | cons x xs ih =>
      exact fun hxs h => (emit_orderly hjob h .exits (hxs x List.mem_cons_self)).bind fun _ _ h₁ =>
        ih (fun y hy => hxs y (List.mem_cons_of_mem x hy)) h₁
  refine (countExitJump_orderly h).bind fun _ s₁ h₁ => .get ?_
  dsimp only
  refine (coding_orderly h₁
    (Code.emitBranch_room (i := .jump _) hjob.laid hjob.page h₁.tidy trivial)).bind
    fun site s₂ h₂ => ?_
  refine (emit_orderly hjob h₂ .exits (x := .movImm _ id.toUInt64) trivial).bind fun _ s₃ h₃ => ?_
  refine (hmany _ (fun x hx => ?_) h₃).bind fun _ s₄ h₄ => ?_
  · obtain ⟨y, -, hx⟩ := List.mem_flatMap.mp hx
    exact writeBack_known _ y x hx
  · exact (coding_orderly h₄ (Code.pos_room hjob.laid hjob.page h₄.tidy)).bind fun _ _ h₅ =>
      .pure h₅

/-- A guard is compiled once its values are found. -/
theorem leave_orderly (h : Orderly job r l n s.alloc) (exit : Nat) (cond : GuardCond) (reg : Reg)
    (locations : List SlotLocation) :
    job.Ends r (leave job exit cond reg locations) s fun _ s' => Orderly job r l n s'.alloc := by
  refine .modify_bind
    (.get (.bind (exitCode_orderly (l := l) (n := n) hjob ?_ _ locations) fun x s₁ h₁ => ?_))
  · exact h
  · exact (emit_orderly hjob h₁ .main (x := .guard cond reg x.1) trivial).bind fun _ _ h₂ =>
      .modify h₂

/-- A guard is compiled. -/
theorem guard_orderly (h : Orderly job r l n s.alloc)
    (ha : i.op ≠ .exitOv → i.a < n ∧ Makes job.set.buffer i.a)
    (hsnap : ∀ ref ∈ i.snapshotRefs, ref < n ∧ Makes job.set.buffer ref) :
    job.Ends r (guard job k i) s fun _ s' => Orderly job r l n s'.alloc := by
  have hrest : ∀ reg (s : Assembler), Orderly job r l n s.alloc → job.Ends r (do
      let locations ← locate job (i.exit.elim [] (·.snapshot))
      leave job (job.exitIndex[k]?.getD 0) (guardCond i.op) reg locations) s fun _ s' =>
          Orderly job r l n s'.alloc :=
    fun reg s h => (locate_orderly hjob h fun e he => hsnap e.ref (List.mem_map_of_mem he)).bind
        fun locations _ h₁ =>
      leave_orderly hjob h₁ _ _ reg locations
  unfold guard
  refine .get ?_
  extract_lets exit tail whole
  have hwhole : ∀ u, job.Ends r (whole u) s fun _ s' => Orderly job r l n s'.alloc := by
    intro u
    unfold whole
    split
    · exact .modify_bind (.pure_bind (hrest _ _ h))
    · next hop =>
      obtain ⟨hlt, hmakes⟩ := ha fun heq => hop (beq_iff_eq.mpr heq)
      exact (regFor_orderly hjob h hlt hmakes (spare_none hjob)).bind fun reg s₁ h₁ =>
        hrest reg s₁ h₁
  split
  · next hmany =>
      exact .bind (Q := fun _ _ => False) (.throw ⟨_, rfl, .guards hmany⟩) fun _ _ => False.elim
  · exact hwhole ()

/-! ### Calls -/

/-- Arguments are put into their registers. -/
theorem passInRegs_orderly (h : Orderly job r l n s.alloc) {xs : List (Ref × Reg)}
    (hxs : ∀ x ∈ xs, (x.1 < n ∧ Makes job.set.buffer x.1) ∧ x.2 ∈ job.set.target.argRegs) :
    job.Ends r (passInRegs job xs) s fun _ s' => Orderly job r l n s'.alloc := by
  induction xs generalizing s with
  | nil => exact .pure h
  | cons x xs ih =>
    obtain ⟨ref, reg⟩ := x
    obtain ⟨⟨hlt, hmakes⟩, hreg⟩ := hxs _ List.mem_cons_self
    obtain ⟨k, rfl⟩ := Int.eq_ofNat_of_zero_le hmakes.bounds.1
    have hpassed := Allocation.specificRegFor_orderly hjob h (Int.ofNat_lt.mp hlt) hmakes
      (hjob.target.argument reg hreg)
    exact (allocating_ends hpassed).bind fun _ s₁ h₁ => ih h₁ fun y hy =>
      hxs y (List.mem_cons_of_mem _ hy)

/-- A call of a helper that there is, with no more arguments than go in registers. -/
theorem call_orderly (h : Orderly job r l (n + 1) s.alloc) (hmakes : Makes job.set.buffer n)
    (hargs : ∀ ref ∈ i.args, ref < n ∧ Makes job.set.buffer ref) {d : Helper} {spec : CallSpec}
    (hget : job.helpers.get i.helper = .ok d) (hspec : job.helpers.spec i.helper = .ok spec)
    (hfew : i.args.length ≤ job.set.target.argRegs.length) :
    job.Ends r (call job n i) s fun _ s' => Orderly job r l n s'.alloc := by
  have hsize : n < job.set.buffer.size := by
    have := hmakes.bounds.2
    omega
  obtain ⟨e, hentry, hindex⟩ := h.regs.entry_eq hsize
  unfold call
  refine liftFault_bind hget (.get (liftFault_bind hentry ?_))
  extract_lets t inRegs avoid
  split
  · next hnone =>
    rw [Bool.and_eq_true, Option.isNone_iff_eq_none] at hnone
    exact .pure (h.narrow fun i hi => by rw [Registers.Has, hindex, hnone.1] at hi; cases hi)
  refine liftFault_bind hspec (.get ?_)
  extract_lets held called released evicted
  have hcalled : ∀ s₁ : Assembler, Orderly job r l n s₁.alloc →
      job.Ends r (called ()) s₁ fun _ s' => Orderly job r l n s'.alloc := by
    intro s₁ h₁
    unfold called
    refine (emit_orderly hjob h₁ .main (x := .call spec) trivial).bind fun _ s₂ h₂ => ?_
    refine (passInRegs_orderly hjob h₂ fun x hx => ?_).bind fun _ s₃ h₃ => ?_
    · obtain ⟨harg, hreg⟩ := List.of_mem_zip (show (x.1, x.2) ∈ i.args.zip t.argRegs from hx)
      exact ⟨hargs _ harg, hreg⟩
    rw [List.drop_eq_nil_of_le hfew]
    refine .pure_bind ?_
    split
    · exact emit_orderly hjob h₃ .main (x := .push _) trivial
    · exact .pure h₃
  have hreleased : ∀ s₁ : Assembler, Orderly job r l (n + 1) s₁.alloc →
      job.Ends r (released ()) s₁ fun _ s' => Orderly job r l n s'.alloc := by
    intro s₁ h₁
    unfold released
    refine (allocating_ends (Allocation.release_orderly hjob h₁ hsize)).bind fun _ s₂ h₂ => ?_
    exact hcalled s₂ (h₂.1.narrow h₂.2)
  -- the value of the call is given up once what the call would destroy is evicted
  have hevicted : ∀ s₁ : Assembler, Orderly job r l (n + 1) s₁.alloc →
    s₁.alloc.regs.index[n]? = some e →
      job.Ends r (evicted ()) s₁ fun _ s' => Orderly job r l n s'.alloc := by
    intro s₁ h₁ hindex₁
    unfold evicted
    refine (allocating_ends (Allocation.evictCallerSaved_orderly hjob h₁)).bind fun _ s₂ hs₂ => ?_
    obtain ⟨h₂, hsame⟩ := hs₂
    have hindex₂ : s₂.alloc.regs.index[n]? = some e := hsame.index ▸ hindex₁
    cases e with
    | none => exact hcalled s₂ (h₂.narrow fun i hi => by
      rw [Registers.Has, hindex₂] at hi; cases hi)
    | some i =>
      dsimp only [held, Option.map_some]
      have hmoved : ∀ s₃ : Assembler, Orderly job r l (n + 1) s₃.alloc → ∀ x : Reg, job.Ends r (do
            if x ≠ Reg.none && x ≠ t.retReg then emit job .main (.mov x t.retReg)
            released ()) s₃ fun _ s' => Orderly job r l n s'.alloc := by
        intro s₃ h₃ x
        dsimp only
        split
        · exact (emit_orderly hjob h₃ .main (x := .mov _ _) trivial).bind fun _ s₄ h₄ =>
            hreleased s₄ h₄
        · exact hreleased s₃ h₃
      split
      · exact (emit_orderly hjob h₂ .main (x := .store _ _ _) trivial).bind fun _ s₃ h₃ =>
          hmoved s₃ h₃ _
      · exact hmoved s₂ h₂ _
  cases e with
  | none => exact hevicted s h hindex
  | some i =>
    dsimp only [held, Option.map_some]
    split
    · next hreg =>
      have hunassigned :=
        h.changed (h.regs.after (h.regs.unassign hindex hreg).1 fun _ _ => .inl) Array.size_modify
      exact (allocating_ends (Q := fun _ a => Orderly job r l (n + 1) a ∧
        a.regs.index[n]? = some (some i))
        (.modify ⟨hunassigned, hindex⟩)).bind fun _ s₁ h₁ => hevicted s₁ h₁.1 h₁.2
    · exact hevicted s h hindex

/-! ### Instructions -/

section

variable (hi : job.Offers n i)
include hi

omit hjob in
/-- Nothing is given up for an instruction without a result. -/
theorem resultless (h : Orderly job r l (n + 1) s.alloc) (hresult : i.op.hasResult = false) :
    Orderly job r l n s.alloc :=
  ⟨h.regs.resultless (hi.not_makes hresult), h.tidy, h.table⟩

/-- The register of a result is had before those of the operands. -/
theorem result_bind (h : Orderly job r l (n + 1) s.alloc)
    (hresult : i.op.hasResult = true) {β : Type}
    {f : Reg → Assembling β} {Q : β → Assembler → Prop}
    (hf : ∀ (x : Reg) (s : Assembler), Orderly job r l n s.alloc → job.Ends r (f x) s Q) :
    job.Ends r (do
      let x ← allocating (Allocation.resultReg job.set n (← operandRegs i))
      f x) s Q :=
  operandRegs_bind h hjob (fun hne => (hi.left hne).2) (fun hne => (hi.right hne).2) fun _ havoid =>
    (resultReg_orderly hjob h (hi.makes hresult) havoid).bind hf

theorem pair_orderly (h : Orderly job r l (n + 1) s.alloc) (hresult : i.op.hasResult = true)
    (hfirst : i.op.readsFirst = true) (hsecond : i.op.readsSecond = true)
    {f : Reg → Reg → Reg → Instr}
    (hf : ∀ x y z, (f x y z).Known) : job.Ends r (do
      let rd ← allocating (Allocation.resultReg job.set n (← operandRegs i))
      let (ra, rb) ← operands job i.a i.b
      emit job .main (f rd ra rb)) s fun _ s' => Orderly job r l n s'.alloc := by
  refine result_bind hjob hi h hresult fun x s₁ h₁ => ?_
  obtain ⟨ha, hma⟩ := hi.first hfirst
  obtain ⟨hb, hmb⟩ := hi.second hsecond
  exact (operands_orderly hjob h₁ ha hb hma hmb).bind fun y s₂ h₂ =>
    emit_orderly hjob h₂ .main (hf x y.1 y.2)

/-- What computes a value is compiled. -/
theorem compute_orderly (h : Orderly job r l (n + 1) s.alloc) (hop : i.op.computes = true) :
    job.Ends r (match i.op.binary?, i.op.unary?, i.op.compare? with
      | some m, _, _ => do
        let rd ← allocating (Allocation.resultReg job.set n (← operandRegs i))
        let (ra, rb) ← operands job i.a i.b
        emit job .main (.binary m rd ra rb)
      | _, some m, _ => do
        let rd ← allocating (Allocation.resultReg job.set n (← operandRegs i))
        let ra ← allocating (Allocation.regFor job.set i.a ∅)
        emit job .main (.unary m rd ra)
      | _, _, some (c, float) => do
        let rd ← allocating (Allocation.resultReg job.set n (← operandRegs i))
        let (ra, rb) ← operands job i.a i.b
        emit job .main (.compare c float rd ra rb)
      | _, _, _ => throw (.fault (.cannotAssemble i.op.name)) : Assembling Unit) s
      fun _ s' => Orderly job r l n s'.alloc := by
  have hresult : i.op.hasResult = true := by
    cases hop' : i.op <;> first | rfl | (rw [hop'] at hop; cases hop)
  have hfirst : i.op.readsFirst = true := by
    unfold TraceOp.readsFirst
    rw [hop]
    rfl
  split
  · next m hm =>
    have hsecond : i.op.readsSecond = true := by
      unfold TraceOp.readsSecond
      rw [hm]
      rfl
    exact pair_orderly hjob hi h hresult hfirst hsecond fun _ _ _ => ⟨i.op, hm⟩
  · next m hm _ =>
    refine result_bind hjob hi h hresult fun x s₁ h₁ => ?_
    obtain ⟨ha, hma⟩ := hi.first hfirst
    exact (regFor_orderly hjob h₁ ha hma (spare_none hjob)).bind fun y s₂ h₂ =>
      emit_orderly hjob h₂ .main (x := .unary m x y) ⟨i.op, hm⟩
  · next c float hm _ _ =>
    have hsecond : i.op.readsSecond = true := by
      unfold TraceOp.readsSecond
      rw [hm, Bool.or_eq_true]
      exact .inr rfl
    exact pair_orderly hjob hi h hresult hfirst hsecond fun _ _ _ => trivial
  · next hbinary hunary hcompare =>
    unfold TraceOp.computes at hop
    simp only [Bool.or_eq_true, Option.isSome_iff_exists] at hop
    rcases hop with (⟨⟨c, float⟩, hm⟩ | ⟨m, hm⟩) | ⟨m, hm⟩
    · exact (hcompare c float hm).elim
    · exact (hbinary m hm).elim
    · exact (hunary m hm).elim

/-- An instruction is compiled: the values needed after it and not made by it were made before it. -/
theorem generate_orderly (h : Orderly job r l (n + 1) s.alloc)
    (hhelpers : job.helpers = .standard) :
    job.Ends r (generate job n i) s fun _ s' => Orderly job r l n s'.alloc := by
  obtain ⟨e, hentry, hindex⟩ := h.regs.entry_eq hi.size
  have hlive : s.alloc.regs.isLive n = .ok e.isSome := by
    unfold Registers.isLive
    rw [hentry]
    rfl
  unfold generate
  refine .get (liftFault_bind hlive ?_)
  extract_lets dead code flagged
  have hcode : ∀ s₁ : Assembler, Orderly job r l (n + 1) s₁.alloc →
      job.Ends r (code ()) s₁ fun _ s' => Orderly job r l n s'.alloc := by
    intro s₁ h₁
    have hguard : i.op.hasResult = false → (i.op ≠ .exitOv → i.op.readsFirst = true) →
        job.Ends r (guard job n i) s₁ fun _ s' => Orderly job r l n s'.alloc :=
          fun hresult hfirst =>
      guard_orderly hjob (resultless hi h₁ hresult)
          (fun hop => hi.first (hfirst hop)) fun ref href =>
        hi.uses ref (List.mem_append_right _ href)
    unfold code
    split
    · next hop =>
      have h₂ := resultless hi h₁ (by rw [hop]; rfl)
      refine .get ?_
      dsimp only
      exact (coding_orderly h₂
        (Code.emitBranch_room (i := .jump _) hjob.laid hjob.page h₂.tidy trivial)).bind
        fun _ _ h₃ => .modify h₃
    · next hop =>
      have h₂ := resultless hi h₁ (by rw [hop]; rfl)
      exact (countExitJump_orderly h₂).bind fun _ _ h₃ =>
        emit_orderly hjob h₃ .main (x := .jump _) trivial
    · next hop =>
      have h₂ := resultless hi h₁ (by rw [hop]; rfl)
      obtain ⟨ha, hma⟩ := hi.first (by rw [hop]; rfl)
      exact (regFor_orderly hjob h₂ ha hma (spare_none hjob)).bind fun _ _ h₃ =>
        emit_orderly hjob h₃ .main (x := .store _ _ _) trivial
    · next hop => exact hguard (by rw [hop]; rfl) fun _ => by rw [hop]; rfl
    · next hop => exact hguard (by rw [hop]; rfl) fun _ => by rw [hop]; rfl
    · next hop => exact hguard (by rw [hop]; rfl) fun hne => absurd hop hne
    · next hop =>
      obtain ⟨d, hget, hfew⟩ := hi.supplied.helper hop
      have htwo := standard_few hget
      have hfour := hjob.target.enough
      have hspec : ∃ spec, HelperTable.standard.spec i.helper = .ok spec := by
        unfold HelperTable.spec
        rw [hget]
        exact ⟨_, rfl⟩
      obtain ⟨spec, hspec⟩ := hspec
      rw [← hhelpers] at hget hspec
      refine call_orderly hjob h₁ (hi.makes (by rw [hop]; rfl))
        (fun ref href => ?_) hget hspec (by omega)
      exact hi.uses ref (List.mem_append_left _ (List.mem_append_right _ href))
    · next hop =>
      exact (resultReg_orderly hjob h₁ (hi.makes (by rw [hop]; rfl)) (spare_none hjob)).bind
          fun _ _ h₂ =>
        emit_orderly hjob h₂ .main (x := .load _ _ _) trivial
    · next hop =>
      refine regOf_bind h₁ hi.size fun x => ?_
      split
      · exact (allocating_ends (Allocation.release_orderly hjob h₁ hi.size)).mono
          fun _ _ ⟨h₂, hno⟩ => h₂.narrow hno
      · exact (resultReg_orderly hjob h₁ (hi.makes (by rw [hop]; rfl)) (spare_none hjob)).bind
            fun _ _ h₂ =>
          emit_orderly hjob h₂ .main (x := .movImm _ _) trivial
    · refine compute_orderly hjob hi h₁ ?_
      have hknown := hi.known
      cases hop : i.op <;> first | rfl | contradiction | exact absurd hop (hknown _)
  have hflagged : ∀ s₁ : Assembler, Orderly job r l (n + 1) s₁.alloc →
      job.Ends r (flagged ()) s₁ fun _ s' => Orderly job r l n s'.alloc := by
    intro s₁ h₁
    unfold flagged
    split
    · exact .modify_bind (hcode _ h₁)
    · exact hcode s₁ h₁
  refine .get ?_
  split
  · next hdead =>
    -- nothing needs the value, so it is not made
    refine .pure (h.narrow fun k hk => ?_)
    rw [Registers.Has, hindex] at hk
    cases hk
    simp [dead] at hdead
  · split
    · next hdead =>
      have hm := hi.makes (by simp [dead] at hdead; exact hdead.1.1)
      exact (allocating_ends (Allocation.reserve_orderly hjob h (Nat.lt_succ_self n) hm)).bind
        fun _ s₁ h₁ => hflagged s₁ h₁
    · exact hflagged s h

end

/-- A trace is compiled from its end on: at its start no value is needed. -/
theorem generateFrom_orderly
    (hoffers : ∀ (k : Nat) i, job.set.buffer.insts[k]? = some i → job.Offers k i)
    (hhelpers : job.helpers = .standard) (hn : n ≤ job.set.buffer.size)
    (h : Orderly job r l n s.alloc) :
    job.Ends r (generateFrom job n) s fun _ s' => Orderly job r l 0 s'.alloc := by
  induction n generalizing s with
  | zero => exact .pure h
  | succ n ih =>
    have hi : job.set.buffer.insts[n]? = some job.set.buffer.insts[n] :=
      Array.getElem?_eq_getElem hn
    have hmoved : job.Ends r (allocating (Allocation.update ({ · with pos := n }))) s fun _ s' =>
        Orderly job r l (n + 1) s'.alloc :=
          allocating_ends (.modify (h.changed (h.regs.after (h.regs.repos n) fun _ _ => .inl) rfl))
    refine hmoved.bind fun _ s₁ h₁ => ?_
    rw [hi]
    exact (generate_orderly hjob (hoffers n _ hi) h₁ hhelpers).bind fun _ s₂ h₂ =>
      ih (Nat.le_of_succ_le hn) h₂

end

end Assembler

end LoopTracer.Compile
