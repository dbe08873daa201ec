import LoopTracer.Proofs.Compile.Calling
import LoopTracer.Proofs.Compile.Departing

/-! A whole trace and its code.

Instruction by instruction, from the end of a trace to its start, the code that is written does what
the rest of the trace does (`Renders`): it gets to the jump at the end, or to the exit code of the
guard that fails. -/
namespace LoopTracer.Trace

/-- The number of guards from instruction `n` on. -/
def Buffer.guardsFrom (b : Buffer) (n : Nat) : Nat := (b.insts.toList.drop n).countP (·.op.isGuard)

theorem TraceOp.guard_quiet {op : TraceOp} (h : op.isGuard = true) : op.setsOverflow = false := by
  cases op <;> first | rfl | cases h

/-- Only a guard leaves a trace. -/
theorem Env.exec_stays {helpers : HelperTable} {i : Inst} (hguard : i.op.isGuard = false)
    {e e₁ : Env} {x : SideExit} :
    e.exec helpers i ≠ .left x e₁ := by
  intro h
  by_cases hop : i.op.computes = true
  · rw [exec_compute hop] at h
    unfold Env.compute at h
    split at h <;> cases h
  · unfold exec at h
    cases hcase : i.op <;> rw [hcase] at h hguard hop <;> dsimp only at h <;>
      first | exact hop rfl | cases h | (split at h <;> cases h) | cases hguard

/-- An instruction adds one word, and there are as many slots as before. -/
theorem Env.exec_grows {helpers : HelperTable} {i : Inst} {e e₁ : Env}
    (h : e.exec helpers i = .on e₁) :
    e₁.values.size = e.values.size + 1 ∧ e₁.slots.size = e.slots.size := by
  by_cases hop : i.op.computes = true
  · rw [exec_compute hop] at h
    unfold Env.compute at h
    split at h <;> cases h
    exact ⟨Array.size_push _, rfl⟩
  have hguard : ∀ fails, e.guard i fails = .on e₁ →
      e₁.values.size = e.values.size + 1 ∧ e₁.slots.size = e.slots.size := by
    intro fails h
    unfold guard at h
    split at h
    · cases h
    · split at h <;> cases h
      exact ⟨Array.size_push _, rfl⟩
  unfold exec at h
  split at h
  · cases h
    exact ⟨Array.size_push _, rfl⟩
  · cases h
    exact ⟨Array.size_push _, rfl⟩
  · cases h
    refine ⟨Array.size_push _, ?_⟩
    show (e.slots.set! _ _).size = _
    rw [Array.set!_eq_setIfInBounds, Array.size_setIfInBounds]
  · split at h <;> cases h
    exact ⟨Array.size_push _, rfl⟩
  · exact hguard _ h
  · exact hguard _ h
  · exact hguard _ h
  · cases h
    exact ⟨Array.size_push _, rfl⟩
  · cases h
    exact ⟨Array.size_push _, rfl⟩
  · unfold Env.compute at h
    split at h <;> cases h
    exact ⟨Array.size_push _, rfl⟩

/-- A guard that fails leaves through its own exit. -/
theorem Env.exec_leaves {helpers : HelperTable} {i : Inst} {e e₁ : Env} {x : SideExit}
    (h : e.exec helpers i = .left x e₁) :
    e₁ = e ∧ i.op.isGuard = true ∧ i.exit = some x := by
  have hguard : i.op.isGuard = true := by
    cases hguard : i.op.isGuard with
    | true => rfl
    | false => exact absurd h (exec_stays hguard)
  have hleft : ∀ fails, e.guard i fails = .left x e₁ → e₁ = e ∧ i.exit = some x := by
    intro fails h
    unfold guard at h
    split at h
    · cases h
    · next y hy =>
      split at h <;> cases h
      exact ⟨rfl, hy⟩
  unfold exec at h
  cases hop : i.op <;> rw [hop] at h hguard <;> first | cases hguard; done | skip
  all_goals
    obtain ⟨he, hx⟩ := hleft _ h
    exact ⟨he, hguard, hx⟩

/-- A pass leaves through the exit of a guard, and has the words of the instructions before it. -/
theorem Env.run_leaves {helpers : HelperTable} {is : List Inst} {e e' : Env} {x : SideExit}
    (h : run helpers is e = .left x e') :
    ∃ (n : Nat) (i : Inst), is[n]? = some i ∧ i.op.isGuard = true ∧ i.exit = some x ∧
      e'.values.size = e.values.size + n ∧ e'.slots.size = e.slots.size := by
  induction is generalizing e with
  | nil => cases h
  | cons i is ih =>
    unfold run at h
    cases hexec : e.exec helpers i with
    | on e₁ =>
      rw [hexec] at h
      obtain ⟨n, j, hj, hguard, hx, hsize, hslots⟩ := ih h
      have hgrows := exec_grows hexec
      exact ⟨n + 1, j, hj, hguard, hx, by omega, hslots.trans hgrows.2⟩
    | left y e₁ =>
      rw [hexec] at h
      cases h
      obtain ⟨rfl, hguard, hx⟩ := exec_leaves hexec
      exact ⟨0, i, rfl, hguard, hx, rfl, rfl⟩
    | fault f =>
      rw [hexec] at h
      cases h

end LoopTracer.Trace

namespace LoopTracer.Compile

open Machine Trace

/-- A constant that every use has made anew is given up. -/
theorem Filled.given {set : Setting} {s : Registers} {w : Nat → UInt64} {m : State} {n x : Nat}
    (hs : s.Represents set)
    (hx : s.Has n x) (hnone : (s.at? x).reg = Reg.none) (himm : Immediate set.buffer n)
    (hm : Filled set (fun _ => False) (s.drop n x) w m) : Filled set (fun _ => False) s w m := by
  refine ⟨hm.size, hm.frame, fun {k y} hy hvalue hout => ?_, fun {k j} howns => ?_⟩
  · refine hm.reg hy ?_ hout
    rw [hs.drop_valueIn hx hy fun heq => hy.ne_none (heq.trans hnone)]
    exact hvalue
  · refine hm.slot ((hs.drop_owns hx).mpr ⟨?_, howns⟩)
    rintro rfl
    exact hs.remade howns himm

/-- The place in the trace does not matter. -/
theorem Filled.repos {set : Setting} {O : Reg → Prop} {s : Registers} {w : Nat → UInt64}
    {m : State} {pos : Nat}
    (hm : Filled set O { s with pos } w m) : Filled set O s w m :=
      ⟨hm.size, hm.frame, hm.reg, hm.slot⟩

namespace Assembler

variable {job : Job} {r : CodePages} {l : List Nat} {n : Nat} {i : Inst}
  {P : Side → List Piece} {s : Assembler}

/-- Code for a constant that is in no register. -/
theorem given_mimics (hs : Stage job.set r l P s.alloc) (hi : job.Reads n i) (hop : i.op = .imm)
    (hnone : s.alloc.regs.regOf n = .ok Reg.none) :
    Ensures Anyhow (allocating (Allocation.release n)) s fun _ s' => Mimics job r l n i P s s' := by
  obtain ⟨e, hentry, hindex⟩ := hs.regs.entry_eq hi.size
  have hexec : ∀ e e₁, Env.exec .standard i e = .on e₁ → e₁ = e.push i.imm.bits := by
    intro e e₁ hexec
    unfold Env.exec at hexec
    rw [hop] at hexec
    cases hexec
    rfl
  unfold Allocation.release
  cases e with
  | none =>
    refine (allocating_ensures (Q := fun _ s' => s' = s.alloc) (.get ?_)).mono
      fun _ s' ⟨hsame, heq⟩ => ?_
    · rw [hentry]
      exact .pure_bind (.pure rfl)
    · obtain rfl : s' = s := hsame.trans (by rw [heq])
      refine mimics_dead hs (fun j hj => ?_) hi.get fun e e₁ he =>
        ⟨_, none, hexec e e₁ he, fun _ => rfl, fun _ => rfl⟩
      unfold Registers.Has at hj
      rw [hindex] at hj
      cases hj
  | some x =>
    have hx : s.alloc.regs.Has n x := hindex
    have hreg : (s.alloc.regs.at? x).reg = Reg.none :=
      Except.ok.inj ((hs.regs.regOf_has hx).symm.trans hnone)
    have himm : Immediate job.set.buffer n := ⟨i, (job.set.buffer.get?_eq n).trans hi.get, hop⟩
    refine (allocating_ensures (Q := fun _ s' => Stage job.set r l P s' ∧
      s'.regs = s.alloc.regs.drop n x) (.get ?_)).mono
      fun _ s' ⟨hsame, hs', hregs⟩ => ?_
    · rw [hentry]
      exact .pure_bind (.modify ⟨⟨hs.regs.drop hx, hs.code⟩, rfl⟩)
    refine ⟨.allocating hsame, [], (Code.fronted_nil P .main).symm ▸ hs', fun e e₁ m he hm => ?_⟩
    obtain rfl := hexec e e₁ he
    refine ⟨m, rfl, hm.made hi.get (fun _ => rfl) rfl ?_ (fun hneed => ?_) hm.slots rfl rfl⟩
    · -- the constant has its word already
      rw [Function.update_eq_self_iff.mpr
        (recalls_meaning job.set.buffer e ((job.set.buffer.get?_eq n).trans hi.get) hop).symm]
      exact .given hs.regs hx hreg himm (hregs ▸ hm.filled)
    · refine hm.flag ?_
      rw [hsame]
      exact hneed

/-- An instruction that makes a value without a call changes at most the flag besides. -/
theorem valued_exec (hi : job.Reads n i) (hresult : i.op.hasResult = true)
    (hcall : i.op ≠ .call) {e e₁ : Env}
    (hexec : Env.exec .standard i e = .on e₁) : ∃ v flag,
      e₁ = Env.push { e with overflow := Option.getD flag e.overflow } v ∧
      (i.op = .imm → v = i.imm.bits) ∧
      (i.op.setsOverflow = false → flag = none) := by
  by_cases hop : i.op.computes = true
  · obtain ⟨v, flag, hcompute, rfl, himm, -⟩ := compute_exec hop hexec
    refine ⟨v, flag, rfl, fun h => absurd h himm, fun hsets => ?_⟩
    rw [← compute?_flag hcompute] at hsets
    exact Option.not_isSome_iff_eq_none.mp (by rw [hsets]; nofun)
  · have hcases : i.op = .param ∨ i.op = .imm := by
      have hknown := hi.known
      cases hop' : i.op <;> rw [hop'] at hop hresult hcall <;>
        first | exact .inl rfl | exact .inr rfl | exact absurd rfl hop | exact absurd rfl hcall |
          exact absurd hop' (hknown _) | cases hresult
    unfold Env.exec at hexec
    rcases hcases with hop' | hop' <;> rw [hop'] at hexec <;> cases hexec
    · exact ⟨_, none, rfl, fun himm => (by rw [hop'] at himm; cases himm), fun _ => rfl⟩
    · exact ⟨_, none, rfl, fun _ => rfl, fun _ => rfl⟩

/-- Nothing needs the value of an instruction, and nothing waits for a flag that it sets. -/
theorem unneeded_mimics (hs : Stage job.set r l P s.alloc) (hi : job.Reads n i)
    (hn : ∀ j, ¬ s.alloc.regs.Has n j) (hresult : i.op.hasResult = true) (hcall : i.op ≠ .call)
    (hflag : i.op.setsOverflow = false ∨ s.needFlag = false) : Mimics job r l n i P s s := by
  refine mimics_dead hs hn hi.get fun e e₁ he => ?_
  obtain ⟨v, flag, rfl, himm, hnone⟩ := valued_exec hi hresult hcall he
  refine ⟨v, flag, rfl, himm, fun hneed => hnone (hflag.resolve_right fun hno => ?_)⟩
  rw [hneed] at hno
  cases hno

/-- Where the code of an instruction begins: if it sets the flag, nothing waits for the flag; if it
does not, nothing was done. -/
structure Opened (job : Job) (r : CodePages) (l : List Nat) (i : Inst) (P : Side → List Piece)
    (s s₁ : Assembler) (q : List Piece) : Prop where
  quiet : Quiet s s₁
  plain : i.op.setsOverflow = false → s₁ = s ∧ q = []
  flagged : i.op.setsOverflow = true → s₁.needFlag = false
  stage : Stage job.set r l (Code.fronted P .main q) s₁.alloc
  restores : Restores job.set (fun _ => False) (fun _ => False) s.alloc.regs s₁.alloc.regs
    (requests q)

theorem Opened.computed {s₁ s' : Assembler} {q : List Piece} (ho : Opened job r l i P s s₁ q)
    (hi : job.Reads n i) (hsame : s' = { s₁ with alloc := s'.alloc })
    (h : Computes job r l n i (Code.fronted P .main q) s₁ s') :
    Mimics job r l n i P s s' ∧ (i.op.setsOverflow = true → s'.needFlag = false) := by
  have hneed : s'.needFlag = s₁.needFlag := by rw [hsame]
  refine ⟨h.mimics ho.restores hi.get (ho.quiet.trans (.allocating hsame)) fun hsets hflag => ?_,
    fun hsets => hneed.trans (ho.flagged hsets)⟩
  obtain ⟨rfl, -⟩ := ho.plain hsets
  exact hneed.trans hflag

theorem Opened.mimicked {s₁ : Assembler} {q : List Piece} (ho : Opened job r l i P s s₁ q)
    (hsets : i.op.setsOverflow = false) {x : Assembling Unit}
    (hx : Ensures Anyhow x s fun _ s' => Mimics job r l n i P s s') :
    Ensures Anyhow x s₁ fun _ s' =>
      Mimics job r l n i P s s' ∧ (i.op.setsOverflow = true → s'.needFlag = false) := by
  obtain ⟨rfl, -⟩ := ho.plain hsets
  exact hx.mono fun _ s' h => ⟨h, fun hsets' => by rw [hsets] at hsets'; cases hsets'⟩

/-- Code for an instruction that neither leaves the trace nor ends it; before one that sets the flag
nothing waits for the flag. -/
theorem generate_mimics (hj : job.Ready r) (hs : Stage job.set r l P s.alloc) (hi : job.Reads n i)
    (hguard : i.op.isGuard = false) (hterminal : i.op.isTerminal = false) :
    Ensures Anyhow (generate job n i) s fun _ s' =>
      Mimics job r l n i P s s' ∧ (i.op.setsOverflow = true → s'.needFlag = false) := by
  obtain ⟨e, hentry, hindex⟩ := hs.regs.entry_eq hi.size
  have hlive : s.alloc.regs.isLive n = .ok e.isSome := by
    unfold Registers.isLive
    rw [hentry]
    rfl
  unfold generate
  refine .get (answer_bind fun needed hneeded => ?_)
  obtain rfl := Except.ok.inj (hlive.symm.trans hneeded)
  extract_lets dead code flagged
  -- the code itself
  have hcode : ∀ (s₁ : Assembler) (q₁ : List Piece), Opened job r l i P s s₁ q₁ →
      Ensures Anyhow (code ()) s₁ fun _ s' =>
        Mimics job r l n i P s s' ∧ (i.op.setsOverflow = true → s'.needFlag = false) := by
    intro s₁ q₁ ho
    unfold code
    split
    · next hop => rw [hop] at hterminal; cases hterminal
    · next hop => rw [hop] at hterminal; cases hterminal
    · next hop => exact ho.mimicked (by rw [hop]; rfl) (store_mimics hj hs hi hop)
    · next hop => rw [hop] at hguard; cases hguard
    · next hop => rw [hop] at hguard; cases hguard
    · next hop => rw [hop] at hguard; cases hguard
    · next hop => exact ho.mimicked (by rw [hop]; rfl) (call_mimics hj hs hi hop)
    · next hop =>
      exact (param_computes hj ho.stage hi hop).mono fun _ s' ⟨hsame, h⟩ => ho.computed hi hsame h
    · next hop =>
      refine (regOf_ensures n).bind fun x s₂ ⟨h₂, hregOf⟩ => ?_
      subst h₂
      split
      · next hnone =>
        have hsets : i.op.setsOverflow = false := by rw [hop]; rfl
        obtain ⟨rfl, -⟩ := ho.plain hsets
        exact ho.mimicked hsets (given_mimics hs hi hop (hregOf.trans (congrArg _ hnone)))
      · exact (imm_computes hj ho.stage hop).mono fun _ s' ⟨hsame, h⟩ => ho.computed hi hsame h
    · refine (compute_computes hj ho.stage hi ?_).mono fun _ s' ⟨hsame, h⟩ =>
        ho.computed hi hsame h
      have hknown := hi.known
      cases hop : i.op <;> first | rfl | contradiction | exact absurd hop (hknown _)
  -- the flag is given up before an operation that sets it
  have hflagged : ∀ (s₁ : Assembler) (q₁ : List Piece), s₁ = { s with alloc := s₁.alloc } →
      (i.op.setsOverflow = false → s₁ = s ∧ q₁ = []) →
      Stage job.set r l (Code.fronted P .main q₁) s₁.alloc →
      Restores job.set (fun _ => False) (fun _ => False) s.alloc.regs s₁.alloc.regs
        (requests q₁) →
      Ensures Anyhow (flagged ()) s₁ fun _ s' =>
        Mimics job r l n i P s s' ∧ (i.op.setsOverflow = true → s'.needFlag = false) := by
    intro s₁ q₁ hsame hplain hs₁ hrestores
    unfold flagged
    split
    · next hsets =>
      refine .modify_bind (hcode { s₁ with needFlag := false } q₁
        ⟨⟨by rw [hsame], by rw [hsame], nofun⟩, fun h => ?_, fun _ => rfl, hs₁, hrestores⟩)
      rw [hsets] at h
      cases h
    · next hsets =>
      exact hcode s₁ q₁ ⟨.allocating hsame, hplain, fun h => absurd h hsets, hs₁, hrestores⟩
  refine .get ?_
  split
  · next hdead =>
    simp only [dead, Bool.and_eq_true, Bool.not_eq_true', Bool.and_eq_false_iff,
      decide_eq_true_iff] at hdead
    obtain ⟨⟨⟨hresult, hcall⟩, hunneeded⟩, hflag⟩ := hdead
    refine .pure ⟨unneeded_mimics hs hi (fun j hj => ?_) hresult hcall hflag, fun hsets => ?_⟩
    · unfold Registers.Has at hj
      rw [hindex] at hj
      cases hj
      cases hunneeded
    · exact hflag.resolve_left fun hno => by rw [hsets] at hno; cases hno
  · next hmade =>
    split
    · next hdead =>
      refine (allocating_ensures
        (Allocation.reserve_works (K := fun _ => False) (O := fun _ => False) hs n)).bind
        fun _ s₁ ⟨hsame₁, q₁, hs₁, hrestores, _⟩ =>
          hflagged s₁ q₁ hsame₁ (fun hsets => ?_) hs₁ hrestores
      simp [hdead, hsets] at hmade
    · exact hflagged s [] rfl (fun _ => ⟨rfl, rfl⟩) ((Code.fronted_nil P .main).symm ▸ hs)
        (.refl _ _ _ _)

end Assembler

/-! ### The rest of a trace -/

/-- A trace that can be compiled: every instruction has what it needs, only the last one ends the
trace, and the flag is tested right behind an operation that sets it. -/
structure Job.Whole (job : Job) : Prop where
  reads : ∀ {n : Nat} {i}, job.set.buffer.insts[n]? = some i → job.Reads n i
  terminal : ∀ {n : Nat} {i}, job.set.buffer.insts[n]? = some i → i.op.isTerminal = true →
    n + 1 = job.set.buffer.size
  ends : ∃ n i, job.set.buffer.size = n + 1 ∧ job.set.buffer.insts[n]? = some i ∧
    i.op.isTerminal = true
  follows : ∀ {n : Nat} {i}, job.set.buffer.insts[n]? = some i → i.op = .exitOv →
    ∃ m j, n = m + 1 ∧ job.set.buffer.insts[m]? = some j ∧ j.op.setsOverflow = true

/-- The machine between two passes over a trace. -/
structure Rests (maxSlots : Int) (e : Env) (m : State) : Prop where
  size : m.regs.size = 16
  frame : m.frame.size = maxSlots.toNat
  slots : m.slots = e.slots
  args : m.args = #[]

/-- Code does what a pass over the trace does: it goes on, or it goes to the exit code of the guard
that fails, which writes the values of the snapshot. The guards are those of a trace up to its end,
the last one first. -/
def Does (job : Job) (s : Assembler) (exits : List Piece) (is : List Instr) (e : Env)
    (m : State) : Pass → Prop
  | .on e' =>
    ∃ m', performAll HelperTable.standard.host is m e.heap = .on m' e'.heap ∧
    Rests job.set.maxSlots e' m'
  | .left x e' =>
    ∃ (g : Guard) (start : CodeAddr) (more stub later : List Piece) (p : Piece) (m₁ m₂ : State),
      s.guards[job.set.buffer.guardsFrom (e'.values.size + 1)]? = some g ∧
        g.exit = job.exitIndex[e'.values.size]?.getD 0 ∧
      exits = more ++ (stub ++ p :: later) ∧ Exit g start stub p ∧
        performAll HelperTable.standard.host is m e.heap = .away start m₁ e'.heap ∧
      performAll HelperTable.standard.host (requests stub) m₁ e'.heap = .on m₂ e'.heap ∧
      Departed job.set.maxSlots g.id (e'.leave x) m₂
  | .fault _ => True

/-- The jump at the end of the main code: it will be redirected if it closes a loop. -/
def Ends (job : Job) (s : Assembler) (term : Piece) : Prop :=
  ∃ n i, job.set.buffer.size = n + 1 ∧ job.set.buffer.insts[n]? = some i ∧
    ((i.op = .loop ∧ (∃ site : CodeAddr, s.loopSite = some site ∧ term.place = site.toNat) ∧
        ∃ t, term.request = some (.jump t)) ∨
      (i.op = .jumpTree ∧ s.loopSite = none ∧ term.request = some (.jump job.targetTop)))

/-- The code written so far does what the trace does from instruction `n` on. -/
structure Renders (job : Job) (r : CodePages) (l : List Nat) (n : Nat) (P : Side → List Piece)
    (s : Assembler) : Prop where
  stage : Stage job.set r l P s.alloc
  flag : s.needFlag = true → ∃ i, job.set.buffer.insts[n]? = some i ∧ i.op = .exitOv
  count : s.guards.size = job.set.buffer.guardsFrom n
  sites : ∀ g ∈ s.guards, ∃ p ∈ P .exits, p.place = g.site.toNat ∧ ∃ t, p.request = some (.jump t)
  does : ∃ (body join : List Piece) (term : Piece), P .main =
    body ++ term :: join ∧ Ends job s term ∧
    ∀ e m, Mirrors job n s e m →
      Does job s (P .exits) (requests body) e m
        (Env.run .standard (job.set.buffer.insts.toList.drop n) e)

section Steps

variable {job : Job} {r : CodePages} {l : List Nat} {n : Nat} {i : Inst} {P : Side → List Piece}
  {s s' : Assembler}
  {exits : List Piece} {is : List Instr} {e e₁ : Env} {m m₁ : State} {p : Pass}

theorem drop_cons (hi : job.set.buffer.insts[n]? = some i) :
    job.set.buffer.insts.toList.drop n = i :: job.set.buffer.insts.toList.drop (n + 1) := by
  obtain ⟨hlt, rfl⟩ := Array.getElem?_eq_some_iff.mp hi
  exact List.drop_eq_getElem_cons hlt

theorem guardsFrom_eq (hi : job.set.buffer.insts[n]? = some i) :
    job.set.buffer.guardsFrom n = job.set.buffer.guardsFrom (n + 1) + if i.op.isGuard
    then 1 else 0 := by
  rw [Buffer.guardsFrom, drop_cons hi, List.countP_cons]
  rfl

/-- What is done in front. -/
theorem Does.front {js : List Instr} (h : Does job s exits is e₁ m₁ p)
    (hperform : performAll HelperTable.standard.host js m e.heap = .on m₁ e₁.heap) :
    Does job s exits (js ++ is) e m p := by
  cases p with
  | on e' =>
    obtain ⟨m', hrest, hrests⟩ := h
    exact ⟨m', (performAll_on hperform).trans hrest, hrests⟩
  | left x e' =>
    obtain ⟨g, start, more, stub, later, p, m₁, m₂, hg, hplace, hexits, hexit, haway, hstub⟩ := h
    exact ⟨g, start, more, stub, later, p, m₁, m₂, hg, hplace, hexits, hexit,
      (performAll_on hperform).trans haway, hstub⟩
  | fault f => trivial

/-- More guards and exit code do not matter. -/
theorem Does.more (h : Does job s exits is e m p)
    (hguards : ∀ {k : Nat} {g}, s.guards[k]? = some g → s'.guards[k]? = some g)
    (before : List Piece) : Does job s' (before ++ exits) is e m p := by
  cases p with
  | on e' => exact h
  | left x e' =>
    obtain ⟨g, start, more, stub, later, p, m₁, m₂, hg, hplace, hexits, hrest⟩ := h
    exact ⟨g, start, before ++ more, stub, later, p, m₁, m₂, hguards hg, hplace,
      by rw [hexits, List.append_assoc], hrest⟩
  | fault f => trivial

/-- An instruction in front that neither leaves the trace nor ends it. -/
theorem Renders.mimicked (h : Renders job r l (n + 1) P s) (hw : job.Whole)
    (hi : job.set.buffer.insts[n]? = some i)
    (hguard : i.op.isGuard = false) (hm : Mimics job r l n i P s s')
    (hflag : i.op.setsOverflow = true → s'.needFlag = false) :
    ∃ P', Renders job r l n P' s' := by
  obtain ⟨hquiet, q, hs', hmimics⟩ := hm
  obtain ⟨body, join, term, hmain, hends, hdoes⟩ := h.does
  have hexits : Code.fronted P .main q .exits = P .exits := Code.fronted_of_ne P (by decide) q
  refine ⟨_, hs', fun hneed => ?_, ?_, ?_, q ++ body, join, term, ?_, ?_, fun e m hm => ?_⟩
  · obtain ⟨j, hj, hop⟩ := h.flag (hquiet.flag hneed)
    obtain ⟨m, j', hm, hj', hsets⟩ := hw.follows hj hop
    obtain rfl := Nat.succ.inj hm
    rw [hi] at hj'
    cases hj'
    rw [hflag hsets] at hneed
    cases hneed
  · rw [hquiet.guards, h.count, guardsFrom_eq hi, hguard]
    rfl
  · rw [hquiet.guards, hexits]
    exact h.sites
  · rw [Code.fronted_self, hmain, List.append_assoc]
  · unfold Ends at hends ⊢
    rwa [hquiet.loopSite]
  · rw [drop_cons hi, Env.run, requests_append, hexits]
    cases hexec : Env.exec .standard i e with
    | on e₁ =>
      obtain ⟨m₁, hperform, hm₁⟩ := hmimics e e₁ m hexec hm
      exact ((hdoes e₁ m₁ hm₁).more (fun hg => hquiet.guards ▸ hg) []).front hperform
    | left x e₁ => exact absurd hexec (Env.exec_stays hguard)
    | fault f => trivial

/-- A guard in front. -/
theorem Renders.departed (h : Renders job r l (n + 1) P s) (hw : job.Whole)
    (hi : job.set.buffer.insts[n]? = some i)
    (hguard : i.op.isGuard = true) (hd : Departs job r l n i P s s') :
    ∃ P', Renders job r l n P' s' := by
  obtain ⟨hsite, hflag, g, start, q, stub, rest, p, hs', hguards, hplace, hexit, hdeparts⟩ := hd
  obtain ⟨body, join, term, hmain, hends, hdoes⟩ := h.does
  have hexits : Code.fronted (Code.fronted P .exits (stub ++ p :: rest)) .main q .exits =
      (stub ++ p :: rest) ++ P .exits := by
    rw [Code.fronted_of_ne _ (by decide), Code.fronted_self]
  have hold : ∀ {k : Nat} {g'}, s.guards[k]? = some g' → s'.guards[k]? = some g' := by
    intro k g' hg
    have hlt := (Array.getElem?_eq_some_iff.mp hg).1
    rw [hguards, Array.getElem?_push_lt hlt, ← hg, Array.getElem?_eq_getElem hlt]
  refine ⟨_, hs', fun hneed => ?_, ?_, fun g' hg' => ?_, q ++ body, join, term, ?_,
    ?_, fun e m hm => ?_⟩
  · rcases hflag hneed with hneed | hop
    · obtain ⟨j, hj, hop⟩ := h.flag hneed
      obtain ⟨m, j', hm, hj', hsets⟩ := hw.follows hj hop
      obtain rfl := Nat.succ.inj hm
      rw [hi] at hj'
      cases hj'
      rw [TraceOp.guard_quiet hguard] at hsets
      cases hsets
    · exact ⟨i, hi, hop⟩
  · rw [hguards, Array.size_push, h.count, guardsFrom_eq hi, hguard]
    rfl
  · rw [hexits]
    rw [hguards] at hg'
    rcases Array.mem_push.mp hg' with hg' | rfl
    · obtain ⟨p', hp', hrest⟩ := h.sites g' hg'
      exact ⟨p', List.mem_append_right _ hp', hrest⟩
    · exact ⟨p, by simp, hexit.site.symm, hexit.jump⟩
  · rw [Code.fronted_self, Code.fronted_of_ne P (by decide), hmain, List.append_assoc]
  · unfold Ends at hends ⊢
    rwa [hsite]
  · rw [drop_cons hi, Env.run, requests_append, hexits]
    obtain ⟨hon, hleft⟩ := hdeparts e m hm
    cases hexec : Env.exec .standard i e with
    | on e₁ =>
      obtain ⟨m₁, hperform, hm₁⟩ := hon e₁ hexec
      exact ((hdoes e₁ m₁ hm₁).more hold _).front hperform
    | left x e₁ =>
      obtain ⟨rfl, haway, m₁, hstub, hdeparted⟩ := hleft x e₁ hexec
      refine ⟨g, start, [], stub, rest ++ P .exits, p, m, m₁, ?_, hm.count.symm ▸ hplace, by simp,
        hexit, ?_, hstub, hdeparted⟩
      · rw [hm.count, ← h.count, hguards, Array.getElem?_push_size]
      · exact performAll_away haway
    | fault f => trivial

end Steps

namespace Assembler

variable {job : Job} {r : CodePages} {l : List Nat} {n : Nat} {i : Inst}
  {P : Side → List Piece} {s : Assembler}

theorem run_single (i : Inst) (e : Env) : Env.run .standard [i] e = Env.exec .standard i e := by
  unfold Env.run
  cases Env.exec .standard i e <;> rfl

/-- The jump that ends a trace is written first. -/
theorem terminal_renders (hj : job.Ready r) (hw : job.Whole) (hs : Stage job.set r l P s.alloc)
    (hguards : s.guards = #[])
    (hsite : s.loopSite = none) (hneed : s.needFlag = false)
    (hi : job.set.buffer.insts[n]? = some i)
    (hterminal : i.op.isTerminal = true) :
    Ensures Anyhow (generate job n i) s fun _ s' => ∃ P', Renders job r l n P' s' := by
  have hlast := hw.terminal hi hterminal
  have hresult : i.op.hasResult = false ∧ i.op.setsOverflow = false ∧ i.op.isGuard = false := by
    cases hop : i.op <;> rw [hop] at hterminal <;> first | exact ⟨rfl, rfl, rfl⟩ | cases hterminal
  have hrest : job.set.buffer.insts.toList.drop (n + 1) = [] :=
    List.drop_eq_nil_of_le (by rw [hlast]; exact Nat.le_of_eq Array.length_toList)
  -- whatever the jump is, nothing is left to do before it
  have hends : ∀ (s' : Assembler) (p : Piece) (join : List Piece), s'.guards = s.guards →
    s'.needFlag = s.needFlag →
      Stage job.set r l (Code.fronted P .main (p :: join)) s'.alloc → Ends job s' p →
          ∃ P', Renders job r l n P' s' := by
    intro s' p join hguards' hneed' hs' hends
    refine ⟨_, hs', fun h => ?_, ?_, fun g hg => ?_, [], join ++ P .main, p,
      by rw [Code.fronted_self]; rfl, hends, fun e m hm => ?_⟩
    · rw [hneed', hneed] at h
      cases h
    · rw [hguards', hguards, guardsFrom_eq hi, hresult.2.2]
      unfold Buffer.guardsFrom
      rw [hrest]
      rfl
    · rw [hguards', hguards] at hg
      exact absurd hg (Array.not_mem_empty g)
    · have hexec : Env.exec .standard i e = .on (e.push 0) := by
        unfold Env.exec
        cases hop : i.op <;> rw [hop] at hterminal <;> first | rfl | cases hterminal
      rw [drop_cons hi, hrest, run_single, hexec]
      exact ⟨m, rfl, hm.filled.size, hm.filled.frame, hm.slots, hm.args⟩
  unfold generate
  refine .get (answer_bind fun needed _ => ?_)
  extract_lets dead code flagged
  have hdead : dead = false := by
    simp only [dead, hresult.1, Bool.false_and]
  refine .get ?_
  rw [hdead, if_neg (by nofun), if_neg (by nofun)]
  unfold flagged
  rw [if_neg (by rw [hresult.2.1]; nofun)]
  unfold code
  split
  · next hop =>
    refine .get ?_
    have hbranch := fun target => (hs.code.emitBranch hj.laid hj.page .main target).anyhow
    rw [hj.same] at hbranch
    refine (allocating_ensures (Allocation.coding_ensures (E := Anyhow) (hbranch _))).bind
      fun site s₁ ⟨hsame₁, hregs₁, p, join, hjump, _, hplace, hcode₁⟩ => .modify ?_
    refine hends { s₁ with loopSite := some site } p join (by rw [hsame₁]) (by rw [hsame₁])
      ⟨hregs₁ ▸ hs.regs, hj.same ▸ hcode₁⟩
      ⟨n, i, hlast.symm, hi, .inl ⟨hop, ⟨site, rfl, hplace⟩, _, hjump⟩⟩
  · next hop =>
    refine (countExitJump_ensures job s).bind fun _ s₁ ⟨hsame₁, halloc₁⟩ => ?_
    rw [← halloc₁] at hs
    have hemit := (hs.code.emit hj.laid hj.page .main (.jump job.targetTop)).anyhow
    rw [hj.same] at hemit
    refine (allocating_ensures (Allocation.coding_ensures (E := Anyhow) hemit)).mono
      fun _ s' ⟨hsame, hregs, p, join, hjump, _, hcode⟩ => ?_
    refine hends s' p join (by rw [hsame, hsame₁]) (by rw [hsame, hsame₁])
      ⟨hregs ▸ hs.regs, hj.same ▸ hcode⟩
      ⟨n, i, hlast.symm, hi, .inr ⟨hop, by rw [hsame, hsame₁, hsite], hjump⟩⟩
  all_goals
    exfalso
    cases hop : i.op <;> first | (rw [hop] at hterminal; cases hterminal; done) | simp_all

/-- A guard is compiled. -/
theorem generate_departs (hj : job.Ready r) (hs : Stage job.set r l P s.alloc) (hi : job.Reads n i)
    (hguard : i.op.isGuard = true) :
    Ensures Anyhow (generate job n i) s fun _ s' => Departs job r l n i P s s' := by
  have hresult : i.op.hasResult = false := by
    cases hop : i.op <;> rw [hop] at hguard <;> first | rfl | cases hguard
  unfold generate
  refine .get (answer_bind fun needed _ => ?_)
  extract_lets dead code flagged
  have hdead : dead = false := by
    simp only [dead, hresult, Bool.false_and]
  refine .get ?_
  rw [hdead, if_neg (by nofun), if_neg (by nofun)]
  unfold flagged
  rw [if_neg (by rw [TraceOp.guard_quiet hguard]; nofun)]
  unfold code
  split
  case h_4 => exact guard_departs hj hs hi hguard
  case h_5 => exact guard_departs hj hs hi hguard
  case h_6 => exact guard_departs hj hs hi hguard
  all_goals
    exfalso
    cases hop : i.op <;> simp_all [TraceOp.isGuard]

/-- Instruction `n` is compiled. -/
theorem generate_renders (hj : job.Ready r) (hw : job.Whole) (hn : n + 1 < job.set.buffer.size)
    (hi : job.set.buffer.insts[n]? = some i) (h : Renders job r l (n + 1) P s) :
    Ensures Anyhow (generate job n i) s fun _ s' => ∃ P', Renders job r l n P' s' := by
  cases hguard : i.op.isGuard with
  | true => exact (generate_departs hj h.stage
    (hw.reads hi) hguard).mono fun _ s' hd => h.departed hw hi hguard hd
  | false =>
    have hterminal : i.op.isTerminal = false := by
      refine Bool.eq_false_iff.mpr fun hlast => ?_
      have := hw.terminal hi hlast
      omega
    exact (generate_mimics hj h.stage (hw.reads hi) hguard hterminal).mono fun _ s' ⟨hm, hflag⟩ =>
      h.mimicked hw hi hguard hm hflag

/-- The place in the trace does not matter. -/
theorem repos_ensures (hs : Stage job.set r l P s.alloc) (pos : Nat) :
    Ensures Anyhow (allocating (Allocation.update ({ · with pos }))) s fun _ s' =>
      s' = { s with alloc := s'.alloc } ∧ s'.alloc.regs = { s.alloc.regs with pos } ∧
      Stage job.set r l P s'.alloc :=
  allocating_ensures (Q := fun _ s' => s'.regs = { s.alloc.regs with pos } ∧ Stage job.set r l P s')
    (.modify ⟨rfl, hs.regs.repos pos, hs.code⟩)

/-- Instructions are compiled, the last one first. -/
theorem generateFrom_renders (hj : job.Ready r) (hw : job.Whole) (hn : n < job.set.buffer.size)
    (h : Renders job r l n P s) :
    Ensures Anyhow (generateFrom job n) s fun _ s' => ∃ P', Renders job r l 0 P' s' := by
  induction n generalizing s P with
  | zero => exact .pure ⟨P, h⟩
  | succ n ih =>
    have hlt : n < job.set.buffer.insts.size := Nat.lt_of_succ_lt hn
    have hi : job.set.buffer.insts[n]? = some job.set.buffer.insts[n] :=
      Array.getElem?_eq_getElem hlt
    refine (repos_ensures h.stage n).bind fun _ s₁ ⟨hsame, hregs, hs₁⟩ => ?_
    have h₁ : Renders job r l (n + 1) P s₁ := by
      obtain ⟨body, join, term, hmain, hends, hdoes⟩ := h.does
      rw [hsame]
      refine ⟨hs₁, h.flag, h.count, h.sites, body, join, term, hmain, hends, fun e m hm => ?_⟩
      have hfilled := hm.filled
      rw [hregs] at hfilled
      exact hdoes e m { hm with filled := hfilled.repos }
    rw [hi]
    exact (generate_renders hj hw hn hi h₁).bind fun _ s₂ ⟨P₂, h₂⟩ => ih (Nat.lt_of_succ_lt hn) h₂

/-- A whole trace is compiled. -/
theorem generateAll_renders (hj : job.Ready r) (hw : job.Whole) (hs : Stage job.set r l P s.alloc)
    (hguards : s.guards = #[])
    (hsite : s.loopSite = none) (hneed : s.needFlag = false) :
    Ensures Anyhow (generateFrom job job.set.buffer.size) s fun _ s' =>
    ∃ P', Renders job r l 0 P' s' := by
  obtain ⟨n, i, hsize, hi, hterminal⟩ := hw.ends
  rw [hsize]
  refine (repos_ensures hs n).bind fun _ s₁ ⟨hsame, hregs, hs₁⟩ => ?_
  rw [hi]
  refine (terminal_renders hj hw hs₁ (by rw [hsame]; exact hguards) (by rw [hsame]; exact hsite)
    (by rw [hsame]; exact hneed) hi hterminal).bind fun _ s₂ ⟨P₂, h₂⟩ => ?_
  exact generateFrom_renders hj hw (by omega) h₂

end Assembler

end LoopTracer.Compile
