import LoopTracer.Proofs.Compile.Translating

/-! Calls and their code.

Before a call its arguments are put into registers, and what the call destroys has been evicted;
after it the result leaves its register first, and then what was evicted is loaded again. -/
namespace LoopTracer.Compile

open Machine Trace

/-! ### Helpers -/

/-- A helper that answers has all its arguments, and if it is pure it leaves the heap alone. -/
theorem standard_answers {id : UInt8} {d : Helper} (hget : HelperTable.standard.get id = .ok d)
    {heap heap' : StringHeap}
    {ws : List UInt64} {v : UInt64} (h : HelperTable.standard.invoke heap id ws = .ok (v, heap')) :
    d.args.length ≤ ws.length ∧ (d.pure = true → heap' = heap) := by
  have hrun : d.run heap ws = .ok (v, heap') := by
    unfold HelperTable.invoke at h
    rw [hget] at h
    exact h
  have hmem : d ∈ HelperTable.standard.helpers := by
    unfold HelperTable.get at hget
    split at hget
    · next d' hd =>
      cases hget
      exact Array.mem_of_getElem? hd
    · cases hget
  have hone : ∀ f, Helper.unary f heap ws = .ok (v, heap') →
      1 ≤ ws.length ∧ ∃ a, f heap a = .ok (v, heap') := by
    intro f hf
    match ws with
    | [] => cases hf
    | a :: _ => exact ⟨by simp, a, hf⟩
  have htwo : ∀ f, Helper.binary f heap ws = .ok (v, heap') →
      2 ≤ ws.length ∧ ∃ a b, f heap a b = .ok (v, heap') := by
    intro f hf
    match ws with
    | [] => cases hf
    | [a] => cases hf
    | a :: b :: _ => exact ⟨by simp, a, b, hf⟩
  unfold HelperTable.standard at hmem
  simp only [List.mem_toArray, List.mem_cons, List.not_mem_nil, or_false] at hmem
  rcases hmem with rfl | rfl | rfl | rfl | rfl | rfl | rfl | rfl | rfl
  · obtain ⟨hlength, a, b, hab⟩ := htwo _ hrun
    refine ⟨hlength, fun _ => ?_⟩
    dsimp only at hab
    split at hab <;> cases hab
    rfl
  · obtain ⟨hlength, a, b, hab⟩ := htwo _ hrun
    cases hab
    exact ⟨hlength, fun _ => rfl⟩
  · exact ⟨(htwo _ hrun).1, nofun⟩
  · obtain ⟨hlength, a, b, hab⟩ := htwo _ hrun
    obtain ⟨_, -, hab⟩ := answer_eq_ok hab
    obtain ⟨_, -, hab⟩ := answer_eq_ok hab
    cases hab
    exact ⟨hlength, fun _ => rfl⟩
  · obtain ⟨hlength, a, ha⟩ := hone _ hrun
    obtain ⟨_, -, ha⟩ := answer_eq_ok ha
    cases ha
    exact ⟨hlength, fun _ => rfl⟩
  · obtain ⟨hlength, a, ha⟩ := hone _ hrun
    obtain ⟨_, -, ha⟩ := answer_eq_ok ha
    cases ha
    exact ⟨hlength, fun _ => rfl⟩
  all_goals
    obtain ⟨hlength, a, ha⟩ := hone _ hrun
    cases ha
    exact ⟨hlength, fun _ => rfl⟩

/-- No register that a call destroys holds something. -/
def Registers.Spared (set : Setting) (s : Registers) : Prop :=
  ∀ x, set.target.callerSaved.contains x = true → set.target.allocatable.contains x = true →
    s.valueIn x = Ref.none

/-- What the tables say holds after a call that destroys no register that holds something. -/
theorem Filled.destroyed {set : Setting} {s : Registers} {w : Nat → UInt64} {m : State}
    (hp : set.Portable) (hs : s.Represents set) (hm : Filled set (fun _ => False) s w m)
    (hgone : s.Spared set) (v : UInt64) :
    Filled set (fun _ => False) s w (m.destroy.setReg virtualTarget.retReg v) := by
  have hframe : (m.destroy.setReg virtualTarget.retReg v).frame = m.frame := by simp
  refine ⟨by simp [hm.size], by rw [hframe, hm.frame], fun {k x} hx hk _ => ?_,
    fun howns => by rw [hframe, hm.slot howns]⟩
  have hheld : s.valueIn x ≠ Ref.none := hk ▸ Registers.natCast_ne_none k
  obtain ⟨k', i, hi, -, hreg⟩ := hs.held hx hheld
  have halloc := (hs.placed hi (hreg ▸ hx.ne_none)).1
  rw [hreg] at halloc
  have hsafe : virtualTarget.callerSaved.contains x = false := by
    refine Bool.eq_false_iff.mpr fun hin => hheld (hgone x ?_ halloc)
    rwa [hp.callerSaved]
  have hret : virtualTarget.callerSaved.contains virtualTarget.retReg = true := by decide
  rw [State.setReg_reg (by simp [hm.size]) (by decide), if_neg,
    State.destroy_reg m hsafe, hm.reg hx hk id]
  rintro rfl
  rw [hret] at hsafe
  cases hsafe

theorem Setting.Portable.callable {set : Setting} (hp : set.Portable) : set.target.Callable := by
  obtain ⟨k, hk⟩ := hp.target
  rw [hk]
  exact (Target.callable_target .virtual).limit k

/-- The stack needs no padding at a call. -/
theorem Setting.Portable.unpadded {set : Setting} (hp : set.Portable) (spec : CallSpec) :
    ¬ spec.stackArgs set.target < spec.stackWords set.target := by
  have halign : set.target.stackAlign = false := by rw [hp.target_eq]; rfl
  unfold CallSpec.stackWords
  dsimp only
  rw [halign]
  simp

theorem argRegs_callerSaved :
    ∀ x ∈ virtualTarget.argRegs, virtualTarget.callerSaved.contains x = true := by
  decide +kernel

/-- A call makes the word its helper answers, with the heap as the helper leaves it. -/
theorem call_exec {i : Inst} {e e₁ : Env} (hop : i.op = .call)
    (hexec : Env.exec .standard i e = .on e₁) :
    ∃ v heap, HelperTable.standard.invoke e.heap i.helper (i.args.map e.word) = .ok (v, heap) ∧
      e₁ = Env.push { e with heap } v := by
  unfold Env.exec at hexec
  rw [hop] at hexec
  dsimp only at hexec
  split at hexec
  · cases hexec
  · next v heap hinvoke =>
    cases hexec
    exact ⟨v, heap, hinvoke, rfl⟩

/-! ### Results -/

/-- From a machine that is filled as later tables say, and with the result of a call in its
register, requests lead to one that is filled as the tables said before, where the result is the
word of value `n`. -/
def Returns (set : Setting) (s s' : Registers) (n : Nat) (is : List Instr) : Prop :=
  ∀ (w : Nat → UInt64) (m : State) (heap : StringHeap), Recalls set.buffer w →
    Recalls set.buffer (Function.update w n (m.reg virtualTarget.retReg)) →
      Filled set (fun _ => False) s' w m →
    ∃ m', performAll HelperTable.standard.host is m heap = .on m' heap ∧
      Filled set (fun _ => False) s (Function.update w n (m.reg virtualTarget.retReg)) m' ∧
        Alike m m'

section

variable {set : Setting} {s s' : Registers} {n i : Nat} {is : List Instr}

/-- A result that nothing needs is lost. -/
theorem returns_nowhere (hs : s.Represents set) (hn : ∀ j, ¬ s.Has n j)
    (h : Restores set (fun _ => False) (fun _ => False) s s' is) : Returns set s s' n is := by
  intro w m heap hw _ hm
  obtain ⟨m', hperform, hm', halike, -⟩ := h w m heap hw hm
  exact ⟨m', hperform, hm'.unneeded hs hn _, halike⟩

/-- The code that moves a result to the register of its value. -/
def settleCode (r : Reg) : List Instr :=
  if r ≠ Reg.none && r ≠ virtualTarget.retReg then [.mov r virtualTarget.retReg] else []

theorem settle_performs {m : State} (hm : m.regs.size = 16) {r : Reg} (hr : r ≠ Reg.none → r.Real)
    (heap : StringHeap) :
    ∃ m', performAll HelperTable.standard.host (settleCode r) m heap = .on m' heap ∧
    m'.regs.size = 16 ∧
      m'.frame = m.frame ∧ Alike m m' ∧ (r ≠ Reg.none → m'.reg r = m.reg virtualTarget.retReg) ∧
      m'.reg virtualTarget.retReg = m.reg virtualTarget.retReg ∧ ∀ y, y ≠ r →
      m'.reg y = m.reg y := by
  unfold settleCode
  split
  · next hmoved =>
    rw [Bool.and_eq_true, decide_eq_true_eq, decide_eq_true_eq] at hmoved
    have hreal := hr hmoved.1
    have hret : virtualTarget.retReg.Real := by decide
    refine ⟨m.setReg r (m.reg virtualTarget.retReg), ?_, by simp [hm], rfl, ⟨rfl, rfl, rfl⟩,
      fun _ => ?_, ?_, fun y hy => ?_⟩
    · rw [performAll_single, Instr.perform_mov hm hreal hret]
    · rw [State.setReg_reg hm hreal, if_pos rfl]
    · rw [State.setReg_reg hm hreal, if_neg (Ne.symm hmoved.2)]
    · rw [State.setReg_reg hm hreal, if_neg hy]
  · next hstays =>
    refine ⟨m, rfl, hm, rfl, .refl m, fun hne => ?_, rfl, fun _ _ => rfl⟩
    rw [Bool.and_eq_true, decide_eq_true_eq, decide_eq_true_eq, not_and, not_not] at hstays
    rw [hstays hne]

/-- A result is moved to the register of its value and stored if the value was spilled; then what
was evicted is restored. -/
theorem returns_held (hp : set.Portable) (hs : s.Represents set) (hi : s.Has n i)
    (hs' : s'.Represents set) (hi' : s'.Has n i)
    (hnone : (s'.at? i).reg = Reg.none) (hslot : (s'.at? i).slot = (s.at? i).slot)
    (h : Restores set (fun y => y = (s.at? i).reg ∧ y ≠ Reg.none) (· = (s.at? i).reg)
      (s.vacate i) s' is) :
    Returns set s (s'.drop n i) n
      (settleCode (s.at? i).reg ++ (keepCode set virtualTarget.retReg (s.at? i).slot ++ is)) := by
  intro w m heap hw hw' hm
  have hreal : (s.at? i).reg ≠ Reg.none → (s.at? i).reg.Real :=
    fun hreg => (hp.real (hs.placed hi hreg).1).1
  obtain ⟨m₁, hperform₁, hsize₁, hframe₁, halike₁, hmoved, hret, hother⟩ :=
    settle_performs hm.size hreal heap
  have hm₁ : Filled set (· = (s.at? i).reg) (s'.drop n i) w m₁ :=
    ⟨hsize₁, hframe₁ ▸ hm.frame, fun hy hk hout => (hother _ hout).trans (hm.reg hy hk id),
      fun howns => hframe₁ ▸ hm.slot howns⟩
  obtain ⟨m₂, hperform₂, hm₂, halike₂, hsame₂⟩ := hs'.keeps hi' hp
    (r := virtualTarget.retReg) (by decide) heap hm₁
  rw [hslot] at hperform₂
  rw [hret] at hm₂
  have hm₂' : Filled set (· = (s.at? i).reg) s'
      (Function.update w n (m.reg virtualTarget.retReg)) m₂ :=
    ⟨hm₂.size, hm₂.frame, fun hy hk hout => hm₂.reg hy hk fun hor => hor.elim hout fun heq =>
      hy.ne_none (heq.trans hnone),
      hm₂.slot⟩
  obtain ⟨m₃, hperform₃, hm₃, halike₃, hkept⟩ := h _ m₂ heap hw' hm₂'
  refine ⟨m₃, ?_, ⟨hm₃.size, hm₃.frame, fun {k y} hy hk _ => ?_, fun {k j} howns => hm₃.slot ?_⟩,
    (halike₁.trans halike₂).trans halike₃⟩
  · rw [performAll_on hperform₁, performAll_on hperform₂, hperform₃]
  · by_cases heq : y = (s.at? i).reg
    · subst heq
      obtain rfl := Int.ofNat.inj ((hs.valueIn_eq hi hy.ne_none).2.symm.trans hk)
      rw [hkept _ ⟨rfl, hy.ne_none⟩, hsame₂, hmoved hy.ne_none, Function.update_self]
    · exact hm₃.reg hy ((hs.drop_valueIn hi hy heq).trans hk) heq
  · unfold Registers.vacate
    split
    · exact howns
    · exact (hs.unassign_owns hi).mpr howns

end

namespace Assembler

variable {job : Job} {r : CodePages} {l : List Nat} {n : Nat} {i : Inst}
  {P : Side → List Piece} {s : Assembler}

section

variable (hj : job.Ready r)
include hj

/-- Arguments are in their registers. -/
theorem passInRegs_ensures (hs : Stage job.set r l P s.alloc) (xs : List (Ref × Reg))
    (hdistinct : (xs.map (·.2)).Nodup)
    (halloc : ∀ x ∈ xs, job.set.target.allocatable.contains x.2 = true)
    (hfree : ∀ x ∈ xs, s.alloc.regs.valueIn x.2 = Ref.none) :
    Ensures Anyhow (passInRegs job xs) s fun _ s' => s' = { s with alloc := s'.alloc } ∧
      ∃ q, Stage job.set r l (Code.fronted P .main q) s'.alloc ∧ ∀ w m
      (heap : StringHeap), Recalls job.set.buffer w →
        Filled job.set (fun _ => False) s'.alloc.regs w m →
        ∃ m', performAll HelperTable.standard.host (requests q) m heap = .on m' heap ∧
          Filled job.set (fun _ => False) s.alloc.regs w m' ∧ Alike m m' ∧
          ∀ x ∈ xs, ∃ k : Nat, x.1 = k ∧ m'.reg x.2 = w k := by
  induction xs generalizing P s with
  | nil => exact .pure ⟨rfl, [], (Code.fronted_nil P .main).symm ▸ hs,
    fun w m heap _ hm => ⟨m, rfl, hm, .refl m, nofun⟩⟩
  | cons x xs ih =>
    obtain ⟨ref, want⟩ := x
    obtain ⟨hnew, hdistinct⟩ := List.nodup_cons.mp hdistinct
    have hwant := halloc _ List.mem_cons_self
    have hvalid := RegSet.contains_valid hwant
    have hwork := Allocation.specificRegFor_works
      (K := fun y => s.alloc.regs.valueIn y = Ref.none)
        (O := fun _ => False) hj.laid hj.page hj.portable hs ref hwant
      (hfree _ List.mem_cons_self) (fun _ h => h) id
    refine (allocating_ensures hwork).bind fun _ s₁ ⟨hsame₁, q₁, hs₁, hrestores,
      hnonneg, hin, hvalue⟩ => ?_
    have hother : ∀ x ∈ xs, x.2 ≠ want := fun x hx heq => hnew (List.mem_map.mpr ⟨x, hx, heq⟩)
    refine (ih hs₁ hdistinct (fun x hx => halloc x (List.mem_cons_of_mem _ hx)) fun x hx => ?_).mono
      fun _ s₂ ⟨hsame₂, q₂, hs₂, hpass⟩ =>
        ⟨by rw [hsame₂, hsame₁], q₂ ++ q₁, ?_, fun w m heap hw hm => ?_⟩
    · have hnone := hfree x (List.mem_cons_of_mem _ hx)
      exact (hvalue x.2 (RegSet.contains_valid (halloc x (List.mem_cons_of_mem _ hx)))
        (hother x hx)).elim (·.trans hnone) id
    · rwa [Code.fronted_fronted] at hs₂
    · obtain ⟨m₁, hperform₁, hm₁, halike₁, hargs₁⟩ := hpass w m heap hw hm
      obtain ⟨m₂, hperform₂, hm₂, halike₂, hkept⟩ := hrestores w m₁ heap hw hm₁
      refine ⟨m₂, by rw [requests_append, performAll_on hperform₁, hperform₂], hm₂,
        halike₁.trans halike₂, fun x hx => ?_⟩
      rcases List.mem_cons.mp hx with rfl | hx
      · obtain ⟨k, rfl⟩ := Int.eq_ofNat_of_zero_le hnonneg
        exact ⟨k, rfl, (hkept want (hfree _ List.mem_cons_self)).trans (hm₁.reg hvalid hin id)⟩
      · obtain ⟨k, hk, hword⟩ := hargs₁ x hx
        exact ⟨k, hk, (hkept x.2 (hfree x (List.mem_cons_of_mem _ hx))).trans hword⟩

/-- The arguments of a call are where the call looks for them. -/
theorem passed_words (hi : job.Reads n i) (hfew : i.args.length ≤ virtualTarget.argRegs.length)
    {e : Env} {m m₁ : State} {s₁ : Assembler} (hm : Mirrors job n s₁ e m)
    (hpassed : ∀ x ∈ i.args.zip job.set.target.argRegs,
      ∃ k : Nat, x.1 = k ∧ m₁.reg x.2 = meaning job.set.buffer e k)
    (j : Nat) (w : UInt64) (hw : (i.args.map e.word)[j]? = some w) :
    ∃ x, virtualTarget.argRegs[j]? = some x ∧ m₁.reg x = w := by
  rw [List.getElem?_map, Option.map_eq_some_iff] at hw
  obtain ⟨ref, href, rfl⟩ := hw
  have hj' : j < virtualTarget.argRegs.length := by
    have := (List.getElem?_eq_some_iff.mp href).1
    omega
  refine ⟨virtualTarget.argRegs[j], List.getElem?_eq_getElem hj', ?_⟩
  obtain ⟨k, hk, hword⟩ := hpassed (ref, virtualTarget.argRegs[j]) (by
    rw [hj.portable.argRegs]
    refine List.mem_of_getElem? (i := j) ?_
    rw [List.getElem?_zip_eq_some]
    exact ⟨href, List.getElem?_eq_getElem hj'⟩)
  have hlt :=
    (hi.uses ref (List.mem_append_left _ (List.mem_append_right _ (List.mem_of_getElem? href)))).2
  have hk : ref = k := hk
  subst hk
  rw [hword, hm.knows.meaning_eq (hm.count ▸ Int.ofNat_lt.mp hlt)]

/-- What is left of making the code of instruction `n`: with tables `regs`, and code `is` made so
far, it makes code that does what the instruction does. -/
def Finishes (job : Job) (r : CodePages) (l : List Nat) (n : Nat) (i : Inst)
    (P : Side → List Piece) (s : Assembler) (regs : Registers) (is : List Instr)
    (k : Assembling Unit) : Prop :=
  ∀ (s₁ : Assembler) (q : List Piece), s₁ = { s with alloc := s₁.alloc } →
    Stage job.set r l (Code.fronted P .main q) s₁.alloc → s₁.alloc.regs = regs →
    requests q = is → Ensures Anyhow k s₁ fun _ s' => Mimics job r l n i P s s'

/-- Code that makes a call once there is code for its result. -/
theorem called_finishes (hi : job.Reads n i) (hop : i.op = .call) {d : Helper} {spec : CallSpec}
    (hget : HelperTable.standard.get i.helper = .ok d)
    (hspec : HelperTable.standard.spec i.helper = .ok spec) {regs : Registers} {is : List Instr}
    (hreturns : Returns job.set s.alloc.regs regs n is) (hspared : regs.Spared job.set) :
    Finishes job r l n i P s regs is (do
      emit job .main (.call spec)
      passInRegs job (i.args.zip job.set.target.argRegs)
      (i.args.drop job.set.target.argRegs.length).forM fun a => do
        let r ← allocating (Allocation.regFor job.set a
          (RegSet.ofList ((i.args.zip job.set.target.argRegs).map (·.2))))
        emit job .main (.push r)
      if spec.stackArgs job.set.target < spec.stackWords job.set.target then
        emit job .main (.push job.set.target.scratch)) := by
  rintro s₁ q₁ hsame₁ hs₁ rfl rfl
  obtain ⟨d', hget', hfew⟩ := hi.supplied.helper hop
  obtain rfl := Except.ok.inj (hget.symm.trans hget')
  have htwo := standard_few hget
  have hargRegs := hj.portable.argRegs
  have hlength : virtualTarget.argRegs.length = 4 := rfl
  have hcallable := hj.portable.callable
  have hargs : ∀ x ∈ i.args.zip job.set.target.argRegs, x.2 ∈ job.set.target.argRegs := fun x hx =>
    (List.of_mem_zip (show (x.1, x.2) ∈ _ from hx)).2
  refine (emit_main hj hs₁ (.call spec)).bind fun _ s₂ ⟨hsame₂, hregs₂, q₂, hrequests₂, hs₂⟩ => ?_
  refine (passInRegs_ensures hj hs₂ _ ?_
    (fun x hx => hcallable.argument _ (hargs x hx)) fun x hx => ?_).bind
    fun _ s' ⟨hsame', q, hs', hpass⟩ => ?_
  · rw [List.zip_eq_zip_take_min, List.map_snd_zip (by simp)]
    exact (List.take_sublist _ _).nodup hcallable.distinct
  · rw [hregs₂]
    refine hspared x.2 ?_ (hcallable.argument _ (hargs x hx))
    rw [hj.portable.callerSaved]
    exact argRegs_callerSaved x.2 (hargRegs ▸ hargs x hx)
  rw [hargRegs, List.drop_eq_nil_of_le (by omega)]
  refine .pure_bind ?_
  rw [if_neg (hj.portable.unpadded spec)]
  have hsame : s' = { s with alloc := s'.alloc } := by rw [hsame', hsame₂, hsame₁]
  refine .pure ⟨.allocating hsame, q ++ (q₂ ++ q₁), ?_, fun e e₁ m hexec hm => ?_⟩
  · simpa only [Code.fronted_fronted, List.append_assoc] using hs'
  obtain ⟨v, heap, hinvoke, rfl⟩ := call_exec hop hexec
  have hall : i.args.length = d.args.length := by
    have hanswers := (standard_answers hget hinvoke).1
    rw [List.length_map] at hanswers
    omega
  -- the arguments are passed
  obtain ⟨m₁, hperform₁, hm₁, halike₁, hpassed⟩ :=
    hpass _ m e.heap (recalls_meaning job.set.buffer e) hm.filled
  rw [hregs₂] at hm₁
  -- the call is made
  have hcall := HelperTable.perform_call hm₁.size (halike₁.args.trans hm.args) hget hspec
    (by rw [List.length_map, hall]) (passed_words hj hi (by omega) hm hpassed) hinvoke
  have hm₂ := hm₁.destroyed hj.portable hs₁.regs hspared v
  have hret : (m₁.destroy.setReg virtualTarget.retReg v).reg virtualTarget.retReg = v := by
    rw [State.setReg_reg (by simp [hm₁.size]) (by decide), if_pos rfl]
  -- its result is settled, and what was evicted is restored
  have himm : i.op = .imm → v = i.imm.bits := fun himm => by rw [hop] at himm; cases himm
  have hrecalls : Recalls job.set.buffer (Function.update (meaning job.set.buffer e) n v) :=
    (hm.recalls hi.get himm).2
  rw [← hret] at hrecalls
  obtain ⟨m₃, hperform₃, hm₃, halike₃⟩ :=
    hreturns _ _ heap (recalls_meaning job.set.buffer e) hrecalls hm₂
  rw [hret] at hm₃
  refine ⟨m₃, ?_, hm.made hi.get himm (rfl : ({ e with heap } : Env).values = e.values) hm₃
    (fun hneed => ?_) ?_ rfl ?_⟩
  · rw [requests_append, performAll_on hperform₁, requests_append, hrequests₂,
      List.singleton_append, performAll_cons hcall, hperform₃]
    rfl
  · rw [halike₃.overflow, State.setReg_overflow, State.destroy_overflow, halike₁.overflow]
    refine hm.flag ?_
    rw [hsame]
    exact hneed
  · rw [halike₃.slots, State.setReg_slots, State.destroy_slots, halike₁.slots, hm.slots]
  · rw [halike₃.args, State.setReg_args, State.destroy_args, halike₁.args]

/-! ### Calls -/

omit hj in
/-- A call that nothing needs and that has no effect needs no code. -/
theorem skipped_mimics (hs : Stage job.set r l P s.alloc) (hi : job.Reads n i) (hop : i.op = .call)
    {d : Helper} (hget : HelperTable.standard.get i.helper = .ok d) (hpure : d.pure = true)
    (hn : ∀ j, ¬ s.alloc.regs.Has n j) : Mimics job r l n i P s s := by
  refine mimics_dead hs hn hi.get fun env env₁ hexec => ?_
  obtain ⟨v, heap, hinvoke, rfl⟩ := call_exec hop hexec
  obtain rfl := (standard_answers hget hinvoke).2 hpure
  exact ⟨v, none, rfl, fun himm => (by rw [hop] at himm; cases himm), fun _ => rfl⟩

/-- What was evicted before a call whose value is entry `x`: code `is` restores it after the result
has been settled. -/
structure Emptied (set : Setting) (n x : Nat) (s s' : Registers) (is : List Instr) : Prop where
  represents : s'.Represents set
  has : s'.Has n x
  none : (s'.at? x).reg = Reg.none
  spared : s'.Spared set
  returns : Returns set s (s'.drop n x) n (settleCode (s.at? x).reg ++
    (keepCode set virtualTarget.retReg (s.at? x).slot ++ is))

omit hj in
/-- The value of the call holds no register either. -/
theorem Emptied.drop_spared {set : Setting} {n x : Nat} {regs regs' : Registers} {is : List Instr}
    (h : Emptied set n x regs regs' is) : (regs'.drop n x).Spared set := by
  intro y hy halloc
  have hvalid := RegSet.contains_valid halloc
  rw [h.represents.drop_valueIn h.has hvalid fun heq => hvalid.ne_none (heq.trans h.none)]
  exact h.spared y hy halloc

theorem evictCallerSaved_empties (hs : Stage job.set r l P s.alloc) {x : Nat}
    (hx : s.alloc.regs.Has n x) {s₀ : Assembler} (hs₀ : Stage job.set r l P s₀.alloc)
    (hregs₀ : s₀.alloc.regs = s.alloc.regs.vacate x) :
    Ensures Anyhow (allocating (Allocation.evictCallerSaved job.set)) s₀ fun _ s' =>
      s' = { s₀ with alloc := s'.alloc } ∧
        ∃ q, Stage job.set r l (Code.fronted P .main q) s'.alloc ∧
          Emptied job.set n x s.alloc.regs s'.alloc.regs (requests q) := by
  obtain ⟨-, hvacated, hnone₀⟩ := hs.regs.toAgrees.vacate hx
  have hslot₀ := hs.regs.vacate_slot hx x
  refine (allocating_ensures (Allocation.evictCallerSaved_works
    (K := fun y => y = (s.alloc.regs.at? x).reg ∧ y ≠ Reg.none)
    (O := (· = (s.alloc.regs.at? x).reg)) hj.laid hj.page hj.portable hs₀ ?_)).mono
    fun _ s₁ ⟨hsame₁, q, hs₁, hrestores, hevicted, hspared, _, hslots⟩ => ⟨hsame₁, q, hs₁, ?_⟩
  · rintro y ⟨rfl, hy⟩
    rw [hregs₀]
    unfold Registers.vacate
    rw [if_neg (by rwa [beq_iff_eq])]
    have hvalid := (hs.regs.valueIn_eq hx hy).1
    exact ⟨hvalid, by rw [hs.regs.unassign_valueIn hvalid hvalid, if_pos rfl]⟩
  · have hx₁ : s₁.alloc.regs.Has n x := hevicted.has.mpr (hregs₀ ▸ hvacated.has.mpr hx)
    have hnone₁ : (s₁.alloc.regs.at? x).reg = Reg.none := hevicted.none (hregs₀ ▸ hnone₀)
    have hslot₁ : (s₁.alloc.regs.at? x).slot = (s.alloc.regs.at? x).slot := by
      rw [hslots x (hregs₀ ▸ hnone₀), hregs₀]
      exact hslot₀
    rw [hregs₀] at hrestores
    exact ⟨hs₁.regs, hx₁, hnone₁, hspared,
      returns_held hj.portable hs.regs hx hs₁.regs hx₁ hnone₁ hslot₁ hrestores⟩

section

variable {x : Nat} {regs : Registers} {is : List Instr} {k : Assembling Unit}

omit hj in
/-- The value is given up in front of the code that settles its result. -/
theorem release_finishes (hrep : regs.Represents job.set) (hx : regs.Has n x)
    (hk : Finishes job r l n i P s (regs.drop n x) is k) :
    Finishes job r l n i P s regs is (do allocating (Allocation.release n); k) := by
  rintro s₁ q hsame hs₁ rfl hq
  have hentry := hs₁.regs.entry_has hx
  refine (allocating_ensures (Q := fun _ s' => Stage job.set r l (Code.fronted P .main q) s' ∧
    s'.regs = s₁.alloc.regs.drop n x) ?_).bind fun _ s₂ ⟨hsame₂, hs₂, hregs₂⟩ => ?_
  · unfold Allocation.release
    refine .get ?_
    rw [hentry]
    exact .pure_bind (.modify ⟨⟨hs₁.regs.drop hx, hs₁.code⟩, rfl⟩)
  · exact hk s₂ q (by rw [hsame₂, hsame]) hs₂ hregs₂ hq

/-- The result is moved to the register of its value. -/
theorem settle_finishes {reg : Reg} (hk : Finishes job r l n i P s regs (settleCode reg ++ is) k) :
    Finishes job r l n i P s regs is (do
      if reg ≠ Reg.none && reg ≠ job.set.target.retReg then
        emit job .main (.mov reg job.set.target.retReg)
      k) := by
  intro s₁ q hsame hs₁ hregs hq
  rw [hj.portable.retReg]
  unfold settleCode at hk
  dsimp only
  split
  · next hmoved =>
    rw [if_pos hmoved] at hk
    refine (emit_main hj hs₁ _).bind fun _ s₂ ⟨hsame₂, hregs₂, q₂, hrequests, hs₂⟩ => ?_
    rw [Code.fronted_fronted] at hs₂
    refine hk s₂ (q₂ ++ q) (by rw [hsame₂, hsame]) hs₂ (hregs₂.trans hregs) ?_
    rw [requests_append, hrequests, hq]
  · next hstays =>
    rw [if_neg hstays] at hk
    exact hk s₁ q hsame hs₁ hregs hq

/-- The result is stored if its value was spilled. -/
theorem keep_finishes {slot : Option Nat}
    (hk : Finishes job r l n i P s regs
      (keepCode job.set virtualTarget.retReg slot ++ is) k) :
    Finishes job r l n i P s regs is (do
      if let some j := slot then
        emit job .main (.store job.set.target.frameBase (job.set.target.spillDisp j)
          job.set.target.retReg)
      k) := by
  intro s₁ q hsame hs₁ hregs hq
  cases slot with
  | none => exact hk s₁ q hsame hs₁ hregs hq
  | some j =>
    refine (emit_main hj hs₁ _).bind fun _ s₂ ⟨hsame₂, hregs₂, q₂, hrequests, hs₂⟩ => ?_
    rw [Code.fronted_fronted] at hs₂
    refine hk s₂ (q₂ ++ q) (by rw [hsame₂, hsame]) hs₂ (hregs₂.trans hregs) ?_
    rw [requests_append, hrequests, hq, hj.portable.retReg]
    rfl

end

/-- Code that makes a call. -/
theorem call_mimics (hs : Stage job.set r l P s.alloc) (hi : job.Reads n i) (hop : i.op = .call) :
    Ensures Anyhow (call job n i) s fun _ s' => Mimics job r l n i P s s' := by
  obtain ⟨e, hentry, hindex⟩ := hs.regs.entry_eq hi.size
  have hnowhere : e = none → ∀ j, ¬ s.alloc.regs.Has n j := by
    rintro rfl j hj
    unfold Registers.Has at hj
    rw [hindex] at hj
    cases hj
  unfold call
  rw [hj.helpers]
  refine answer_bind fun d hget => .get (answer_bind fun e' hentry' => ?_)
  obtain rfl := Except.ok.inj (hentry.symm.trans hentry')
  extract_lets t inRegs avoid
  split
  · next hdead =>
    rw [Bool.and_eq_true, Option.isNone_iff_eq_none] at hdead
    exact .pure (skipped_mimics hs hi hop hget hdead.2 (hnowhere hdead.1))
  refine answer_bind fun spec hspec => .get ?_
  extract_lets held called released evicted
  have hcalled : ∀ regs is, Returns job.set s.alloc.regs regs n is → regs.Spared job.set →
      Finishes job r l n i P s regs is (called ()) :=
    fun _ _ hreturns hspared => called_finishes hj hi hop hget hspec hreturns hspared
  cases e with
  | none =>
    refine (allocating_ensures (Allocation.evictCallerSaved_works
      (K := fun _ => False) (O := fun _ => False) hj.laid hj.page hj.portable hs nofun)).bind
      fun _ s₁ ⟨hsame₁, q₁, hs₁, hrestores, _, hspared, _⟩ => ?_
    exact hcalled _ _ (returns_nowhere hs.regs (hnowhere rfl) hrestores) hspared
      s₁ q₁ hsame₁ hs₁ rfl rfl
  | some x =>
    dsimp only [held, Option.map_some]
    have hx : s.alloc.regs.Has n x := hindex
    have hevicted : ∀ s₀ : Assembler, s₀ = { s with alloc := s₀.alloc } →
        Stage job.set r l P s₀.alloc → s₀.alloc.regs = s.alloc.regs.vacate x →
        Ensures Anyhow (evicted ()) s₀ fun _ s' => Mimics job r l n i P s s' := by
      intro s₀ hsame₀ hs₀ hregs₀
      refine (evictCallerSaved_empties hj hs hx hs₀ hregs₀).bind
        fun _ s₁ ⟨hsame₁, q₁, hs₁, hemptied⟩ => ?_
      have hreleased := release_finishes hemptied.represents hemptied.has
        (hcalled _ _ hemptied.returns hemptied.drop_spared)
      exact keep_finishes hj (settle_finishes hj hreleased) s₁ q₁ (by rw [hsame₁, hsame₀]) hs₁
        rfl rfl
    -- a value that was in no register gives none up
    split
    · next hreg =>
      have hvacated : s.alloc.regs.vacate x = s.alloc.regs.unassign x :=
        if_neg (by rwa [beq_iff_eq])
      refine (allocating_ensures (Q := fun _ s' => Stage job.set r l P s' ∧
        s'.regs = s.alloc.regs.vacate x)
        (.modify ⟨⟨hs.regs.unassign hx hreg, hs.code⟩, hvacated.symm⟩)).bind
        fun _ s₀ ⟨hsame₀, hs₀, hregs₀⟩ => hevicted s₀ hsame₀ hs₀ hregs₀
    · next hreg =>
      refine hevicted s rfl hs ?_
      unfold Registers.vacate
      rw [if_pos (beq_iff_eq.mpr (not_not.mp hreg))]

end

end Assembler

end LoopTracer.Compile
