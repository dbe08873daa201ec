import LoopTracer.Proofs.Trace.Recorders
import LoopTracer.Proofs.Trace.StringHeap

/-! What a run of the machine does to its surroundings.

The machine itself leaves the environment alone, and it faults only where a register, an argument or
a size is out of range (`Plain`). Everything else is done by helpers: those of the compiler add
strings to the heap, and their faults have to do with strings. -/
namespace LoopTracer

namespace Trace.HelperTable

/-- Strings may be added to the heap; a fault has nothing to do with code pages. -/
def Mannered (heap : StringHeap) (x : Except Fault (UInt64 × StringHeap)) : Prop :=
  Answers Tame x fun r => heap.Grows r.2

theorem mannered_ok (heap : StringHeap) (w : UInt64) :
    Mannered heap (.ok (w, heap)) := refl_of StringHeap.Grows heap

theorem answers_stringOf (heap : StringHeap) (w : UInt64) :
    Answers Tame (Helper.stringOf heap w) fun _ => True := by
  unfold Helper.stringOf StringHeap.lookup
  split
  · trivial
  · exact nofun

theorem mannered_unary {f : StringHeap → UInt64 → Except Fault (UInt64 × StringHeap)}
    (hf : ∀ h a, Mannered h (f h a))
    (heap : StringHeap) (args : List UInt64) : Mannered heap (Helper.unary f heap args) := by
  cases args with
  | nil => exact fun _ _ he => nomatch he
  | cons a _ => exact hf heap a

theorem mannered_binary {f : StringHeap → UInt64 → UInt64 → Except Fault (UInt64 × StringHeap)}
    (hf : ∀ h a b, Mannered h (f h a b)) (heap : StringHeap) (args : List UInt64) :
    Mannered heap (Helper.binary f heap args) := by
  match args with
  | a :: b :: _ => exact hf heap a b
  | [_] | [] => exact fun _ _ he => nomatch he

/-- The helpers of the compiler. -/
theorem mannered_standard :
    ∀ d ∈ standard.helpers, ∀ heap args, Mannered heap (d.run heap args) := by
  intro d hd heap args
  simp only [standard, List.mem_toArray, List.mem_cons, List.not_mem_nil, or_false] at hd
  rcases hd with rfl | rfl | rfl | rfl | rfl | rfl | rfl | rfl | rfl
  · refine mannered_binary (fun h a b => ?_) heap args
    dsimp only
    split
    · exact fun _ _ he => nomatch he
    · exact mannered_ok h _
  · exact mannered_binary (fun h a b => mannered_ok h _) heap args
  · refine mannered_binary (fun h a b => (answers_stringOf h a).bind fun s _ =>
      (answers_stringOf h b).bind fun t _ => ?_)
      heap args
    exact StringHeap.grows_intern h (s ++ t)
  · exact mannered_binary (fun h a b => (answers_stringOf h a).bind fun _ _ =>
        (answers_stringOf h b).bind fun _ _ =>
      mannered_ok h _) heap args
  · exact mannered_unary
      (fun h a => (answers_stringOf h a).bind fun _ _ => mannered_ok h _) heap args
  · exact mannered_unary
      (fun h a => (answers_stringOf h a).bind fun _ _ => mannered_ok h _) heap args
  · exact mannered_unary (fun h a => mannered_ok h _) heap args
  · exact mannered_unary (fun h a => mannered_ok h _) heap args
  · exact mannered_unary (fun h a => mannered_ok h _) heap args

theorem mannered_invoke (heap : StringHeap) (id : UInt8) (args : List UInt64) :
    Mannered heap (standard.invoke heap id args) := by
  have hget : Answers Tame (standard.get id) fun d => d ∈ standard.helpers := by
    unfold get
    split
    · next hfound => exact Array.mem_of_getElem? hfound
    · exact nofun
  exact hget.bind fun d hd => mannered_standard d hd heap args

end Trace.HelperTable

namespace Machine

open Trace

variable {η : Type} {host : Host η} {R : η → η → Prop}

/-- The helpers of a host change the environment as `R` says, and stop only with faults that have
nothing to do with code pages. -/
def Host.Mannered (R : η → η → Prop) (host : Host η) : Prop :=
  ∀ call, host = some call → ∀ index args env, Answers Tame (call index args env) fun r => R env r.2

theorem mannered_standard : (HelperTable.standard.host).Mannered StringHeap.Grows := by
  rintro _ ⟨⟩ index args heap
  exact HelperTable.mannered_invoke heap _ args

/-- What is next is no fault that has to do with code pages. -/
def Next.Tame (n : Next) : Prop := ∀ f, n = .fault f → LoopTracer.Tame f

theorem Next.tame_bounds : (Next.fault .bounds).Tame := fun f hf => by
  cases hf
  rintro _ _ ⟨⟩

/-- A step of the machine alone. -/
structure Plain (env : η) (step : Step η) : Prop where
  env : step.2.1 = env
  tame : step.2.2.Tame

theorem plain_reading {m : State} {env : η} {r : UInt8} {k : UInt64 → Step η}
    (hk : ∀ v, Plain env (k v)) :
    Plain env (reading m env r k) := by
  unfold reading
  split
  · exact hk _
  · exact ⟨rfl, Next.tame_bounds⟩

theorem plain_writing (m : State) (env : η) (r : UInt8) (v : UInt64) (pc : Int) :
    Plain env (writing m env r v pc) := by
  unfold writing
  split
  · exact ⟨rfl, nofun⟩
  · exact ⟨rfl, Next.tame_bounds⟩

theorem plain_result (m : State) (env : η) (r : UInt8) (v : UInt64)
    (flag : Option Bool) (pc : Int) :
    Plain env (result m env r v flag pc) := by
  unfold result
  split <;> exact plain_writing _ _ _ _ _

/-- All words but calls are executed by the machine alone. -/
theorem plain_execute (w : Virtual.Word) (hw : w.op ≠ .call) (pc : Int) (m : State) (env : η) :
    Plain env (execute host w pc m env) := by
  unfold execute
  dsimp only
  cases hop : w.op with
  | nop => exact ⟨rfl, nofun⟩
  | mov => exact plain_reading fun _ => plain_writing _ _ _ _ _
  | movImm => exact plain_writing _ _ _ _ _
  | load =>
    dsimp only
    split
    · exact ⟨rfl, nofun⟩
    · exact plain_writing _ _ _ _ _
    · exact plain_writing _ _ _ _ _
  | store =>
    dsimp only
    split
    · exact ⟨rfl, nofun⟩
    · refine plain_reading fun _ => ?_
      split <;> exact ⟨rfl, nofun⟩
  | binary =>
    refine plain_reading fun a => plain_reading fun b => ?_
    split
    · exact ⟨rfl, nofun⟩
    · exact plain_result _ _ _ _ _ _
  | unary =>
    refine plain_reading fun a => ?_
    split
    · exact ⟨rfl, nofun⟩
    · exact plain_result _ _ _ _ _ _
  | compare => exact plain_reading fun a => plain_reading fun b => plain_writing _ _ _ _ _
  | guard =>
    dsimp only
    split
    · exact plain_reading fun _ => ⟨rfl, nofun⟩
    · exact plain_reading fun _ => ⟨rfl, nofun⟩
    · exact ⟨rfl, nofun⟩
    · exact ⟨rfl, nofun⟩
  | jump => exact ⟨rfl, nofun⟩
  | push => exact plain_reading fun _ => ⟨rfl, nofun⟩
  | call => exact absurd hop hw
  | prologue =>
    dsimp only
    split
    · exact ⟨rfl, Next.tame_bounds⟩
    · exact ⟨rfl, nofun⟩
  | bailout => exact plain_reading fun _ => ⟨rfl, nofun⟩
  | other op => exact ⟨rfl, nofun⟩

variable [IsPreorder η R]

theorem callHelper_mannered (hh : host.Mannered R) (m : State) (env : η) (n : Nat)
    (ret : SizeClass) (onStack : Nat)
    (index : Int32) (classes : UInt64) (next : Int) :
    R env (callHelper host m env n ret onStack index classes next).2.1 ∧
      (callHelper host m env n ret onStack index classes next).2.2.Tame := by
  unfold callHelper
  split
  · exact ⟨refl_of R env, nofun⟩
  · next call =>
    split
    · exact ⟨refl_of R env, nofun⟩
    · dsimp only
      split
      · exact ⟨refl_of R env, Next.tame_bounds⟩
      · next args _ =>
        have hcall := hh call rfl index args env
        split
        · next he =>
          rw [he] at hcall
          exact ⟨refl_of R env, fun f hf => by cases hf; exact hcall⟩
        · next he =>
          rw [he] at hcall
          exact ⟨hcall, nofun⟩

theorem execute_mannered (hh : host.Mannered R) (w : Virtual.Word) (pc : Int)
    (m : State) (env : η) :
    R env (execute host w pc m env).2.1 ∧ (execute host w pc m env).2.2.Tame := by
  by_cases hw : w.op = .call
  · unfold execute
    rw [hw]
    exact callHelper_mannered hh _ _ _ _ _ _ _ _
  · have hplain : Plain env (execute host w pc m env) := plain_execute w hw pc m env
    rw [hplain.env]
    exact ⟨refl_of R env, hplain.tame⟩

/-- A run changes the environment as its helpers do. -/
theorem runFrom_mannered (hh : host.Mannered R) (mem : Memory) (maxSteps fuel : Nat) (pc : Int)
    (m : State) (env : η) :
    R env (runFrom host mem maxSteps fuel pc m env).2.1 ∧
      ∀ f, (runFrom host mem maxSteps fuel pc m env).2.2 = .fault f → Tame f := by
  induction fuel generalizing pc m env with
  | zero => exact ⟨refl_of R env, nofun⟩
  | succ fuel ih =>
    unfold runFrom
    split
    · exact ⟨refl_of R env, nofun⟩
    · dsimp only
      split
      · exact ⟨refl_of R env, nofun⟩
      · have hstep := execute_mannered hh (Virtual.Word.read mem pc.toNat) pc
          { m with steps := m.steps + 1 } env
        split
        · next m' env' pc' he =>
          rw [he] at hstep
          exact ⟨trans_of R hstep.1 (ih pc' m' env').1, (ih pc' m' env').2⟩
        · next he =>
          rw [he] at hstep
          exact ⟨hstep.1, nofun⟩
        · next he =>
          rw [he] at hstep
          exact ⟨hstep.1, nofun⟩
        · next he =>
          rw [he] at hstep
          exact ⟨hstep.1, fun f hf => by cases hf; exact hstep.2 _ rfl⟩

end Machine

end LoopTracer
