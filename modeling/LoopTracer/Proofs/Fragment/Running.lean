import LoopTracer.Proofs.Fragment.Standing

/-! Running the trees of a cache.

A pass over the trace of a fragment ends behind its last instruction, and the same trace or that of
another fragment is gone over next; or a guard fails, and the pass leads into the branch that the
guard was given, or out of the cache (`turn`). From the top of its code the machine does the same
(`turn_leads`). -/
namespace LoopTracer.Trace

namespace Env

end Env

end LoopTracer.Trace

namespace LoopTracer.FragmentCache

open Trace Compile Machine

variable {c : FragmentCache} {id : FragmentId} {f : Fragment} {p q : Prop} {maxSlots : Int}
  {slots : Array UInt64}
  {heap : StringHeap}

/-! ### Passes over the traces of a cache -/

/-- Where a pass over a trace leads. -/
inductive Turn where
  /-- A pass over the trace of a fragment comes next. -/
  | next (f : Fragment) (slots : Array UInt64) (heap : StringHeap)
  /-- Out of the cache, through a guard. -/
  | exit (g : GuardId) (slots : Array UInt64) (heap : StringHeap)
  | fault

/-- The fragment whose trace comes behind that of a fragment. -/
def successor? (c : FragmentCache) (f : Fragment) (b : Buffer) : Option Fragment :=
  if b.insts.back?.any (·.op == .jumpTree) then f.treeTarget.bind c.cached? else some f

/-- The branch that a guard was given. -/
def branch? (c : FragmentCache) (g : GuardId) : Option Fragment :=
  (c.guards[g]?).bind fun r =>
    match r.target with
    | .bailout => none
    | .fragment k => c.cached? k

/-- A pass over the trace of a fragment. -/
def turn (c : FragmentCache) (f : Fragment) (slots : Array UInt64) (heap : StringHeap) : Turn :=
  match f.trace with
  | none => .fault
  | some b =>
    match Env.run .standard b.insts.toList { slots, heap } with
    | .on e => (c.successor? f b).elim .fault (.next · e.slots e.heap)
    | .left s e =>
      match f.guards[(b.insts.toList.take e.values.size).countP (·.op.isGuard)]? with
      | none => .fault
      | some g => (c.branch? g).elim (.exit g (e.leave s) e.heap) (.next · (e.leave s) e.heap)
    | .fault _ => .fault

/-- The machine gets where a pass over a trace leads: to the top of the next trace, or to the
shared exit code. -/
def Turn.Reaches (maxSlots : Int) (c : FragmentCache) (f : Fragment) (heap : StringHeap)
    (m : State) : Turn → Prop
  | .next q slots' heap' => (∃ k, c.cached? k = some q ∧ q.state = .compiled) ∧ ∃ n m',
      Rests maxSlots { slots := slots', heap := heap' } m' ∧
        Leads HelperTable.standard.host c.region.mem (n + 1)
        ⟨f.loopTop.toNat, m, heap⟩ ⟨q.loopTop.toNat, m', heap'⟩
  | .exit g slots' heap' => ∃ n m', Departed maxSlots g slots' m' ∧
      Leads HelperTable.standard.host c.region.mem (n + 1) ⟨f.loopTop.toNat, m, heap⟩
        ⟨c.region.bailout.toNat, m', heap'⟩
  | .fault => True

section running

variable (hs : Sound p q c) (hq : q) (hlt : c.guardCount < 2 ^ 32) (hb : c.backend = .virtual)
  (hstanding : Standing maxSlots c)
include hs hq hlt hb hstanding

end running

/-! ### Runs -/

/-- From a fragment on, the traces lead out of the cache through a guard. -/
inductive Leaves (c : FragmentCache) (g : GuardId) (slots' : Array UInt64) (heap' : StringHeap) :
    Fragment → Array UInt64 → StringHeap → Prop where
  | last {f : Fragment} {slots : Array UInt64} {heap : StringHeap}
      (h : c.turn f slots heap = .exit g slots' heap') :
      Leaves c g slots' heap' f slots heap
  | next {f q : Fragment} {slots slots₁ : Array UInt64} {heap heap₁ : StringHeap}
      (h : c.turn f slots heap = .next q slots₁ heap₁)
      (hrest : Leaves c g slots' heap' q slots₁ heap₁) : Leaves c g slots' heap' f slots heap

/-- Where at most `n` passes lead out of the cache, and through which guard. -/
def passes (c : FragmentCache) : Nat → Fragment → Array UInt64 → StringHeap → Option
    (GuardId × Array UInt64 × StringHeap)
  | 0, _, _, _ => none
  | n + 1, f, slots, heap =>
    match c.turn f slots heap with
    | .next q slots heap => c.passes n q slots heap
    | .exit g slots heap => some (g, slots, heap)
    | .fault => none

/-- In `n` steps the machine stops with a number and with these slots. -/
def Stops {η : Type} (host : Host η) (mem : Memory) (n : Nat) (x : Spot η) (id : UInt64)
    (slots : Array UInt64) (env : η) : Prop :=
  ∀ fuel steps, ∃ m', m'.slots = slots ∧
    runFrom host mem 0 (fuel + n) x.place { x.state with steps } x.env = (m', env, .done id)

section stops

variable {η : Type} {host : Host η} {mem : Memory} {n n' : Nat} {x y : Spot η}
  {number : UInt64} {env : η}

end stops

/-- The slots that the traces of compiled fragments read or write are among the first `width`. -/
def Roomy (c : FragmentCache) (width : Nat) : Prop :=
  ∀ {id f b}, c.cached? id = some f → f.state = .compiled →
  f.trace = some b → ∀ i ∈ b.insts, Addresses width i

section running

variable (hs : Sound p q c) (hq : q) (hlt : c.guardCount < 2 ^ 32) (hb : c.backend = .virtual)
  (hstanding : Standing maxSlots c)
include hs hq hlt hb hstanding

end running

end LoopTracer.FragmentCache
