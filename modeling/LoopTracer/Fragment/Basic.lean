import LoopTracer.Trace.Buffer

/-! Fragments: pieces of compiled code, and the guards that lead out of them.

The first trace of a loop is its root fragment. A peer is another trace of the same loop that
was entered with other types, and a branch is a trace that starts where a guard of another
fragment fails. Fragments refer to each other by number. -/
namespace LoopTracer

open Trace Machine

/-- The number of a fragment; the first one is 1. -/
abbrev FragmentId := UInt32

/-- The number of a guard; the first one is 1. -/
abbrev GuardId := UInt32

/-- A loop as the interpreter finds it: whose code, where its head is and how deep in calls. -/
structure LoopKey where
  code : UInt32
  pc : Int
  depth : Int
deriving DecidableEq, Inhabited

namespace LoopKey

/-- Loops in the order of their code, then of their offset and depth. -/
instance : Ord LoopKey := ⟨compareLex (compareOn code) (compareLex (compareOn pc) (compareOn depth))⟩

instance : Std.TransOrd LoopKey :=
  inferInstanceAs
    (Std.TransCmp (compareLex (compareOn code) (compareLex (compareOn pc) (compareOn depth))))

instance : Std.LawfulEqOrd LoopKey where
  eq_of_compare {a b} h := by
    obtain ⟨hcode, hrest⟩ := compareLex_eq_eq.mp h
    obtain ⟨hpc, hdepth⟩ := compareLex_eq_eq.mp hrest
    obtain ⟨_, _, _⟩ := a
    obtain rfl := Std.compare_eq_iff_eq.mp hcode
    obtain rfl := Std.compare_eq_iff_eq.mp hpc
    obtain rfl := Std.compare_eq_iff_eq.mp hdepth
    rfl

end LoopKey

def LoopKey.render (k : LoopKey) : Text :=
  Text.hex k.code.toNat 8 ++ "@" ++ .ofInt k.pc ++ "/" ++ .ofInt k.depth

/-- The entry types that a loop's slots give a fragment: an empty map tells nothing. -/
def knownTypes (types : TypeMap) : Option TypeMap := if types.isEmpty then none else some types

inductive FragmentKind where
  | root
  | peer
  | branch
deriving DecidableEq, Inhabited

namespace FragmentKind

def all : Array FragmentKind := #[.root, .peer, .branch]

def name : FragmentKind → Text
  | root => "root"
  | peer => "peer"
  | branch => "branch"

def nameOf : UInt8 → Text := nameOfNumber all name "?"

end FragmentKind

inductive FragmentState where
  /-- Counting how often the loop runs. -/
  | counting
  | recording
  /-- May be executed. -/
  | compiled
  /-- Recording failed and may be tried again. -/
  | failed
  /-- Never tried again. -/
  | blacklisted
  | invalidated
deriving DecidableEq, Inhabited

namespace FragmentState

def all : Array FragmentState :=
  #[.counting, .recording, .compiled, .failed, .blacklisted, .invalidated]

def name : FragmentState → Text
  | counting => "counting"
  | recording => "recording"
  | compiled => "compiled"
  | failed => "failed"
  | blacklisted => "blacklisted"
  | invalidated => "invalidated"

def nameOf (n : UInt8) : Text := nameOfNumber all name (unknown "state" n) n

end FragmentState

/-- Written code from `start` up to `stop`. -/
structure CodeRange where
  start : CodeAddr
  stop : CodeAddr
deriving DecidableEq, Inhabited

/-- The bytes of some ranges together. -/
def CodeRange.total (l : List CodeRange) : Nat :=
  l.foldl (fun n r => n + (r.stop - r.start).toNat) 0

/-- A guard of compiled code. -/
structure Guard where
  id : GuardId
  /-- The fragment it belongs to. -/
  source : FragmentId
  target : ExitTarget
  /-- Where its exit code ends in a jump that can be redirected. -/
  site : CodeAddr
  /-- Its exit's place in the table of exits. -/
  exit : Nat
deriving Inhabited

def Guard.render (g : Guard) (e : ExitRecord) : Text :=
  "guard#" ++ .ofNat g.id.toNat ++ " from fragment#" ++ .ofNat g.source.toNat ++ " -> "
    ++ g.target.render ++ " site=" ++ g.site.render ++ " " ++ e.render

structure Fragment where
  id : FragmentId
  key : LoopKey
  kind : FragmentKind
  state : FragmentState := .counting
  /-- The types it is entered with, once they are known. -/
  entryTypes : Option TypeMap := none
  /-- The recorded trace. -/
  trace : Option Buffer := none
  /-- Where the exits of the trace start in the table of exits. -/
  exitBase : Nat := 0
  /-- Where execution starts: before the set-up code of a root or peer. -/
  entry : CodeAddr := 0
  loopTop : CodeAddr := 0
  guards : List GuardId := []
  mainPages : List Nat := []
  exitPages : List Nat := []
  mainCode : List CodeRange := []
  exitCode : List CodeRange := []
  /-- The root of its tree. -/
  root : FragmentId
  /-- The fragment that a branch leaves. -/
  parent : Option FragmentId := none
  peers : List FragmentId := []
  children : List FragmentId := []
  /-- The guard that a branch starts at. -/
  anchor : Option GuardId := none
  /-- Where the trace of a branch goes on at its end. -/
  treeTarget : Option FragmentId := none
  /-- Whether it is still in the cache. -/
  cached : Bool := true
  hits : Nat := 0
  /-- How often it was left. -/
  exits : Nat := 0
  /-- How often recording it failed. -/
  attempts : Nat := 0
deriving Inhabited

namespace Fragment

def executable (f : Fragment) : Bool := f.state == .compiled

/-- The entry types, none as the empty map. -/
def types (f : Fragment) : TypeMap := f.entryTypes.getD []

def render (f : Fragment) : Text :=
  "fragment#" ++ .ofNat f.id.toNat ++ "(" ++ f.kind.name ++ " " ++ f.key.render ++ " "
    ++ f.state.name ++ " [" ++ f.types.render ++ "])"

end Fragment

end LoopTracer
