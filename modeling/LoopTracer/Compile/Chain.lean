import LoopTracer.Compile.CodePages

/-! Writing code over several pages.

Code is written from its end to its start. When a page is nearly full, a new one is taken and
ends in a jump to where the code goes on in the page before. A trace is written as two such
chains, one for its main code and one for its exits. -/
namespace LoopTracer.Compile

open Machine

/-- The ways in which compiling a trace can fail. -/
inductive CompileErrorKind where
  | outOfSpace
  | tooManyGuards
  | tooManyExits
  | frameOverflow
  | tooManyLive
deriving DecidableEq, Inhabited

namespace CompileErrorKind

def toNat : CompileErrorKind → Nat
  | outOfSpace => 0
  | tooManyGuards => 1
  | tooManyExits => 2
  | frameOverflow => 3
  | tooManyLive => 4

def message : CompileErrorKind → Text
  | outOfSpace => "jit: out of code space"
  | tooManyGuards => "jit: too many guards"
  | tooManyExits => "jit: too many off-trace jumps"
  | frameOverflow => "jit: activation record overflow"
  | tooManyLive => "jit: reservation table full"

end CompileErrorKind

structure CompileError where
  kind : CompileErrorKind
  detail : Text
deriving Inhabited

def CompileError.message (e : CompileError) : Text := e.kind.message ++ ": " ++ e.detail

/-- Why compiling stopped. -/
inductive CompileStop where
  | error (e : CompileError)
  | fault (f : Fault)

/-- One chain of pages. -/
structure Chain where
  kind : PageKind
  /-- The pages taken, the first one first. -/
  pages : Array Nat := #[]
  /-- What is written on the pages before the present one. -/
  ranges : Array CodeRange := #[]
  /-- The free part of the present page. -/
  writer : Option Writer := none
  /-- Where the present page ends. -/
  high : Int := 0
deriving Inhabited

/-- The written ranges, page by page. -/
def Chain.finish (c : Chain) : List CodeRange :=
  match c.writer with
  | some w =>
    if (w.pos.toNat : Int) < c.high then (c.ranges.push ⟨w.pos, UInt32.ofInt c.high⟩).toList
    else c.ranges.toList
  | none => c.ranges.toList

/-- The region and the two chains of one trace. -/
structure Code where
  region : CodePages
  main : Chain := { kind := .main }
  exits : Chain := { kind := .exit }
deriving Inhabited

/-- Which of the two chains. -/
inductive Side where
  | main
  | exits
deriving DecidableEq, Inhabited

abbrev Coding := EStateM CompileStop Code

namespace Code

def chain (c : Code) : Side → Chain
  | .main => c.main
  | .exits => c.exits

def withChain (c : Code) (side : Side) (chain : Chain) : Code :=
  match side with
  | .main => { c with main := chain }
  | .exits => { c with exits := chain }

/-- Writes a request with the chain's present writer. -/
def write (b : Backend) (side : Side) (w : Writer) (i : Instr) : Coding Unit := fun c =>
  let region := c.region
  let c := { c with region := {} }
  let mem := region.mem
  let region := { region with mem := {} }
  let (w, mem, fault) := w.emit b mem i
  let c := c.withChain side { c.chain side with writer := some w }
  let c := { c with region := { region with mem } }
  match fault with
  | some f => .error (.fault f) c
  | none => .ok () c

/-- The room that a page must have before anything is written to it: for the longest request
and the jump that may have to follow. -/
def room (b : Backend) : Int := 2 * b.maxLength

/-- The present writer of a chain, on a new page if the present one has no room left. -/
def ensure (b : Backend) (side : Side) : Coding Writer := do
  let chain := (← get).chain side
  let next : Coding (Int × Int) := fun c =>
    match c.region.take? chain.kind with
    | none =>
      let detail := "no free " ++ chain.kind.name ++ " page ("
        ++ .ofNat (c.region.pages.size - 1) ++ " pages in use)"
      .error (.error ⟨.outOfSpace, detail⟩) c
    | some (region, h) => .ok (region.bounds h)
        ({ c with region }.withChain side { chain with pages := chain.pages.push h })
  match chain.writer with
  | none =>
    let (low, high) ← next
    let w : Writer := { low, cursor := high }
    modify fun c => c.withChain side { c.chain side with writer := some w, high }
    return w
  | some old =>
    if room b ≤ old.free then return old
    let (low, high) ← next
    let w : Writer := { low, cursor := high }
    modify fun c =>
      let chain := c.chain side
      c.withChain side { chain with
        ranges := chain.ranges.push ⟨old.pos, UInt32.ofInt chain.high⟩
        writer := some w
        high }
    write b side w (.jump old.pos)
    return ((← get).chain side).writer.getD w

/-- Writes one request in front of a chain. -/
def emit (b : Backend) (side : Side) (i : Instr) : Coding Unit := do
  let w ← ensure b side
  write b side w i

/-- Writes a jump or guard and gives the place where it can be redirected. -/
def emitBranch (b : Backend) (side : Side) (i : Instr) : Coding CodeAddr := do
  let w ← ensure b side
  let site := b.branchSite w.pos i
  write b side w i
  return site

/-- Where the code of a chain starts at present. -/
def pos (b : Backend) (side : Side) : Coding CodeAddr := do
  match ((← get).chain side).writer with
  | some w => return w.pos
  | none => return (← ensure b side).pos

/-- Gives back the pages of both chains. -/
def abandon (c : Code) : CodePages × Option Fault :=
  match CodePages.releaseAll (c.main.pages.toList ++ c.exits.pages.toList) c.region with
  | .ok _ region => (region, none)
  | .error f region => (region, some f)

end Code

end LoopTracer.Compile
