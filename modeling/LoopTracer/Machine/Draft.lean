import LoopTracer.Machine.Backend

/-! Code written by hand.

A draft takes requests one at a time. Code is put in front of what is there, and places in it
get names, so that later requests can speak of them. -/
namespace LoopTracer.Machine

structure Draft where
  backend : Backend
  mem : Memory
  writer : Writer
  /-- The named places, the latest first. -/
  marks : List (Text × CodeAddr) := []

namespace Draft

/-- Zeroed memory of a size, written from its end down to `low`. -/
def blank (backend : Backend) (size low : Int) : Except Fault Draft :=
  if blockFits size 1 then
    .ok { backend, mem := { size := size.toNat }, writer := { low, cursor := size } }
  else .error .bounds

/-- The code from the present place to the end of the memory as text. -/
def listing (d : Draft) : Except Fault Text :=
  d.backend.dump d.mem d.writer.pos d.mem.size.toUInt32

/-- The place of a name; an unknown name stands for address zero. -/
def address (d : Draft) (name : Text) : CodeAddr := (d.marks.lookup name).getD 0

inductive Request where
  | emit (i : Instr)
  | raw (bytes : List UInt8)
  /-- Gives the present place a name. -/
  | mark (name : Text)
  | patch (site target : CodeAddr)
  /-- Asks where the branch at a place leads. -/
  | branch (site : CodeAddr)
  /-- Goes on writing somewhere else. -/
  | move (low cursor : Int)

/-- What was written up to a fault stays. -/
abbrev Drafting := EStateM Fault Draft

/-- Takes over what the writer did. -/
def wrote (r : Writer × Memory × Option Fault) : Drafting Unit := do
  let (writer, mem, f) := r
  modify ({ · with writer, mem })
  if let some f := f then throw f

/-- Carries out a request. The answer is the place to patch for a guard or a jump, and where it
leads for a branch. -/
def request (r : Request) : Drafting (Option CodeAddr) := do
  let d ← get
  match r with
  | .emit i =>
    wrote (d.writer.emit d.backend d.mem i)
    match i with
    | .guard .. | .jump _ => return some (d.backend.branchSite d.writer.pos i)
    | _ => return none
  | .raw bytes =>
    wrote (d.writer.prepend d.mem bytes)
    return none
  | .mark name =>
    set { d with marks := (name, d.writer.pos) :: d.marks }
    return none
  | .patch site target =>
    match d.backend.patch d.mem site target with
    | .error f => throw f
    | .ok mem =>
      set { d with mem }
      return none
  | .branch site =>
    match d.backend.branchTarget d.mem site with
    | .error f => throw f
    | .ok target => return some target
  | .move low cursor =>
    set { d with writer := { low, cursor } }
    return none

end Draft

end LoopTracer.Machine
