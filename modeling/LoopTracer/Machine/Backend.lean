import LoopTracer.Machine.Virtual
import LoopTracer.Machine.X64
import LoopTracer.Number.Signed

/-! Back ends, and the writer that fills a code page from its end.

Traces are assembled from their last instruction to their first, so code is always put in
front of what is there: the writer's cursor starts at the end of a page and moves down. -/
namespace LoopTracer.Machine

/-- The two encodings. -/
inductive Backend where
  | virtual
  | x64
deriving DecidableEq

namespace Backend

def target : Backend → Target
  | virtual => virtualTarget
  | x64 => x64Target

/-- The most bytes one request may take. -/
def maxLength : Backend → Nat
  | virtual => Virtual.maxLength
  | x64 => X64.maxLength

/-- The bytes of a request written right before `pos`. -/
def encode (b : Backend) (pos : CodeAddr) (i : Instr) : Except Fault (List UInt8) :=
  match b with
  | virtual => .ok (Virtual.encode pos i)
  | x64 => X64.encode pos i

/-- The place to patch of a guard or jump written right before `pos`. -/
def branchSite (b : Backend) (pos : CodeAddr) (i : Instr) : CodeAddr :=
  match b, i with
  | virtual, _ => pos - 16
  | x64, .guard .. => pos - 6
  | x64, _ => pos - 5

def patch : Backend → Memory → CodeAddr → CodeAddr → Except Fault Memory
  | virtual => Virtual.patch
  | x64 => X64.patch

def branchTarget : Backend → Memory → CodeAddr → Except Fault CodeAddr
  | virtual => Virtual.branchTarget
  | x64 => X64.branchTarget

/-- The code from an address up to another as text. -/
def dump : Backend → Memory → CodeAddr → CodeAddr → Except Fault Text
  | virtual => Virtual.listing
  | x64 => X64.hexDump

end Backend

/-- The free part of a page: from its low end up to the cursor. -/
structure Writer where
  low : Int
  cursor : Int
deriving Inhabited

namespace Writer

/-- Where the last instruction written starts. -/
def pos (w : Writer) : CodeAddr := UInt32.ofInt w.cursor

/-- The bytes left. -/
def free (w : Writer) : Int := signed64 (w.cursor - w.low)

/-- Puts bytes in front of the cursor. A fault for a cursor outside the memory leaves it where
the bytes would have started. -/
def prepend (w : Writer) (mem : Memory) (bytes : List UInt8) :
    Writer × Memory × Option Fault :=
  if w.free < bytes.length then (w, mem, some (.pageOverflow bytes.length w.free))
  else
    let w := { w with cursor := w.cursor - bytes.length }
    if w.cursor < 0 || (mem.size : Int) < w.cursor then (w, mem, some .bounds)
    else (w, mem.write w.cursor.toNat bytes, none)

/-- Writes one request. Moving a register to itself writes nothing at all. -/
def emit (w : Writer) (b : Backend) (mem : Memory) (i : Instr) :
    Writer × Memory × Option Fault :=
  match b.encode w.pos i with
  | .error f => (w, mem, some f)
  | .ok [] => (w, mem, none)
  | .ok bytes => w.prepend mem bytes

end Writer

end LoopTracer.Machine
