import LoopTracer.Bytecode.Program
import LoopTracer.Fault

/-! Operand stack depths.

The analysis walks every path from the first instruction and gives each instruction it reaches
the depth of the operand stack before it. All paths to an instruction must agree. A depth below
what an instruction takes, or above the limit, ends the path with an error. -/
namespace LoopTracer.Bytecode.StackDepth

/-- The limit that verification uses. -/
def defaultLimit : Nat := 256

/-- What is wrong at an instruction. -/
inductive Cause where
  | inconsistent (known found : Nat)
  | underflow (op : Text) (needs depth : Nat)
  | overflow (depth limit : Nat)

namespace Cause

def message : Cause → Text
  | inconsistent known found =>
    "inconsistent stack depth " ++ .ofNat known ++ " and " ++ .ofNat found
  | underflow op needs depth =>
    "stack underflow: " ++ op ++ " needs " ++ .ofNat needs ++ " values, depth is " ++ .ofNat depth
  | overflow depth limit =>
    "stack overflow: depth " ++ .ofNat depth ++ " exceeds limit " ++ .ofNat limit

end Cause

/-- How many values an instruction takes and how many it leaves. -/
structure Effect where
  pops : Nat
  pushes : Nat

/-- The effect of the opcode `op` whose operand byte, if it has one, is `arg`. -/
def effect (op : Opcode) (arg : UInt8) : Effect :=
  match op with
  | .const | .null | .true | .false | .load => ⟨0, 1⟩
  | .dup => ⟨1, 2⟩
  | .pop | .store | .print | .jumpIfFalse | .jumpIfTrue | .ret => ⟨1, 0⟩
  | .add | .sub | .mul | .div | .mod | .bitAnd | .bitOr | .bitXor | .shl | .shr
  | .eq | .ne | .lt | .le | .gt | .ge => ⟨2, 1⟩
  | .neg | .bitNot | .not => ⟨1, 1⟩
  | .builtin => ⟨(Builtin.ofByte? arg).elim 0 Builtin.arity, 1⟩
  | .call => ⟨arg.toNat + 1, 1⟩
  | .jump | .loop | .halt => ⟨0, 0⟩

/-- The effect of the instruction at an offset. -/
def effectAt (c : Chunk) (b : UInt8) (offset : Nat) : Except Fault Effect :=
  match Opcode.ofByte? b with
  | none => .ok ⟨0, 0⟩
  | some op =>
    if op.operand == .byte then
      match c.byte? (offset + 1) with
      | some arg => .ok (effect op arg)
      | none => .error .bounds
    else .ok (effect op 0)

/-- The analysis between two instructions. -/
structure State where
  /-- The depth before each instruction that has been reached. -/
  depths : Array (Option Nat)
  /-- The places still to look at, with the depth there. -/
  pending : List (Int × Nat)
  maxDepth : Nat := 0
  errors : Array (Nat × Cause) := #[]

structure Result where
  maxDepth : Nat
  depths : Array (Option Nat)
  errors : Array (Nat × Cause)

namespace Result

def valid (r : Result) : Bool := r.errors.isEmpty

end Result

/-- Where the analysis goes on from an instruction: past it, and where it jumps, in the
order in which they are looked at. -/
def successors (c : Chunk) (b : UInt8) (offset : Nat) : Except Fault (List Int) :=
  let next : Int := offset + byteSize b
  let jump : Except Fault Int := (c.target? offset).elim (.error .bounds) .ok
  match Opcode.ofByte? b with
  | some .jump | some .loop => jump.map ([·])
  | some .jumpIfFalse | some .jumpIfTrue => jump.map fun t => [next, t]
  | some .ret | some .halt => .ok []
  | _ => .ok [next]

/-- Looks at one pending place. -/
def visit (c : Chunk) (limit : Nat) (s : State) (place : Int) (depth : Nat) : Except Fault State :=
  if (c.size : Int) ≤ place then .ok s
  else if place < 0 then .error .bounds
  else
    let offset := place.toNat
    match c.code[offset]?, s.depths[offset]? with
    | some _, some (some known) =>
      .ok (if known == depth then s
        else { s with errors := s.errors.push (offset, .inconsistent known depth) })
    | some b, some none => do
      let s := { s with depths := s.depths.set! offset (some depth) }
      let e ← effectAt c b offset
      if depth < e.pops then
        return { s with errors := s.errors.push (offset, .underflow (byteName b) e.pops depth) }
      let after := depth - e.pops + e.pushes
      let s := { s with maxDepth := max s.maxDepth after }
      if limit < after then
        return { s with errors := s.errors.push (offset, .overflow after limit) }
      let next ← successors c b offset
      return { s with pending := next.map (·, after) ++ s.pending }
    | _, _ => .ok s

/-- Looks at pending places until none is left. Each place reached for the first time adds at
most two, so twice the code size and two more steps are enough. -/
def explore (c : Chunk) (limit : Nat) : (fuel : Nat) → State → Except Fault State
  | 0, s => .ok s
  | fuel + 1, s =>
    match s.pending with
    | [] => .ok s
    | (place, depth) :: rest => do
      explore c limit fuel (← visit c limit { s with pending := rest } place depth)

/-- The depths of a chunk's instructions under a limit; a limit that is not positive stands
for the default one. -/
def check (c : Chunk) (limit : Int) : Except Fault Result := do
  let limit := if limit ≤ 0 then defaultLimit else limit.toNat
  let start : State := { depths := Array.replicate c.size none, pending := [(0, 0)] }
  let s ← explore c limit (2 * c.size + 2) start
  return { maxDepth := s.maxDepth, depths := s.depths, errors := s.errors }

end LoopTracer.Bytecode.StackDepth
