import LoopTracer.Bytecode.StackDepth

/-! Verification of programs.

Code is accepted when it is a sequence of whole known instructions, every operand is in range,
every jump lands on an instruction and loops go back, control cannot run off the end, and the
stack depths agree. All complaints are collected. Accepting a function also records its
greatest stack depth. -/
namespace LoopTracer.Bytecode

/-- What is wrong with a function at an offset. -/
inductive Complaint where
  | empty
  | arity (arity locals : Int)
  | unknownOpcode (b : UInt8)
  | truncated (op : Opcode)
  | constantRange (index count : Nat)
  | localRange (slot : Nat) (count : Int)
  | unknownBuiltin (n : UInt8)
  | jumpTarget (op : Opcode) (target : Int)
  | loopForward (target : Int)
  | fallsOff (op : Text)
  | depth (cause : StackDepth.Cause)

namespace Complaint

def message : Complaint → Text
  | empty => "empty function"
  | arity a l => "arity " ++ .ofInt a ++ " exceeds " ++ .ofInt l ++ " locals"
  | unknownOpcode b => "unknown opcode " ++ .ofNat b.toNat
  | truncated op => op.mnemonic ++ " operand runs past the end"
  | constantRange i n => "constant " ++ .ofNat i ++ " out of range (" ++ .ofNat n ++ " constants)"
  | localRange s n => "local " ++ .ofNat s ++ " out of range (" ++ .ofInt n ++ " locals)"
  | unknownBuiltin n => "unknown builtin " ++ .ofNat n.toNat
  | jumpTarget op t => op.mnemonic ++ " target " ++ .ofInt t ++ " is not an instruction boundary"
  | loopForward t => "loop target " ++ .ofInt t ++ " is not backwards"
  | fallsOff op => "execution falls off the end after " ++ op
  | depth c => c.message

end Complaint

/-- Why a program is refused. -/
inductive Refusal where
  | code (function : Text) (offset : Nat) (complaint : Complaint)
  | duplicateId (id : UInt32) (function : Text)
  | noMain
  | mainArity (arity : Int)

namespace Refusal

def message : Refusal → Text
  | code f offset c =>
    "bytecode verification failed in " ++ f ++ " at " ++ (Text.ofNat offset).padLeft 4 "0" ++ ": "
      ++ c.message
  | duplicateId id f => "duplicate function id " ++ .ofNat id.toNat ++ " (" ++ f ++ ")"
  | noMain => "program has no main function"
  | mainArity n => "main takes " ++ .ofInt n ++ " arguments"

/-- Several refusals as one message: in the order of their texts. -/
def combined (l : List Refusal) : Text :=
  Text.join "; " ((l.map message).mergeSort Text.le)

end Refusal

/-- What the first pass finds: the instruction starts, the last of them, and the complaints.
A complaint that hides where the next instruction starts ends the pass. -/
structure Scan where
  starts : Array Bool
  last : Nat := 0
  complaints : Array (Nat × Complaint) := #[]
  broken : Bool := false

/-- The complaint about the operand of a whole instruction. -/
def operandComplaint? (f : Function) (c : Chunk) (op : Opcode) (offset : Nat) : Option Complaint :=
  let word := ((c.u16? (offset + 1)).getD 0).toNat
  match op.operand with
  | .const =>
    if c.constants.size ≤ word then some (.constantRange word c.constants.size) else none
  | .slot => if f.locals ≤ word then some (.localRange word f.locals) else none
  | .byte =>
    let arg := (c.byte? (offset + 1)).getD 0
    if op == .builtin && (Builtin.ofByte? arg).isNone then some (.unknownBuiltin arg) else none
  | _ => none

/-- The first pass from an offset on; every instruction has at least one byte. -/
def scanFrom (f : Function) (c : Chunk) : (fuel : Nat) → (offset : Nat) → Scan → Scan
  | 0, _, s => s
  | fuel + 1, offset, s =>
    match c.code[offset]? with
    | none => s
    | some b =>
      match Opcode.ofByte? b with
      | none =>
        { s with complaints := s.complaints.push (offset, .unknownOpcode b), broken := true }
      | some op =>
        if c.size < offset + op.size then
          { s with complaints := s.complaints.push (offset, .truncated op), broken := true }
        else
          let s := { s with starts := s.starts.set! offset true, last := offset }
          let s := match operandComplaint? f c op offset with
            | some e => { s with complaints := s.complaints.push (offset, e) }
            | none => s
          scanFrom f c fuel (offset + op.size) s

def scan (f : Function) (c : Chunk) : Scan :=
  scanFrom f c c.size 0 { starts := Array.replicate c.size false }

/-- Whether an instruction starts at a place. -/
def Scan.isStart (s : Scan) (place : Int) : Bool :=
  0 ≤ place && s.starts[place.toNat]?.getD false

/-- The complaints about the jump at an instruction start. -/
def jumpComplaints (c : Chunk) (s : Scan) (offset : Nat) : List (Nat × Complaint) :=
  match (c.byte? offset).bind Opcode.ofByte?, c.target? offset with
  | some op, some target =>
    if op.operand == .jump || op.operand == .loop then
      (if s.isStart target then [] else [(offset, .jumpTarget op target)])
        ++ (if op == .loop && (offset : Int) < target then [(offset, .loopForward target)] else [])
    else []
  | _, _ => []

/-- The complaint when the last instruction lets control run off the end. -/
def endComplaint? (c : Chunk) (s : Scan) : Option (Nat × Complaint) :=
  match c.code[s.last]? with
  | none => none
  | some b =>
    match Opcode.ofByte? b with
    | some .ret | some .halt | some .jump | some .loop => none
    | _ => some (s.last, .fallsOff (byteName b))

namespace Function

/-- The complaints about a function, and the function with its greatest stack depth, which is
known only when nothing but depths is wrong. -/
def verify (f : Function) : Function × List (Nat × Complaint) :=
  match f.chunk with
  | none => (f, [(0, .empty)])
  | some c =>
    if c.size == 0 then (f, [(0, .empty)])
    else
      let early := if f.locals < f.arity then [(0, .arity f.arity f.locals)] else []
      let s := scan f c
      let found := early ++ s.complaints.toList
      if s.broken then (f, found)
      else
        let starts := (List.range c.size).filter fun (i : Nat) => s.isStart i
        let found := found ++ starts.flatMap (jumpComplaints c s) ++ (endComplaint? c s).toList
        if !found.isEmpty then (f, found)
        else match StackDepth.check c StackDepth.defaultLimit with
          | .error _ => (f, [])
          | .ok r =>
            ({ f with maxStack := r.maxDepth },
              r.errors.toList.map fun (offset, cause) => (offset, .depth cause))

end Function

/-- The refusals that repeated ids cause. -/
def duplicateIds : (seen : List UInt32) → List Function → List Refusal
  | _, [] => []
  | seen, f :: rest =>
    (if seen.contains f.id then [.duplicateId f.id f.name] else [])
      ++ duplicateIds (f.id :: seen) rest

namespace Program

/-- The refusals about where a program starts. -/
def mainRefusals (p : Program) : List Refusal :=
  match p.mainFunction? with
  | none => [.noMain]
  | some f => if f.arity == 0 then [] else [.mainArity f.arity]

/-- Verifies every function: the program with its stack depths, and all refusals. -/
def verify (p : Program) : Program × List Refusal :=
  let checked := p.functions.map Function.verify
  let refusals := checked.toList.flatMap fun (f, found) =>
    found.map fun (offset, complaint) => .code f.name offset complaint
  ({ p with functions := checked.map (·.1) },
    duplicateIds [] p.functions.toList ++ refusals ++ p.mainRefusals)

end Program

end LoopTracer.Bytecode
