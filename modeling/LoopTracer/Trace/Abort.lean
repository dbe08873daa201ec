import LoopTracer.Fault

/-! Why a recording is given up. -/
namespace LoopTracer.Trace

inductive AbortReason where
  /-- An instruction that no trace can hold. -/
  | unrecordable
  /-- A result of another type than the recorder expected. -/
  | typeMismatch
  | tooLong
  /-- The back edge of another loop. -/
  | nestedLoop
  /-- The loop does not end with the types it started with. -/
  | unstable
  /-- A guard that fails already while it is recorded. -/
  | guardFailed
  | assembly
  | flushed
  /-- A number without a meaning. -/
  | other (n : Int)
deriving DecidableEq, Inhabited

namespace AbortReason

def all : Array AbortReason := #[.unrecordable, .typeMismatch, .tooLong, .nestedLoop, .unstable,
  .guardFailed, .assembly, .flushed]

def ofInt (n : Int) : AbortReason := if n < 0 then .other n else all[n.toNat]?.getD (.other n)

/-- Whether a reason can be named and counted: a number below zero cannot. -/
def known : AbortReason → Bool
  | other n => 0 ≤ n
  | _ => true

/-- The name of a reason. Where it has none, a message tells so in its place. -/
def name : AbortReason → Text
  | unrecordable => "unrecordable"
  | typeMismatch => "type mismatch"
  | tooLong => "trace too long"
  | nestedLoop => "nested loop"
  | unstable => "type unstable"
  | guardFailed => "guard failed while recording"
  | assembly => "assembly failed"
  | flushed => "flushed"
  | other n =>
    if 0 ≤ n then "abort(" ++ .ofInt n ++ ")"
    else "%!s(PANIC=String method: runtime error: index out of range [" ++ .ofInt n ++ "])"

/-- The name of the reason with a number, asked for outside a message. -/
def nameOf (n : Int) : Except Fault Text :=
  let r := ofInt n
  if r.known then .ok r.name else .error .bounds

end AbortReason

/-- A recording given up. -/
structure Abort where
  reason : AbortReason
  pc : Int
  detail : Text
deriving Inhabited

def Abort.message (a : Abort) : Text :=
  "jit: recording aborted at pc " ++ .ofInt a.pc ++ ": " ++ a.reason.name
    ++ (if a.detail.isEmpty then ∅ else ": " ++ a.detail)

end LoopTracer.Trace
