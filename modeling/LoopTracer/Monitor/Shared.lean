import LoopTracer.Monitor.Basic

/-! One monitor for everybody.

Whoever asks gets the monitor that is shared at the time; the first to ask makes it. After a
shutdown the next to ask makes a new one. A monitor goes by a number, and whoever holds the
number of an old one can still talk to it. -/
namespace LoopTracer

structure Shared where
  /-- Every monitor that was shared, by its number. -/
  made : Array Monitor := #[]
  /-- The one that is shared now. -/
  current : Option Nat := none

abbrev Sharing := EStateM Fault Shared

namespace Shared

/-- The number of the shared monitor. -/
def acquire : Sharing (Except CreateError Nat) := do
  let s ← get
  match s.current with
  | some n => return .ok n
  | none =>
    match Monitor.create {} with
    | .error e => return .error e
    | .ok m =>
      set { made := s.made.push m, current := some s.made.size : Shared }
      return .ok s.made.size

/-- Closes a monitor by its number. -/
def close (n : Nat) : Sharing (Except CloseError Unit) := fun s =>
  match s.made[n]? with
  | none => .error .bounds s
  | some m =>
    match Monitor.close m with
    | .ok r m => .ok r { s with made := s.made.set! n m }
    | .error f m => .error f { s with made := s.made.set! n m }

/-- Closes the shared monitor, if there is one, and shares none. -/
def shutdown : Sharing (Except CloseError Unit) := do
  match (← get).current with
  | none => return .ok ()
  | some n =>
    let r ← close n
    modify ({ · with current := none })
    return r

end Shared

end LoopTracer
