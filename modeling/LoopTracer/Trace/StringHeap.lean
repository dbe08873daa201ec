import Std.Data.TreeMap
import LoopTracer.Fault
import LoopTracer.Trace.Type

/-! The string heap: strings that compiled code refers to by number.

Equal strings always have the same handle, and handle zero is the empty string. The heap only
grows, except that `truncate` drops the strings interned last: those made while a trace or a
builtin ran, whose handles nobody keeps. -/
namespace LoopTracer.Trace

structure StringHeap where
  strings : Array Text := #[∅]
  /-- The handle of every string. -/
  index : Std.TreeMap Text Handle := (∅ : Std.TreeMap Text Handle).insert ∅ 0
deriving Inhabited

namespace StringHeap

/-- How many strings there are, the empty one included. -/
def size (h : StringHeap) : Nat := h.strings.size

/-- The handle of a string, which is added if it is new. -/
def intern (h : StringHeap) (s : Text) : StringHeap × Handle :=
  match h.index[s]? with
  | some handle => (h, handle)
  | none =>
    let handle : Handle := h.strings.size.toUInt32
    ({ strings := h.strings.push s, index := h.index.insert s handle }, handle)

/-- The string of a handle. -/
def lookup (h : StringHeap) (handle : Handle) : Except Fault Text :=
  match h.strings[handle.toNat]? with
  | some s => .ok s
  | none => .error (.badHandle handle.toNat)

/-- Drops the strings from number `n` on; the empty string always stays. -/
def truncate (h : StringHeap) (n : Int) : StringHeap :=
  if n < 1 || (h.strings.size : Int) ≤ n then h
  else
    let dropped := (h.strings.toList.drop n.toNat)
    { strings := h.strings.take n.toNat, index := dropped.foldl (fun m s => m.erase s) h.index }

end StringHeap

end LoopTracer.Trace
