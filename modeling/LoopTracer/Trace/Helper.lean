import LoopTracer.Machine.Execution
import LoopTracer.Number.Reading
import LoopTracer.Text.Blank
import LoopTracer.Trace.StringHeap

/-! Helpers: what compiled code cannot do itself.

Remainders, string operations and some functions of floats are calls by number. Arguments and
result are words; each has a class that says how the machine passes it. A `HelperTable` holds
the descriptions that the compiler reads and the functions that run. -/
namespace LoopTracer.Trace

open Machine (SizeClass CallSpec)

/-- What a helper does with its arguments and the string heap. -/
abbrev HelperFn := StringHeap → List UInt64 → Except Fault (UInt64 × StringHeap)

structure Helper where
  id : Nat
  name : Text
  /-- Where its code lies for a native back end. -/
  address : UInt64 := 0
  args : List SizeClass
  ret : SizeClass
  /-- A call whose result is not needed may be left out. -/
  pure : Bool
  /-- A call may add strings to the heap. -/
  allocates : Bool := false
  run : HelperFn

namespace Helper

/-- The properties as a number: one for a pure helper, two for one that allocates. -/
def flags (d : Helper) : Nat := (if d.pure then 1 else 0) + (if d.allocates then 2 else 0)

/-! ### The functions -/

/-- A function of the first argument. -/
def unary (f : StringHeap → UInt64 → Except Fault (UInt64 × StringHeap)) : HelperFn
  | h, a :: _ => f h a
  | _, [] => .error .bounds

/-- A function of the first two arguments. -/
def binary (f : StringHeap → UInt64 → UInt64 → Except Fault (UInt64 × StringHeap)) : HelperFn
  | h, a :: b :: _ => f h a b
  | _, _ => .error .bounds

/-- A function from float to float. -/
def onFloat (f : Binary64 → Binary64) : HelperFn := unary fun h a => .ok ((f ⟨a⟩).bits, h)

/-- The string that a word refers to. -/
def stringOf (h : StringHeap) (w : UInt64) : Except Fault Text := h.lookup w.toUInt32

/-- The remainder of two ints, with the sign of the first. Compiled code tests for a zero
divisor before the call. -/
def intRem : HelperFn := binary fun h a b =>
  let x := a.toUInt32.toInt32
  let y := b.toUInt32.toInt32
  if y == 0 then .error .bounds else .ok ((x % y).toInt64.toUInt64, h)

def floatRem : HelperFn := binary fun h a b => .ok ((Binary64.rem ⟨a⟩ ⟨b⟩).bits, h)

def concat : HelperFn := binary fun h a b => do
  let s ← stringOf h a
  let t ← stringOf h b
  let (h, handle) := h.intern (s ++ t)
  return (handle.toUInt64, h)

def equal : HelperFn := binary fun h a b => do
  let s ← stringOf h a
  let t ← stringOf h b
  return (if s = t then 1 else 0, h)

/-- The number of bytes, as an int. -/
def length : HelperFn := unary fun h a => do
  let s ← stringOf h a
  return ((Int32.ofNat s.size).toInt64.toUInt64, h)

/-- The number that a text reads as, blanks around it aside. -/
def toNumber (s : Text) : Binary64 := (Reading.binary? s.trim).getD .nan

def number : HelperFn := unary fun h a => do
  let s ← stringOf h a
  return ((toNumber s).bits, h)

/-! ### Names -/

/-- The names of the helpers, in the order of their numbers. -/
def names : Array String :=
  #["imod", "fmod", "str_concat", "str_eq", "str_len", "str_to_number", "sqrt", "floor", "fabs"]

/-- The name of the helper with a number. -/
def nameOf (id : UInt8) : Text :=
  match names[id.toNat]? with
  | some n => n
  | none => "helper" ++ .ofNat id.toNat

end Helper

/-- The numbers of the helpers. -/
def HelperId.intRem : UInt8 := 0
def HelperId.floatRem : UInt8 := 1
def HelperId.concat : UInt8 := 2
def HelperId.equal : UInt8 := 3
def HelperId.length : UInt8 := 4
def HelperId.number : UInt8 := 5
def HelperId.sqrt : UInt8 := 6
def HelperId.floor : UInt8 := 7
def HelperId.abs : UInt8 := 8

/-- The type of a helper's result: the comparison of strings gives a bool. -/
def Helper.resultType (d : Helper) : Ty :=
  if d.id == HelperId.equal.toNat then .bool
  else match d.ret with
    | .float => .float
    | .ptr => .str
    | _ => .int

structure HelperTable where
  helpers : Array Helper

namespace HelperTable

/-- The helpers, each at its number. -/
def standard : HelperTable where
  helpers := #[
    { id := 0, name := "imod", args := [.int, .int], ret := .int, pure := true, run := Helper.intRem },
    { id := 1, name := "fmod", args := [.float, .float], ret := .float, pure := true,
      run := Helper.floatRem },
    { id := 2, name := "str_concat", args := [.ptr, .ptr], ret := .ptr, pure := false,
      allocates := true, run := Helper.concat },
    { id := 3, name := "str_eq", args := [.ptr, .ptr], ret := .int, pure := true,
      run := Helper.equal },
    { id := 4, name := "str_len", args := [.ptr], ret := .int, pure := true, run := Helper.length },
    { id := 5, name := "str_to_number", args := [.ptr], ret := .float, pure := true,
      run := Helper.number },
    { id := 6, name := "sqrt", args := [.float], ret := .float, pure := true,
      run := Helper.onFloat .sqrt },
    { id := 7, name := "floor", args := [.float], ret := .float, pure := true,
      run := Helper.onFloat .floor },
    { id := 8, name := "fabs", args := [.float], ret := .float, pure := true,
      run := Helper.onFloat .abs }]

instance : Inhabited HelperTable := ⟨standard⟩

/-- The helper with a number. -/
def get (t : HelperTable) (id : UInt8) : Except Fault Helper :=
  match t.helpers[id.toNat]? with
  | some d => .ok d
  | none => .error (.unknownHelper id.toNat)

/-- The helper with a name. -/
def find? (t : HelperTable) (name : Text) : Option Helper :=
  t.helpers.find? fun d => d.name == name

/-- What the encoding of a call needs. -/
def spec (t : HelperTable) (id : UInt8) : Except Fault CallSpec := do
  let d ← t.get id
  return { index := Int32.ofNat d.id, address := d.address, args := d.args, ret := d.ret }

/-- Calls the helper with a number. -/
def invoke (t : HelperTable) (heap : StringHeap) (id : UInt8) (args : List UInt64) :
    Except Fault (UInt64 × StringHeap) := do
  let d ← t.get id
  d.run heap args

/-- How the machine calls helpers: by the lowest byte of the number in the code. -/
def host (t : HelperTable) : Machine.Host StringHeap :=
  some fun index args heap => t.invoke heap index.toUInt32.toUInt8 args

end HelperTable

end LoopTracer.Trace
