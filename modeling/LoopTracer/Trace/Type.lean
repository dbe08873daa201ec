import LoopTracer.Machine.Operation
import LoopTracer.Number.Shortest
import LoopTracer.Text.Quoted

/-! Types and constants of a trace.

Compiled code works on words of 64 bits, one for each slot of the interpreter: an int is its
sign-extended 32 bits, a float its bit pattern, a bool zero or one, null zero and a string its
handle in the string heap. A trace is compiled for fixed types, so a word never carries its
type; type maps list the type of every slot and are written with one letter each. -/
namespace LoopTracer.Trace

open Machine (SizeClass numbered unknown)

/-- The type of a word. -/
inductive Ty where
  | null
  | bool
  | int
  | float
  | str
  | other (n : UInt8)
deriving DecidableEq, Inhabited

namespace Ty

def all : Array Ty := #[.null, .bool, .int, .float, .str]

def ofByte (n : UInt8) : Ty := numbered all .other n

def name : Ty → Text
  | null => "null"
  | bool => "bool"
  | int => "int"
  | float => "float"
  | str => "string"
  | other n => unknown "type" n

/-- The letter of a type in a type map, as a byte. -/
def letter : Ty → UInt8
  | null => 'N'.toUInt8
  | bool => 'B'.toUInt8
  | int => 'I'.toUInt8
  | float => 'F'.toUInt8
  | str => 'S'.toUInt8
  | other _ => '?'.toUInt8

def ofLetter? (b : UInt8) : Option Ty := all.find? fun t => t.letter == b

/-- How helpers take a word of the type. -/
def sizeClass : Ty → SizeClass
  | int | bool => .int
  | float => .float
  | _ => .ptr

def isNumber : Ty → Bool
  | int | float => true
  | _ => false

theorem ofLetter?_letter {t : Ty} (h : ∀ n, t ≠ .other n) : ofLetter? t.letter = some t := by
  cases t with
  | other n => exact absurd rfl (h n)
  | _ => rfl

end Ty

/-- The type of every slot, slot zero first. -/
abbrev TypeMap := List Ty

/-- A letter that stands for no type. -/
structure BadLetter where
  letter : UInt8
  source : Text

def BadLetter.message (e : BadLetter) : Text :=
  "jit: bad type letter " ++ Text.quoteChar e.letter.toNat ++ " in " ++ e.source.quote

namespace TypeMap

def render (m : TypeMap) : Text := .ofList (m.map Ty.letter)

/-- The type map that a text of letters stands for. -/
def parse (s : Text) : Except BadLetter TypeMap :=
  s.toList.mapM fun b => (Ty.ofLetter? b).elim (.error ⟨b, s⟩) .ok

end TypeMap

/-- A handle of the string heap. -/
abbrev Handle := UInt32

/-- What the bits of a constant stand for. -/
inductive ImmKind where
  | int
  | float
  | ptr
deriving DecidableEq, Inhabited

def ImmKind.toNat : ImmKind → Nat
  | int => 0
  | float => 1
  | ptr => 2

/-- A constant of a trace. -/
structure Immediate where
  kind : ImmKind
  bits : UInt64
deriving DecidableEq, Inhabited

namespace Immediate

def ofInt (v : Int64) : Immediate := ⟨.int, v.toUInt64⟩

def ofFloat (x : Binary64) : Immediate := ⟨.float, x.bits⟩

def ofHandle (h : Handle) : Immediate := ⟨.ptr, h.toUInt64⟩

/-- The constant for a word of a type. -/
def ofWord (t : Ty) (bits : UInt64) : Immediate :=
  match t with
  | .float => ⟨.float, bits⟩
  | .str => ⟨.ptr, bits⟩
  | _ => ⟨.int, bits⟩

def int (i : Immediate) : Int64 := i.bits.toInt64

def float (i : Immediate) : Binary64 := ⟨i.bits⟩

def handle (i : Immediate) : Handle := i.bits.toUInt32

def render (i : Immediate) : Text :=
  match i.kind with
  | .int => .ofInt i.int.toInt
  | .float => i.float.render
  | .ptr => "@" ++ .ofNat i.handle.toNat

end Immediate

/-! ### The order of constants

A recording looks its constants up by what they are and by the types that they are used at. -/

theorem ImmKind.toNat_inj {a b : ImmKind} (h : a.toNat = b.toNat) : a = b := by
  cases a <;> cases b <;> first | rfl | cases h

namespace Ty

/-- Types in the order of their bytes, the unknown ones last. -/
def rank : Ty → Nat
  | null => 0
  | bool => 1
  | int => 2
  | float => 3
  | str => 4
  | other n => 5 + n.toNat

theorem rank_inj {a b : Ty} (h : a.rank = b.rank) : a = b := by
  cases a <;> cases b <;> simp only [rank] at h <;> first | rfl | omega | skip
  rw [UInt8.toNat_inj.mp (Nat.add_left_cancel h)]

end Ty

namespace Immediate

/-- Typed constants in the order of their kinds, bits and types. -/
def order : Immediate × Ty → Immediate × Ty → Ordering :=
  compareLex (compareOn (·.1.kind.toNat))
    (compareLex (compareOn (·.1.bits)) (compareOn (·.2.rank)))

instance : Ord (Immediate × Ty) := ⟨order⟩

instance : Std.TransOrd (Immediate × Ty) :=
  inferInstanceAs (Std.TransCmp (compareLex (compareOn fun x : Immediate × Ty => x.1.kind.toNat)
    (compareLex (compareOn fun x => x.1.bits) (compareOn fun x => x.2.rank))))

instance : Std.LawfulEqOrd (Immediate × Ty) where
  eq_of_compare {a b} h := by
    obtain ⟨hkind, hrest⟩ := compareLex_eq_eq.mp h
    obtain ⟨hbits, htype⟩ := compareLex_eq_eq.mp hrest
    obtain ⟨⟨_, _⟩, _⟩ := a
    obtain rfl := ImmKind.toNat_inj (Std.compare_eq_iff_eq.mp hkind)
    obtain rfl := Std.compare_eq_iff_eq.mp hbits
    obtain rfl := Ty.rank_inj (Std.compare_eq_iff_eq.mp htype)
    rfl

end Immediate

end LoopTracer.Trace
