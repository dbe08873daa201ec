import LoopTracer.Number.Shortest
import LoopTracer.Number.Reading
import LoopTracer.Text.Quoted

/-! The values of the stack machine.

An integer always has 32 bits: a whole number outside that range is a float (`Value.ofInt`).
`equal` compares as the `eq` instruction does, numbers by value across the two kinds;
`identical` asks for the same type and the same bits. -/
namespace LoopTracer.Bytecode

/-- A reference to a function: the loaded unit it belongs to and its place there. -/
structure FuncRef where
  unit : Nat
  index : Nat
  name : Text
deriving DecidableEq

inductive Value where
  | null
  | bool (b : Bool)
  | int (n : Int32)
  | float (x : Binary64)
  | str (s : Text)
  | func (f : Option FuncRef)
  /-- A type number that no kind of value uses. -/
  | reserved (tag : UInt8)
deriving Inhabited

namespace Value

/-- A whole number: an integer where 32 bits hold it, a float otherwise. -/
def ofInt (n : Int) : Value :=
  if -2147483648 ≤ n && n ≤ 2147483647 then int (Int32.ofInt n) else float (Binary64.ofInt n)

/-- The value of a type number without data. -/
def ofTag (tag : UInt8) : Value :=
  match tag with
  | 0 => null
  | 1 => bool false
  | 2 => int 0
  | 3 => float .zero
  | 4 => str ∅
  | 5 => func none
  | _ => reserved tag

def tag : Value → UInt8
  | null => 0
  | bool _ => 1
  | int _ => 2
  | float _ => 3
  | str _ => 4
  | func _ => 5
  | reserved t => t

def tagName (tag : UInt8) : Text :=
  match tag with
  | 0 => "null"
  | 1 => "bool"
  | 2 => "int"
  | 3 => "float"
  | 4 => "string"
  | 5 => "func"
  | _ => "valuetype(" ++ .ofNat tag.toNat ++ ")"

def typeName (v : Value) : Text := tagName v.tag

/-! ### Views -/

def isNull : Value → Bool
  | null => true
  | _ => false

def isInt : Value → Bool
  | int _ => true
  | _ => false

def isFloat : Value → Bool
  | float _ => true
  | _ => false

def isString : Value → Bool
  | str _ => true
  | _ => false

def isNumber (v : Value) : Bool := v.isInt || v.isFloat

def asBool : Value → Bool
  | bool b => b
  | _ => false

/-- The whole number of a value; a float loses its fraction. -/
def asInt : Value → Int
  | int n => n.toInt
  | float x => x.truncate
  | bool true => 1
  | _ => 0

def asFloat : Value → Binary64
  | float x => x
  | int n => .ofInt32 n
  | _ => .zero

def asString : Value → Text
  | str s => s
  | _ => ∅

/-- What a conditional jump tests: null, false, zero and the empty string are false. -/
def truthy : Value → Bool
  | null => false
  | bool b => b
  | int n => n != 0
  | float x => !x.isZero
  | str s => !s.isEmpty
  | func _ => true
  | reserved _ => true

/-! ### Equality -/

/-- The `eq` instruction. -/
def equal : Value → Value → Bool
  | int m, int n => m == n
  | int m, float y => (Binary64.ofInt32 m).eq y
  | float x, int n => x.eq (.ofInt32 n)
  | float x, float y => x.eq y
  | null, null => true
  | bool a, bool b => a == b
  | str a, str b => a == b
  | func f, func g => f == g
  | _, _ => false

/-- The same type and the same bits. -/
def identical : Value → Value → Bool
  | float x, float y => x.bits == y.bits
  | float _, _ => false
  | _, float _ => false
  | v, w => v.equal w

/-! ### Text -/

/-- What `print` writes. -/
def render : Value → Text
  | null => "null"
  | bool b => if b then "true" else "false"
  | int n => .ofInt n.toInt
  | float x => x.render
  | str s => s
  | func (some f) => "<func " ++ f.name ++ ">"
  | func none => "<func>"
  | reserved _ => "<?>"

/-- The value as source text writes it: strings are quoted, and a float whose text would read
as an integer has a fraction. -/
def repr : Value → Text
  | str s => s.quote
  | float x =>
    let t := x.render
    if (Reading.integer? t).isSome then t ++ ".0" else t
  | v => v.render

end Value

end LoopTracer.Bytecode
