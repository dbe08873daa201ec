import LoopTracer.Bytecode.Opcode
import LoopTracer.Bytecode.Value
import LoopTracer.Trace.Primitive

/-! What the interpreter computes: arithmetic, comparisons and tests on values.

Arithmetic on two ints that leaves 32 bits gives a float, and a quotient is always a float. An
operation on values it does not know has no result. -/
namespace LoopTracer.Interp

open Bytecode Trace

/-- Shifts move by the lowest five bits of the second operand. -/
def shiftOf (n : Int32) : Int32 := n &&& 31

/-- Arithmetic on two ints. -/
def arithInts (op : BinOp) (m n : Int32) : Option Value :=
  match op with
  | .add => some (.ofInt (m.toInt + n.toInt))
  | .sub => some (.ofInt (m.toInt - n.toInt))
  | .mul => some (.ofInt (m.toInt * n.toInt))
  | .div => some (.float ((Binary64.ofInt32 m).div (.ofInt32 n)))
  | .mod => some (if n = 0 then .float .nan else .ofInt (m.toInt.tmod n.toInt))
  | .bitAnd => some (.int (m &&& n))
  | .bitOr => some (.int (m ||| n))
  | .bitXor => some (.int (m ^^^ n))
  | .shl => some (.int (m <<< shiftOf n))
  | .shr => some (.int (m >>> shiftOf n))
  | _ => none

/-- Arithmetic on two floats. -/
def arithFloats (op : BinOp) (x y : Binary64) : Option Value :=
  match op with
  | .add => some (.float (x.add y))
  | .sub => some (.float (x.sub y))
  | .mul => some (.float (x.mul y))
  | .div => some (.float (x.div y))
  | .mod => some (.float (x.rem y))
  | _ => none

/-- Arithmetic on two values; two strings can only be joined. -/
def arith (op : BinOp) (a b : Value) : Option Value :=
  match a, b with
  | .int m, .int n => arithInts op m n
  | .str s, .str t => if op = .add then some (.str (s ++ t)) else none
  | _, _ => if a.isNumber && b.isNumber then arithFloats op a.asFloat b.asFloat else none

/-- Whether an ordering satisfies a comparison. -/
def ordered (op : BinOp) (o : Ordering) : Option Value :=
  match op with
  | .lt => some (.bool (o == .lt))
  | .le => some (.bool (o != .gt))
  | .gt => some (.bool (o == .gt))
  | .ge => some (.bool (o != .lt))
  | _ => none

/-- The order of two values: numbers by value, strings by their bytes. `none` where there is
none, and `some none` where a number is not comparable to anything. -/
def order (a b : Value) : Option (Option Ordering) :=
  match a, b with
  | .int m, .int n => some (some (if m < n then .lt else if n < m then .gt else .eq))
  | .str s, .str t => some (some (if !t.le s then .lt else if !s.le t then .gt else .eq))
  | _, _ =>
    if a.isNumber && b.isNumber then
      let x := a.asFloat
      let y := b.asFloat
      if x.isNaN || y.isNaN then some none
      else some (some (if x.lt y then .lt else if y.lt x then .gt else .eq))
    else none

/-- Comparisons. Any two values can be equal or not; only numbers and strings have an order. -/
def compare (op : BinOp) (a b : Value) : Option Value :=
  match op with
  | .eq => some (.bool (a.equal b))
  | .ne => some (.bool (!a.equal b))
  | _ =>
    match order a b with
    | none => none
    | some none => some (.bool false)
    | some (some o) => ordered op o

/-- Operations on one value. -/
def unary (op : UnOp) (a : Value) : Option Value :=
  match op, a with
  | .neg, .int n => some (.ofInt (-n.toInt))
  | .neg, .float x => some (.float x.neg)
  | .bitNot, .int n => some (.int (~~~ n))
  | .not, v => some (.bool !v.truthy)
  | _, _ => none

/-- The operation of an arithmetic instruction. -/
def arithOp? : Opcode → Option BinOp
  | .add => some .add
  | .sub => some .sub
  | .mul => some .mul
  | .div => some .div
  | .mod => some .mod
  | .bitAnd => some .bitAnd
  | .bitOr => some .bitOr
  | .bitXor => some .bitXor
  | .shl => some .shl
  | .shr => some .shr
  | _ => none

/-- The operation of a comparing instruction. -/
def compareOp? : Opcode → Option BinOp
  | .eq => some .eq
  | .ne => some .ne
  | .lt => some .lt
  | .le => some .le
  | .gt => some .gt
  | .ge => some .ge
  | _ => none

/-- The operation of an instruction on one value. -/
def unaryOp? : Opcode → Option UnOp
  | .neg => some .neg
  | .bitNot => some .bitNot
  | .not => some .not
  | _ => none

end LoopTracer.Interp
