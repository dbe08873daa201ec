/-! Binary floating point with 64 bits.

A number is its bit pattern, so that not-a-number keeps its payload wherever a word is only
moved. The order, the conversions from and to integers, the floor and the remainder are exact
computations on the fields of the pattern; the four basic operations and the square root are
the hardware's, which round to nearest. `ofRatio` rounds any positive ratio and is what every
decimal reading goes through. -/
namespace LoopTracer

/-- A binary64 number as its bit pattern. -/
structure Binary64 where
  bits : UInt64
deriving DecidableEq, Inhabited

namespace Binary64

def toFloat (x : Binary64) : Float := Float.ofBits x.bits

def ofFloat (x : Float) : Binary64 := ⟨x.toBits⟩

/-! ### Fields -/

def negative (x : Binary64) : Bool := 0x8000000000000000 ≤ x.bits

/-- The pattern without its sign. -/
def magnitude (x : Binary64) : UInt64 := x.bits &&& 0x7FFFFFFFFFFFFFFF

def infinityBits : UInt64 := 0x7FF0000000000000

def isNaN (x : Binary64) : Bool := infinityBits < x.magnitude

def isInf (x : Binary64) : Bool := x.magnitude == infinityBits

def isZero (x : Binary64) : Bool := x.magnitude == 0

/-- A finite number is `significand * 2 ^ exponent`, sign apart. -/
def significand (x : Binary64) : Nat :=
  let fraction := x.magnitude.toNat % Nat.pow 2 52
  if x.magnitude < 0x0010000000000000 then fraction else fraction + Nat.pow 2 52

def exponent (x : Binary64) : Int :=
  let field : Nat := x.magnitude.toNat / Nat.pow 2 52
  if field == 0 then -1074 else (field : Int) - 1075

/-! ### Construction -/

def zero : Binary64 := ⟨0⟩

/-- The pattern that a written `nan` stands for. -/
def nan : Binary64 := ⟨0x7FF8000000000001⟩

def withSign (negative : Bool) (magnitude : UInt64) : Binary64 :=
  ⟨if negative then magnitude ||| 0x8000000000000000 else magnitude⟩

def infinity (negative : Bool) : Binary64 := withSign negative infinityBits

/-- The quotient rounded to the nearest integer, a half to the even one. -/
def roundDiv (num den : Nat) : Nat :=
  let q := num / den
  let twice := 2 * (num % den)
  if twice < den then q else if den < twice then q + 1 else q + q % 2

/-- The pattern of `mantissa * 2 ^ exponent`, where the mantissa has at most 53 bits plus a
carry and the exponent is the least possible one whenever the mantissa has fewer. -/
def assemble (mantissa : Nat) (exponent : Int) : UInt64 :=
  if mantissa < Nat.pow 2 52 then mantissa.toUInt64
  else
    let pattern := (exponent + 1075).toNat * Nat.pow 2 52 + (mantissa - Nat.pow 2 52)
    if pattern < infinityBits.toNat then pattern.toUInt64 else infinityBits

/-- `num / den` scaled by `2 ^ (-e)` and rounded. -/
def mantissaAt (num den : Nat) (e : Int) : Nat :=
  if 0 ≤ e then roundDiv num (den <<< e.toNat) else roundDiv (num <<< (-e).toNat) den

/-- The number nearest to `num / den`, a half going to the even mantissa; past the largest
finite number it is infinite. -/
def ofRatio (negative : Bool) (num den : Nat) : Binary64 :=
  if num == 0 || den == 0 then withSign negative 0
  else
    let guess : Int := (num.log2 : Int) - den.log2 - 53
    let e := if guess < -1074 then -1074 else guess
    let whole := if 0 ≤ e then num / (den <<< e.toNat) else (num <<< (-e).toNat) / den
    let e := if whole < Nat.pow 2 53 then e else e + 1
    withSign negative (assemble (mantissaAt num den e) e)

/-- The number nearest to an integer. -/
def ofInt (n : Int) : Binary64 := ofRatio (n < 0) n.natAbs 1

/-- An integer of 32 bits, which is exact. -/
def ofInt32 (n : Int32) : Binary64 := ofInt n.toInt

/-! ### Order -/

/-- Compares magnitudes under signs; only meaningful between numbers. -/
def below (x y : Binary64) : Bool :=
  if x.negative then (if y.negative then y.magnitude < x.magnitude else !(x.isZero && y.isZero))
  else !y.negative && x.magnitude < y.magnitude

def eq (x y : Binary64) : Bool :=
  !x.isNaN && !y.isNaN && (x.bits == y.bits || (x.isZero && y.isZero))

def lt (x y : Binary64) : Bool := !x.isNaN && !y.isNaN && below x y

def le (x y : Binary64) : Bool := !x.isNaN && !y.isNaN && !below y x

/-! ### Arithmetic -/

def add (x y : Binary64) : Binary64 := ofFloat (x.toFloat + y.toFloat)

def sub (x y : Binary64) : Binary64 := ofFloat (x.toFloat - y.toFloat)

def mul (x y : Binary64) : Binary64 := ofFloat (x.toFloat * y.toFloat)

def div (x y : Binary64) : Binary64 := ofFloat (x.toFloat / y.toFloat)

def sqrt (x : Binary64) : Binary64 := ofFloat x.toFloat.sqrt

/-- Flips the sign. -/
def neg (x : Binary64) : Binary64 := ⟨x.bits ^^^ 0x8000000000000000⟩

/-- Clears the sign. -/
def abs (x : Binary64) : Binary64 := ⟨x.magnitude⟩

/-- The integer part, towards zero; zero for what is not finite. -/
def truncate (x : Binary64) : Int :=
  if x.isNaN || x.isInf then 0
  else
    let e := x.exponent
    let whole := if 0 ≤ e then x.significand <<< e.toNat else x.significand >>> (-e).toNat
    if x.negative then -(whole : Int) else whole

/-- Whether the number is finite and has no fraction. -/
def isIntegral (x : Binary64) : Bool :=
  !x.isNaN && !x.isInf && (0 ≤ x.exponent || x.significand % Nat.pow 2 (-x.exponent).toNat == 0)

/-- The largest integral number not above; zero keeps its sign. -/
def floor (x : Binary64) : Binary64 :=
  if x.isNaN || x.isInf || x.isIntegral then x
  else if x.negative then ofRatio true (x.truncate.natAbs + 1) 1
  else ofRatio false x.truncate.natAbs 1

/-- The remainder of the division truncated towards zero: exact, with the sign of `x`. -/
def rem (x y : Binary64) : Binary64 :=
  if x.isNaN || y.isNaN || x.isInf || y.isZero then nan
  else if y.isInf || x.isZero then x
  else
    let e := min x.exponent y.exponent
    let r := (x.significand <<< (x.exponent - e).toNat) % (y.significand <<< (y.exponent - e).toNat)
    if 0 ≤ e then ofRatio x.negative (r <<< e.toNat) 1
    else ofRatio x.negative r (1 <<< (-e).toNat)

end Binary64

end LoopTracer
