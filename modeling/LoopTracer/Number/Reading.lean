import LoopTracer.Number.Binary64
import LoopTracer.Text.Basic

/-! Reading numbers from text.

Three grammars. `integer?` takes plain decimal digits with a sign. `literal?` also takes the
base marks `0b`, `0o`, `0x` and a leading zero for base eight, and underscores between digits.
`binary?` takes decimal and hexadecimal fractions with an exponent and the names of infinity
and not-a-number, and rounds once. -/
namespace LoopTracer.Reading

/-- A byte with the case bit set, so that letters compare without case. -/
def lower (b : UInt8) : UInt8 := b ||| 0x20

def isDigit (b : UInt8) : Bool := 48 ≤ b && b ≤ 57

/-- The value of a digit or letter in the largest base. -/
def digitValue? (b : UInt8) : Option Nat :=
  if isDigit b then some (b.toNat - 48)
  else if 97 ≤ lower b && lower b ≤ 122 then some ((lower b).toNat - 87)
  else none

def underscore : UInt8 := 95

/-- What stands before a place in a number. -/
inductive Before where
  | start
  | digit
  | underscore
  | other
deriving DecidableEq

/-- Splits an optional sign off; `true` is minus. -/
def sign : List UInt8 → Bool × List UInt8
  | 43 :: rest => (false, rest)
  | 45 :: rest => (true, rest)
  | l => (false, l)

/-- Every underscore stands between two digits; a base mark counts as a digit. -/
def underscoresFit (l : List UInt8) : Bool :=
  let l := (sign l).2
  match l with
  | 48 :: m :: rest =>
    if lower m == 98 || lower m == 111 || lower m == 120 then go (lower m == 120) .digit rest
    else go false .start l
  | _ => go false .start l
where
  go (hex : Bool) (before : Before) : List UInt8 → Bool
    | [] => before != .underscore
    | b :: rest =>
      if isDigit b || (hex && 97 ≤ lower b && lower b ≤ 102) then go hex .digit rest
      else if b == underscore then before == .digit && go hex .underscore rest
      else before != .underscore && go hex .other rest

/-- The number written in `base`; with `loose`, underscores are skipped. -/
def natural? (base : Nat) (loose : Bool) (l : List UInt8) : Option Nat :=
  l.foldlM (fun acc b =>
    if loose && b == underscore then some acc
    else (digitValue? b).bind fun d => if d < base then some (acc * base + d) else none) 0

/-- The base that a literal's first characters choose, and the rest of it. -/
def baseOf : List UInt8 → Nat × List UInt8
  | 48 :: m :: d :: rest =>
    if lower m == 98 then (2, d :: rest)
    else if lower m == 111 then (8, d :: rest)
    else if lower m == 120 then (16, d :: rest)
    else (8, m :: d :: rest)
  | 48 :: rest => (8, rest)
  | l => (10, l)

/-- The signed number, if it fits in 64 bits. -/
def signed? (negative : Bool) (n : Nat) : Option Int :=
  if negative then (if n ≤ Nat.pow 2 63 then some (-(n : Int)) else none)
  else if n < Nat.pow 2 63 then some n else none

/-- A decimal integer of 64 bits with an optional sign. -/
def integer? (t : Text) : Option Int :=
  let (negative, l) := sign t.toList
  if l.isEmpty then none else (natural? 10 false l).bind (signed? negative)

/-- An integer literal of 64 bits in any base. -/
def literal? (t : Text) : Option Int :=
  let (negative, l) := sign t.toList
  if l.isEmpty then none
  else
    let (base, ds) := baseOf l
    if l.contains underscore && !underscoresFit l then none
    else (natural? base true ds).bind (signed? negative)

/-! ### Fractions -/

/-- The digits of a mantissa: their value, how many stand after the point, and whether there
was a digit and a point. -/
structure Mantissa where
  value : Nat := 0
  places : Nat := 0
  sawDigit : Bool := false
  sawPoint : Bool := false

/-- Reads digits, underscores and one point. -/
def mantissa (base : Nat) (m : Mantissa) : List UInt8 → Mantissa × List UInt8
  | [] => (m, [])
  | b :: rest =>
    if b == underscore then mantissa base m rest
    else if b == 46 then
      if m.sawPoint then (m, b :: rest) else mantissa base { m with sawPoint := true } rest
    else match digitValue? b with
      | some d =>
        if d < base then
          mantissa base { m with value := m.value * base + d, sawDigit := true
                                 places := if m.sawPoint then m.places + 1 else m.places } rest
        else (m, b :: rest)
      | none => (m, b :: rest)

/-- The digits of an exponent, which stop counting once they have passed ten thousand. -/
def exponentDigits (l : List UInt8) : Nat :=
  l.foldl (fun acc b =>
    if b == underscore || 10000 ≤ acc then acc else acc * 10 + (b.toNat - 48)) 0

/-- Reads an exponent after its mark; it must reach the end of the text. -/
def exponent? (l : List UInt8) : Option Int :=
  let (negative, l) := sign l
  match l with
  | [] => none
  | d :: _ =>
    if isDigit d && l.all (fun b => isDigit b || b == underscore) then
      let e : Int := exponentDigits l
      some (if negative then -e else e)
    else none

/-- The value `m * radix ^ e` rounded. -/
def scaled (negative : Bool) (m radix : Nat) (e : Int) : Binary64 :=
  if m == 0 then Binary64.withSign negative 0
  else if 0 ≤ e then Binary64.ofRatio negative (m * Nat.pow radix e.toNat) 1
  else Binary64.ofRatio negative m (Nat.pow radix (-e).toNat)

/-- A fraction without its sign, in base ten or after `0x` in base sixteen with the exponent
counting powers of two. -/
def fraction? (negative : Bool) (l : List UInt8) : Option Binary64 :=
  let hex := match l with
    | 48 :: m :: _ :: _ => lower m == 120
    | _ => false
  if hex then
    let (m, rest) := mantissa 16 {} (l.drop 2)
    match rest with
    | mark :: ds =>
      if m.sawDigit && lower mark == 112 then
        (exponent? ds).map fun e => scaled negative m.value 2 (e - 4 * m.places)
      else none
    | [] => none
  else
    let (m, rest) := mantissa 10 {} l
    if !m.sawDigit then none
    else match rest with
      | [] => some (scaled negative m.value 10 (-(m.places : Int)))
      | mark :: ds =>
        if lower mark == 101 then
          (exponent? ds).map fun e => scaled negative m.value 10 (e - m.places)
        else none

def lowerLetters (l : List UInt8) : List UInt8 :=
  l.map fun b => if 65 ≤ b && b ≤ 90 then lower b else b

/-- The number nearest to what the text denotes; a finite text may be too large and then
gives an infinite number. -/
def nearest? (t : Text) : Option Binary64 :=
  let l := t.toList
  let (negative, body) := sign l
  let name := lowerLetters body
  if name == "inf".toUTF8.data.toList || name == "infinity".toUTF8.data.toList then
    some (Binary64.infinity negative)
  else if lowerLetters l == "nan".toUTF8.data.toList then some Binary64.nan
  else if l.contains underscore && !underscoresFit l then none
  else fraction? negative body

/-- Whether the text names infinity or not-a-number. -/
def isNamed (t : Text) : Bool :=
  match lowerLetters (sign t.toList).2 with
  | 105 :: _ => true
  | 110 :: _ => true
  | _ => false

/-- The number that the text denotes, unless a finite text is too large. -/
def binary? (t : Text) : Option Binary64 :=
  (nearest? t).bind fun x => if x.isInf && !isNamed t then none else some x

end LoopTracer.Reading
