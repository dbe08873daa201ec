import LoopTracer.Number.Binary64
import LoopTracer.Text.Basic

/-! Decimal text of binary numbers: the fewest digits that read back.

`digits` finds the shortest decimal inside the interval of reals that round to the number,
the nearest of several, a tie going to the even digit. `Layout` holds where positional
notation ends, and `Binary64.render` joins the two. -/
namespace LoopTracer.Shortest

/-- A decimal `digits * 10 ^ exponent`. -/
structure Decimal where
  digits : Nat
  exponent : Int

/-- The reals `lo / den` to `hi / den` that round to `mid / den`. -/
structure Interval where
  lo : Nat
  mid : Nat
  hi : Nat
  den : Nat
  /-- Whether the ends themselves round to the middle. -/
  closed : Bool

/-- The interval of a finite number other than zero. Below a power of two the numbers lie
half as far apart. -/
def interval (x : Binary64) : Interval :=
  let m := x.significand
  let e := x.exponent - 2
  let below := if m == Nat.pow 2 52 && x.exponent != -1074 then 1 else 2
  let scale (n : Nat) := if 0 ≤ e then n <<< e.toNat else n
  { lo := scale (4 * m - below), mid := scale (4 * m), hi := scale (4 * m + 2)
    den := if 0 ≤ e then 1 else 1 <<< (-e).toNat, closed := m % 2 == 0 }

namespace Interval

/-- Whether the decimal `n * up / down` lies in the interval. -/
def holds (i : Interval) (n up down : Nat) : Bool :=
  let point := n * up * i.den
  if i.closed then i.lo * down ≤ point && point ≤ i.hi * down
  else i.lo * down < point && point < i.hi * down

/-- The best decimal on the grid of step `10 ^ k`, if the interval meets that grid. -/
def onGrid (i : Interval) (k : Int) : Option Decimal :=
  let up := if 0 ≤ k then Nat.pow 10 k.toNat else 1
  let down := if 0 ≤ k then 1 else Nat.pow 10 (-k).toNat
  let c := i.mid * down / (i.den * up)
  match i.holds c up down, i.holds (c + 1) up down with
  | false, false => none
  | true, false => some ⟨c, k⟩
  | false, true => some ⟨c + 1, k⟩
  | true, true => some ⟨Binary64.roundDiv (i.mid * down) (i.den * up), k⟩

end Interval

/-- The exponent `e` with `10 ^ e ≤ num / den < 10 ^ (e + 1)`, from a guess not above it. -/
def decimalExponent (num den : Nat) : Int :=
  if den ≤ num then ((Nat.toDigits 10 (num / den)).length : Int) - 1
  else
    let guess := (Nat.toDigits 10 (den / num)).length
    if den ≤ num * Nat.pow 10 (guess - 1) then -((guess : Int) - 1) else -(guess : Int)

/-- Moves trailing zeros of the digits into the exponent. -/
def strip : (fuel : Nat) → Decimal → Decimal
  | 0, d => d
  | fuel + 1, d =>
    if d.digits != 0 && d.digits % 10 == 0 then strip fuel ⟨d.digits / 10, d.exponent + 1⟩ else d

/-- The shortest decimal of a finite number other than zero, without trailing zeros. -/
def digits (x : Binary64) : Decimal :=
  let i := interval x
  let top := decimalExponent i.mid i.den
  match (List.range 17).findSome? fun (n : Nat) => i.onGrid (top - n) with
  | some d => strip 20 d
  | none => strip 20 ⟨i.mid * Nat.pow 10 (17 - top).toNat / i.den, top - 17⟩

/-- How a decimal is laid out: it has an exponent mark when its decimal exponent is below
`least` or not below `limit`, and the exponent has at least two digits. -/
structure Layout where
  least : Int
  limit : Int

def Layout.write (layout : Layout) (d : Decimal) : Text :=
  let ds := Nat.toDigits 10 d.digits
  let point : Int := ds.length + d.exponent
  let e := point - 1
  let text (l : List Char) : Text := String.ofList l
  if e < layout.least || layout.limit ≤ e then
    let mantissa := if ds.length ≤ 1 then text ds else text (ds.take 1) ++ "." ++ text (ds.drop 1)
    mantissa ++ (if e < 0 then "e-" else "e+") ++ (Text.ofNat e.natAbs).padLeft 2 "0"
  else if point ≤ 0 then "0." ++ text (List.replicate (-point).toNat '0' ++ ds)
  else if (ds.length : Int) ≤ point then
    text (ds ++ List.replicate (point.toNat - ds.length) '0')
  else text (ds.take point.toNat) ++ "." ++ text (ds.drop point.toNat)

end LoopTracer.Shortest

namespace LoopTracer.Binary64
open Shortest

/-- Numbers are positional from `0.0001` up to, not including, a million. -/
def layout : Layout := ⟨-4, 6⟩

/-- The text of a number: the fewest digits that read back. -/
def render (x : Binary64) : Text :=
  if x.isNaN then "NaN"
  else if x.isInf then (if x.negative then "-Inf" else "+Inf")
  else
    let body : Text := if x.isZero then "0" else layout.write (digits x)
    if x.negative then "-" ++ body else body

end LoopTracer.Binary64
