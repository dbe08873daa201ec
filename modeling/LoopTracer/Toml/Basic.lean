import LoopTracer.Number.Reading
import LoopTracer.Text.Quoted

/-! TOML documents.

A document is a list of statements: an entry gives a key a value, a table header opens a table
and an element header opens one more element of a list of tables. Numbers and times are kept as
written, because whether their digits are right is asked only where a value is used. -/
namespace LoopTracer.Toml

/-- The parts of a dotted key. -/
abbrev Key := List Text

inductive Value where
  | text (t : Text)
  | flag (b : Bool)
  /-- A number without point and exponent, as written. -/
  | integer (digits : List UInt8)
  /-- Any other number, as written. -/
  | real (digits : List UInt8)
  /-- A date, a time of day or both, as written. -/
  | moment (digits : List UInt8)
  | list (l : List Value)
  | table (entries : List (Key × Value))
deriving Inhabited

inductive Statement where
  | entry (key : Key) (v : Value)
  | table (key : Key)
  | element (key : Key)

/-! ### Characters -/

/-- Whether a code point may stand in a text or a comment: no control code but the tab and the
two of a line end. -/
def isPlain (code : Nat) : Bool :=
  (32 ≤ code && code ≠ 127) || code == 9 || code == 10 || code == 13

/-- Whether the bytes are plain code points, none of them stray. -/
def isClean (l : List UInt8) : Bool :=
  (Utf8.pieces l).all fun
    | .point code _ => isPlain code
    | .stray _ => false

def isBlank (b : UInt8) : Bool := b == 32 || b == 9

/-- Whether a byte may stand in a key without quotes. -/
def isBare (b : UInt8) : Bool :=
  (48 ≤ b && b ≤ 57) || (65 ≤ b && b ≤ 90) || (97 ≤ b && b ≤ 122) || b == 45 || b == 95

/-! ### Integers -/

/-- The digits without the underscores, each of which must stand between other bytes. -/
def withoutUnderscores? (l : List UInt8) : Option (List UInt8) :=
  let body := (Reading.sign l).2
  if body.head? = some Reading.underscore || body.getLast? = some Reading.underscore
      || adjacent body then none
  else some (l.filter (· ≠ Reading.underscore))
where
  adjacent : List UInt8 → Bool
    | a :: b :: rest => (a == Reading.underscore && b == Reading.underscore) || adjacent (b :: rest)
    | _ => false

/-- The 64-bit number that the digits of an integer denote: in base ten without a leading zero,
or after a mark in base sixteen, eight or two. -/
def integer? (l : List UInt8) : Option Int :=
  let based (base : Nat) (ds : List UInt8) : Option Int := do
    (Reading.natural? base false (← withoutUnderscores? ds)).bind (Reading.signed? false)
  match l with
  | 48 :: 120 :: d :: ds => based 16 (d :: ds)
  | 48 :: 111 :: d :: ds => based 8 (d :: ds)
  | 48 :: 98 :: d :: ds => based 2 (d :: ds)
  | _ => do
    let ds ← withoutUnderscores? l
    match (Reading.sign ds).2 with
    | 48 :: _ :: _ => none
    | _ => Reading.integer? (.ofList ds)

/-! ### Dates and times of day

A moment is a date `1979-05-27`, a time of day `07:32:00` with an optional fraction, both of them
divided by a `T` or a blank, or both with the offset of a zone behind. A date must be one of the
calendar; the last second of a minute may be a leap second. -/

/-- The forms of a moment. -/
inductive Moment where
  | date
  | time
  | dateTime
  /-- A date and time of day in a zone. -/
  | instant
deriving DecidableEq

namespace Moment

/-- The number that two digits denote. -/
def pair? (a b : UInt8) : Option Nat :=
  if Reading.isDigit a && Reading.isDigit b then some (10 * (a.toNat - 48) + (b.toNat - 48)) else none

def isLeap (year : Nat) : Bool := year % 4 == 0 && (year % 100 != 0 || year % 400 == 0)

/-- The days of a month. -/
def daysIn (year month : Nat) : Nat :=
  if month == 2 then if isLeap year then 29 else 28
  else if month == 4 || month == 6 || month == 9 || month == 11 then 30
  else 31

def isDate (year month day : Nat) : Bool :=
  1 ≤ month && month ≤ 12 && 1 ≤ day && day ≤ daysIn year month

/-- What follows a date. -/
def afterDate? : List UInt8 → Option (List UInt8)
  | c :: c' :: y :: y' :: 45 :: m :: m' :: 45 :: d :: d' :: rest => do
    let year := 100 * (← pair? c c') + (← pair? y y')
    if isDate year (← pair? m m') (← pair? d d') then some rest else none
  | _ => none

/-- What follows the fraction of a second, where a point stands for one. -/
def afterFraction? : List UInt8 → Option (List UInt8)
  | 46 :: digits =>
    if digits.head?.any Reading.isDigit then some (digits.dropWhile Reading.isDigit) else none
  | l => some l

/-- What follows a time of day. -/
def afterTime? : List UInt8 → Option (List UInt8)
  | h :: h' :: 58 :: m :: m' :: 58 :: s :: s' :: rest => do
    if 23 < (← pair? h h') || 59 < (← pair? m m') || 60 < (← pair? s s') then none
    afterFraction? rest
  | _ => none

/-- Whether the bytes are the offset of a zone. -/
def isOffset : List UInt8 → Bool
  | [z] => z == 90 || z == 122
  | [sign, h, h', 58, m, m'] =>
    (sign == 43 || sign == 45) && (pair? h h').any (· ≤ 23) && (pair? m m').any (· ≤ 59)
  | _ => false

/-- Whether a byte may stand between a date and a time of day. -/
def isDivider (b : UInt8) : Bool := b == 84 || b == 116 || b == 32

/-- The form of a moment, if the bytes are one. -/
def ofBytes? (l : List UInt8) : Option Moment :=
  match afterDate? l with
  | some [] => some .date
  | some (b :: rest) =>
    if !isDivider b then none
    else match afterTime? rest with
      | some [] => some .dateTime
      | some zone => if isOffset zone then some .instant else none
      | none => none
  | none => if afterTime? l = some [] then some .time else none

/-- The name of the kind of value that a moment is. -/
def kindName : Moment → Text
  | date => "toml.LocalDate"
  | time => "toml.LocalTime"
  | dateTime => "toml.LocalDateTime"
  | instant => "time.Time"

end Moment

end LoopTracer.Toml
