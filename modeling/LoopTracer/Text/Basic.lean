/-! Byte text.

Everything the machine prints, names or reports is a string of bytes: mostly UTF-8, but a
string constant or a function name may hold any bytes at all, and they pass through unchanged.
`Text` is that string. A Lean string literal stands for its UTF-8 bytes, so messages are
written as ordinary literals joined with `++`. `toList` is the view the laws speak of. -/
namespace LoopTracer

/-- A string of arbitrary bytes. -/
structure Text where
  bytes : ByteArray
deriving Inhabited

namespace Text

instance : DecidableEq Text := fun a b =>
  match ByteArray.instDecidableEq a.bytes b.bytes with
  | isTrue h => isTrue (congrArg Text.mk h)
  | isFalse h => isFalse fun e => h (congrArg Text.bytes e)

/-- The UTF-8 bytes of a character string. -/
def ofString (s : String) : Text := ⟨s.toUTF8⟩

instance : Coe String Text := ⟨ofString⟩

def empty : Text := ⟨.empty⟩

instance : EmptyCollection Text := ⟨empty⟩

instance : Append Text := ⟨fun a b => ⟨a.bytes ++ b.bytes⟩⟩

/-- The bytes in order. -/
def toList (t : Text) : List UInt8 := t.bytes.data.toList

def ofList (l : List UInt8) : Text := ⟨⟨l.toArray⟩⟩

/-- The number of bytes. -/
def size (t : Text) : Nat := t.bytes.size

def isEmpty (t : Text) : Bool := t.bytes.isEmpty

@[simp] theorem toList_ofList (l : List UInt8) : (ofList l).toList = l := rfl

@[simp] theorem ofList_toList (t : Text) : ofList t.toList = t := rfl

/-- Texts in the order of their bytes, as in a dictionary. -/
instance : Ord Text := ⟨compareOn toList⟩

instance : Std.TransOrd Text := inferInstanceAs (Std.TransCmp (compareOn toList))

instance : Std.LawfulEqOrd Text where
  eq_of_compare h := congrArg ofList (Std.compare_eq_iff_eq.mp h)

@[simp] theorem toList_append (a b : Text) : (a ++ b).toList = a.toList ++ b.toList := by
  show (a.bytes ++ b.bytes).data.toList = _
  simp [ByteArray.data_append, toList]

/-- The pieces one after the other. -/
def concat (parts : List Text) : Text := parts.foldl (· ++ ·) empty

/-- The pieces one after the other with `sep` between neighbours. -/
def join (sep : Text) : List Text → Text
  | [] => empty
  | t :: rest => rest.foldl (fun acc u => acc ++ sep ++ u) t

/-- The text `n` times over. -/
def replicate (n : Nat) (t : Text) : Text :=
  n.fold (fun _ _ acc => acc ++ t) empty

/-- Whether `a` comes before or equals `b` in the order of their bytes. -/
def le (a b : Text) : Bool := go a.toList b.toList
where
  go : List UInt8 → List UInt8 → Bool
    | [], _ => true
    | _ :: _, [] => false
    | x :: xs, y :: ys => x < y || (x == y && go xs ys)

def startsWith (t : Text) (head : Text) : Bool := head.toList.isPrefixOf t.toList

def endsWith (t : Text) (tail : Text) : Bool := tail.toList.isSuffixOf t.toList

/-- The text cut at every `sep` byte; an empty text is one empty piece. -/
def split (t : Text) (sep : UInt8) : List Text :=
  let (piece, done) := t.bytes.foldl (fun (piece, done) b =>
    if b == sep then (ByteArray.empty, (⟨piece⟩ : Text) :: done) else (piece.push b, done))
    (ByteArray.empty, [])
  ((⟨piece⟩ : Text) :: done).reverse

/-- Decimal digits of a natural number. -/
def ofNat (n : Nat) : Text := ofString (Nat.repr n)

/-- Decimal digits of an integer, with a minus sign below zero. -/
def ofInt (n : Int) : Text := if n < 0 then "-" ++ ofNat n.natAbs else ofNat n.natAbs

/-- Pads on the left with `fill` up to `width` bytes. -/
def padLeft (t : Text) (width : Nat) (fill : String) : Text :=
  replicate (width - t.size) fill ++ t

/-- A number with at least `width` places filled with zeros, a minus sign taking one. -/
def zeroPadded (n : Int) (width : Nat) : Text :=
  if n < 0 then "-" ++ (ofNat n.natAbs).padLeft (width - 1) "0" else (ofNat n.natAbs).padLeft width "0"

/-- Pads on the right with blanks up to `width` bytes. -/
def padRight (t : Text) (width : Nat) : Text := t ++ replicate (width - t.size) " "

/-- The sixteen digits of base sixteen, lower case. -/
def hexDigit (n : Nat) : Char := (Nat.toDigits 16 (n % 16)).headD '0'

/-- A number in base sixteen with at least `width` digits. -/
def hex (n : Nat) (width : Nat) : Text :=
  padLeft (ofString (String.ofList (Nat.toDigits 16 n))) width "0"

/-- Two hexadecimal digits for each byte. -/
def hexBytes (l : List UInt8) : Text :=
  ofString (String.ofList (l.flatMap fun b => [hexDigit (b.toNat / 16), hexDigit b.toNat]))

/-! ### Amounts for people to read

Digits in groups of three, and sizes in the largest unit that fits. -/

/-- The decimal digits with a comma before every third one from the right. -/
def grouped (n : Nat) : Text :=
  ofString (String.ofList (groups (Nat.toDigits 10 n).reverse).reverse)
where
  groups : List Char → List Char
    | a :: b :: c :: d :: rest => a :: b :: c :: ',' :: groups (d :: rest)
    | l => l

/-- The greatest `e`, at most the number of `units`, with `base ^ e ≤ n`, as the power and the
unit's name. -/
def unitOf (base n power : Nat) (unit : String) : List String → Nat × String
  | [] => (power, unit)
  | next :: rest =>
    if power * base ≤ n then unitOf base n (power * base) next rest else (power, unit)

/-- The nearest whole number to a number of tenths; a half goes to the even neighbour. -/
def roundTenths (t : Nat) : Nat :=
  if 5 < t % 10 || (t % 10 == 5 && (t / 10) % 2 == 1) then t / 10 + 1 else t / 10

/-- A number of bytes in the largest unit that fits, rounded to tenths. A tenth is shown only
below ten units, and below ten bytes the number is shown as it is. -/
def bytesIn (base : Nat) (units : List String) (n : Nat) : Text :=
  if n < 10 then ofNat n ++ " B"
  else
    let (power, unit) := unitOf base n 1 "B" units
    let tenths := (n * 20 + power) / (2 * power)
    let amount :=
      if tenths < 100 then ofNat (tenths / 10) ++ "." ++ ofNat (tenths % 10)
      else ofNat (roundTenths tenths)
    amount ++ " " ++ ofString unit

/-- A size in units of a thousand. -/
def decimalSize : Nat → Text := bytesIn 1000 ["kB", "MB", "GB", "TB", "PB", "EB"]

/-- A size in units of 1024. -/
def binarySize : Nat → Text := bytesIn 1024 ["KiB", "MiB", "GiB", "TiB", "PiB", "EiB"]

end Text

end LoopTracer
