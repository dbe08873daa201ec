import LoopTracer.Text.Printable

/-! Quoted strings.

`quote` writes a byte text between double quotes: printable code points stand as themselves,
the quote and the backslash are escaped, and stray bytes and unprintable code points become
numeric escapes. `unquote?` reads that form and every other escape a source line may use. -/
namespace LoopTracer.Text
open Utf8

/-- The escape letter of a control code, where it has one. -/
def controlLetter? (code : Nat) : Option Char :=
  match code with
  | 7 => some 'a'
  | 8 => some 'b'
  | 9 => some 't'
  | 10 => some 'n'
  | 11 => some 'v'
  | 12 => some 'f'
  | 13 => some 'r'
  | _ => none

/-- The numeric escape `\x`, `\u` or `\U` with its digits. -/
def numericEscape (letter : Char) (width n : Nat) : Text :=
  ofString (String.ofList ['\\', letter]) ++ hex n width

/-- A code point as it stands between marks `mark`. -/
def quotePoint (mark : Nat) (code : Nat) : Text :=
  if code == mark || code == 92 then "\\" ++ ofList (encode code)
  else if isPrintable code then ofList (encode code)
  else match controlLetter? code with
    | some c => ofString (String.ofList ['\\', c])
    | none =>
      if code < 32 || code == 0x7F then numericEscape 'x' 2 code
      else if code < 0x10000 then numericEscape 'u' 4 code
      else numericEscape 'U' 8 code

def quotePiece : Piece → Text
  | .point code _ => quotePoint 34 code
  | .stray b => numericEscape 'x' 2 b.toNat

/-- The text between double quotes. -/
def quote (t : Text) : Text :=
  "\"" ++ concat ((pieces t.toList).map quotePiece) ++ "\""

/-- One code point between single quotes. -/
def quoteChar (code : Nat) : Text := "'" ++ quotePoint 39 code ++ "'"

/-- The value of a hexadecimal digit. -/
def hexValue? (b : UInt8) : Option Nat :=
  let n := b.toNat
  if 48 ≤ n && n ≤ 57 then some (n - 48)
  else if 97 ≤ n && n ≤ 102 then some (n - 87)
  else if 65 ≤ n && n ≤ 70 then some (n - 55)
  else none

def octalValue? (b : UInt8) : Option Nat :=
  if 48 ≤ b.toNat && b.toNat ≤ 55 then some (b.toNat - 48) else none

/-- The number written by the first `count` digits of `l`. -/
def number? (value? : UInt8 → Option Nat) (base count : Nat) (l : List UInt8) : Option Nat :=
  let digits := l.take count
  if digits.length < count then none
  else digits.foldlM (fun acc b => (value? b).map (acc * base + ·)) 0

/-- Whether the number is a Unicode scalar value. -/
def isScalar (code : Nat) : Bool := code < 0xD800 || (0xE000 ≤ code && code < 0x110000)

/-- Reads the escape after a backslash: the bytes it stands for, and how many it takes. -/
def escape? : List UInt8 → Option (List UInt8 × Nat)
  | [] => none
  | c :: rest =>
    let point (width : Nat) : Option (List UInt8 × Nat) :=
      (number? hexValue? 16 width rest).bind fun n =>
        if isScalar n then some (encode n, width + 1) else none
    match Char.ofNat c.toNat with
    | 'a' => some ([7], 1)
    | 'b' => some ([8], 1)
    | 'f' => some ([12], 1)
    | 'n' => some ([10], 1)
    | 'r' => some ([13], 1)
    | 't' => some ([9], 1)
    | 'v' => some ([11], 1)
    | '\\' => some ([92], 1)
    | '"' => some ([34], 1)
    | 'x' => (number? hexValue? 16 2 rest).map fun n => ([n.toUInt8], 3)
    | 'u' => point 4
    | 'U' => point 8
    | _ => (number? octalValue? 8 3 (c :: rest)).bind fun n =>
        if n ≤ 255 then some ([n.toUInt8], 3) else none

/-- Reads up to the closing quote, which must end the text. Bytes that are no code point are
read as the replacement character. -/
def unquoteTail? (acc : ByteArray) : List UInt8 → Option Text
  | [] => none
  | b :: rest =>
    if b == 34 then (if rest.isEmpty then some ⟨acc⟩ else none)
    else if b == 10 then none
    else if b == 92 then
      match escape? rest with
      | none => none
      | some (l, k) => unquoteTail? (acc ++ l.toByteArray) (rest.drop k)
    else
      have := next_length b rest
      match (next b rest).1 with
      | .point _ l => unquoteTail? (acc ++ l.toByteArray) (next b rest).2
      | .stray _ => unquoteTail? (acc ++ (encode replacement).toByteArray) (next b rest).2
termination_by l => l.length
decreasing_by all_goals simp only [List.length_cons, List.length_drop]; omega

/-- The text that a double-quoted literal stands for. -/
def unquote? (t : Text) : Option Text :=
  match t.toList with
  | 34 :: rest => unquoteTail? .empty rest
  | _ => none

end LoopTracer.Text
