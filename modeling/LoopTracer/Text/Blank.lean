import LoopTracer.Text.Utf8

/-! Blank code points, which have the Unicode property `White_Space`, and the case of letters.

Source lines are trimmed and cut into words at blanks; a stray byte is never blank. -/
namespace LoopTracer.Text
open Utf8

/-- Whether a code point has the property `White_Space`. -/
def isBlank (code : Nat) : Bool :=
  (9 ≤ code && code ≤ 13) || code == 0x20 || code == 0x85 || code == 0xA0 || code == 0x1680
    || (0x2000 ≤ code && code ≤ 0x200A) || code == 0x2028 || code == 0x2029 || code == 0x202F
    || code == 0x205F || code == 0x3000

def isBlankPiece : Piece → Bool
  | .point code _ => isBlank code
  | .stray _ => false

/-- The list without the blanks at both ends. -/
def trimPieces (l : List Piece) : List Piece :=
  ((l.dropWhile isBlankPiece).reverse.dropWhile isBlankPiece).reverse

def ofPieces (l : List Piece) : Text := ofList (l.flatMap Piece.bytes)

/-- The text without the blanks at both ends. -/
def trim (t : Text) : Text := ofPieces (trimPieces (pieces t.toList))

/-- The runs of items between blanks; no run is empty. -/
def words (t : Text) : List Text :=
  let (word, done) := (pieces t.toList).foldl (fun (word, done) p =>
    if isBlankPiece p then ([], if word.isEmpty then done else word :: done)
    else (p :: word, done)) (([] : List Piece), ([] : List (List Piece)))
  ((if word.isEmpty then done else word :: done).map fun w => ofPieces w.reverse).reverse

/-! ### Names compared without regard to the case of their letters

The names that are compared so are of ASCII letters, so the lower case of a letter matters only
if it is one of those. -/

/-- The lower case of a code point where that is an ASCII letter: the ASCII capitals, the dotted
capital I and the Kelvin sign. Other code points stay. -/
def lowerPoint (code : Nat) : Nat :=
  if 65 ≤ code && code ≤ 90 then code + 32
  else if code == 0x130 then 105
  else if code == 0x212A then 107
  else code

/-- The text with every letter in lower case whose lower case is an ASCII letter. -/
def lower (t : Text) : Text :=
  ofPieces ((pieces t.toList).map fun
    | .point code bytes =>
      if lowerPoint code = code then .point code bytes
      else .point (lowerPoint code) [(lowerPoint code).toUInt8]
    | p => p)

end LoopTracer.Text
