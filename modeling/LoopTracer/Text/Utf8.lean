import LoopTracer.Text.Basic

/-! Code points in byte text.

Reading goes byte by byte: a well-formed UTF-8 sequence is one code point, and a byte that
starts none is a *stray* byte of its own. `Piece` is one such item; `pieces` cuts a whole text
into them and loses nothing (`pieces_flatten`). -/
namespace LoopTracer.Utf8

/-- One item of a byte text: a code point with its bytes, or a stray byte. -/
inductive Piece where
  | point (code : Nat) (bytes : List UInt8)
  | stray (b : UInt8)

namespace Piece

def bytes : Piece → List UInt8
  | point _ l => l
  | stray b => [b]

end Piece

/-- Whether the byte continues a sequence begun by an earlier byte. -/
def continues (b : UInt8) : Bool := 0x80 ≤ b && b ≤ 0xBF

/-- The six payload bits of a continuation byte. -/
def payload (b : UInt8) : Nat := b.toNat % 64

/-- The least and the largest second byte of a sequence that `b` begins. The bounds shut out
overlong forms, surrogates and code points past the last plane. -/
def secondBounds (b : UInt8) : UInt8 × UInt8 :=
  if b == 0xE0 then (0xA0, 0xBF)
  else if b == 0xED then (0x80, 0x9F)
  else if b == 0xF0 then (0x90, 0xBF)
  else if b == 0xF4 then (0x80, 0x8F)
  else (0x80, 0xBF)

/-- The code point that starts with `b`, and how many bytes of `rest` belong to it. -/
def first? (b : UInt8) (rest : List UInt8) : Option (Nat × Nat) :=
  let (lo, hi) := secondBounds b
  if b < 0x80 then some (b.toNat, 0)
  else if b < 0xC2 || 0xF4 < b then none
  else match rest with
    | [] => none
    | c :: more =>
      if c < lo || hi < c then none
      else if b < 0xE0 then some ((b.toNat % 32) * 64 + payload c, 1)
      else match more with
        | [] => none
        | d :: last =>
          if !continues d then none
          else if b < 0xF0 then some (((b.toNat % 16) * 64 + payload c) * 64 + payload d, 2)
          else match last with
            | [] => none
            | e :: _ =>
              if !continues e then none
              else some ((((b.toNat % 8) * 64 + payload c) * 64 + payload d) * 64 + payload e, 3)

/-- The first item of `b :: rest` and what follows it. -/
def next (b : UInt8) (rest : List UInt8) : Piece × List UInt8 :=
  match first? b rest with
  | some (code, k) => (.point code (b :: rest.take k), rest.drop k)
  | none => (.stray b, rest)

theorem next_length (b : UInt8) (rest : List UInt8) : (next b rest).2.length ≤ rest.length := by
  unfold next
  split <;> simp

/-- The items of a text in order. -/
def pieces : List UInt8 → List Piece
  | [] => []
  | b :: rest =>
    have := next_length b rest
    (next b rest).1 :: pieces (next b rest).2
termination_by l => l.length
decreasing_by simp only [List.length_cons]; omega

theorem next_bytes (b : UInt8) (rest : List UInt8) :
    (next b rest).1.bytes ++ (next b rest).2 = b :: rest := by
  unfold next
  split <;> simp [Piece.bytes]

/-- Cutting a text into items loses no byte. -/
theorem pieces_flatten (l : List UInt8) : (pieces l).flatMap Piece.bytes = l := by
  fun_induction pieces l with
  | case1 => rfl
  | case2 b rest h ih => rw [List.flatMap_cons, ih, next_bytes]

/-- The bytes of a code point. -/
def encode (code : Nat) : List UInt8 := String.utf8EncodeChar (Char.ofNat code)

/-- The code point that stands for bytes that cannot be read. -/
def replacement : Nat := 0xFFFD

end LoopTracer.Utf8
