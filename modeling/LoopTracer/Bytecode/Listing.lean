import LoopTracer.Bytecode.Program

/-! The readable listing of code: offset, source line, mnemonic and operand. -/
namespace LoopTracer.Bytecode

/-- A number with at least four places filled with blanks. -/
def column (n : Int) : Text := (Text.ofInt n).padLeft 4 " "

namespace Chunk

/-- The operand of the instruction at an offset, which lies wholly inside the code. -/
def listOperand (c : Chunk) (b : UInt8) (offset : Nat) : Text :=
  let name := (byteName b).padRight 8 ++ " "
  match byteOperand b with
  | .none => byteName b
  | .const =>
    let index := ((c.u16? (offset + 1)).getD 0).toNat
    name ++ column index ++ " '" ++ (c.constants[index]?.elim ∅ Value.repr) ++ "'"
  | .slot => name ++ column ((c.u16? (offset + 1)).getD 0).toNat
  | .jump | .loop => name ++ "     -> " ++ Text.zeroPadded ((c.target? offset).getD (-1)) 4
  | .byte =>
    let arg := (c.byte? (offset + 1)).getD 0
    let plain := name ++ column arg.toNat
    match Opcode.ofByte? b, Builtin.ofByte? arg with
    | some .builtin, some f => plain ++ " (" ++ f.name ++ ")"
    | _, _ => plain

/-- One line of the listing, and the offset of the next instruction. -/
def listInstruction (c : Chunk) (b : UInt8) (offset : Nat) : Text × Nat :=
  let line : Text :=
    if 0 < offset && c.line offset == c.line (offset - 1) then "   | " else column (c.line offset) ++ " "
  let place : Text := Text.zeroPadded offset 4 ++ " " ++ line
  if c.size < offset + byteSize b then (place ++ byteName b ++ " <truncated>\n", c.size)
  else (place ++ c.listOperand b offset ++ "\n", offset + byteSize b)

/-- The lines from an offset on. Every instruction has at least one byte, so as many steps as
there are bytes reach the end. -/
def listFrom (c : Chunk) : (fuel : Nat) → (offset : Nat) → Text → Text
  | 0, _, acc => acc
  | fuel + 1, offset, acc =>
    match c.code[offset]? with
    | none => acc
    | some b =>
      let (line, next) := c.listInstruction b offset
      c.listFrom fuel next (acc ++ line)

/-- The whole listing under a title. -/
def listing (c : Chunk) (title : Text) : Text :=
  c.listFrom c.size 0 ("=== " ++ title ++ " ===\n")

end Chunk

/-- The listings of all functions in order. -/
def Program.listing (p : Program) : Text :=
  p.functions.foldl (fun acc f =>
    let title : Text := f.signature ++ " (locals=" ++ .ofInt f.locals ++ " stack=" ++ .ofInt f.maxStack ++ ")"
    acc ++ (f.chunk.getD {}).listing title) ∅

end LoopTracer.Bytecode
