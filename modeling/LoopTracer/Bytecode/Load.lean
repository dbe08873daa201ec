import LoopTracer.Bytecode.Source
import LoopTracer.Bytecode.Image
import LoopTracer.File

/-! Loading programs.

A program comes from source text or from a compiled file; the ending of a file's name says
which. Either way it is verified before it is handed out. -/
namespace LoopTracer.Bytecode

/-- Why a program was not loaded. -/
inductive LoadError where
  | source (file : Text) (e : Source.Error)
  | refused (refusals : List Refusal)
  | image (e : Image.Failure)
  /-- A compiled file that does not load, under its name. -/
  | file (path : Text) (e : Image.Failure)
  | unreadable (path : Text) (e : FileError)

namespace LoadError

def message : LoadError → Text
  | source name e => e.message name
  | refused l => Refusal.combined l
  | image e => e.message
  | file path e => "failed to load " ++ path ++ ": " ++ e.message
  | unreadable path e => "failed to read " ++ path ++ ": " ++ e.reading path

end LoadError

/-- The verified program of a source text; `file` is named in errors. -/
def assemble (file text : Text) : Except LoadError Program := do
  let (p, refusals) := (← (Source.parse text).mapError (.source file)).verify
  if refusals.isEmpty then return p else throw (.refused refusals)

/-- The verified program of a compiled file. -/
def loadImage (data : ByteArray) : Except LoadError Program :=
  (Image.read data).mapError .image

/-- The ending of a compiled file's name. -/
def compiledExtension : Text := ".tjc"

/-- The program in the file of a name, given what files hold. -/
def loadFile (contents : Text → Except FileError ByteArray) (path : Text) :
    Except LoadError Program :=
  match contents path with
  | .error e => .error (.unreadable path e)
  | .ok data =>
    if path.endsWith compiledExtension then (Image.read data).mapError (.file path)
    else assemble path ⟨data⟩

/-- What is said when a compiled file cannot be written. -/
def cannotWrite (path : Text) (e : FileError) : Text :=
  "failed to write " ++ path ++ ": " ++ e.writing path

end LoopTracer.Bytecode
