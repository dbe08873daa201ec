import LoopTracer.Text.Basic

/-! Files, as far as programs and settings come from them and go to them.

Nothing here reads or writes: `Files` says what a path holds and whether it can be written, and
`FileError` why not. -/
namespace LoopTracer

/-- Why a path cannot be read or written. -/
inductive FileError where
  | missing
  /-- A part of the path before the last one is a file. -/
  | notDirectory
  | isDirectory
  | longName
  /-- No path at all: it holds a zero byte. -/
  | badPath
  | denied
deriving DecidableEq

namespace FileError

def cause : FileError → Text
  | missing => "no such file or directory"
  | notDirectory => "not a directory"
  | isDirectory => "is a directory"
  | longName => "file name too long"
  | badPath => "invalid argument"
  | denied => "permission denied"

/-- What is said when a path cannot be read. A directory can be opened, so only reading it
fails. -/
def reading (e : FileError) (path : Text) : Text :=
  (if e = isDirectory then Text.ofString "read " else "open ") ++ path ++ ": " ++ e.cause

/-- What is said when a path cannot be written. -/
def writing (e : FileError) (path : Text) : Text := "open " ++ path ++ ": " ++ e.cause

end FileError

/-- What is seen of the files. -/
structure Files where
  read : Text → Except FileError ByteArray
  /-- Why a file cannot be written under a path. -/
  refusal? : Text → Option FileError

end LoopTracer
