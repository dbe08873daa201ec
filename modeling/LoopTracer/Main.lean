import LoopTracer.Command.Run

/-! The command line: reads the files that the arguments name, runs the command and carries its
outcome out. -/
namespace LoopTracer.Command

/-- Why the system refused a file. -/
def fileError : IO.Error → FileError
  | .permissionDenied .. => .denied
  | .inappropriateType _ code _ => if code = 21 then .isDirectory else .notDirectory
  | .invalidArgument _ code _ => if code = 36 then .longName else .badPath
  | _ => .missing

/-- The contents of a file, or why they cannot be read. -/
def contents (path : Text) : IO (Except FileError ByteArray) := do
  match String.fromUTF8? path.bytes with
  | none => return .error .missing
  | some path =>
    try return .ok (← IO.FS.readBinFile path)
    catch e => return .error (fileError e)

/-- Prints an outcome and gives its exit code. -/
def Outcome.print (o : Outcome) : IO UInt32 := do
  (← IO.getStdout).write o.out.bytes
  (← IO.getStderr).write o.err.bytes
  return o.exit.toUInt32

/-- Prints an outcome after writing the file it asks for. -/
def Outcome.carryOut (o : Outcome) : IO UInt32 := do
  match o.wrote with
  | none => o.print
  | some (path, data) =>
    try
      IO.FS.writeBinFile ((String.fromUTF8? path.bytes).getD "") data
      o.print
    catch e => (Outcome.failed (Bytecode.cannotWrite path (fileError e))).print

end LoopTracer.Command

open LoopTracer Command in
def main (args : List String) : IO UInt32 := do
  let args := args.map Text.ofString
  let paths := match ({} : Options).parse args with
    | .ok (o, rest) => o.config :: rest.take 1
    | .error _ => []
  let found ← paths.mapM fun path => return (path, ← contents path)
  (run ⟨fun path => (found.lookup path).getD (.error .missing), fun _ => none⟩ args).carryOut
