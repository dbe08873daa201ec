import LoopTracer.Command.Run

/-! A directory that holds files and no directories, in which commands run one after the other.

A path is followed part by part from this directory, or from the outermost one if it starts with
a slash. Of the directories outside nothing is known but that they are there, so nothing is found
in them and everything can be written. -/
namespace LoopTracer.Command

structure Directory where
  files : List (Text × ByteArray) := []

/-- Where a path leads. -/
inductive Place where
  /-- This directory or one outside. -/
  | directory
  /-- A name in this directory, or in one outside. -/
  | entry (inside : Bool) (name : Text)

namespace Directory

/-- The longest name of a file. -/
def maxName : Nat := 255

/-- The longest path. -/
def maxPath : Nat := 4095

def slash : UInt8 := 47

/-- Whether a path asks for a directory by a slash at its end. -/
def asksDirectory (path : Text) : Bool := path.toList.getLast? = some slash

/-- Follows the parts of a path, each but the last of which must be a directory. -/
def follow (d : Directory) (inside : Bool) : List Text → Except FileError Place
  | [] => .ok .directory
  | part :: rest =>
    if part = Text.ofString "." then d.follow inside rest
    else if part = Text.ofString ".." then d.follow false rest
    else if rest.isEmpty then .ok (.entry inside part)
    else if maxName < part.size then .error .longName
    else if inside && (d.files.lookup part).isSome then .error .notDirectory
    else .error .missing

/-- Where a path leads from here. -/
def locate (d : Directory) (path : Text) : Except FileError Place :=
  if path.toList.contains 0 then .error .badPath
  else if path.isEmpty then .error .missing
  else if maxPath < path.size then .error .longName
  else d.follow (path.toList.head? ≠ some slash) ((path.split slash).filter fun part => !part.isEmpty)

/-- The contents of the file that a path leads to. -/
def read (d : Directory) (path : Text) : Except FileError ByteArray := do
  match ← d.locate path with
  | .directory => throw .isDirectory
  | .entry inside name =>
    if maxName < name.size then throw .longName
    match if inside then d.files.lookup name else none with
    | none => throw .missing
    | some data => if asksDirectory path then throw .notDirectory else return data

/-- Where a file under a path is written. -/
def placeFor (d : Directory) (path : Text) : Except FileError (Bool × Text) := do
  match ← d.locate path with
  | .directory => throw .isDirectory
  | .entry inside name =>
    if asksDirectory path then throw .isDirectory
    if maxName < name.size then throw .longName
    return (inside, name)

/-- Writes a file if it can be written; one outside is lost. -/
def write (d : Directory) (path : Text) (data : ByteArray) : Directory :=
  match d.placeFor path with
  | .ok (true, name) => ⟨(name, data) :: d.files⟩
  | _ => d

def toFiles (d : Directory) : Files where
  read := d.read
  refusal? path := match d.placeFor path with
    | .ok _ => none
    | .error e => some e

/-- Runs a command here. -/
def run (d : Directory) (args : List Text) : Directory × Outcome :=
  let o := Command.run d.toFiles args
  (o.wrote.elim d fun (path, data) => d.write path data, o)

end Directory

end LoopTracer.Command
