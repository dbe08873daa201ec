import LoopTracer.Bytecode.Verify

/-! The compiled form of a program.

A file is a header of twenty bytes, a pool of strings and the functions, all numbers with the
most significant byte first. The header gives the offsets of the two sections and the place of
the main function. Strings are stored once, in the order in which the functions first use
them, and a function constant is stored as the name of its function. -/
namespace LoopTracer.Bytecode.Image

/-- What is wrong with a file, or with a program to be written. -/
inductive Error where
  | noMain
  | mainNotListed
  | tooManyLocals (function : Text)
  | nilFunction
  | unsupportedConstant (tag : UInt8)
  | tooSmall
  | badMagic
  | badVersion (major minor : UInt8)
  | sectionRange
  | unexpectedEnd
  | stringPool
  | functionTable
  | codeSection
  | lineCount (lines code : Nat)
  | constantPool
  | integerRange (n : Int)
  | unknownTag (tag : UInt8)
  | stringIndex (index : Nat)
  | mainIndex (index : Nat)
  | undefinedFunction (name : Text)
  /-- An access outside the file or a table, which no check has refused before. -/
  | fault (f : Fault)

namespace Error

/-- What is wrong, in words. -/
def detail : Error → Text
  | noMain => "program has no main function"
  | mainNotListed => "main function is not part of the program"
  | tooManyLocals f => "function " ++ f ++ " has too many locals"
  | nilFunction => "nil function constant"
  | unsupportedConstant tag => "unsupported constant type " ++ Value.tagName tag
  | tooSmall => "file too small"
  | badMagic => "invalid magic number, not a compiled program"
  | badVersion major minor =>
    "incompatible version: file is v" ++ .ofNat major.toNat ++ "." ++ .ofNat minor.toNat
      ++ ", VM is v" ++ .ofNat version.1.toNat ++ "." ++ .ofNat version.2.toNat
  | sectionRange => "section offset out of range"
  | unexpectedEnd => "unexpected end of file"
  | stringPool => "string pool corrupted"
  | functionTable => "function table corrupted"
  | codeSection => "code section corrupted"
  | lineCount lines code =>
    .ofNat lines ++ " line entries for " ++ .ofNat code ++ " code bytes"
  | constantPool => "constant pool corrupted"
  | integerRange n => "integer constant " ++ .ofInt n ++ " out of range"
  | unknownTag tag => "unknown constant tag " ++ .ofNat tag.toNat
  | stringIndex i => "string index " ++ .ofNat i ++ " out of range"
  | mainIndex i => "main index " ++ .ofNat i ++ " out of range"
  | undefinedFunction n => "undefined function " ++ n.quote
  | fault f => f.message

def message (e : Error) : Text := "bytecode format error: " ++ e.detail

end Error

/-- The first four bytes of every file: the letters `TJIT`. -/
def magic : UInt32 := 0x544A4954

/-- The length of the header. -/
def headerSize : Nat := 20

/-! ### Numbers -/

/-- The lowest `count` bytes of a number, the most significant first. -/
def bigEndian (count n : Nat) : List UInt8 :=
  (List.range count).map fun i => (n >>> (8 * (count - 1 - i))).toUInt8

/-- A signed number in 64 bits. -/
def int64Bytes (n : Int) : List UInt8 := bigEndian 8 (n % (Nat.pow 2 64 : Nat)).toNat

/-! ### Writing -/

/-- The strings met so far, in order. -/
structure Pool where
  strings : Array Text := #[]

/-- The place of a string in the pool. -/
def Pool.add (p : Pool) (t : Text) : Pool × Nat :=
  match p.strings.findIdx? (· == t) with
  | some i => (p, i)
  | none => ({ strings := p.strings.push t }, p.strings.size)

def Pool.bytes (p : Pool) : ByteArray :=
  p.strings.foldl (fun acc t => acc ++ (bigEndian 4 t.size).toByteArray ++ t.bytes)
    (bigEndian 4 p.strings.size).toByteArray

/-- One constant: its type number and its data. -/
def writeValue (p : Pool) : Value → Except Error (Pool × List UInt8)
  | .null => .ok (p, [0])
  | .bool b => .ok (p, [1, if b then 1 else 0])
  | .int n => .ok (p, 2 :: int64Bytes n.toInt)
  | .float x => .ok (p, 3 :: bigEndian 8 x.bits.toNat)
  | .str s =>
    let (p, i) := p.add s
    .ok (p, 4 :: bigEndian 4 i)
  | .func none => .error .nilFunction
  | .func (some f) =>
    let (p, i) := p.add f.name
    .ok (p, 5 :: bigEndian 4 i)
  | .reserved tag => .error (.unsupportedConstant tag)

/-- Why a program cannot be written: it has no compiled form, or a function without code
breaks the caller's side of the contract. -/
inductive WriteFailure where
  | format (e : Error)
  | fault (f : Fault)

/-- One function: its header, code, lines and constants. -/
def writeFunction (p : Pool) (acc : ByteArray) (f : Function) :
    Except WriteFailure (Pool × ByteArray) := do
  if 65535 < f.locals || 65535 < f.arity then .error (.format (.tooManyLocals f.name))
  let (p, name) := p.add f.name
  let some c := f.chunk | .error (.fault .bounds)
  let number (acc : ByteArray) (width : Nat) (n : Int) : ByteArray :=
    acc ++ (bigEndian width (n % (Nat.pow 2 (8 * width) : Nat)).toNat).toByteArray
  let acc := number (number (number (number acc 4 name) 4 f.id.toNat) 2 f.arity) 2 f.locals
  let acc := number acc 4 c.size ++ c.code
  let acc := c.lines.foldl (fun acc n => number acc 4 n) (number acc 4 c.lines.size)
  c.constants.foldlM (fun ((p, acc) : Pool × ByteArray) v => do
    let (p, bytes) ← (writeValue p v).mapError .format
    return (p, acc ++ bytes.toByteArray)) (p, number acc 4 c.constants.size)

/-- The file of a program. -/
def write (program : Program) : Except WriteFailure ByteArray := do
  let main ← match program.main with
    | .absent => .error (.format .noMain)
    | .stray _ => .error (.format .mainNotListed)
    | .listed i => pure i
  let count := (bigEndian 4 program.functions.size).toByteArray
  let (pool, functions) ← program.functions.foldlM
    (fun ((p, acc) : Pool × ByteArray) f => writeFunction p acc f) ({}, count)
  let strings := pool.bytes
  let header := bigEndian 4 magic.toNat ++ [version.1, version.2, 0, 0]
    ++ bigEndian 4 headerSize ++ bigEndian 4 (headerSize + strings.size) ++ bigEndian 4 main
  return header.toByteArray ++ strings ++ functions

/-! ### Reading -/

/-- A reader of a file's bytes from a position on. -/
abbrev Read := ReaderT ByteArray (StateT Nat (Except Error))

/-- The `count` bytes of a file from a place on. -/
def slice (data : ByteArray) (place count : Nat) : Except Error ByteArray :=
  if place + count ≤ data.size then .ok (data.extract place (place + count))
  else .error (.fault .bounds)

/-- The number that bytes stand for, the most significant first. -/
def value (bytes : ByteArray) : Nat := bytes.foldl (fun acc b => acc * 256 + b.toNat) 0

/-- The number in the next `count` bytes. -/
def number (count : Nat) : Read Nat := do
  let data ← read
  let place ← get
  if data.size < place + count then throw .unexpectedEnd
  set (place + count)
  return value (← slice data place count)

/-- The next `count` bytes; `error` says what is broken where there are fewer. -/
def take (count : Nat) (error : Error) : Read ByteArray := do
  let data ← read
  let place ← get
  if data.size < place + count then throw error
  set (place + count)
  slice data place count

/-- Refuses a count above the size of the whole file. -/
def count (error : Error) : Read Nat := do
  let n ← number 4
  if (← read).size < n then throw error
  return n

/-- Reads `n` items. -/
def many {α : Type} (item : Read α) : (n : Nat) → Array α → Read (Array α)
  | 0, acc => return acc
  | n + 1, acc => do many item n (acc.push (← item))

def pool : Read (Array Text) := do
  let n ← count .stringPool
  many (do return ⟨← take (← number 4) .stringPool⟩) n #[]

def stringAt (pool : Array Text) (i : Nat) : Read Text :=
  match pool[i]? with
  | some t => return t
  | none => throw (.stringIndex i)

/-- A constant, or the name of the function that a constant refers to. -/
def constant (pool : Array Text) : Read (Value × Option Text) := do
  let tag ← number 1
  match tag with
  | 0 => return (.null, none)
  | 1 => return (.bool ((← number 1) != 0), none)
  | 2 =>
    let n := (Int64.ofNat (← number 8)).toInt
    if n < -2147483648 || 2147483647 < n then throw (.integerRange n)
    return (.int (Int32.ofInt n), none)
  | 3 => return (.float ⟨(← number 8).toUInt64⟩, none)
  | 4 => return (.str (← stringAt pool (← number 4)), none)
  | 5 => return (.null, some (← stringAt pool (← number 4)))
  | _ => throw (.unknownTag tag.toUInt8)

/-- A function as it stands in the file, with the names its function constants refer to. -/
structure Stored where
  function : Function
  /-- The places of function constants and the names there; a nameless one stays null. -/
  names : List (Nat × Text)

def function (pool : Array Text) : Read Stored := do
  let name ← stringAt pool (← number 4)
  let id ← number 4
  let arity ← number 2
  let locals ← number 2
  let size ← number 4
  let code ← take size .codeSection
  let lines ← number 4
  if lines != size then throw (.lineCount lines size)
  let lines ← many (do return ((← number 4 : Nat) : Int)) lines #[]
  let n ← count .constantPool
  let constants ← many (constant pool) n #[]
  let names := constants.toList.zipIdx.filterMap fun ((_, name), i) =>
    name.bind fun t => if t.isEmpty then none else some (i, t)
  return {
    function := { id := id.toUInt32, name, arity, locals
                  chunk := some { code, lines, constants := constants.map (·.1) } }
    names }

/-- Checks the header: size, magic number and major version. -/
def checkHeader (data : ByteArray) : Except Error Unit := do
  if data.size < headerSize then throw .tooSmall
  if value (← slice data 0 4) != magic.toNat then throw .badMagic
  let major := (value (← slice data 4 1)).toUInt8
  if major != version.1 then throw (.badVersion major (value (← slice data 5 1)).toUInt8)

/-- Replaces the function constants of a stored function. -/
def Stored.link (all : Array Function) (s : Stored) : Except Error Function := do
  let c := s.function.chunk.getD {}
  let constants ← s.names.foldlM (fun (constants : Array Value) (i, name) =>
    match all.findIdx? (·.name == name) with
    | none => .error (.undefinedFunction name)
    | some j =>
      if i < constants.size then .ok (constants.set! i (.func (some ⟨0, j, name⟩)))
      else .error (.fault .bounds)) c.constants
  return { s.function with chunk := some { c with constants } }

/-- Why a file is not a program: it is malformed, itself or in one of its functions, or what
it holds is refused by verification. -/
inductive Failure where
  | malformed (e : Error)
  | function (index : Nat) (e : Error)
  | refused (refusals : List Refusal)

namespace Failure

def message : Failure → Text
  | malformed e => e.message
  | function i e => "failed to read function " ++ .ofNat i ++ ": " ++ e.message
  | refused l => "bytecode verification failed: " ++ Refusal.combined l

end Failure

/-- Reads the functions one by one, so that a failure knows which one it is in. -/
def functionsFrom (pool : Array Text) (data : ByteArray) :
    (n : Nat) → (place : Nat) → Array Stored → Except Failure (Array Stored)
  | 0, _, acc => .ok acc
  | n + 1, place, acc =>
    match (function pool data).run place with
    | .error e => .error (.function acc.size e)
    | .ok (f, place) => functionsFrom pool data n place (acc.push f)

/-- The header and the strings: where the functions start, how many there are, the place of
the main function and the pool. -/
def preamble (data : ByteArray) : Except Error (Nat × Nat × Nat × Array Text) := do
  checkHeader data
  let strings := value (← slice data 8 4)
  let functions := value (← slice data 12 4)
  let main := value (← slice data 16 4)
  if data.size < strings || data.size < functions then throw .sectionRange
  let (pool, _) ← (pool data).run strings
  let (n, place) ← (count .functionTable data).run functions
  return (place, n, main, pool)

/-- The program in a file, before verification. -/
def parse (data : ByteArray) : Except Failure Program := do
  let (place, n, main, pool) ← (preamble data).mapError .malformed
  let stored ← functionsFrom pool data n place #[]
  if stored.size ≤ main then throw (.malformed (.mainIndex main))
  let all := stored.map (·.function)
  let functions ← (stored.mapM (Stored.link all)).mapError .malformed
  return { functions, main := .listed main }

/-- The verified program in a file. -/
def read (data : ByteArray) : Except Failure Program := do
  let (p, refusals) := (← parse data).verify
  if refusals.isEmpty then return p else throw (.refused refusals)

end LoopTracer.Bytecode.Image
