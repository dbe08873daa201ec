import LoopTracer.Bytecode.Verify
import LoopTracer.Text.Blank

/-! Source text.

A line is a `.func name locals [arity]` directive, a label, an instruction or both, and a
comment runs from a semicolon outside quotes to the end of the line. `assemble` reads the
lines in order, resolves the jumps of a function when the function ends and the function
constants when the text ends, and verifies the result. -/
namespace LoopTracer.Bytecode.Source

/-- What is wrong with a line. -/
inductive Cause where
  | outsideFunction
  | duplicateLabel (label : Text)
  | unknownDirective (word : Text)
  | directiveUsage
  | duplicateFunction (name : Text)
  | badLocals (word : Text)
  | badArity (word : Text)
  | undefinedLabel (label : Text)
  | loopNotBack (label : Text)
  | jumpRange (label : Text)
  | unknownInstruction (word : Text)
  | takesNoOperand (op : Opcode)
  | needsOperand (op : Opcode)
  | missingFunctionName
  | badString (literal : Text)
  | badConstant (literal : Text)
  | tooManyConstants
  | badSlot (word : Text)
  | unknownBuiltin (word : Text)
  | badArgumentCount (word : Text)
  | noFunctions
  | undefinedFunction (name : Text)

namespace Cause

def message : Cause → Text
  | outsideFunction => "instruction outside of a function"
  | duplicateLabel l => "duplicate label " ++ l.quote
  | unknownDirective w => "unknown directive " ++ w
  | directiveUsage => "usage: .func name locals [arity]"
  | duplicateFunction n => "duplicate function " ++ n.quote
  | badLocals w => "bad local count " ++ w.quote
  | badArity w => "bad arity " ++ w.quote
  | undefinedLabel l => "undefined label " ++ l.quote
  | loopNotBack l => "loop target " ++ l.quote ++ " must precede the loop instruction"
  | jumpRange l => "jump to " ++ l.quote ++ " out of range"
  | unknownInstruction w => "unknown instruction " ++ w.quote
  | takesNoOperand op => op.mnemonic ++ " takes no operand"
  | needsOperand op => op.mnemonic ++ " needs an operand"
  | missingFunctionName => "missing function name after @"
  | badString l => "bad string literal " ++ l
  | badConstant l => "bad constant " ++ l.quote
  | tooManyConstants => "too many constants"
  | badSlot w => "bad slot " ++ w.quote
  | unknownBuiltin w => "unknown builtin " ++ w.quote
  | badArgumentCount w => "bad argument count " ++ w.quote
  | noFunctions => "no functions"
  | undefinedFunction n => "undefined function " ++ n.quote

end Cause

/-- A cause and the line it stands on. -/
structure Error where
  line : Nat
  cause : Cause

namespace Error

/-- The message, with the file's name in front of the line where there is one. -/
def message (file : Text) (e : Error) : Text :=
  (if file.isEmpty then Text.ofString "line " else file ++ ":") ++ .ofNat e.line ++ ": " ++ e.cause.message

end Error

/-! ### Lines -/

/-- The line up to a semicolon outside quotes. -/
def stripComment (l : List UInt8) : List UInt8 := go false false l
where
  go (quoted escaped : Bool) : List UInt8 → List UInt8
    | [] => []
    | b :: rest =>
      if escaped then b :: go quoted false rest
      else if b == 92 && quoted then b :: go quoted true rest
      else if b == 34 then b :: go (!quoted) false rest
      else if b == 59 && !quoted then []
      else b :: go quoted false rest

def isSpaceOrTab (b : UInt8) : Bool := b == 32 || b == 9

/-- Splits a label off: the text before the first colon, unless that text is empty or holds a
blank or a quote. -/
def splitLabel? (t : Text) : Option (Text × Text) :=
  let l := t.toList
  let label := l.takeWhile (· != 58)
  match l.dropWhile (· != 58) with
  | [] => none
  | _ :: rest =>
    if label.isEmpty || label.any (fun b => isSpaceOrTab b || b == 34) then none
    else some (.ofList label, (Text.ofList rest).trim)

/-- The first word of an instruction and the trimmed rest. -/
def splitWord (t : Text) : Text × Text :=
  let l := t.toList
  (.ofList (l.takeWhile (!isSpaceOrTab ·)),
    (Text.ofList ((l.dropWhile (!isSpaceOrTab ·)).drop 1)).trim)

/-- A decimal number from zero to `limit`. -/
def bounded? (t : Text) (limit : Nat) : Option Nat :=
  (Reading.integer? t).bind fun n => if 0 ≤ n && n ≤ limit then some n.toNat else none

/-- What a constant operand denotes. -/
inductive Literal where
  | value (v : Value)
  /-- The function of a name, to be found once all functions are read. -/
  | function (name : Text)

/-- Reads a constant operand. -/
def literal (t : Text) : Except Cause Literal :=
  if t == "null" then .ok (.value .null)
  else if t == "true" then .ok (.value (.bool true))
  else if t == "false" then .ok (.value (.bool false))
  else match t.toList with
    | 64 :: name => if name.isEmpty then .error .missingFunctionName else .ok (.function (.ofList name))
    | 34 :: _ =>
      match t.unquote? with
      | some s => .ok (.value (.str s))
      | none => .error (.badString t)
    | _ =>
      match Reading.literal? t with
      | some n => .ok (.value (.ofInt n))
      | none =>
        match Reading.binary? t with
        | some x => .ok (.value (.float x))
        | none => .error (.badConstant t)

/-! ### Functions under construction -/

/-- A jump whose label is looked up when its function ends. -/
structure Fixup where
  /-- The offset of the opcode. -/
  place : Nat
  label : Text
  line : Nat

/-- A function constant whose function is looked up at the end of the text. -/
structure Pending where
  function : Nat
  index : UInt16
  name : Text
  line : Nat

/-- The function being read. -/
structure Draft where
  name : Text
  arity : Nat
  locals : Nat
  chunk : Chunk := {}
  labels : List (Text × Nat) := []
  fixups : Array Fixup := #[]

structure State where
  functions : Array Function := #[]
  draft : Option Draft := none
  pending : Array Pending := #[]

/-- Writes the distance of one jump. -/
def resolve (labels : List (Text × Nat)) (c : Chunk) (f : Fixup) : Except Error Chunk :=
  let fail (cause : Cause) : Except Error Chunk := .error ⟨f.line, cause⟩
  match labels.lookup f.label with
  | none => fail (.undefinedLabel f.label)
  | some target =>
    let next := f.place + 3
    let put (n : UInt16) := .ok ((c.putU16? (f.place + 1) n).getD c)
    if (c.byte? f.place).bind Opcode.ofByte? == some .loop then
      if f.place < target || 65535 < next - target then fail (.loopNotBack f.label)
      else put (next - target).toUInt16
    else
      let distance : Int := (target : Int) - next
      if distance < -32768 || 32767 < distance then fail (.jumpRange f.label)
      else put (UInt16.ofInt distance)

/-- The function that a draft describes, with its jumps resolved. -/
def Draft.finish (d : Draft) (id : Nat) : Except Error Function := do
  let chunk ← d.fixups.foldlM (resolve d.labels) d.chunk
  return { id := id.toUInt32, name := d.name, arity := d.arity, locals := d.locals, chunk }

/-- Ends the function being read, if there is one. -/
def State.finish (s : State) : Except Error State :=
  match s.draft with
  | none => .ok s
  | some d => do
    let f ← d.finish (s.functions.size + 1)
    return { s with functions := s.functions.push f, draft := none }

/-- A directive line. -/
def State.directive (s : State) (line : Nat) (t : Text) : Except Error State := do
  let fail {α : Type} (cause : Cause) : Except Error α := .error ⟨line, cause⟩
  let words := t.words
  let head := words.headD ∅
  if head != ".func" then fail (.unknownDirective head)
  let (name, locals, arity) ← match words with
    | [_, name, locals] => pure (name, locals, none)
    | [_, name, locals, arity] => pure (name, locals, some arity)
    | _ => fail .directiveUsage
  let s ← s.finish
  if s.functions.any (·.name == name) then fail (.duplicateFunction name)
  let some n := bounded? locals 65535 | fail (.badLocals locals)
  let k ← match arity with
    | none => pure 0
    | some word =>
      match bounded? word 255 with
      | some k => pure k
      | none => fail (.badArity word)
  return { s with draft := some { name, arity := k, locals := n } }

/-- Writes the operand of an instruction after its opcode. Function constants hold null until
the end of the text. -/
def operand (line function : Nat) (d : Draft) (op : Opcode) (place : Nat) (t : Text) :
    Except Cause (Draft × Option Pending) :=
  match op.operand with
  | .none => .ok (d, none)
  | .const =>
    match literal t with
    | .error e => .error e
    | .ok l =>
      let c := d.chunk
      let d := { d with chunk := {} }
      let (c, index, pending) : Chunk × UInt16 × Option Pending := match l with
        | .function name =>
          let index := c.constants.size.toUInt16
          ({ c with constants := c.constants.push .null }, index,
            some { function, index, name, line })
        | .value v =>
          let (c, index) := c.addConstant v
          (c, index, none)
      if 65536 < c.constants.size then .error .tooManyConstants
      else .ok ({ d with chunk := c.writeU16 index line }, pending)
  | .slot =>
    match bounded? t 65535 with
    | some n => .ok ({ d with chunk := d.chunk.writeU16 n.toUInt16 line }, none)
    | none => .error (.badSlot t)
  | .jump | .loop =>
    .ok ({ d with fixups := d.fixups.push ⟨place, t, line⟩, chunk := d.chunk.writeU16 0 line }, none)
  | .byte =>
    if op == .builtin then
      match Builtin.ofName? t with
      | some b => .ok ({ d with chunk := d.chunk.write b.toByte line }, none)
      | none => .error (.unknownBuiltin t)
    else
      match bounded? t 255 with
      | some n => .ok ({ d with chunk := d.chunk.write n.toUInt8 line }, none)
      | none => .error (.badArgumentCount t)

/-- An instruction without its label. -/
def instruction (line function : Nat) (d : Draft) (t : Text) :
    Except Cause (Draft × Option Pending) :=
  let (word, rest) := splitWord t
  match Opcode.ofMnemonic? word.lower with
  | none => .error (.unknownInstruction word)
  | some op =>
    if op.operand == .none && !rest.isEmpty then .error (.takesNoOperand op)
    else if op.operand != .none && rest.isEmpty then .error (.needsOperand op)
    else
      let place := d.chunk.size
      operand line function { d with chunk := d.chunk.writeOp op line } op place rest

/-- One line inside a function: an optional label and an optional instruction. -/
def statement (line function : Nat) (d : Draft) (t : Text) :
    Except Cause (Draft × Option Pending) :=
  match splitLabel? t with
  | none => instruction line function d t
  | some (label, rest) =>
    if (d.labels.lookup label).isSome then .error (.duplicateLabel label)
    else
      let d := { d with labels := (label, d.chunk.size) :: d.labels }
      if rest.isEmpty then .ok (d, none) else instruction line function d rest

/-- One line of source. -/
def State.line (s : State) (line : Nat) (raw : Text) : Except Error State :=
  let t := (Text.ofList (stripComment raw.toList)).trim
  if t.isEmpty then .ok s
  else if t.startsWith "." then s.directive line t
  else match s.draft with
    | none => .error ⟨line, .outsideFunction⟩
    | some d =>
      let s := { s with draft := none }
      match statement line s.functions.size d t with
      | .error cause => .error ⟨line, cause⟩
      | .ok (d, pending) =>
        .ok { s with draft := some d, pending := s.pending ++ pending.toArray }

/-- Replaces one function constant by its function. -/
def link (functions : Array Function) (p : Pending) : Except Error (Array Function) :=
  match functions.findIdx? (·.name == p.name) with
  | none => .error ⟨p.line, .undefinedFunction p.name⟩
  | some i =>
    .ok (functions.modify p.function fun f =>
      { f with chunk := f.chunk.map fun c =>
          { c with constants := c.constants.set! p.index.toNat (.func (some ⟨0, i, p.name⟩)) } })

/-- Reads a whole text, before verification. The program starts with the function `main`, or
with the first one. -/
def parse (text : Text) : Except Error Program := do
  let (s, _) ← (text.split 10).foldlM (fun ((s, n) : State × Nat) raw => do
    return (← s.line n raw, n + 1)) ({}, 1)
  let s ← s.finish
  if s.functions.isEmpty then .error ⟨1, .noFunctions⟩
  let functions ← s.pending.foldlM link s.functions
  let p : Program := { functions }
  return { p with main := .listed ((p.lookup? "main").getD 0) }

end LoopTracer.Bytecode.Source
