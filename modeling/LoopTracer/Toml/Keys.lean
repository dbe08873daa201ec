import LoopTracer.Toml.Basic

/-! Keys of a document that have been given a meaning.

A key may be given once: as a value, as a table or as a list of tables. A table that a header
opened, or that dotted keys of an earlier table made, is not opened again, and a new element of a
list of tables forgets what the one before it held. -/
namespace LoopTracer.Toml

inductive KeyKind where
  | value
  | table
  | elements
deriving DecidableEq

structure KeyMark where
  kind : KeyKind
  /-- No header and no dotted key may open it again. -/
  closed : Bool := false
  /-- Made by a dotted key of the table being filled. -/
  dotted : Bool := false

/-- The keys given so far, by their full path, and the table being filled. -/
structure Keys where
  marks : List (Key × KeyMark) := []
  current : Key := []

namespace Keys

def find? (k : Keys) (path : Key) : Option KeyMark := k.marks.lookup path

def insert (k : Keys) (path : Key) (m : KeyMark) : Keys :=
  { k with marks := (path, m) :: k.marks.filter fun (p, _) => p ≠ path }

/-- Whether `path` lies below `top`. -/
def below (top path : Key) : Bool := top.isPrefixOf path && top.length < path.length

/-- Closes the tables that dotted keys made below the table being filled. -/
def leave (k : Keys) : Keys :=
  { k with marks := k.marks.map fun (p, m) =>
      (p, if below k.current p && m.dotted then { m with closed := true, dotted := false } else m) }

/-- Enters the tables on the way to a header's table, making those that are missing. -/
def pass? (k : Keys) (path : Key) : Key → Option Keys
  | [] | [_] => some k
  | part :: rest =>
    let path := path ++ [part]
    match k.find? path with
    | none => (k.insert path { kind := .table }).pass? path rest
    | some m => if m.kind = .value then none else k.pass? path rest

/-- Opens the table of a header. -/
def openTable? (k : Keys) (key : Key) : Option Keys := do
  let k ← k.leave.pass? [] key
  match k.find? key with
  | none => return { k.insert key { kind := .table, closed := true } with current := key }
  | some m =>
    if m.kind ≠ .table || m.closed then none
    else return { k.insert key { m with closed := true } with current := key }

/-- Opens a new element of a list of tables. -/
def openElement? (k : Keys) (key : Key) : Option Keys := do
  let k ← k.leave.pass? [] key
  match k.find? key with
  | none => return { k.insert key { kind := .elements, closed := true } with current := key }
  | some m =>
    if m.kind ≠ .elements then none
    else return { marks := k.marks.filter fun (p, _) => !below key p, current := key }

/-- Gives a value to a dotted key below `path`. -/
def give? (k : Keys) (path : Key) : Key → Option Keys
  | [] => some k
  | part :: rest =>
    let path := path ++ [part]
    match k.find? path with
    | none =>
      let kind := if rest.isEmpty then KeyKind.value else .table
      (k.insert path { kind, dotted := true }).give? path rest
    | some m => if rest.isEmpty || m.kind ≠ .table || m.closed then none else k.give? path rest

end Keys

mutual

/-- Whether no table inside the value gives a key twice. -/
def Value.distinct : Value → Bool
  | .list l => distinctAll l
  | .table l => distinctEntries {} l
  | _ => true

def distinctAll : List Value → Bool
  | [] => true
  | v :: rest => v.distinct && distinctAll rest

def distinctEntries (k : Keys) : List (Key × Value) → Bool
  | [] => true
  | (key, v) :: rest =>
    match k.give? [] key with
    | none => false
    | some k => v.distinct && distinctEntries k rest

end

/-- Gives a key of the table being filled its value. -/
def Keys.enter? (k : Keys) (key : Key) (v : Value) : Option Keys :=
  if v.distinct then k.give? k.current key else none

end LoopTracer.Toml
