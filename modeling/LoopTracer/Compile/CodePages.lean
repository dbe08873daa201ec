import LoopTracer.Fragment.Basic
import LoopTracer.Machine.Backend

/-! Code pages.

All compiled code lies in one region that is cut into pages of equal size. Page zero holds the
code that every exit ends in. The others are free, or hold the main code or the exit code of a
fragment; the free ones form a chain. -/
namespace LoopTracer.Compile

open Machine

inductive PageKind where
  | free
  | main
  | exit
  | bailout
  | other (n : UInt8)
deriving DecidableEq, Inhabited

namespace PageKind

def all : Array PageKind := #[.free, .main, .exit, .bailout]

def ofByte (n : UInt8) : PageKind := numbered all .other n

def name : PageKind → Text
  | free => "free"
  | main => "main"
  | exit => "exit"
  | bailout => "bailout"
  | other _ => "?"

end PageKind

structure CodePage where
  kind : PageKind
  owner : FragmentId := 0
  /-- The next free page. -/
  next : Option Nat := none
deriving Inhabited

structure CodePages where
  mem : Memory := {}
  /-- What the memory held when the region was given up. A machine goes on seeing it. -/
  last : Option Memory := none
  pageSize : Int := 0
  pages : Array CodePage := #[]
  /-- The first free page. -/
  free : Option Nat := none
  freeCount : Nat := 0
  /-- Where the shared exit code is. -/
  bailout : CodeAddr := 0
deriving Inhabited

/-- How many pages there are and of what use. -/
structure PageCounts where
  pageSize : Int
  pages : Nat
  free : Nat
  main : Nat
  exit : Nat

/-- Why there is no code region. -/
inductive RegionError where
  | tooFew (pages : Int)
  /-- No region of that size can be mapped at all. -/
  | unmappable (size : Int)
  /-- The addresses do not suffice. -/
  | exhausted (size : Int)
  | fault (f : Fault)

def RegionError.message : RegionError → Text
  | tooFew n => "jit: need at least 2 code pages, got " ++ .ofInt n
  | unmappable n => "failed to map " ++ .ofInt n ++ " bytes of code space: mmap: invalid argument"
  | exhausted n =>
    "failed to map " ++ .ofInt n ++ " bytes of code space: mmap: cannot allocate memory"
  | fault f => f.message

namespace CodePages

/-- The pages of a region where all but the first are free, in ascending order. -/
def fresh (n : Nat) : Array CodePage :=
  (Array.range n).map fun i =>
    if i = 0 then { kind := .bailout }
    else { kind := .free, next := if i + 1 < n then some (i + 1) else none }

/-- Gives back every page but the first. -/
def reset (c : CodePages) : CodePages :=
  let n := c.pages.size
  { c with pages := fresh n, free := if 1 < n then some 1 else none, freeCount := n - 1 }

/-- The bytes of a page in the table of pages. -/
def pageEntrySize : Nat := 12

/-- The bytes that the system maps at a time. -/
def mapUnit : Int := 4096

/-- The bytes that have addresses to be mapped to. -/
def mapLimit : Int := Nat.pow 2 47 - mapUnit

/-- Why the system maps no region of a size, which it rounds up to whole units. -/
def mapError? (size : Int) : Option RegionError :=
  let units := signed64 (size + (mapUnit - 1)) / mapUnit
  if units ≤ 0 then some (.unmappable size)
  else if mapLimit < units * mapUnit then some (.exhausted size)
  else none

/-- A region of `count` pages, whose size is a signed number of 64 bits; a native one is mapped
from the system. -/
def create (count pageSize : Int) (native : Bool) : Except RegionError CodePages := do
  if count < 2 then throw (.tooFew count)
  let size := signed64 (count * pageSize)
  if native then
    if let some e := mapError? size then throw e
  else if !blockFits size 1 then throw (.fault .bounds)
  if !blockFits count pageEntrySize then throw (.fault .bounds)
  return reset { mem := { size := size.toNat }, pageSize, pages := fresh count.toNat }

/-- The range of a page. -/
def bounds (c : CodePages) (h : Nat) : Int × Int :=
  (signed64 (h * c.pageSize), signed64 (h * c.pageSize + c.pageSize))

/-- The page of an address, a signed number of 32 bits. -/
def pageOf (c : CodePages) (a : CodeAddr) : Except Fault Int :=
  if c.pageSize == 0 then .error .bounds
  else .ok (Int32.ofInt ((a.toNat : Int).tdiv c.pageSize)).toInt

def page (c : CodePages) (h : Nat) : Except Fault CodePage :=
  match c.pages[h]? with
  | some p => .ok p
  | none => .error .bounds

def counts (c : CodePages) : PageCounts where
  pageSize := c.pageSize
  pages := c.pages.size
  free := c.freeCount
  main := c.pages.countP fun p => p.kind == .main
  exit := c.pages.countP fun p => p.kind == .exit

/-- Takes the first free page. -/
def take? (c : CodePages) (kind : PageKind) : Option (CodePages × Nat) := do
  let h ← c.free
  let p ← c.pages[h]?
  return ({ c with pages := c.pages.set! h { kind }, free := p.next, freeCount := c.freeCount - 1 }, h)

/-- Operations that may stop at a fault midway. -/
abbrev Paged := EStateM Fault CodePages

/-- Gives back one page. -/
def release (h : Nat) : Paged Unit := fun c =>
  match c.pages[h]? with
  | none => .error .bounds c
  | some p =>
    if p.kind == .free || p.kind == .bailout then .error (.freeingPage p.kind.name h) c
    else .ok () { c with
      pages := c.pages.set! h { kind := .free, next := c.free }
      free := some h
      freeCount := c.freeCount + 1 }

/-- Gives back pages one after the other. -/
def releaseAll (l : List Nat) : Paged Unit := l.forM release

/-- Makes a fragment the owner of pages. -/
def handOver (owner : FragmentId) (l : List Nat) : Paged Unit := l.forM fun h c =>
  if h < c.pages.size then
    .ok () { c with pages := c.pages.modify h fun p => { p with owner } }
  else .error .bounds c

/-- Writes the shared exit code at the end of the first page. -/
def installBailout (b : Backend) : Paged Unit := fun c =>
  let mem := c.mem
  let c := { c with mem := {} }
  match (Writer.mk 0 c.pageSize).emit b mem .bailout with
  | (_, mem, some f) => .error f { c with mem }
  | (w, mem, none) => .ok () { c with mem, bailout := w.pos }

/-- The number of pages that are neither free nor the first one. -/
def owned (c : CodePages) : Int := (c.pages.size : Int) - 1 - c.freeCount

/-- The complaint about pages that still have an owner when the region is given up. -/
def stillOwned (n : Int) : Text := "jit: " ++ .ofInt n ++ " code pages still owned at close"

/-- The code that a machine sees. -/
def seen (c : CodePages) : Memory := c.last.getD c.mem

/-- Gives up the region and tells how many pages still have an owner. -/
def close (c : CodePages) : CodePages × Option Int :=
  ({ c with mem := {}, last := some c.seen }, if 0 < c.owned then some c.owned else none)

end CodePages

end LoopTracer.Compile
