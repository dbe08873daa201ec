import Std.Data.TreeMap
import Std.Data.TreeSet
import LoopTracer.Compile.Assembly

/-! The fragment cache: all fragments, their guards and the code region.

Fragments and guards are numbered in the order in which they are made, and the numbers are
never used again. A fragment that is dropped stays in the table of fragments, so that what
still refers to it can be shown, but it is no longer cached and its code is gone. -/
namespace LoopTracer

open Machine Trace Compile

structure FragmentCache where
  backend : Backend
  region : CodePages
  /-- Every fragment ever made: number `n` is at place `n - 1`. -/
  fragments : Array Fragment := #[]
  /-- The root of each loop. -/
  roots : Std.TreeMap LoopKey FragmentId := {}
  /-- Every guard that was ever installed. -/
  guards : Std.TreeMap GuardId Guard := {}
  /-- The guards of the code that can be executed. -/
  registered : Std.TreeSet GuardId := {}
  /-- The number of guards ever made. -/
  guardCount : Nat := 0
  /-- The exits of all traces. -/
  exits : Array ExitRecord := #[]

instance : Inhabited FragmentCache := ⟨{ backend := .virtual, region := {} }⟩

/-- Changes of the cache keep what they did up to a fault. -/
abbrev Caching := EStateM Fault FragmentCache

namespace FragmentCache

/-! ### Looking up -/

/-- The place of a fragment in the table. -/
def place (id : FragmentId) : Nat := id.toNat - 1

/-- A fragment, cached or not. -/
def fragment? (c : FragmentCache) (id : FragmentId) : Option Fragment :=
  if id = 0 then none else c.fragments[place id]?

/-- A fragment that is cached. -/
def cached? (c : FragmentCache) (id : FragmentId) : Option Fragment :=
  (c.fragment? id).filter (·.cached)

/-- The cached fragments in the order of their numbers. -/
def toList (c : FragmentCache) : List Fragment := c.fragments.toList.filter (·.cached)

/-- The number of cached fragments. -/
def size (c : FragmentCache) : Nat := c.fragments.countP (·.cached)

/-- The number of registered guards. -/
def guardsSize (c : FragmentCache) : Nat := c.registered.size

/-- A registered guard. -/
def guard? (c : FragmentCache) (id : GuardId) : Option Guard :=
  if c.registered.contains id then c.guards[id]? else none

/-- The exit of a guard. -/
def exitOf (c : FragmentCache) (g : Guard) : ExitRecord := c.exits[g.exit]?.getD default

/-- The root fragment of a loop. -/
def lookup? (c : FragmentCache) (key : LoopKey) : Option FragmentId := c.roots[key]?

/-- The fragment among a root and its peers that is entered with given types. -/
def findPeer? (c : FragmentCache) (root : Fragment) (types : TypeMap) : Option Fragment :=
  if root.entryTypes = some types then some root
  else root.peers.findSome? fun id => (c.fragment? id).filter fun p => p.types = types

/-! ### Making fragments -/

/-- Changes a fragment in place. -/
def update (c : FragmentCache) (id : FragmentId) (f : Fragment → Fragment) : FragmentCache :=
  let fragments := c.fragments
  { { c with fragments := #[] } with fragments := fragments.modify (place id) f }

/-- Changes an exit in place. -/
def updateExit (c : FragmentCache) (exit : Nat) (f : ExitRecord → ExitRecord) : FragmentCache :=
  let exits := c.exits
  { { c with exits := #[] } with exits := exits.modify exit f }

/-- The number of the next fragment. -/
def nextId (c : FragmentCache) : FragmentId := (c.fragments.size + 1).toUInt32

def add (c : FragmentCache) (f : Fragment) : FragmentCache :=
  let fragments := c.fragments
  { { c with fragments := #[] } with fragments := fragments.push f }

/-- The root fragment of a loop, and whether it had to be made. -/
def getOrCreate (c : FragmentCache) (key : LoopKey) : FragmentCache × FragmentId × Bool :=
  match c.lookup? key with
  | some id => (c, id, false)
  | none =>
    let id := c.nextId
    let c := c.add { id, key, kind := .root, root := id }
    ({ c with roots := c.roots.insert key id }, id, true)

/-- Adds a peer that is entered with given types. -/
def addPeer (root : Fragment) (types : TypeMap) : Caching FragmentId := fun c =>
  if root.kind ≠ .root then .error (.addingPeer root.render) c
  else
    let id := c.nextId
    let c := c.add
      { id, key := root.key, kind := .peer, root := root.id, entryTypes := knownTypes types }
    .ok id (c.update root.id fun f => { f with peers := f.peers ++ [id] })

/-- Adds a branch at a guard of a fragment; it is entered with the types of the guard's exit. -/
def attachChild (parent : Fragment) (g : Guard) : Caching FragmentId := fun c =>
  if g.source ≠ parent.id then .error (.foreignGuard g.id.toNat parent.render) c
  else
    let id := c.nextId
    let types := (c.exitOf g).exit.types
    let c := c.add
      { id, key := parent.key, kind := .branch, root := parent.root, parent := some parent.id
        anchor := some g.id, entryTypes := some types }
    .ok id (c.update parent.id fun f => { f with children := f.children ++ [id] })

/-- Drops a branch that is not compiled. -/
def discard (f : Fragment) : Caching Unit := fun c =>
  if f.kind ≠ .branch || f.state = .compiled then .error (.discarding f.render) c
  else
    let c := match f.parent with
      | some p => c.update p fun q => { q with children := q.children.erase f.id }
      | none => c
    .ok () (c.update f.id fun f => { f with cached := false, state := .invalidated })

/-- Gives a fragment a trace; its exits enter the table of exits. -/
def attachTrace (c : FragmentCache) (id : FragmentId) (trace : Buffer)
    (target : Option FragmentId) : FragmentCache :=
  let exitBase := c.exits.size
  let exits := trace.insts.foldl (fun all i => match i.exit with
    | some exit => all.push { exit }
    | none => all) c.exits
  { c with exits }.update id fun f => { f with trace := some trace, exitBase, treeTarget := target }

/-- Compiles the trace of a fragment. -/
def assemble (limits : Limits) (helpers : HelperTable) (f : Fragment) :
    EStateM AssembleError FragmentCache Assembly := fun c =>
  let target := f.treeTarget.bind c.fragment?
  let shop : Workshop := { region := c.region, guardCount := c.guardCount, exits := c.exits }
  let c := { c with region := {}, exits := #[] }
  let back (shop : Workshop) : FragmentCache :=
    { c with region := shop.region, guardCount := shop.guardCount, exits := shop.exits }
  match Compile.assemble limits helpers f target shop with
  | .ok a shop => .ok a (back shop)
  | .error e shop => .error e (back shop)

/-! ### Guards -/

/-- Works on the code region alone. -/
def paged {α : Type} (x : CodePages.Paged α) : Caching α := fun c =>
  let region := c.region
  let c := { c with region := {} }
  match x region with
  | .ok a region => .ok a { c with region }
  | .error f region => .error f { c with region }

/-- Registers a guard that is not registered. -/
def register (g : Guard) : Caching Unit := fun c =>
  if c.registered.contains g.id then .error (.registeredTwice g.id.toNat) c
  else .ok () { c with
    registered := c.registered.insert g.id
    guards := c.guards.insertIfNew g.id g }

/-- Gives a fragment its compiled code; from now on it can be executed. -/
def install (id : FragmentId) (a : Assembly) : Caching Unit := do
  modify fun c => c.update id fun f => { f with
    entry := a.entry
    loopTop := a.loopTop
    mainPages := a.mainPages
    exitPages := a.exitPages
    mainCode := a.mainCode
    exitCode := a.exitCode
    guards := a.guards.map (·.id) }
  paged (CodePages.handOver id a.mainPages)
  paged (CodePages.handOver id a.exitPages)
  a.guards.forM register
  modify fun c => c.update id fun f => { f with state := .compiled }

/-- Sends the exit of a guard to an address. -/
def redirect (g : Guard) (target : ExitTarget) (address : CodeAddr) : Caching Unit := fun c =>
  let c := { c with guards := c.guards.modify g.id fun g => { g with target } }
  let backend := c.backend
  let region := c.region
  let c := { c with region := {} }
  let mem := region.mem
  let region := { region with mem := {} }
  match backend.patch mem g.site address with
  | .ok mem => .ok () { c with region := { region with mem } }
  | .error f => .error f { c with region := { region with mem } }

/-- Sends the exit of a guard into a fragment. -/
def promote (g : Guard) (child : Fragment) : Caching Unit :=
  if !child.executable then throw (.promotingTo g.id.toNat child.render)
  else redirect g (.fragment child.id) child.entry

/-- Sends the exit of a guard back to the interpreter. -/
def unpatch (g : Guard) : Caching Unit := do
  redirect g .bailout (← get).region.bailout

/-! ### Dropping fragments -/

/-- Whether a fragment is marked. -/
def marked (mask : Array Bool) (id : FragmentId) : Bool := mask[place id]?.getD false

/-- Marks what depends directly on a marked fragment: its branches, the peers of a root, and
cached fragments whose trace ends in it. -/
def spread (c : FragmentCache) (mask : Array Bool) : Array Bool :=
  c.fragments.foldl (fun next f =>
      let next := if f.cached && f.treeTarget.any (marked mask) then next.set! (place f.id) true
        else next
      if marked mask f.id then
        (f.children ++ if f.kind = .root then f.peers else []).foldl
          (fun next id => next.set! (place id) true) next
      else next)
    mask

/-- Marks everything that depends on a marked fragment, in at most `n` rounds. -/
def spreadAll (c : FragmentCache) : (n : Nat) → Array Bool → Array Bool
  | 0, mask => mask
  | n + 1, mask =>
    let next := c.spread mask
    if next = mask then mask else c.spreadAll n next

/-- The fragment and everything that depends on it. -/
def dependents (c : FragmentCache) (id : FragmentId) : Array Bool :=
  c.spreadAll c.fragments.size ((Array.replicate c.fragments.size false).set! (place id) true)

/-- The registered guards in the order of their numbers. -/
def registeredGuards (c : FragmentCache) : List Guard :=
  c.registered.toList.filterMap fun id => c.guards[id]?

/-- Whether a guard stays while the fragment it leads to goes. -/
def mustUnpatch (c : FragmentCache) (mask : Array Bool) (g : Guard) : Bool :=
  match g.target with
  | .bailout => false
  | .fragment id =>
    !(c.cached? g.source).any (fun f => marked mask f.id)
      && (c.cached? id).any (fun f => marked mask f.id)

/-- Drops one marked fragment: its guards, its pages and the references to it from fragments
that stay. -/
def drop (mask : Array Bool) (f : Fragment) : Caching Unit := do
  modify fun c => { c with registered := f.guards.foldl (·.erase ·) c.registered }
  paged (CodePages.releaseAll f.mainPages)
  paged (CodePages.releaseAll f.exitPages)
  modify fun c =>
    let c := match f.parent with
      | some p =>
        if marked mask p then c
        else c.update p fun q => { q with children := q.children.erase f.id }
      | none => c
    let c :=
      if f.kind = .peer && !marked mask f.root then
        c.update f.root fun q => { q with peers := q.peers.erase f.id }
      else c
    let c :=
      if f.kind = .root && c.roots[f.key]? = some f.id then { c with roots := c.roots.erase f.key }
      else c
    c.update f.id fun f => { f with
      mainPages := []
      exitPages := []
      mainCode := []
      exitCode := []
      cached := false
      state := .invalidated }

/-- Drops a fragment and everything that depends on it. Guards that stay are sent back to the
interpreter before any page is given back. -/
def invalidate (id : FragmentId) : Caching (List FragmentId) := do
  let c ← get
  let mask := c.dependents id
  let guards := c.registeredGuards.filter (c.mustUnpatch mask)
  let gone := c.fragments.toList.filter fun f => marked mask f.id
  guards.forM unpatch
  gone.forM (drop mask)
  return gone.map (·.id)

/-- Drops the roots among some fragments that are not dropped yet. -/
def invalidateRoots : List FragmentId → Caching (List FragmentId)
  | [] => return []
  | id :: rest => do
    let gone ← match (← get).fragment? id with
      | some f => if f.state = .invalidated || f.kind ≠ .root then pure [] else invalidate id
      | none => pure []
    return gone ++ (← invalidateRoots rest)

/-- Drops everything and gives back all pages. -/
def flush : Caching (List FragmentId) := do
  let gone ← invalidateRoots ((← get).toList.map (·.id))
  modify fun c => { c with
    region := c.region.reset
    registered := {}
    roots := {}
    fragments := c.fragments.map fun f => { f with cached := false } }
  return gone

end FragmentCache

end LoopTracer
