import LoopTracer.Monitor.Basic

/-! What the monitor counted and what its cache holds, as reports with named fields, and their
JSON text. -/
namespace LoopTracer

/-- A flag, a number, a text, a list, or named parts in order. -/
inductive Report where
  | flag (b : Bool)
  | number (n : Int)
  | text (t : Text)
  | list (l : List Report)
  | fields (l : List (Text × Report))

namespace Report

def counts (l : List (Text × Nat)) : Report := .fields (l.map fun (k, n) => (k, .number n))

/-- The counts in the order of their names. -/
def sorted (l : List (Text × Nat)) : Report := counts (l.mergeSort fun a b => a.1.le b.1)

/-- The text inside the quotes of a JSON string; names and back ends hold plain letters only. -/
def quoted (t : Text) : Text := "\"" ++ t ++ "\""

mutual

/-- JSON text with two blanks for every level; the first line has no indentation. -/
def render (level : Nat) : Report → Text
  | .flag b => if b then "true" else "false"
  | .number n => .ofInt n
  | .text t => quoted t
  | .list [] => "[]"
  | .list l => "[\n" ++ renderList (level + 1) l ++ "\n" ++ Text.replicate level "  " ++ "]"
  | .fields [] => "\x7b\x7d"
  | .fields l =>
    "\x7b\n" ++ renderFields (level + 1) l ++ "\n" ++ Text.replicate level "  " ++ "\x7d"

def renderList (level : Nat) : List Report → Text
  | [] => ∅
  | [r] => Text.replicate level "  " ++ r.render level
  | r :: rest => Text.replicate level "  " ++ r.render level ++ ",\n" ++ renderList level rest

def renderFields (level : Nat) : List (Text × Report) → Text
  | [] => ∅
  | [(k, r)] => Text.replicate level "  " ++ quoted k ++ ": " ++ r.render level
  | (k, r) :: rest =>
    Text.replicate level "  " ++ quoted k ++ ": " ++ r.render level ++ ",\n"
      ++ renderFields level rest

end

end Report

/-- A guard with where it leads and how it fared. -/
def FragmentCache.guardLine (c : FragmentCache) (g : Guard) : Text :=
  let e := c.exitOf g
  .ofNat g.id.toNat ++ "->" ++ g.target.render ++ " hits=" ++ .ofNat e.hits ++ " attempts="
    ++ .ofNat e.attempts ++ " black=" ++ (if e.blacklisted then Text.ofString "true" else "false")

/-- All there is to say about a fragment; number zero stands for no other fragment or guard. -/
def FragmentCache.describe (c : FragmentCache) (f : Fragment) : List (Text × Report) :=
  let number (n : UInt32) : Report := .number n.toNat
  let maybe (n : Option UInt32) : Report := number (n.getD 0)
  let count (n : Nat) : Report := .number n
  [("str", .text f.render),
    ("entry", .text f.entry.render),
    ("loop", .text f.loopTop.render),
    ("executable", .flag f.executable),
    ("guards", .list ((f.guards.filterMap (c.guards[·]?)).map fun g => .text (c.guardLine g))),
    ("main_pages", count f.mainPages.length),
    ("exit_pages", count f.exitPages.length),
    ("root", number f.root),
    ("parent", maybe f.parent),
    ("target", maybe f.treeTarget),
    ("anchor", maybe f.anchor),
    ("peers", .list (f.peers.map number)),
    ("children", .list (f.children.map number)),
    ("counters", .list [count f.hits, count f.exits, count f.attempts])]

/-- The counters of a monitor and the state of its cache. -/
def Monitor.report (m : Monitor) : Report :=
  let s := m.stats
  let pages := m.cache.region.counts
  let number (k : String) (n : Nat) : Text × Report := (k, .number n)
  .fields [
    ("backend", .text m.config.backend),
    number "loop_edges" s.loopEdges,
    number "recordings_started" s.recordingsStarted,
    number "recordings_committed" s.recordingsCommitted,
    number "recordings_aborted" s.recordingsAborted,
    number "assembly_failures" s.assemblyFailures,
    number "roots_compiled" s.rootsCompiled,
    number "peers_compiled" s.peersCompiled,
    number "branches_compiled" s.branchesCompiled,
    number "executions" s.executions,
    number "side_exits" s.sideExits,
    number "promotions" s.promotions,
    number "invalidations" s.invalidations,
    number "flushes" s.flushes,
    number "blacklisted" s.blacklisted,
    number "code_bytes" s.codeBytes,
    ("exits_by_kind", .sorted s.exitCounts),
    ("aborts_by_reason", .sorted s.abortCounts),
    number "fragments" m.cache.size,
    number "guards" m.cache.guardsSize,
    ("code", .fields [
      ("page_size", .number pages.pageSize),
      number "pages" pages.pages,
      number "free_pages" pages.free,
      number "main_pages" pages.main,
      number "exit_pages" pages.exit])]

end LoopTracer
