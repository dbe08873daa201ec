import LoopTracer.Compile.Assembly
import LoopTracer.Text.Blank
import LoopTracer.Text.Quoted

/-! The settings of the compiler: back end, thresholds and limits. -/
namespace LoopTracer

open Machine Compile

structure Config where
  enabled : Bool := true
  backend : Text := "virtual"
  /-- How often a loop must run before it is recorded. -/
  hotLoopThreshold : Int := 2
  /-- How often an exit must be taken before a branch is recorded there. -/
  hotExitThreshold : Int := 8
  maxRecordAttempts : Int := 3
  maxBranchAttempts : Int := 3
  /-- The most instructions of a trace. -/
  maxTraceLength : Int := 2048
  maxGuards : Int := 256
  maxExitJumps : Int := 256
  maxCodePages : Int := 64
  /-- The bytes of a code page. -/
  pageSize : Int := 16384
  maxSpillSlots : Int := 128
  /-- The most values live at one time. -/
  maxReservations : Int := 1024
  /-- The most registers to use; zero sets no limit. -/
  maxRegisters : Int := 0
  /-- How often a fragment may be left before it is dropped. -/
  invalidateThreshold : Int := 100000
  logLevel : Text := "off"
deriving DecidableEq, Inhabited

/-- What is wrong with a setting. -/
inductive ConfigError where
  | backend (name : Text)
  | notPositive (key : Text) (n : Int)
  | pageSize (n : Int)
  | codePages (n : Int)
  | registers (n : Int)
  | logLevel (name : Text)

namespace ConfigError

def detail : ConfigError → Text
  | backend name => "unknown backend " ++ name.quote
  | notPositive key n => key ++ " must be positive, got " ++ .ofInt n
  | pageSize n => "page_size must be a multiple of 64 and at least 1024, got " ++ .ofInt n
  | codePages n => "max_code_pages must be at least 2, got " ++ .ofInt n
  | registers n => "max_registers must not be negative, got " ++ .ofInt n
  | logLevel name => "unknown log level " ++ name.quote

def message (e : ConfigError) : Text := e.detail ++ ": jit: invalid config"

end ConfigError

namespace Config

/-- The settings that must be positive, in the order in which they are tested. -/
def positive (c : Config) : List (String × Int) :=
  [("hot_loop_threshold", c.hotLoopThreshold), ("hot_exit_threshold", c.hotExitThreshold),
    ("max_record_attempts", c.maxRecordAttempts), ("max_branch_attempts", c.maxBranchAttempts),
    ("max_trace_length", c.maxTraceLength), ("max_guards", c.maxGuards),
    ("max_exit_jumps", c.maxExitJumps), ("max_code_pages", c.maxCodePages),
    ("max_spill_slots", c.maxSpillSlots), ("max_reservations", c.maxReservations),
    ("invalidate_threshold", c.invalidateThreshold)]

/-- The names of the log levels, in lower case. -/
def logLevels : List String :=
  ["", "off", "none", "debug", "info", "warn", "error", "dpanic", "panic", "fatal"]

/-- Whether a log level is known, whatever the case of its letters. -/
def knownLevel (t : Text) : Bool := logLevels.any fun l => Text.ofString l = t.lower

/-- Tests the settings; the first one that is wrong counts. -/
def validate (c : Config) : Except ConfigError Unit := do
  if c.backend ≠ "virtual" && c.backend ≠ "x64" then throw (.backend c.backend)
  if let some (key, n) := c.positive.find? fun (_, n) => n ≤ 0 then throw (.notPositive key n)
  if c.pageSize < 1024 || c.pageSize % 64 ≠ 0 then throw (.pageSize c.pageSize)
  if c.maxCodePages < 2 then throw (.codePages c.maxCodePages)
  if c.maxRegisters < 0 then throw (.registers c.maxRegisters)
  if !knownLevel c.logLevel then throw (.logLevel c.logLevel)

/-- Whether code is made for the processor, and so cannot be run here. -/
def native (c : Config) : Bool := c.backend = "x64"

def machine (c : Config) : Backend := if c.native then .x64 else .virtual

/-- What compiling has to obey. -/
def limits (c : Config) : Limits where
  backend := c.machine
  target := c.machine.target.limit c.maxRegisters
  maxGuards := c.maxGuards
  maxExitJumps := c.maxExitJumps
  maxSpillSlots := c.maxSpillSlots
  maxReservations := c.maxReservations

end Config

end LoopTracer
