import LoopTracer.File
import LoopTracer.Monitor.Config
import LoopTracer.Toml.Keys
import LoopTracer.Toml.Basic
import LoopTracer.Toml.Reader

/-! Settings in files.

A settings file is a TOML document with one entry for each setting that differs from the
default. Names count without regard to case; entries and tables of other names are skipped. -/
namespace LoopTracer

/-- One setting: how it is read from a configuration and put into it. -/
inductive Setting where
  | flag (get : Config → Bool) (put : Bool → Config → Config)
  | number (get : Config → Int) (put : Int → Config → Config)
  | text (get : Config → Text) (put : Text → Config → Config)

namespace Setting

/-- A value of a document put in; it must be of the setting's kind. -/
def put? (s : Setting) (v : Toml.Value) (c : Config) : Option Config :=
  match s, v with
  | flag _ put, .flag b => some (put b c)
  | number _ put, .integer digits => (Toml.integer? digits).map (put · c)
  | text _ put, .text t => some (put t c)
  | _, _ => none

def kindName : Setting → Text
  | flag .. => "bool"
  | number .. => "int"
  | text .. => "string"

end Setting

namespace Config

/-- The settings by name, in the order in which they are written. -/
def settings : List (String × Setting) :=
  [("enabled", .flag (·.enabled) fun b c => { c with enabled := b }),
    ("backend", .text (·.backend) fun t c => { c with backend := t }),
    ("hot_loop_threshold", .number (·.hotLoopThreshold) fun n c => { c with hotLoopThreshold := n }),
    ("hot_exit_threshold", .number (·.hotExitThreshold) fun n c => { c with hotExitThreshold := n }),
    ("max_record_attempts", .number (·.maxRecordAttempts) fun n c => { c with maxRecordAttempts := n }),
    ("max_branch_attempts", .number (·.maxBranchAttempts) fun n c => { c with maxBranchAttempts := n }),
    ("max_trace_length", .number (·.maxTraceLength) fun n c => { c with maxTraceLength := n }),
    ("max_guards", .number (·.maxGuards) fun n c => { c with maxGuards := n }),
    ("max_exit_jumps", .number (·.maxExitJumps) fun n c => { c with maxExitJumps := n }),
    ("max_code_pages", .number (·.maxCodePages) fun n c => { c with maxCodePages := n }),
    ("page_size", .number (·.pageSize) fun n c => { c with pageSize := n }),
    ("max_spill_slots", .number (·.maxSpillSlots) fun n c => { c with maxSpillSlots := n }),
    ("max_reservations", .number (·.maxReservations) fun n c => { c with maxReservations := n }),
    ("max_registers", .number (·.maxRegisters) fun n c => { c with maxRegisters := n }),
    ("invalidate_threshold",
      .number (·.invalidateThreshold) fun n c => { c with invalidateThreshold := n }),
    ("log_level", .text (·.logLevel) fun t c => { c with logLevel := t })]

/-- The setting of a name, whatever the case of its letters. -/
def setting? (name : Text) : Option Setting :=
  (settings.find? fun (n, _) => Text.ofString n = name.lower).map (·.2)

end Config

/-- Why a settings file was not taken. -/
inductive SettingsError where
  | unreadable (path : Text) (e : FileError)
  /-- No document, or a value of the wrong kind. -/
  | malformed
  | invalid (e : ConfigError)
  | fault (f : Fault)

namespace SettingsError

def message : SettingsError → Text
  | unreadable path e => "failed to read config file: " ++ e.reading path
  | malformed => "failed to parse config file"
  | invalid e => e.message
  | fault f => f.message

end SettingsError

/-- What is said when a settings file cannot be written. -/
def cannotSave (path : Text) (e : FileError) : Text :=
  "failed to write config file: " ++ e.writing path

/-! ### Reading -/

/-- What the entries that follow belong to. -/
inductive Scope where
  | settings
  /-- A table of a name that no setting has: its entries are not even looked at. -/
  | skipped
  /-- A table under the name of a setting, which may have no entry. -/
  | setting

/-- A document being taken in. -/
structure Intake where
  config : Config := {}
  keys : Toml.Keys := {}
  scope : Scope := .settings

namespace Intake

def ofOption {α : Type} (x : Option α) : Except SettingsError α := x.elim (.error .malformed) .ok

/-- Puts a value into a setting. There is no setting for moments, and giving it one is a fault. -/
def put (f : Setting) (v : Toml.Value) (c : Config) : Except SettingsError Config :=
  match v with
  | .moment l => do
    let m ← ofOption (Toml.Moment.ofBytes? l)
    throw (.fault (.unassignable m.kindName f.kindName))
  | v => ofOption (f.put? v c)

/-- Takes an entry in. -/
def entry (s : Intake) (key : Toml.Key) (v : Toml.Value) : Except SettingsError Intake := do
  if s.scope matches .skipped then return s
  let s := { s with keys := ← ofOption (s.keys.enter? key v) }
  if s.scope matches .setting then throw .malformed
  match key with
  | [name] =>
    match Config.setting? name with
    | none => return s
    | some f => return { s with config := ← put f v s.config }
  | name :: _ => if (Config.setting? name).isSome then throw .malformed else return s
  | [] => return s

/-- Takes a header in; `element` is a list's. -/
def header (s : Intake) (keys : Option Toml.Keys) (element : Bool) (key : Toml.Key) :
    Except SettingsError Intake := do
  let s := { s with keys := ← ofOption keys }
  match key.head?.bind Config.setting? with
  | none => return { s with scope := .skipped }
  | some f =>
    if 1 < key.length then throw (.fault (.belowSetting f.kindName))
    else if element then throw .malformed
    else return { s with scope := .setting }

def statement (s : Intake) : Toml.Statement → Except SettingsError Intake
  | .entry key v => s.entry key v
  | .table key => s.header (s.keys.openTable? key) false key
  | .element key => s.header (s.keys.openElement? key) true key

end Intake

namespace Config

/-- The configuration of a settings text. Its statements are taken in one after the other, so
those before a malformed one count first. -/
def parse (t : Text) : Except SettingsError Config := do
  let (statements, whole) := Toml.read t
  let s ← statements.foldlM Intake.statement {}
  if !whole then throw .malformed
  match s.config.validate with
  | .ok _ => return s.config
  | .error e => throw (.invalid e)

/-- The configuration in the file of a name, given what files hold. -/
def load (contents : Text → Except FileError ByteArray) (path : Text) :
    Except SettingsError Config :=
  match contents path with
  | .error e => .error (.unreadable path e)
  | .ok data => parse ⟨data⟩

/-! ### Writing -/

/-- A byte as it stands between quotes. -/
def escaped (b : UInt8) : Text :=
  match Char.ofNat b.toNat with
  | '\\' => "\\\\"
  | '"' => "\\\""
  | '\n' => "\\n"
  | '\r' => "\\r"
  | '\t' => "\\t"
  | c =>
    if c.toNat == 8 then "\\b"
    else if c.toNat == 12 then "\\f"
    else if Toml.isPlain b.toNat then .ofList [b]
    else
      let digits : Text := .ofString (String.ofList ((Nat.toDigits 16 b.toNat).map Char.toUpper))
      "\\u" ++ digits.padLeft 4 "0"

/-- A text between apostrophes, or between quotes if it cannot stand there. -/
def quoted (t : Text) : Text :=
  if t.toList.any fun b => b == 39 || b == 10 || b == 13 || !Toml.isPlain b.toNat then
    "\"" ++ Text.concat (t.toList.map escaped) ++ "\""
  else "'" ++ t ++ "'"

/-- The settings text of a configuration, with a line for every setting. -/
def render (c : Config) : Text :=
  Text.concat (settings.map fun (name, s) =>
    let value : Text := match s with
      | .flag get _ => if get c then "true" else "false"
      | .number get _ => .ofInt (get c)
      | .text get _ => quoted (get c)
    Text.ofString name ++ " = " ++ value ++ "\n")

end Config

end LoopTracer
