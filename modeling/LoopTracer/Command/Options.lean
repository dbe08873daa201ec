import LoopTracer.Text.Quoted

/-! The options of the command line.

An option starts with one or two hyphens. A switch stands alone or has its value after an equals
sign; any other option has its value there or in the next argument. The first argument that is
no option, or the one after `--`, ends the options. -/
namespace LoopTracer.Command

structure Options where
  jit : Bool := true
  /-- The settings file; empty for none. -/
  config : Text := ∅
  backend : Text := ∅
  log : Text := ∅
  stats : Bool := false
  json : Bool := false
  dump : Bool := false
  disasm : Bool := false
  /-- The compiled file to write; empty for none. -/
  output : Text := ∅

/-- What an option does. -/
inductive Effect where
  | switch (put : Bool → Options → Options)
  | value (put : Text → Options → Options)

structure Flag where
  name : String
  effect : Effect
  usage : String

/-- The options in the order of their names. -/
def flags : List Flag :=
  [⟨"backend", .value fun t o => { o with backend := t }, "Code generator backend: virtual or x64"⟩,
    ⟨"config", .value fun t o => { o with config := t }, "JIT configuration file (TOML)"⟩,
    ⟨"disasm", .switch fun b o => { o with disasm := b }, "Show bytecode and exit"⟩,
    ⟨"dump", .switch fun b o => { o with dump := b }, "Dump IR, exits and code of every fragment"⟩,
    ⟨"jit", .switch fun b o => { o with jit := b }, "Compile hot loops into traces (default true)"⟩,
    ⟨"json", .switch fun b o => { o with json := b }, "Print JIT statistics as JSON to stderr"⟩,
    ⟨"log", .value fun t o => { o with log := t }, "JIT log level: off, debug, info, warn, error"⟩,
    ⟨"o", .value fun t o => { o with output := t },
      "Write the compiled program to a .tjc file and exit"⟩,
    ⟨"stats", .switch fun b o => { o with stats := b }, "Print a JIT summary to stderr"⟩]

/-- The options with what they do. -/
def defaults : Text :=
  Text.concat (flags.map fun f =>
    "  -" ++ Text.ofString f.name ++ (if f.effect matches .value _ then Text.ofString " string" else "")
      ++ "\n    \t" ++ f.usage ++ "\n")

def usage : Text := "Usage of tracejit:\n" ++ defaults

/-- Why there is nothing to run. -/
inductive OptionError where
  | help
  | syntaxOf (arg : Text)
  | unknown (name : Text)
  | notBoolean (value name : Text)
  | needsValue (name : Text)

/-- What is printed about an error, before the usage. -/
def OptionError.message : OptionError → Text
  | help => ∅
  | syntaxOf arg => "bad flag syntax: " ++ arg ++ "\n"
  | unknown name => "flag provided but not defined: -" ++ name ++ "\n"
  | notBoolean value name =>
    "invalid boolean value " ++ value.quote ++ " for -" ++ name ++ ": parse error\n"
  | needsValue name => "flag needs an argument: -" ++ name ++ "\n"

/-- A truth value in one of its spellings. -/
def boolean? (t : Text) : Option Bool :=
  if (["1", "t", "T", "TRUE", "true", "True"].any fun s => Text.ofString s = t) then some true
  else if (["0", "f", "F", "FALSE", "false", "False"].any fun s => Text.ofString s = t) then
    some false
  else none

/-- The name of an option and the value after the equals sign, which is not the first byte. -/
def nameAndValue (l : List UInt8) : Text × Option Text :=
  let tail := (l.drop 1).dropWhile (· ≠ 61)
  let name := l.take 1 ++ (l.drop 1).takeWhile (· ≠ 61)
  (.ofList name, if tail.isEmpty then none else some (.ofList (tail.drop 1)))

/-- An argument as an option. -/
inductive Argument where
  /-- No option: it stays among the arguments. -/
  | plain
  /-- The end of the options. -/
  | stop
  | malformed
  | flag (name : Text) (value : Option Text)

def classify (arg : Text) : Argument :=
  match arg.toList with
  | 45 :: b :: rest =>
    let name := if b = 45 then rest else b :: rest
    match name with
    | [] => .stop
    | c :: _ =>
      if c = 45 || c = 61 then .malformed
      else
        let (name, value) := nameAndValue name
        .flag name value
  | _ => .plain

/-- Reads the options in front and gives the arguments after them. -/
def Options.parse (o : Options) : List Text → Except OptionError (Options × List Text)
  | [] => .ok (o, [])
  | arg :: rest =>
    match classify arg with
    | .plain => .ok (o, arg :: rest)
    | .stop => .ok (o, rest)
    | .malformed => .error (.syntaxOf arg)
    | .flag name value =>
      match flags.find? fun f => Text.ofString f.name = name with
      | none => .error (if name = "help" || name = "h" then .help else .unknown name)
      | some f =>
        match f.effect, value with
        | .switch put, none => (put true o).parse rest
        | .switch put, some v =>
          match boolean? v with
          | some b => (put b o).parse rest
          | none => .error (.notBoolean v name)
        | .value put, some v => (put v o).parse rest
        | .value put, none =>
          match rest with
          | [] => .error (.needsValue name)
          | v :: rest => (put v o).parse rest

end LoopTracer.Command
