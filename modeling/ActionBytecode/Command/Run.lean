/-
  ActionBytecode — running a command.

  A command reads a unit from a file and prints what is in it, or writes it out again.  The
  commands reach files only through `Files`, so that they can run on any store of files.
-/
import ActionBytecode.Command.Arguments
import ActionBytecode.Settings.Basic
import ActionBytecode.CodeUnit.Decoding
import ActionBytecode.CodeUnit.Encoding
import ActionBytecode.CodeUnit.Listing
import ActionBytecode.CodeUnit.Summary

namespace ActionBytecode

/-- Access to files.  What fails gives the wording of the system. -/
structure Files (m : Type → Type) where
  /-- Whether there is something at a path. -/
  holds : String → m Bool
  read : String → m (Except String Bytes)
  write : String → Bytes → m (Except String Unit)
  /-- The current directory and those around it, from the innermost outwards. -/
  directories : m (List String)

/-- What a command says, and how it ends. -/
structure Outcome where
  code : Nat
  output : String := ""
  complaint : String := ""
  deriving DecidableEq, Repr

/-- Why a command fails. -/
inductive Complaint where
  /-- The settings cannot be read. -/
  | settings
  | plain (message : String)
  /-- With a cause. -/
  | because (message cause : String)
  deriving DecidableEq, Repr

/-- The wording of a failure.  All lines of a cause are indented. -/
def Complaint.text : Complaint → String
  | settings => "Error: Failed to parse"
  | plain message => s!"Error: {message}\n"
  | because message cause =>
    let cause := "\n    ".intercalate (cause.splitOn "\n")
    s!"Error: {message}\n\nCaused by:\n    {cause}\n"

namespace Command

/-- The version of the program. -/
def versionText : String := "abc 0.1.0\n"

/-- How the program is called. -/
def usageText : String :=
  "Usage: abc [OPTIONS] <COMMAND>\n\nCommands:\n  info <INPUT> [--json]\n" ++
    "  dump <INPUT> [-m <METHOD>] [--signatures]\n" ++
    "  roundtrip <INPUT> -o <OUTPUT> [--rebuild] [--debug] [--main-class <CLASS>]\n\n" ++
    "Options:\n  --config <CONFIG>\n  -v, --verbose\n  -h, --help\n  -V, --version\n"

/-- The names of files with settings, the first to be found first. -/
def settingNames : List String := ["abc.toml", ".abcrc.toml"]

/-- The first list element for which `p` holds. -/
def firstM {m : Type → Type} [Monad m] {α : Type} (p : α → m Bool) : List α → m (Option α)
  | [] => return none
  | a :: as => do if ← p a then return some a else firstM p as

section
variable {m : Type → Type} [Monad m] (files : Files m)

/-- A command that can fail. -/
abbrev Failing (m : Type → Type) := ExceptT Complaint m

/-- Put the failure of a system call into context. -/
def inContext {α : Type} (message : String) (call : m (Except String α)) : Failing m α := do
  match ← call with
  | .ok a => return a
  | .error cause => throw (.because message cause)

/-! ## Settings -/

/-- The file with settings: the one asked for, or else the first in the directories around. -/
def settingsPath (asked : Option String) : m (Option String) := do
  match asked with
  | some path => return some path
  | none =>
    let candidates := (← files.directories).flatMap fun directory =>
      settingNames.map fun name => directory ++ "/" ++ name
    firstM files.holds candidates

/-- The settings that hold; those of a file that is not there are the usual ones. -/
def loadSettings (asked : Option String) : Failing m Settings := do
  match ← settingsPath (m := m) files asked with
  | none => return {}
  | some path =>
    unless ← files.holds path do return {}
    match ← files.read path with
    | .error cause => throw (.plain cause)
    | .ok bytes =>
      match Utf8.decode bytes with
      | .error _ => throw (.plain "stream did not contain valid UTF-8")
      | .ok text =>
        match Settings.ofText? text with
        | some settings => return settings
        | none => throw .settings

/-! ## Actions -/

/-- Read a unit from a file. -/
def readUnit (path : String) : Failing m (Bytes × CodeUnit) := do
  let bytes ← inContext s!"failed to read {path}" (files.read path)
  match CodeUnit.decode bytes with
  | .ok unit => return (bytes, unit)
  | .error fault => throw (.because s!"failed to decode {path}" fault.message)

/-- The summary of a unit. -/
def info (input : String) (json : Bool) : Failing m String := do
  let (_, unit) ← readUnit files input
  return if json then unit.summary.json ++ "\n" else unit.summary.text

/-- The methods that a listing is about: all, or those with a given name. -/
def listed (unit : CodeUnit) (name : Option String) : List (MethodHandle × Method) :=
  match name with
  | some name => unit.wireMethods.filter (·.2.name == some name)
  | none => unit.wireMethods

/-- The listings of methods, with an empty line after each. -/
def listings (handles : List MethodHandle) : Edit String := do
  let texts ← handles.mapM fun handle => return (← Edit.listing handle).text ++ "\n"
  return String.join texts

/-- List methods, or only their signatures. -/
def dump (settings : Settings) (input : String) (name : Option String) (signatures : Bool) :
    Failing m String := do
  let (_, unit) ← readUnit files input
  let methods := listed unit name
  if let some name := name then
    if methods.isEmpty then throw (.plain s!"no method named {name}")
  if settings.bodies && !signatures then
    match listings (methods.map (·.1)) unit with
    | .ok text _ => return text
    | .error fault _ => throw (.plain fault.message)
  return String.join (methods.map fun (_, method) => Listing.signatureText method.toSignature)

/-- Write a unit out again. -/
def roundtrip (settings : Settings) (input output : String) (rebuild debug : Bool)
    (mainClass : Option String) : Failing m String := do
  let (read, unit) ← readUnit files input
  let options : EncodeOptions :=
    { debugInstrumentation := debug || settings.debugInstrumentation
      mainClass := mainClass <|> settings.mainClass }
  let tamper := rebuild || options.debugInstrumentation || options.mainClass.isSome
  let encode : Edit Bytes := do
    if tamper then Edit.markTampered
    Edit.encode options
  match encode unit with
  | .error fault _ => throw (.plain fault.message)
  | .ok bytes _ =>
    if let .error fault := CodeUnit.decode bytes then
      throw (.because "encoded unit does not decode" fault.message)
    inContext s!"failed to write {output}" (files.write output bytes)
    return if bytes = read then s!"{output}: identical ({bytes.length} bytes)\n"
      else s!"{output}: {read.length} -> {bytes.length} bytes\n"

/-- Do what is asked for. -/
def perform (invocation : Invocation) : Failing m String := do
  let settings ← loadSettings files invocation.config
  match invocation.action with
  | .info input json => info files input json
  | .dump input name signatures => dump files settings input name signatures
  | .roundtrip input output rebuild debug mainClass =>
    roundtrip files settings input output rebuild debug mainClass

/-- Run the program with the given arguments. -/
def run (arguments : List String) : m Outcome := do
  match Invocation.ofArguments arguments with
  | .error .misuse => return { code := 2, complaint := usageText }
  | .error .version => return { code := 0, output := versionText }
  | .error .help => return { code := 0, output := usageText }
  | .ok invocation =>
    match ← (perform files invocation).run with
    | .ok output => return { code := 0, output }
    | .error complaint => return { code := 1, complaint := complaint.text }

end

end Command

end ActionBytecode
