/-
  ActionBytecode — the arguments of the command line.

  Arguments are taken from left to right.  Each is an option, the value of the option before it,
  the verb, or the file that the verb is about.  The first argument that does not fit ends the
  reading, and so does one that asks for the version or for help.

  An option can be written `--name value`, `--name=value`, `-n value`, `-nvalue` or `-n=value`, and
  flags with one letter can share a dash.  After `--` nothing is an option.  No option is given
  twice, except that one which every verb has can be given both before and after the verb; then
  the later counts.

  In place of the verb there can be `help`, with a verb after it to be told about.
-/
namespace ActionBytecode

/-- Why the reading of arguments ends early. -/
inductive ArgumentStop where
  | misuse
  | version
  | help
  deriving DecidableEq, Repr

/-- What an option is followed by. -/
inductive OptionKind where
  | flag
  | text
  /-- Text that is not empty. -/
  | path
  /-- Nothing, since the option ends the reading. -/
  | stop (reason : ArgumentStop)
  deriving DecidableEq, Repr

/-- An option. -/
structure OptionSpec where
  name : String
  letter : Option Char := none
  kind : OptionKind
  deriving DecidableEq, Repr

/-- What can be done with a unit. -/
inductive Verb where
  | info
  | dump
  | roundtrip
  deriving DecidableEq, Repr

/-- The verb with a given name. -/
def Verb.ofName? : String → Option Verb
  | "info" => some .info
  | "dump" => some .dump
  | "roundtrip" => some .roundtrip
  | _ => none

/-- The options that stand before the verb as well as after it. -/
def sharedOptions : List OptionSpec :=
  [ { name := "config", kind := .path },
    { name := "verbose", letter := some 'v', kind := .flag },
    { name := "help", letter := some 'h', kind := .stop .help } ]

/-- The options that can be given once a verb is known, or before. -/
def optionsFor : Option Verb → List OptionSpec
  | none => { name := "version", letter := some 'V', kind := .stop .version } :: sharedOptions
  | some .info => { name := "json", kind := .flag } :: sharedOptions
  | some .dump =>
    { name := "method", letter := some 'm', kind := .text } ::
      { name := "signatures", kind := .flag } :: sharedOptions
  | some .roundtrip =>
    { name := "output", letter := some 'o', kind := .path } ::
      { name := "rebuild", kind := .flag } :: { name := "debug", kind := .flag } ::
      { name := "main-class", kind := .text } :: sharedOptions

/-- What was read of the arguments. -/
structure ArgumentState where
  verb : Option Verb := none
  /-- The options before the verb, with their values. -/
  before : List (String × String) := []
  /-- The options since the verb, or since the start. -/
  given : List (String × String) := []
  input : Option String := none
  /-- The option whose value comes next. -/
  pending : Option OptionSpec := none
  /-- Whether options have ended. -/
  literal : Bool := false
  /-- What help is asked about, once it is asked for. -/
  topics : Option (List String) := none

namespace ArgumentState

/-- A step of the reading. -/
abbrev Step := Except ArgumentStop ArgumentState

section
variable (state : ArgumentState)

/-- Take an option with its value. -/
def give (option : OptionSpec) (value : String) : Step :=
  if state.given.any (·.1 == option.name) || (option.kind == .path && value.isEmpty) then
    .error .misuse
  else .ok { state with given := state.given ++ [(option.name, value)], pending := none }

/-- Take the name of an option, with the value that is attached to it, if any. -/
def takeLong (name : String) (value : Option String) : Step :=
  match (optionsFor state.verb).find? (·.name == name) with
  | none => .error .misuse
  | some option =>
    match option.kind, value with
    | .stop reason, none => .error reason
    | .flag, none => state.give option ""
    | .stop _, some _ | .flag, some _ => .error .misuse
    | .text, some value | .path, some value => state.give option value
    | .text, none | .path, none => .ok { state with pending := some option }

/-- Take letters that share a dash. -/
def takeLetters (state : ArgumentState) : List Char → Step
  | [] => .ok state
  | letter :: rest =>
    match (optionsFor state.verb).find? (·.letter == some letter) with
    | none => .error .misuse
    | some option =>
      match option.kind, rest with
      | .stop reason, _ => .error reason
      | .flag, rest => do (← state.give option "").takeLetters rest
      | .text, [] | .path, [] => .ok { state with pending := some option }
      | .text, '=' :: value | .path, '=' :: value => state.give option (String.ofList value)
      | .text, value | .path, value => state.give option (String.ofList value)

/-- Take an argument that is neither an option nor the value of one. -/
def takePlain (argument : String) : Step :=
  match state.verb, state.input with
  | none, _ =>
    if state.literal then .error .misuse
    else if argument = "help" then .ok { state with topics := some [] }
    else
      match Verb.ofName? argument with
      | some verb => .ok { state with verb := some verb, before := state.given, given := [] }
      | none => .error .misuse
  | some _, none =>
    if argument.isEmpty then .error .misuse else .ok { state with input := some argument }
  | some _, some _ => .error .misuse

/-- Take an argument.  After `help` all are topics. -/
def take (argument : String) : Step :=
  if let some topics := state.topics then
    .ok { state with topics := some (topics ++ [argument]) }
  else if state.literal then state.takePlain argument
  else
    match state.pending, argument.toList with
    | some option, ['-'] => state.give option "-"
    | some _, '-' :: _ => .error .misuse
    | some option, _ => state.give option argument
    | none, ['-', '-'] => .ok { state with literal := true }
    | none, '-' :: '-' :: rest =>
      let name := String.ofList (rest.takeWhile (· ≠ '='))
      match rest.dropWhile (· ≠ '=') with
      | [] => state.takeLong name none
      | _ :: value => state.takeLong name (some (String.ofList value))
    | none, '-' :: letter :: rest => state.takeLetters (letter :: rest)
    | none, _ => state.takePlain argument

end

/-- The value of an option. -/
def value? (state : ArgumentState) (name : String) : Option String := state.given.lookup name

/-- Whether an option is given. -/
def has (state : ArgumentState) (name : String) : Bool := (state.value? name).isSome

end ArgumentState

/-! ## What is asked for -/

/-- A verb with its file and its options. -/
inductive Action where
  | info (input : String) (json : Bool)
  | dump (input : String) (method : Option String) (signatures : Bool)
  | roundtrip (input output : String) (rebuild debug : Bool) (mainClass : Option String)
  deriving DecidableEq, Repr

/-- What a command line asks for. -/
structure Invocation where
  /-- The file with settings. -/
  config : Option String
  action : Action
  deriving DecidableEq, Repr

namespace ArgumentState

/-- The action that was asked for, if nothing is missing. -/
def action? (state : ArgumentState) : Option Action := do
  let input ← state.input
  match ← state.verb with
  | .info => return .info input (state.has "json")
  | .dump => return .dump input (state.value? "method") (state.has "signatures")
  | .roundtrip =>
    let output ← state.value? "output"
    return .roundtrip input output (state.has "rebuild") (state.has "debug")
      (state.value? "main-class")

end ArgumentState

/-- How the reading ends after `help`: there is help on the program, on each verb, and on help. -/
def ArgumentStop.ofTopics : List String → ArgumentStop
  | [] => .help
  | [topic] => if topic = "help" ∨ (Verb.ofName? topic).isSome then .help else .misuse
  | _ => .misuse

/-- What the arguments of a command line ask for. -/
def Invocation.ofArguments (arguments : List String) : Except ArgumentStop Invocation := do
  let state ← arguments.foldlM ArgumentState.take {}
  if let some topics := state.topics then throw (.ofTopics topics)
  match state.pending, state.action? with
  | none, some action =>
    return { config := state.value? "config" <|> state.before.lookup "config", action }
  | _, _ => throw .misuse

end ActionBytecode
