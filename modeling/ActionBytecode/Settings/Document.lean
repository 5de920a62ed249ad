/-
  ActionBytecode — the lines of a settings file.

  A file has one statement to a line: the header of a table, a header that several tables share,
  or a key with its value.  Values can be lists and tables in braces, and only a list or a string
  can go over several lines.  Values are nested, and paths are long, only up to a limit.

  What the statements say together is a table (`SettingEntries`).
-/
import ActionBytecode.Settings.Scalar
import ActionBytecode.Settings.Table

namespace ActionBytecode

/-- A line of a settings file. -/
inductive Statement where
  | header (path : KeyPath)
  | sharedHeader (path : KeyPath)
  | entry (path : KeyPath) (value : SettingValue)

namespace Scanner

/-- How many names a path can have, and how many lists and tables a value can be nested in. -/
def nestingLimit : Nat := 79

/-! ## Keys -/

/-- One name of a path. -/
def name : Scanner String := do
  match ← peek? with
  | some '"' | some '\'' => lineString
  | _ =>
    let name ← takeWhile fun c => c.isAlphanum || c == '_' || c == '-'
    if name.isEmpty then failure else return String.ofList name

/-- A path of at most `limit` names. -/
def pathUpTo : (limit : Nat) → Scanner KeyPath
  | 0 => failure
  | limit + 1 => do
    blanks
    let name ← name
    blanks
    if ← accept ['.'] then
      let path ← pathUpTo limit
      return { path with tables := name :: path.tables }
    return ⟨[], name⟩

/-- A path, and the blanks around it. -/
def path : Scanner KeyPath := pathUpTo nestingLimit

/-! ## Values -/

/-- The rest of a list after its bracket, with at most `limit` values. -/
def listUpTo (value : Scanner SettingValue) : (limit : Nat) → Scanner (List SettingValue)
  | 0 => failure
  | limit + 1 => do
    lines
    if ← accept [']'] then return []
    let first ← value
    lines
    if ← accept [','] then return first :: (← listUpTo value limit)
    expect ']'
    return [first]

/-- A key and its value, and the blanks after it. -/
def pair (value : Scanner SettingValue) : Scanner (KeyPath × SettingValue) := do
  let path ← path
  expect '='
  blanks
  let value ← value
  blanks
  return (path, value)

/-- The rest of a table in braces, with at least one and at most `limit` keys. -/
def pairsUpTo (value : Scanner SettingValue) :
    (limit : Nat) → Scanner (List (KeyPath × SettingValue))
  | 0 => failure
  | limit + 1 => do
    let first ← pair value
    if ← accept [','] then return first :: (← pairsUpTo value limit)
    expect '\x7d'
    return [first]

/-- The rest of a table in braces. -/
def braced (value : Scanner SettingValue) : Scanner SettingValue := do
  blanks
  if ← accept ['\x7d'] then return .table .braced []
  let pairs ← pairsUpTo value (← get).length
  return .table .braced (← SettingEntries.ofPairs? pairs)

/-- A value, with the scanner for those nested in it, if there can be any. -/
def valueAround (inner : Option (Scanner SettingValue)) : Scanner SettingValue := do
  match ← peek?, inner with
  | some '"', _ | some '\'', _ => .text <$> string
  | some '[', some value =>
    expect '['
    .list <$> listUpTo value ((← get).length + 1)
  | some '\x7b', some value =>
    expect '\x7b'
    braced value
  | _, _ =>
    match ← scalar with
    | .truth value => return .truth value
    | .number => return .number
    | .moment => return .moment

/-- A value with at most `depth` lists and tables around its innermost. -/
def valueUpTo : (depth : Nat) → Scanner SettingValue
  | 0 => valueAround none
  | depth + 1 => valueAround (some (valueUpTo depth))

/-- A value. -/
def value : Scanner SettingValue := valueUpTo nestingLimit

/-! ## Lines -/

/-- A header or a key, without the end of its line. -/
def statement : Scanner Statement := do
  if ← accept ['[', '['] then
    let path ← path
    expect ']'
    expect ']'
    return .sharedHeader path
  if ← accept ['['] then
    let path ← path
    expect ']'
    return .header path
  let (path, value) ← pair value
  return .entry path value

/-- At most `limit` lines. -/
def statementsUpTo : (limit : Nat) → Scanner (List Statement)
  | 0 => failure
  | limit + 1 => do
    blanks
    match ← peek? with
    | none => return []
    | some '#' | some '\n' | some '\r' =>
      lineEnd
      statementsUpTo limit
    | some _ =>
      let first ← statement
      lineEnd
      return first :: (← statementsUpTo limit)

/-- All lines of a file.  It can start with a byte order mark. -/
def statements : Scanner (List Statement) := do
  discard (accept ['\ufeff'])
  statementsUpTo ((← get).length + 1)

end Scanner

/-! ## Files -/

/-- What the lines of a file say so far. -/
structure SettingFile where
  /-- The header that the next key stands below. -/
  header : List String := []
  entries : SettingEntries := []

namespace SettingFile

/-- Add a line, unless it clashes with an earlier one. -/
def add (file : SettingFile) : Statement → Option SettingFile
  | .header path => do
    return { header := path.names, entries := ← file.entries.addHeader path }
  | .sharedHeader path => do
    return { header := path.names, entries := ← file.entries.addSharedHeader path }
  | .entry path value => do
    return { file with entries := ← file.entries.putBelow file.header path value }

/-- The file with a given text. -/
def ofText? (text : String) : Option SettingFile := do
  let (statements, _) ← Scanner.statements text.toList
  statements.foldlM add {}

end SettingFile

end ActionBytecode
