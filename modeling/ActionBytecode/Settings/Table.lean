/-
  ActionBytecode — tables of settings.

  A table has values by name, and some of these are tables again.  Tables come about in several
  ways, and how one came about decides who can add to it:

  * one with a header of its own gets the keys below that header, and no others;
  * one that is passed on the way to another header can still get its own header;
  * one that is named in a dotted key gets keys from such keys only;
  * one in braces is complete.

  A name is never given twice.
-/
namespace ActionBytecode

/-- How a table came about. -/
inductive TableForm where
  | headed
  | passed
  | dotted
  | braced
  deriving DecidableEq, Repr

/-- The value of a key. -/
inductive SettingValue where
  | text (value : String)
  | truth (value : Bool)
  | number
  | moment
  | list (values : List SettingValue)
  | table (form : TableForm) (entries : List (String × SettingValue))
  /-- The tables that share a header in double brackets. -/
  | tables (tables : List (List (String × SettingValue)))

/-- The keys of a table with their values. -/
abbrev SettingEntries := List (String × SettingValue)

/-- A path of names that leads to a key. -/
structure KeyPath where
  tables : List String
  name : String
  deriving DecidableEq, Repr

/-- All names of a path. -/
def KeyPath.names (path : KeyPath) : List String := path.tables ++ [path.name]

namespace SettingEntries

/-- Give a name a value that hangs on the one it has; it can be refused. -/
def alter (name : String) (f : Option SettingValue → Option SettingValue) :
    SettingEntries → Option SettingEntries
  | [] => (f none).map fun value => [(name, value)]
  | (other, value) :: rest =>
    if other = name then (f (some value)).map fun value => (other, value) :: rest
    else (alter name f rest).map ((other, value) :: ·)

/-- Change the table that a name stands for, by way of a header or, where `dotted` holds, of a
    dotted key.  A missing table is made. -/
def enter (dotted : Bool) (f : TableForm → SettingEntries → Option SettingEntries) :
    Option SettingValue → Option SettingValue
  | none =>
    let form := if dotted then .dotted else .passed
    (f form []).map (.table form)
  | some (.table form entries) =>
    if form = .braced ∨ (dotted ∧ form = .headed) then none else (f form entries).map (.table form)
  | some (.tables tables) =>
    (f .headed (tables.getLast?.getD [])).map fun last => .tables (tables.dropLast ++ [last])
  | some _ => none

/-- Change the table at the end of a path.  The path starts in a table that came about by `form`. -/
def changeAt (dotted : Bool) (f : TableForm → SettingEntries → Option SettingEntries)
    (form : TableForm) : (path : List String) → SettingEntries → Option SettingEntries
  | [], entries => f form entries
  | name :: path, entries =>
    alter name (enter dotted fun form entries => changeAt dotted f form path entries) entries

/-- Add a key to a table that is open for keys. -/
def put (path : KeyPath) (value : SettingValue) (entries : SettingEntries) :
    Option SettingEntries :=
  let add (form : TableForm) (entries : SettingEntries) : Option SettingEntries :=
    if (form = .dotted) = (path.tables ≠ []) then
      alter path.name (fun | none => some value | some _ => none) entries
    else none
  changeAt true add .headed path.tables entries

/-- The table with given keys. -/
def ofPairs? (pairs : List (KeyPath × SettingValue)) : Option SettingEntries :=
  pairs.foldlM (fun entries (path, value) => put path value entries) []

/-- Give a table its header. -/
def addHeader (path : KeyPath) (entries : SettingEntries) : Option SettingEntries :=
  let open? : Option SettingValue → Option SettingValue
    | none => some (.table .headed [])
    | some (.table .passed entries) => some (.table .headed entries)
    | _ => none
  changeAt false (fun _ => alter path.name open?) .headed path.tables entries

/-- Start another of the tables that share a header. -/
def addSharedHeader (path : KeyPath) (entries : SettingEntries) : Option SettingEntries :=
  let open? : Option SettingValue → Option SettingValue
    | none => some (.tables [[]])
    | some (.tables tables) => some (.tables (tables ++ [[]]))
    | _ => none
  changeAt false (fun _ => alter path.name open?) .headed path.tables entries

/-- Add a key below the header with a given path. -/
def putBelow (header : List String) (path : KeyPath) (value : SettingValue)
    (entries : SettingEntries) : Option SettingEntries :=
  changeAt false (fun _ => put path value) .headed header entries

end SettingEntries

end ActionBytecode
