/-
  ActionBytecode — settings.

  Settings come in two groups, each a table of a settings file.  Keys that mean nothing here are
  passed over.  A key that has another type than it should makes the whole file unreadable.

  A group can also be written as a list, with its settings in their order.
-/
import ActionBytecode.Settings.Document

namespace ActionBytecode

/-- What can be set. -/
structure Settings where
  /-- Whether code without debugging markers is given some. -/
  debugInstrumentation : Bool := false
  /-- The dotted name of the class that is written last. -/
  mainClass : Option String := none
  /-- Whether the code of methods is listed. -/
  bodies : Bool := true
  deriving DecidableEq, Repr

namespace SettingValue

/-- The truth value that a setting has, which is `usual` if it is not given. -/
def truthOr (usual : Bool) : Option SettingValue → Option Bool
  | none => some usual
  | some (.truth value) => some value
  | some _ => none

/-- The text that a setting has, if it is given. -/
def text? : Option SettingValue → Option (Option String)
  | none => some none
  | some (.text value) => some (some value)
  | some _ => none

end SettingValue

namespace Settings

/-- Take over the settings of the group on writing.  As a list it has both of them. -/
def withEncode (settings : Settings) : Option SettingValue → Option Settings
  | none | some .moment => some settings
  | some (.table _ entries) => do
    let debug ← SettingValue.truthOr false (entries.lookup "debug_instrumentation")
    let mainClass ← SettingValue.text? (entries.lookup "main_class")
    return { settings with debugInstrumentation := debug, mainClass }
  | some (.list (.truth debug :: .text mainClass :: _)) =>
    some { settings with debugInstrumentation := debug, mainClass := some mainClass }
  | some _ => none

/-- Take over the settings of the group on listings. -/
def withDump (settings : Settings) : Option SettingValue → Option Settings
  | none | some .moment => some settings
  | some (.table _ entries) => do
    let bodies ← SettingValue.truthOr true (entries.lookup "bodies")
    return { settings with bodies }
  | some (.list values) => do
    let bodies ← SettingValue.truthOr true values.head?
    return { settings with bodies }
  | some _ => none

/-- The settings of a file, if it can be read. -/
def ofText? (text : String) : Option Settings := do
  let file ← SettingFile.ofText? text
  let settings ← withEncode {} (file.entries.lookup "encode")
  settings.withDump (file.entries.lookup "dump")

end Settings

end ActionBytecode
