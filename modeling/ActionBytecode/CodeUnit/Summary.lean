/-
  ActionBytecode — summaries of units.

  A summary gives the sizes of the tables of a unit, and a line for each class.
-/
import ActionBytecode.CodeUnit.Basic
import ActionBytecode.Text.Json

namespace ActionBytecode

/-- What a summary says of a class. -/
structure ClassSummary where
  name : String
  superName : Option String
  flags : ClassFlags
  instanceTraits : Nat
  staticTraits : Nat
  deriving DecidableEq

/-- What a summary says of a unit.  The sizes of tables include the fixed entry. -/
structure UnitSummary where
  ints : Nat
  uints : Nat
  doubles : Nat
  strings : Nat
  namespaces : Nat
  namespaceSets : Nat
  multinames : Nat
  methods : Nat
  bodies : Nat
  scripts : Nat
  metadata : Nat
  classes : List ClassSummary
  tampered : Bool
  deriving DecidableEq

/-- The summary of a class.  A class without a dotted name is shown by its multiname. -/
def ClassDefinition.summary (cls : ClassDefinition) : ClassSummary where
  name := cls.name.dotted?.getD cls.name.text
  superName := if cls.superName = .any then none else cls.superName.dotted?
  flags := cls.flags
  instanceTraits := cls.instanceTraits.length
  staticTraits := cls.staticTraits.length

/-- The summary of a unit. -/
def CodeUnit.summary (unit : CodeUnit) : UnitSummary where
  ints := unit.pool.ints.size
  uints := unit.pool.uints.size
  doubles := unit.pool.doubles.size
  strings := unit.pool.strings.size
  namespaces := unit.pool.namespaces.size
  namespaceSets := unit.pool.namespaceSets.size
  multinames := unit.pool.multinames.size
  methods := unit.methodOrder.length
  bodies := unit.wireMethods.countP (·.2.body.isSome)
  scripts := unit.scripts.length
  metadata := unit.metadata.length
  classes := unit.wireClasses.map fun (_, cls) => cls.summary
  tampered := unit.isTampered

namespace UnitSummary

/-- The version of the format. -/
def version : String := s!"{majorVersion.toNat}.{minorVersion.toNat}"

/-! ## Text -/

/-- The line of a class. -/
def classText (cls : ClassSummary) : String :=
  let superName := (cls.superName.map (" extends " ++ ·)).getD ""
  let interface := if cls.flags.isInterface then " [interface]" else ""
  s!"    {cls.name}{superName}{interface} " ++
    s!"({cls.instanceTraits} instance, {cls.staticTraits} static traits)\n"

/-- The summary as text. -/
def text (summary : UnitSummary) : String :=
  s!"abc {version}\n" ++
    s!"  pool: {summary.ints} ints, {summary.uints} uints, {summary.doubles} doubles, " ++
    s!"{summary.strings} strings\n" ++
    s!"        {summary.namespaces} namespaces, {summary.namespaceSets} namespace sets, " ++
    s!"{summary.multinames} multinames\n" ++
    s!"  {summary.methods} methods ({summary.bodies} with bodies), {summary.scripts} scripts, " ++
    s!"{summary.metadata} metadata\n" ++
    s!"  {summary.classes.length} classes\n" ++
    String.join (summary.classes.map classText)

/-! ## JSON -/

/-- A class in JSON.  The superclass is left out when there is none. -/
def classJson (cls : ClassSummary) : JsonValue :=
  .object (
    [("name", .text cls.name)] ++
      cls.superName.toList.map (fun name => ("super_name", .text name)) ++
      [("flags", .object [
          ("sealed", .truth cls.flags.isSealed),
          ("is_final", .truth cls.flags.isFinal),
          ("interface", .truth cls.flags.isInterface)]),
        ("instance_traits", .number cls.instanceTraits),
        ("static_traits", .number cls.staticTraits)])

/-- The summary in JSON. -/
def json (summary : UnitSummary) : String :=
  JsonValue.pretty "" (.object [
    ("version", .text version),
    ("ints", .number summary.ints),
    ("uints", .number summary.uints),
    ("doubles", .number summary.doubles),
    ("strings", .number summary.strings),
    ("namespaces", .number summary.namespaces),
    ("namespace_sets", .number summary.namespaceSets),
    ("multinames", .number summary.multinames),
    ("methods", .number summary.methods),
    ("bodies", .number summary.bodies),
    ("scripts", .number summary.scripts),
    ("metadata", .number summary.metadata),
    ("classes", .array (summary.classes.map classJson)),
    ("tampered", .truth summary.tampered)])

end UnitSummary

end ActionBytecode
