/-
  ActionBytecode — units of code.

  A unit holds constants, methods, classes, scripts and metadata.  Methods and classes are kept
  by handle; the order in which they stand on the wire is kept apart, and can change when the unit
  is written.

  A unit also remembers the bytes that it was read from or last written as, for as long as they
  are still right.  It is tampered with when they are forgotten, or when a method has symbolic
  code.
-/
import ActionBytecode.Declaration.Class
import ActionBytecode.Declaration.Method
import ActionBytecode.Layout.Tables

namespace ActionBytecode

/-- The version of the format, before the point. -/
def majorVersion : UInt16 := 46

/-- The version of the format, after the point. -/
def minorVersion : UInt16 := 16

/-- A unit of code. -/
structure CodeUnit where
  pool : Pool := .initial
  /-- The methods, by handle. -/
  methods : Array Method := #[]
  /-- The methods, in the order of the wire. -/
  methodOrder : List MethodHandle := []
  /-- The classes, by handle. -/
  classes : Array ClassDefinition := #[]
  /-- The classes, in the order of the wire. -/
  classOrder : List ClassHandle := []
  scripts : List Script := []
  metadata : List Metadata := []
  /-- The next identity to give to an instruction. -/
  nextInstruction : Nat := 0
  /-- The next number to tell a private namespace by.  After the last one comes 0 again. -/
  nextPrivate : UInt32 := 1
  /-- The bytes of the unit, if they are known. -/
  written : Option Bytes := none
  deriving DecidableEq

namespace CodeUnit

/-- The unit without anything. -/
def empty : CodeUnit := {}

instance : Inhabited CodeUnit := ⟨empty⟩

section
variable (unit : CodeUnit)

/-! ## Looking things up -/

def method? (handle : MethodHandle) : Option Method := unit.methods[handle.index]?

def class? (handle : ClassHandle) : Option ClassDefinition := unit.classes[handle.index]?

/-- The method at a place on the wire. -/
def methodAt? (index : Nat) : Option MethodHandle := unit.methodOrder[index]?

/-- The class at a place on the wire. -/
def classAt? (index : Nat) : Option ClassHandle := unit.classOrder[index]?

/-- The methods with their handles, in the order of the wire. -/
def wireMethods : List (MethodHandle × Method) :=
  unit.methodOrder.filterMap fun handle => (unit.method? handle).map (handle, ·)

/-- The classes with their handles, in the order of the wire. -/
def wireClasses : List (ClassHandle × ClassDefinition) :=
  unit.classOrder.filterMap fun handle => (unit.class? handle).map (handle, ·)

/-- The first method with a given name. -/
def methodNamed? (name : String) : Option MethodHandle :=
  (unit.wireMethods.find? (·.2.name == some name)).map (·.1)

/-- The first class with a given dotted name. -/
def classNamed? (name : String) : Option ClassHandle :=
  (unit.wireClasses.find? (·.2.name.dotted? == some name)).map (·.1)

/-- The class that a name stands for: one of the unit, or else one of the platform. -/
def resolveClass (name : Multiname) : ClassReference :=
  match unit.wireClasses.find? (·.2.name == name) with
  | some (handle, _) => .defined handle
  | none => .platform name

/-- The traits of the unit: those of classes, of scripts, and of method bodies. -/
def allTraits : List Trait :=
  (unit.wireClasses.flatMap fun (_, cls) => cls.instanceTraits ++ cls.staticTraits) ++
    unit.scripts.flatMap Script.traits ++
    (unit.wireMethods.filterMap fun (_, method) => method.body).flatMap (·.traits)

/-- What the indices in the code of the unit refer to. -/
def tables : Tables where
  pool := unit.pool
  method? := unit.methodAt?
  class? := unit.classAt?
  metadataCount := unit.metadata.length

/-- Whether the unit has to be written anew. -/
def isTampered : Bool := unit.written.isNone || unit.methods.toList.any Method.isSymbolic

end

/-! ## Metadata by name and key -/

/-- Change the value of a key in a list that is sorted by keys. -/
def alter {β : Type} (key : String) (f : Option β → β) : List (String × β) → List (String × β)
  | [] => [(key, f none)]
  | (other, b) :: rest =>
    if key < other then (key, f none) :: (other, b) :: rest
    else if key = other then (other, f (some b)) :: rest
    else (other, b) :: alter key f rest

/-- The values of metadata by name and then by key, both sorted.  A value without a key has the
    empty one, and of two values the later counts. -/
def metadataMap (unit : CodeUnit) : List (String × List (String × String)) :=
  unit.metadata.foldl (fun groups entry =>
    alter entry.name (fun group =>
      entry.items.foldl (fun group (key, value) => alter (key.getD "") (fun _ => value) group)
        (group.getD []))
      groups) []

end CodeUnit

/-- A change to a unit that gives a value or fails.  What was changed before a failure stays
    changed. -/
abbrev Edit (α : Type) := EStateM Fault CodeUnit α

namespace Edit

/-- Fail on what the model refuses. -/
def refuse {α : Type} (cause : Misuse) : Edit α := throw (.misuse cause)

/-- Give a result that does not hang on the unit. -/
def ofExcept {α : Type} : Except Fault α → Edit α
  | .ok a => pure a
  | .error fault => throw fault

/-- Change the pool. -/
def pool (f : Pool → Pool) : Edit Unit := modify fun unit => { unit with pool := f unit.pool }

/-- Forget the bytes of the unit. -/
def forget : Edit Unit := modify fun unit => { unit with written := none }

/-- The method with a handle. -/
def requireMethod (handle : MethodHandle) : Edit Method := do
  match (← get).method? handle with
  | some method => return method
  | none => refuse (.unknownMethod handle)

/-- The class with a handle. -/
def requireClass (handle : ClassHandle) : Edit ClassDefinition := do
  match (← get).class? handle with
  | some cls => return cls
  | none => refuse (.unknownClass handle)

end Edit

end ActionBytecode
