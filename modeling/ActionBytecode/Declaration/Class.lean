/-
  ActionBytecode — classes, scripts and metadata.

  A class has an instance side and a static side.  A script is a method that runs when the unit
  is loaded, with the members that it makes global.  Metadata are named lists of values, which
  traits refer to by their place in the unit.
-/
import ActionBytecode.Declaration.Trait

namespace ActionBytecode

/-- The properties of a class that are stored as flags. -/
structure ClassFlags where
  /-- Instances cannot gain members. -/
  isSealed : Bool := false
  /-- The class cannot have subclasses. -/
  isFinal : Bool := false
  isInterface : Bool := false
  deriving DecidableEq, Repr

/-- A class of a unit. -/
structure ClassDefinition where
  name : Multiname
  superName : Multiname
  flags : ClassFlags := {}
  /-- The namespace of protected members. -/
  protectedNamespace : Option Namespace := none
  interfaces : List Multiname := []
  constructor : MethodHandle
  instanceTraits : List Trait := []
  staticInit : MethodHandle
  staticTraits : List Trait := []
  deriving DecidableEq

namespace ClassDefinition

/-- The methods of a class: both initializers, then those of its traits. -/
def methods (cls : ClassDefinition) : List MethodHandle :=
  cls.constructor :: cls.staticInit ::
    (cls.instanceTraits ++ cls.staticTraits).filterMap (·.member.method?)

end ClassDefinition

/-- A class that a unit can refer to. -/
inductive ClassReference where
  /-- A class of the unit. -/
  | defined (handle : ClassHandle)
  /-- A class of the platform, known by its name. -/
  | platform (name : Multiname)
  deriving DecidableEq

/-- A method that runs on loading, and the members that it makes global. -/
structure Script where
  init : MethodHandle
  traits : List Trait
  deriving DecidableEq

/-- A named list of values, each with a key or without one. -/
structure Metadata where
  name : String
  items : List (Option String × String)
  deriving DecidableEq

end ActionBytecode
