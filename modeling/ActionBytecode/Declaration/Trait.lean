/-
  ActionBytecode — traits.

  A trait declares a named member of a class, an instance, a script or an activation: a variable,
  a constant, a method, an accessor, a class or a function.
-/
import ActionBytecode.Code.Location
import ActionBytecode.Constant.Value
import ActionBytecode.Name.Multiname

namespace ActionBytecode

/-- The kinds of member that have a value in a slot. -/
inductive SlotKind where
  | variable
  | constant
  deriving DecidableEq, Repr

/-- The kinds of member that run a method when they are used. -/
inductive AccessKind where
  | method
  | getter
  | setter
  deriving DecidableEq, Repr

/-- The kinds of member. -/
inductive MemberKind where
  | slot (kind : SlotKind)
  | access (kind : AccessKind)
  | classBinding
  | function
  deriving DecidableEq, Repr

namespace MemberKind

/-- Every kind of member. -/
def all : List MemberKind :=
  [.slot .variable, .access .method, .access .getter, .access .setter, .classBinding, .function,
    .slot .constant]

/-- The tag of a kind on the wire. -/
def tag : MemberKind → UInt8
  | slot .variable => 0
  | access .method => 1
  | access .getter => 2
  | access .setter => 3
  | classBinding => 4
  | function => 5
  | slot .constant => 6

/-- The kind with a given tag. -/
def ofTag? (t : UInt8) : Option MemberKind :=
  all.find? (·.tag == t)

/-- The kind in listings. -/
def label : MemberKind → String
  | slot .variable => "slot"
  | slot .constant => "const"
  | access .method => "method"
  | access .getter => "getter"
  | access .setter => "setter"
  | classBinding => "class"
  | function => "function"

@[simp] theorem ofTag?_tag : ∀ kind : MemberKind, ofTag? kind.tag = some kind
  | .slot .variable | .slot .constant | .access .method | .access .getter | .access .setter
  | .classBinding | .function => rfl

end MemberKind

/-- What a trait declares.  A slot or dispatch number of 0 leaves the choice to the player. -/
inductive Member where
  /-- A variable or a constant, of a type and with a default. -/
  | slot (kind : SlotKind) (slot : UInt32) (type : Multiname) (value : Option DefaultValue)
  /-- A method, or one that reads or writes a property. -/
  | access (kind : AccessKind) (dispatch : UInt32) (method : MethodHandle)
  /-- A class, bound to a slot. -/
  | classBinding (slot : UInt32) (handle : ClassHandle)
  /-- A function, bound to a slot. -/
  | function (slot : UInt32) (method : MethodHandle)
  deriving DecidableEq

namespace Member

/-- The kind of the member. -/
def kind : Member → MemberKind
  | slot kind .. => .slot kind
  | access kind .. => .access kind
  | classBinding .. => .classBinding
  | function .. => .function

/-- The method that the member runs. -/
def method? : Member → Option MethodHandle
  | access _ _ method | function _ method => some method
  | slot .. | classBinding .. => none

end Member

/-- The declaration of a named member. -/
structure Trait where
  name : Multiname
  member : Member
  /-- Whether no subclass can override the member. -/
  isFinal : Bool := false
  /-- Whether the member overrides one of the superclass. -/
  isOverride : Bool := false
  /-- Places in the unit's list of metadata. -/
  metadata : List UInt32 := []
  deriving DecidableEq

end ActionBytecode
