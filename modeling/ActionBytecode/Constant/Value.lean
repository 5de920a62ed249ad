/-
  ActionBytecode — default values.

  A slot, a constant or an optional parameter can have a default value.  On the wire a value is
  an index and a byte that says which table the index points into.  Truth values, `null` and
  `undefined` have no table; their index is there only to differ from zero, which stands for a
  missing default.
-/
import ActionBytecode.Decimal.Double
import ActionBytecode.Name.Namespace

namespace ActionBytecode

/-- What a default value is.  A namespace has the kind of its own. -/
inductive ValueKind where
  | int
  | uint
  | double
  | text
  | truth (value : Bool)
  | null
  | undefined
  | nspace (kind : NamespaceKind)
  deriving DecidableEq, Repr

namespace ValueKind

/-- Every kind of value. -/
def all : List ValueKind :=
  [.int, .uint, .double, .text, .truth true, .truth false, .null, .undefined] ++
    NamespaceKind.all.map .nspace

/-- The tag of a kind on the wire. -/
def byte : ValueKind → UInt8
  | int => 0x03
  | uint => 0x04
  | double => 0x06
  | text => 0x01
  | truth true => 0x0b
  | truth false => 0x0a
  | null => 0x0c
  | undefined => 0x00
  | nspace kind => kind.byte

/-- The kind with a given tag. -/
def ofByte? (b : UInt8) : Option ValueKind :=
  all.find? (·.byte == b)

@[simp] theorem ofByte?_byte : ∀ kind : ValueKind, ofByte? kind.byte = some kind
  | .int | .uint | .double | .text | .truth true | .truth false | .null | .undefined => rfl
  | .nspace kind => by cases kind <;> rfl

end ValueKind

/-- The default value of a slot, a constant or an optional parameter. -/
inductive DefaultValue where
  | int (value : Int32)
  | uint (value : UInt32)
  | double (value : Double)
  | text (value : String)
  | truth (value : Bool)
  | null
  | undefined
  | nspace (value : Namespace)
  deriving DecidableEq

namespace DefaultValue

/-- What a value is. -/
def kind : DefaultValue → ValueKind
  | int _ => .int
  | uint _ => .uint
  | double _ => .double
  | text _ => .text
  | truth value => .truth value
  | null => .null
  | undefined => .undefined
  | nspace ns => .nspace ns.kind

/-- The value in listings. -/
def describe : DefaultValue → String
  | int value => toString value.toInt
  | uint value => toString value.toNat ++ "u"
  | double value => value.text
  | text value => Quoted.quote value
  | truth value => if value then "true" else "false"
  | null => "null"
  | undefined => "undefined"
  | nspace ns => ns.text

end DefaultValue

end ActionBytecode
