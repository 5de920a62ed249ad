/-
  ActionBytecode — default values on the wire.

  A value is the index of its constant and the tag of its kind.  Faults are those of the place
  where the index stands.
-/
import ActionBytecode.Constant.Indexing
import ActionBytecode.Layout.Tables

namespace ActionBytecode

namespace Reader

/-- The value with a given index and tag; the index stands at `start`. -/
def valueOf (tables : Tables) (start i : Nat) (tag : UInt8) : Reader DefaultValue := do
  let constant {α : Type} (constants : Array α) : Reader α :=
    require constants[i]? start (.indexRange .value i)
  match ← require (ValueKind.ofByte? tag) start (.valueKind tag) with
  | .int => return .int (← constant tables.pool.ints)
  | .uint => return .uint (← constant tables.pool.uints)
  | .double => return .double (← constant tables.pool.doubles)
  | .text => return .text (← constant tables.pool.strings)
  | .truth value => return .truth value
  | .null => return .null
  | .undefined => return .undefined
  | .nspace _ => return .nspace (← constant tables.pool.namespaces)

/-- A value. -/
def value (tables : Tables) : Reader DefaultValue := do
  let start ← offset
  let i ← index
  valueOf tables start i (← u8)

/-- A value, or the index 0, which stands for none. -/
def value? (tables : Tables) : Reader (Option DefaultValue) := do
  let start ← offset
  let i ← index
  if i = 0 then return none
  return some (← valueOf tables start i (← u8))

end Reader

namespace Indexing

/-- A value. -/
def valueBytes (indexing : Indexing) (value : DefaultValue) : Except Fault Bytes :=
  return Bytes.reference (← indexing.valueIndex value) ++ [value.kind.byte]

/-- A value, or the index 0. -/
def valueBytes? (indexing : Indexing) : Option DefaultValue → Except Fault Bytes
  | some value => indexing.valueBytes value
  | none => return Bytes.reference 0

end Indexing

end ActionBytecode
