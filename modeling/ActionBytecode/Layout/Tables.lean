/-
  ActionBytecode — references on the wire.

  A reference is an index into a table.  `Tables` holds what indices refer to once the constants
  are read; an index without an entry is a fault at the place where the index stands.
-/
import ActionBytecode.Constant.Pool
import ActionBytecode.Wire.Packed

namespace ActionBytecode

/-- What the indices on the wire refer to. -/
structure Tables where
  pool : Pool
  method? : Nat → Option MethodHandle
  class? : Nat → Option ClassHandle
  /-- The number of metadata entries. -/
  metadataCount : Nat

/-- An index that is in range, without a check. -/
def Bytes.reference (index : Nat) : Bytes := u32 (UInt32.ofNat index)

namespace Reader

/-- The entry of a table that an index points to. -/
def entry {α : Type} (table : Table) (find : Nat → Option α) : Reader α := do
  let start ← offset
  let i ← index
  require (find i) start (.indexRange table i)

/-- The entry of a table that an index points to, as part of what starts at `start`. -/
def entryFrom {α : Type} (start : Nat) (table : Table) (find : Nat → Option α) : Reader α := do
  let i ← index
  require (find i) start (.indexRange table i)

section
variable (tables : Tables)

def string : Reader String := entry .string (tables.pool.strings[·]?)

/-- A name; index 0 means that there is none. -/
def name : Reader (Option String) :=
  entry .string fun i => if i = 0 then some none else tables.pool.strings[i]?.map some

def nspace : Reader Namespace := entry .nspace (tables.pool.namespaces[·]?)

def multiname : Reader Multiname := entry .multiname (tables.pool.multinames[·]?)

def method : Reader MethodHandle := entry .method tables.method?

def classRef : Reader ClassHandle := entry .classes tables.class?

/-- A place in the list of metadata. -/
def metadataIndex : Reader UInt32 :=
  entry .metadata fun i => if i < tables.metadataCount then some (UInt32.ofNat i) else none

end

end Reader

end ActionBytecode
