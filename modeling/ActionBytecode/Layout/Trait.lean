/-
  ActionBytecode — traits on the wire.

  A trait is a name, a byte, the parts of the member, and references to metadata.  The low half
  of the byte is the tag of the member's kind; in the high half stand the attributes, and whether
  there are metadata.
-/
import ActionBytecode.Declaration.Trait
import ActionBytecode.Layout.Value

namespace ActionBytecode

/-! ## Attribute bits -/

/-- The bits of a trait's attributes. -/
def Trait.attributeBits (t : Trait) : UInt8 :=
  (if t.isFinal then 0x10 else 0) ||| (if t.isOverride then 0x20 else 0) |||
    (if t.metadata.isEmpty then 0 else 0x40)

/-! ## Reading -/

namespace Reader

/-- The parts of a member of a given kind. -/
def member (tables : Tables) : MemberKind → Reader Member
  | .slot kind => do
    let slot ← u30
    let type ← multiname tables
    return .slot kind slot type (← value? tables)
  | .access kind => do
    let dispatch ← u30
    return .access kind dispatch (← method tables)
  | .classBinding => do
    let slot ← u30
    return .classBinding slot (← classRef tables)
  | .function => do
    let slot ← u30
    return .function slot (← method tables)

/-- A trait. -/
def traitEntry (tables : Tables) : Reader Trait := do
  let name ← multiname tables
  let start ← offset
  let bits ← u8
  let tag := bits &&& 0x0f
  let kind ← require (MemberKind.ofTag? tag) start (.traitKind tag)
  let member ← member tables kind
  let metadata ← if bits &&& 0x40 ≠ 0 then list (metadataIndex tables) else pure []
  return {
    name
    member
    isFinal := bits &&& 0x10 ≠ 0
    isOverride := bits &&& 0x20 ≠ 0
    metadata }

/-- A list of traits. -/
def traits (tables : Tables) : Reader (List Trait) := list (traitEntry tables)

end Reader

/-! ## Writing -/

namespace Indexing

section
variable (indexing : Indexing)

/-- The parts of a member. -/
def memberBytes : Member → Except Fault Bytes
  | .slot _ slot type value => do
    let type ← indexing.multinameIndex type
    return Bytes.u32 slot ++ Bytes.reference type ++ (← indexing.valueBytes? value)
  | .access _ dispatch method =>
    return Bytes.u32 dispatch ++ Bytes.reference (← indexing.methodIndex method)
  | .classBinding slot handle =>
    return Bytes.u32 slot ++ Bytes.reference (← indexing.classIndex handle)
  | .function slot method =>
    return Bytes.u32 slot ++ Bytes.reference (← indexing.methodIndex method)

/-- A reference to one of `count` metadata entries. -/
def metadataReferenceBytes (count : Nat) (index : UInt32) : Except Fault Bytes :=
  if index.toNat < count then .ok (Bytes.u32 index)
  else .error (.misuse (.traitMetadata index))

/-- A trait of a unit with `metadataCount` metadata entries. -/
def traitBytes (metadataCount : Nat) (t : Trait) : Except Fault Bytes := do
  let name ← indexing.multinameIndex t.name
  let member ← indexing.memberBytes t.member
  let metadata ←
    if t.metadata.isEmpty then pure []
    else Bytes.list (metadataReferenceBytes metadataCount) t.metadata
  return Bytes.reference name ++ [t.member.kind.tag ||| t.attributeBits] ++ member ++ metadata

/-- A list of traits. -/
def traitsBytes (metadataCount : Nat) (traits : List Trait) : Except Fault Bytes :=
  Bytes.list (indexing.traitBytes metadataCount) traits

end

end Indexing

end ActionBytecode
