/-
  ActionBytecode — classes, scripts and metadata on the wire.

  Of each class the instance side is written first, for all classes, and then the static side,
  for all classes in the same order.
-/
import ActionBytecode.Declaration.Class
import ActionBytecode.Layout.Trait

namespace ActionBytecode

/-! ## Flags -/

namespace ClassFlags

/-- The flags in a byte. -/
def ofByte (b : UInt8) : ClassFlags where
  isSealed := b &&& 0x01 ≠ 0
  isFinal := b &&& 0x02 ≠ 0
  isInterface := b &&& 0x04 ≠ 0

/-- The byte of the flags, which also says whether a namespace of protected members follows. -/
def byte (flags : ClassFlags) (hasProtectedNamespace : Bool) : UInt8 :=
  (if flags.isSealed then 0x01 else 0) ||| (if flags.isFinal then 0x02 else 0) |||
    (if flags.isInterface then 0x04 else 0) ||| (if hasProtectedNamespace then 0x08 else 0)

end ClassFlags

/-! ## Reading -/

namespace Reader

section
variable (tables : Tables)

/-- The instance side of a class; the static side is still to come. -/
def instanceSide : Reader ClassDefinition := do
  let name ← multiname tables
  let superName ← multiname tables
  let bits ← u8
  let protectedNamespace ←
    if bits &&& 0x08 ≠ 0 then some <$> nspace tables else pure none
  let interfaces ← list (multiname tables)
  let constructor ← method tables
  return {
    name
    superName
    flags := .ofByte bits
    protectedNamespace
    interfaces
    constructor
    instanceTraits := ← traits tables
    staticInit := constructor }

/-- The static side of a class whose instance side is read. -/
def staticSide (cls : ClassDefinition) : Reader ClassDefinition := do
  let staticInit ← method tables
  return { cls with staticInit, staticTraits := ← traits tables }

/-- A script. -/
def script : Reader Script := do
  let init ← method tables
  return { init, traits := ← traits tables }

/-- A value with its key. -/
def metadataItem : Reader (Option String × String) := do
  let key ← name tables
  return (key, ← string tables)

/-- A metadata entry. -/
def metadata : Reader Metadata := do
  let name ← string tables
  return { name, items := ← list (metadataItem tables) }

end

end Reader

/-! ## Writing -/

namespace Indexing

section
variable (indexing : Indexing) (metadataCount : Nat)

/-- The instance side of a class. -/
def instanceBytes (cls : ClassDefinition) : Except Fault Bytes := do
  let name ← indexing.multinameIndex cls.name
  let superName ← indexing.multinameIndex cls.superName
  let flags := cls.flags.byte cls.protectedNamespace.isSome
  let protectedNamespace ←
    match cls.protectedNamespace with
    | some ns => Bytes.reference <$> indexing.namespaceIndex ns
    | none => pure []
  let interfaces ← Bytes.list
    (fun interface => return Bytes.reference (← indexing.multinameIndex interface)) cls.interfaces
  let constructor ← indexing.methodIndex cls.constructor
  let traits ← indexing.traitsBytes metadataCount cls.instanceTraits
  return Bytes.reference name ++ Bytes.reference superName ++ [flags] ++ protectedNamespace ++
    interfaces ++ Bytes.reference constructor ++ traits

/-- The static side of a class. -/
def staticBytes (cls : ClassDefinition) : Except Fault Bytes := do
  let staticInit ← indexing.methodIndex cls.staticInit
  return Bytes.reference staticInit ++ (← indexing.traitsBytes metadataCount cls.staticTraits)

/-- The classes of a unit: all instance sides, then all static sides. -/
def classesBytes (classes : List ClassDefinition) : Except Fault Bytes := do
  let instances ← Bytes.list (indexing.instanceBytes metadataCount) classes
  return instances ++ (← classes.mapM (indexing.staticBytes metadataCount)).flatten

/-- A script. -/
def scriptBytes (script : Script) : Except Fault Bytes := do
  let init ← indexing.methodIndex script.init
  return Bytes.reference init ++ (← indexing.traitsBytes metadataCount script.traits)

/-- A value with its key. -/
def metadataItemBytes (item : Option String × String) : Except Fault Bytes := do
  let key ← indexing.nameIndex item.1
  return Bytes.reference key ++ Bytes.reference (← indexing.nameIndex item.2)

/-- A metadata entry. -/
def metadataBytes (entry : Metadata) : Except Fault Bytes := do
  let name ← indexing.nameIndex entry.name
  return Bytes.reference name ++ (← Bytes.list indexing.metadataItemBytes entry.items)

end

end Indexing

end ActionBytecode
