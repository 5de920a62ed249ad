/-
  ActionBytecode — method signatures and bodies on the wire.

  Signatures and bodies stand in different sections of a unit: first the signature of every
  method, and at the end the bodies, each with the index of its method.

  The flag byte of a signature also says whether optional values and parameter names follow.
-/
import ActionBytecode.Declaration.Method
import ActionBytecode.Layout.Trait

namespace ActionBytecode

/-! ## Flags -/

namespace MethodFlags

/-- The flags in a byte. -/
def ofByte (b : UInt8) : MethodFlags where
  needArguments := b &&& 0x01 ≠ 0
  needActivation := b &&& 0x02 ≠ 0
  needRest := b &&& 0x04 ≠ 0
  ignoreRest := b &&& 0x10 ≠ 0
  native := b &&& 0x20 ≠ 0
  setDxns := b &&& 0x40 ≠ 0

/-- The byte of the flags, which also says what follows it. -/
def byte (flags : MethodFlags) (hasOptional hasParameterNames : Bool) : UInt8 :=
  (if flags.needArguments then 0x01 else 0) ||| (if flags.needActivation then 0x02 else 0) |||
    (if flags.needRest then 0x04 else 0) ||| (if hasOptional then 0x08 else 0) |||
    (if flags.ignoreRest then 0x10 else 0) ||| (if flags.native then 0x20 else 0) |||
    (if flags.setDxns then 0x40 else 0) ||| (if hasParameterNames then 0x80 else 0)

end MethodFlags

/-! ## Reading -/

namespace Reader

section
variable (tables : Tables)

/-- The optional values of a method with so many parameters. -/
def optionalValues (parameters : Nat) : Reader (List DefaultValue) := do
  let start ← offset
  let count ← index
  if count > parameters then malformed start (.optionalCount count parameters)
  times count (value tables)

/-- The signature of a method. -/
def signature : Reader Signature := do
  let count ← index
  let returnType ← multiname tables
  let parameters ← times count (multiname tables)
  let name ← name tables
  let bits ← u8
  let optional ← if bits &&& 0x08 ≠ 0 then optionalValues tables count else pure []
  let parameterNames ← if bits &&& 0x80 ≠ 0 then times count (string tables) else pure []
  return {
    name
    returnType
    parameters
    optional
    parameterNames
    flags := .ofByte bits }

/-- An exception handler. -/
def handler : Reader (Handler UInt32) := do
  let start ← u30
  let stop ← u30
  let entry ← u30
  let catchType ← multiname tables
  return { start, stop, entry, catchType, variableName := ← multiname tables }

/-- The body of a method. -/
def body : Reader Body := do
  let maxStack ← u30
  let localCount ← u30
  let initScopeDepth ← u30
  let maxScopeDepth ← u30
  let length ← index
  let code ← bytes length
  let handlers ← list (handler tables)
  return {
    maxStack
    localCount
    initScopeDepth
    maxScopeDepth
    code := .ofWire code handlers
    traits := ← traits tables }

end

end Reader

/-! ## Writing -/

namespace Indexing

section
variable (indexing : Indexing)

/-- The parameter names of a method, if it has any. -/
def parameterNameBytes (signature : Signature) : Except Fault Bytes := do
  let names := signature.parameterNames
  let parameters := signature.parameters.length
  if names.isEmpty then return []
  if names.length ≠ parameters then
    throw (.misuse (.methodParameterNames signature.displayName names.length parameters))
  let names ← names.mapM fun name => indexing.nameIndex (some name)
  return (names.map Bytes.reference).flatten

/-- The signature of a method. -/
def signatureBytes (signature : Signature) : Except Fault Bytes := do
  let count ← Bytes.index signature.parameters.length
  let returnType ← indexing.multinameIndex signature.returnType
  let parameters ← signature.parameters.mapM indexing.multinameIndex
  let name ← indexing.nameIndex signature.name
  let flags :=
    signature.flags.byte (!signature.optional.isEmpty) (!signature.parameterNames.isEmpty)
  let optional ←
    if signature.optional.isEmpty then pure []
    else Bytes.list indexing.valueBytes signature.optional
  let parameterNames ← indexing.parameterNameBytes signature
  return count ++ Bytes.reference returnType ++ (parameters.map Bytes.reference).flatten ++
    Bytes.reference name ++ [flags] ++ optional ++ parameterNames

/-- An exception handler. -/
def handlerBytes (handler : Handler UInt32) : Except Fault Bytes := do
  let catchType ← indexing.multinameIndex handler.catchType
  let variableName ← indexing.multinameIndex handler.variableName
  return Bytes.u32 handler.start ++ Bytes.u32 handler.stop ++ Bytes.u32 handler.entry ++
    Bytes.reference catchType ++ Bytes.reference variableName

/-- The body of `method`, its code given as bytes and handlers. -/
def bodyBytes (metadataCount : Nat) (method : MethodHandle) (frame : Frame) (code : Bytes)
    (handlers : List (Handler UInt32)) : Except Fault Bytes := do
  let method ← indexing.methodIndex method
  let length ← Bytes.index code.length
  let handlers ← Bytes.list indexing.handlerBytes handlers
  let traits ← indexing.traitsBytes metadataCount frame.traits
  return Bytes.reference method ++ Bytes.u32 frame.maxStack ++ Bytes.u32 frame.localCount ++
    Bytes.u32 frame.initScopeDepth ++ Bytes.u32 frame.maxScopeDepth ++ length ++ code ++
    handlers ++ traits

end

end Indexing

end ActionBytecode
