/-
  ActionBytecode — why an operation fails.

  A fault is a cause: bytes that are not a unit (`Fault.kind` is `parse`), a request that the
  model refuses (`construction`), or an instruction that is known and not modelled
  (`unimplemented`).  `Fault.message` is the only place where causes are put into words.
-/
import ActionBytecode.Code.Location
import ActionBytecode.Code.Opcode
import ActionBytecode.Name.Multiname
import ActionBytecode.Text.Utf8

namespace ActionBytecode

/-- The tables that an index on the wire can point into. -/
inductive Table where
  | int
  | uint
  | double
  | string
  | nspace
  | namespaceSet
  | multiname
  | method
  | metadata
  | classes
  | value
  deriving DecidableEq, Repr

/-- The table in messages. -/
def Table.label : Table → String
  | int => "int"
  | uint => "uint"
  | double => "double"
  | string => "string"
  | nspace => "namespace"
  | namespaceSet => "namespace set"
  | multiname => "multiname"
  | method => "method"
  | metadata => "metadata"
  | classes => "class"
  | value => "value"

/-- What is wrong with bytes that are not a unit. -/
inductive Malformation where
  /-- The upper three bits of a packed number differ. -/
  | packedRange (value : UInt32)
  | text (fault : Utf8.Fault)
  | namespaceKind (tag : UInt8)
  | multinameKind (tag : UInt8)
  | traitKind (tag : UInt8)
  | valueKind (tag : UInt8)
  /-- An index points past the end of its table. -/
  | indexRange (table : Table) (index : Nat)
  /-- Type applications refer to one another too deeply, or in a circle. -/
  | typeNesting
  /-- What was read cannot be put together, for the given reason. -/
  | rejected (reason : String)
  | optionalCount (count parameters : Nat)
  | secondBody (method : MethodHandle)
  | trailing (count : Nat)
  /-- A `lookupswitch` announces more cases than the code has room for. -/
  | caseCount (count : UInt32)
  /-- A jump leads to `destination`, where no instruction starts. -/
  | jumpTarget (destination : Int)
  /-- The range of an exception handler does not lie between instructions. -/
  | handlerBoundary
  deriving DecidableEq, Repr

/-- What the model refuses to build, to change or to write. -/
inductive Misuse where
  | offsetRange (distance : Int)
  | patchPosition (position : Nat)
  | indexRange (index : Nat)
  /-- A value has no number in its table. -/
  | unregistered (value : String)
  | missingCaseCount
  | operandCount (opcode : Opcode) (expected actual : Nat)
  | operandKind (opcode : Opcode) (index : Nat) (expected actual : OperandKind)
  | missingOperand (opcode : Opcode) (index : Nat)
  | missingNamespace (kind : MultinameKind)
  | missingNamespaceSet (kind : MultinameKind)
  | missingApplication
  | typeNameKind
  | typeNameBase
  | unknownMethod (method : MethodHandle)
  | unknownClass (cls : ClassHandle)
  | instructionClass (cls : ClassHandle)
  | traitClass (cls : ClassHandle)
  | optionalCount (count parameters : Nat)
  | parameterNames (count parameters : Nat)
  /-- Parameter names of a method that stands in a unit. -/
  | methodParameterNames (method : String) (count parameters : Nat)
  | handlerOffset
  | traitMetadata (index : UInt32)
  | mainClass (name : String)
  | repeatedInstruction (id : InstructionId)
  | jumpOutside (source : Nat) (id : InstructionId)
  | handlerOutside (id : InstructionId)
  deriving DecidableEq, Repr

/-- What was asked for in a form that the thing does not have at the moment. -/
inductive Mismatch where
  | resolvedTarget (id : InstructionId)
  | unresolvedTarget (distance : Int)
  | resolvedPosition (position : CodePosition)
  | noInstruction (position : CodePosition)
  | noBytes
  | noInstructions
  | handlersAreOffsets
  | handlerOffset (bytes : UInt32)
  deriving DecidableEq, Repr

/-- Why an operation fails. -/
inductive Fault where
  | malformed (offset : Nat) (cause : Malformation)
  | unexpectedEnd (offset : Nat)
  | invalidOpcode (byte : UInt8) (offset : Nat)
  | unsupportedVersion (major minor : UInt16)
  | misuse (cause : Misuse)
  | mismatch (cause : Mismatch)
  | reservedOpcode (mnemonic : String) (byte : UInt8) (offset : Nat)
  deriving DecidableEq, Repr

/-- The three kinds of fault. -/
inductive FaultKind where
  | parse
  | construction
  | unimplemented
  deriving DecidableEq, Repr

/-- Whether the input, the caller or the model is to blame. -/
def Fault.kind : Fault → FaultKind
  | malformed .. | unexpectedEnd _ | invalidOpcode .. | unsupportedVersion .. => .parse
  | misuse _ | mismatch _ => .construction
  | reservedOpcode .. => .unimplemented

/-! ## Wording -/

/-- The wording of what is wrong with bytes. -/
def Malformation.message : Malformation → String
  | packedRange value => s!"value {Numeral.hex value.toNat} out of range for u30"
  | text fault => s!"invalid utf-8 string: {fault.message}"
  | namespaceKind tag => s!"unknown namespace kind {Numeral.hexByte tag}"
  | multinameKind tag => s!"unknown multiname kind {Numeral.hexByte tag}"
  | traitKind tag => s!"unknown trait kind {tag.toNat}"
  | valueKind tag => s!"unknown value kind {Numeral.hexByte tag}"
  | indexRange table index => s!"{table.label} index {index} out of range"
  | typeNesting => "TypeName nesting too deep or cyclic"
  | rejected reason => reason
  | optionalCount count parameters => s!"{count} optional values for {parameters} parameters"
  | secondBody method => s!"method {method.index} has more than one body"
  | trailing count => s!"{count} trailing bytes after method bodies"
  | caseCount count => s!"lookupswitch case count {count.toNat} exceeds the code size"
  | jumpTarget destination => s!"jump target {destination} is not the start of an instruction"
  | handlerBoundary => "exception range does not fall on an instruction boundary"

/-- The wording of what the model refuses. -/
def Misuse.message : Misuse → String
  | offsetRange distance => s!"offset {distance} does not fit in 24 bits"
  | patchPosition position => s!"patch position {position} out of range"
  | indexRange index => s!"index {index} exceeds u30 range"
  | unregistered value => s!"value was never registered: {value}"
  | missingCaseCount => "lookupswitch requires a case count as its second operand"
  | operandCount opcode expected actual =>
    s!"{opcode.mnemonic} expects {expected} operands, got {actual}"
  | operandKind opcode index expected actual =>
    s!"{opcode.mnemonic} operand {index} must be {expected.label}, got {actual.label}"
  | missingOperand opcode index => s!"{opcode.mnemonic} has no operand {index}"
  | missingNamespace kind => s!"{kind.label} requires a namespace"
  | missingNamespaceSet kind => s!"{kind.label} requires a namespace set"
  | missingApplication => "TypeName requires a base type and parameters"
  | typeNameKind => "TypeName multinames are created with create_type_name"
  | typeNameBase => "TypeName base cannot itself be a TypeName"
  | unknownMethod method => s!"unknown method {method.index}"
  | unknownClass cls => s!"unknown class {cls.index}"
  | instructionClass cls => s!"instruction refers to unknown class {cls.index}"
  | traitClass cls => s!"trait refers to unknown class {cls.index}"
  | optionalCount count parameters => s!"{count} optional values for {parameters} parameters"
  | parameterNames count parameters => s!"{count} parameter names for {parameters} parameters"
  | methodParameterNames method count parameters =>
    s!"method {method} has {count} parameter names for {parameters} parameters"
  | handlerOffset => "exception ranges of built methods must name instructions"
  | traitMetadata index => s!"trait refers to unknown metadata entry {index.toNat}"
  | mainClass name => s!"main class {name} is not defined in this unit"
  | repeatedInstruction id => s!"instruction {id.index} appears twice in one method"
  | jumpOutside source id =>
    s!"jump at offset {source} targets instruction {id.index} outside its method"
  | handlerOutside id => s!"exception range names instruction {id.index} outside its method"

/-- The wording of a form that a thing does not have. -/
def Mismatch.message : Mismatch → String
  | resolvedTarget id => s!"jump target already resolved to instruction {id.index}"
  | unresolvedTarget distance => s!"jump target is an unresolved offset ({distance})"
  | resolvedPosition position => s!"code position already resolved ({position.describe})"
  | noInstruction position => s!"code position does not name an instruction ({position.describe})"
  | noBytes => "method body is disassembled and has no serialized code"
  | noInstructions => "method body has not been disassembled"
  | handlersAreOffsets => "exception ranges are byte offsets until the body is disassembled"
  | handlerOffset bytes => s!"exception range still holds raw offset {bytes.toNat}"

/-- The wording of a fault. -/
def Fault.message : Fault → String
  | malformed offset cause => s!"Parse error at offset {offset}: {cause.message}"
  | unexpectedEnd offset => s!"Unexpected end of data at offset {offset}"
  | invalidOpcode byte offset => s!"Invalid opcode {Numeral.hexByte byte} at offset {offset}"
  | unsupportedVersion major minor => s!"Unsupported ABC version {major.toNat}.{minor.toNat}"
  | misuse cause => s!"Construction error: {cause.message}"
  | mismatch cause => s!"Invalid state: {cause.message}"
  | reservedOpcode mnemonic byte offset =>
    s!"Unimplemented: instruction {mnemonic} ({Numeral.hexByte byte}) at offset {offset}"

/-- The fault as one of the bytes at an offset. -/
def Fault.atOffset (offset : Nat) (fault : Fault) : Fault :=
  .malformed offset (.rejected fault.message)

end ActionBytecode
