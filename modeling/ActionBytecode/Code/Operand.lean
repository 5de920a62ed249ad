/-
  ActionBytecode — operands.

  An operand is what stands after an opcode: a small number, a constant, a name, a method, a
  class or a jump target.  In memory it holds the thing itself and not its index in a table.
-/
import ActionBytecode.Decimal.Double
import ActionBytecode.Fault

namespace ActionBytecode

/-! ## Places in a given form -/

namespace JumpTarget

/-- The distance, of a target that is one. -/
def distance : JumpTarget → Except Fault Int
  | offset distance => .ok distance
  | instruction id => .error (.mismatch (.resolvedTarget id))

/-- The instruction, of a target that is one. -/
def id : JumpTarget → Except Fault InstructionId
  | offset distance => .error (.mismatch (.unresolvedTarget distance))
  | instruction id => .ok id

/-- The target in listings. -/
def text : JumpTarget → String
  | offset distance => Numeral.signed distance
  | instruction id => s!"@{id.index}"

end JumpTarget

namespace CodePosition

/-- The number of bytes, of a place that is one. -/
def bytes : CodePosition → Except Fault UInt32
  | offset bytes => .ok bytes
  | position => .error (.mismatch (.resolvedPosition position))

/-- The instruction, of a place that is one. -/
def id : CodePosition → Except Fault InstructionId
  | instruction id => .ok id
  | position => .error (.mismatch (.noInstruction position))

end CodePosition

/-! ## Operands -/

/-- What stands after an opcode. -/
inductive Operand where
  | u8 (value : UInt8)
  | s8 (value : Int8)
  | u30 (value : UInt32)
  | int (value : Int32)
  | uint (value : UInt32)
  | double (value : Double)
  | string (value : String)
  | nspace (ns : Namespace)
  | multiname (name : Multiname)
  | method (handle : MethodHandle)
  | classRef (handle : ClassHandle)
  | target (place : JumpTarget)
  deriving DecidableEq

namespace Operand

/-- The kind that an operand is of. -/
def kind : Operand → OperandKind
  | u8 _ => .u8
  | s8 _ => .s8
  | u30 _ => .u30
  | int _ => .int
  | uint _ => .uint
  | double _ => .double
  | string _ => .string
  | nspace _ => .nspace
  | multiname _ => .multiname
  | method _ => .method
  | classRef _ => .classRef
  | target _ => .offset

/-- The number, of an operand that is a packed number. -/
def number? : Operand → Option UInt32
  | u30 value => some value
  | _ => none

/-- The target, of an operand that is one. -/
def target? : Operand → Option JumpTarget
  | target place => some place
  | _ => none

/-- The operand in listings. -/
def text : Operand → String
  | u8 value => toString value.toNat
  | s8 value => toString value.toInt
  | u30 value => toString value.toNat
  | int value => toString value.toInt
  | uint value => toString value.toNat ++ "u"
  | double value => value.text
  | string value => Quoted.quote value
  | nspace ns => ns.text
  | multiname name => name.text
  | method handle => s!"method#{handle.index}"
  | classRef handle => s!"class#{handle.index}"
  | target place => place.text

end Operand

end ActionBytecode
