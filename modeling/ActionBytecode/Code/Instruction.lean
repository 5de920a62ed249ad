/-
  ActionBytecode — instructions.

  An instruction is an opcode with operands, known by an identity.  `Opcode.check` says whether
  operands are those that an opcode takes, in number and in kind; the operations on instructions
  keep it so, and refuse what would not.
-/
import ActionBytecode.Code.Operand

namespace ActionBytecode

namespace Opcode

/-- The opcode of a byte that was read at `offset`. -/
def ofWire (byte : UInt8) (offset : Nat) : Except Fault Opcode :=
  match ofByte? byte with
  | some opcode => .ok opcode
  | none =>
    match reserved? byte with
    | some mnemonic => .error (.reservedOpcode mnemonic byte offset)
    | none => .error (.invalidOpcode byte offset)

/-- How many operands an opcode takes.  A `lookupswitch` says it itself: its second operand is a
    count, and one target more than that follows. -/
def arity (opcode : Opcode) (operands : List Operand) : Except Fault Nat :=
  match opcode with
  | .lookupSwitch =>
    match operands[1]?.bind Operand.number? with
    | some cases => .ok (opcode.operandKinds.length + cases.toNat + 1)
    | none => .error (.misuse .missingCaseCount)
  | _ => .ok opcode.operandKinds.length

/-- The kind of the operand at `index`.  What follows the fixed ones is a target. -/
def operandKind (opcode : Opcode) (index : Nat) : OperandKind :=
  opcode.operandKinds[index]?.getD .offset

/-- The first operand that is not of its kind, of those from `index` on. -/
def misplaced? (opcode : Opcode) (index : Nat) : List Operand → Option (Nat × Operand)
  | [] => none
  | operand :: operands =>
    if operand.kind = opcode.operandKind index then opcode.misplaced? (index + 1) operands
    else some (index, operand)

/-- Refuse operands that are not those of the opcode. -/
def check (opcode : Opcode) (operands : List Operand) : Except Fault Unit := do
  let expected ← opcode.arity operands
  if operands.length = expected then
    match opcode.misplaced? 0 operands with
    | none => .ok ()
    | some (index, operand) =>
      .error (.misuse (.operandKind opcode index (opcode.operandKind index) operand.kind))
  else .error (.misuse (.operandCount opcode expected operands.length))

end Opcode

/-- An opcode with its operands. -/
structure Instruction where
  id : InstructionId
  opcode : Opcode
  operands : List Operand
  deriving DecidableEq

namespace Instruction

/-- Put other operands in place of all. -/
def setOperands (instruction : Instruction) (operands : List Operand) :
    Except Fault Instruction := do
  instruction.opcode.check operands
  return { instruction with operands }

/-- Put another operand in place of the one at `index`. -/
def setOperand (instruction : Instruction) (index : Nat) (operand : Operand) :
    Except Fault Instruction :=
  if index < instruction.operands.length then
    instruction.setOperands (instruction.operands.set index operand)
  else .error (.misuse (.missingOperand instruction.opcode index))

/-- The targets that the instruction can jump to. -/
def targets (instruction : Instruction) : List JumpTarget :=
  instruction.operands.filterMap Operand.target?

/-- The file that a `debugfile` names. -/
def debugFile? (instruction : Instruction) : Option String :=
  match instruction.opcode, instruction.operands with
  | .debugFile, .string file :: _ => some file
  | _, _ => none

end Instruction

end ActionBytecode
