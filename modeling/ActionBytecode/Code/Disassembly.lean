/-
  ActionBytecode — from bytes to instructions.

  One pass over the bytes finds the instructions and where each starts and ends.  Constants,
  names, methods and classes are looked up at once.  Then the jumps are resolved: a distance
  counts from the end of the jump, in a `lookupswitch` from its start, and has to lead to where an
  instruction starts.  The places of exception handlers count from the start of the code, and can
  also be its end.  A target or a place that is not a number of bytes cannot be resolved.

  Identities are handed out in order, from a counter that is the state here.  Those that were
  handed out before a failure stay handed out.
-/
import ActionBytecode.Code.Basic
import ActionBytecode.Layout.Tables

namespace ActionBytecode

/-! ## Reading instructions -/

namespace Reader

/-- An operand of a given kind. -/
def operand (tables : Tables) : OperandKind → Reader Operand
  | .u8 => return .u8 (← u8)
  | .s8 => return .s8 (← s8)
  | .u30 => return .u30 (← u30)
  | .int => return .int (← entry .int (tables.pool.ints[·]?))
  | .uint => return .uint (← entry .uint (tables.pool.uints[·]?))
  | .double => return .double (← entry .double (tables.pool.doubles[·]?))
  | .string => return .string (← string tables)
  | .nspace => return .nspace (← nspace tables)
  | .multiname => return .multiname (← multiname tables)
  | .method => return .method (← method tables)
  | .classRef => return .classRef (← classRef tables)
  | .offset => return .target (.offset (← s24))

/-- The case targets of the `lookupswitch` at `start`, one more than its count says. -/
def caseTargets (tables : Tables) (start : Nat) (count : UInt32) : Reader (List Operand) := do
  if count.toNat > (← get).remaining / 3 then malformed start (.caseCount count)
  times (count.toNat + 1) (operand tables .offset)

/-- An opcode with its operands. -/
def instruction (tables : Tables) : Reader (Opcode × List Operand) := do
  let start ← offset
  let opcode ← ofExcept (Opcode.ofWire (← u8) start)
  let operands ← opcode.operandKinds.mapM (operand tables)
  if opcode = .lookupSwitch then
    let count := (operands[1]?.bind Operand.number?).getD 0
    return (opcode, operands ++ (← caseTargets tables start count))
  return (opcode, operands)

end Reader

/-- An instruction and the bytes that it takes up, from `start` up to `stop`. -/
structure Placed where
  start : Nat
  stop : Nat
  instruction : Instruction
  deriving DecidableEq

/-- The bytes that a jump's distances count from. -/
def Placed.base (placed : Placed) : Nat :=
  if placed.instruction.opcode = .lookupSwitch then placed.start else placed.stop

/-- A computation that hands out identities. -/
abbrev Identifying := EStateM Fault Nat

/-- An identity that was not handed out before. -/
def Identifying.fresh : Identifying InstructionId := do
  return ⟨← getModify (· + 1)⟩

/-- The instructions from a cursor on, at most `limit` of them. -/
def scan (tables : Tables) : (limit : Nat) → Cursor → Identifying (List Placed)
  | 0, _ => pure []
  | limit + 1, cursor =>
    if cursor.atEnd then pure []
    else
      match Reader.instruction tables cursor with
      | .error fault _ => throw fault
      | .ok (opcode, operands) next => do
        let id ← Identifying.fresh
        let rest ← scan tables limit next
        return ⟨cursor.offset, next.offset, ⟨id, opcode, operands⟩⟩ :: rest

/-! ## Resolving places -/

/-- The instruction that starts at a given place. -/
def startingAt? (code : List Placed) (place : Int) : Option InstructionId :=
  (code.find? fun placed => (placed.start : Int) == place).map (·.instruction.id)

/-- The operand of an instruction, with a distance replaced by the instruction that it leads to. -/
def resolveOperand (code : List Placed) (placed : Placed) : Operand → Except Fault Operand
  | .target target => do
    let destination := placed.base + (← target.distance)
    match startingAt? code destination with
    | some id => return .target (.instruction id)
    | none => throw (.malformed placed.start (.jumpTarget destination))
  | operand => return operand

/-- The instruction with its jumps resolved. -/
def resolveInstruction (code : List Placed) (placed : Placed) : Except Fault Instruction := do
  if !placed.instruction.opcode.isJump then return placed.instruction
  let operands ← placed.instruction.operands.mapM (resolveOperand code placed)
  return { placed.instruction with operands }

/-- The place that an exception handler gives as an offset into code of a given length. -/
def resolvePosition (code : List Placed) (length : Nat) (place : CodePosition) :
    Except Fault CodePosition := do
  let offset ← place.bytes
  if offset.toNat = length then return .finish
  match startingAt? code offset.toNat with
  | some id => return .instruction id
  | none => throw (.malformed offset.toNat .handlerBoundary)

namespace Code

/-- The symbolic form of code. -/
def disassemble (tables : Tables) : Code → Identifying Code
  | symbolic instructions handlers => pure (symbolic instructions handlers)
  | raw bytes handlers => do
    let code ← scan tables bytes.length (.start bytes)
    let resolved : Except Fault Code := do
      let instructions ← code.mapM (resolveInstruction code)
      let handlers ← handlers.mapM (·.mapM (resolvePosition code bytes.length))
      return symbolic instructions handlers
    match resolved with
    | .ok code => return code
    | .error fault => throw fault

/-- The file that symbolic code is first said to come from. -/
def sourceFile? : Code → Option String
  | raw .. => none
  | symbolic instructions _ => instructions.findSome? Instruction.debugFile?

end Code

end ActionBytecode
