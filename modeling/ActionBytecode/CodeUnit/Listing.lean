/-
  ActionBytecode — listings of methods.

  A listing shows a method as text, one instruction to a line.  Instructions that a jump leads to,
  or that bound the range of an exception handler, have a label.  Labels are numbered in the order
  of the code.
-/
import ActionBytecode.CodeUnit.Editing
import ActionBytecode.Numbering

namespace ActionBytecode

/-- The instruction that a jump target names. -/
def JumpTarget.id? : JumpTarget → Option InstructionId
  | instruction id => some id
  | offset _ => none

/-- The instruction that a place names. -/
def CodePosition.id? : CodePosition → Option InstructionId
  | instruction id => some id
  | offset _ | finish => none

/-- A method to be shown as text. -/
structure Listing where
  signature : Signature
  /-- The frame, the instructions and the handlers of the body. -/
  body : Option (Frame × List Instruction × List (Handler CodePosition))

namespace Listing

/-- The listing of a method whose code is symbolic. -/
def ofMethod (method : Method) : Except Fault Listing := do
  match method.body with
  | none => return ⟨method.toSignature, none⟩
  | some body =>
    let instructions ← body.code.instructions
    return ⟨method.toSignature, some (body.toFrame, instructions, body.code.handlers)⟩

/-- The instructions that jumps and handlers name. -/
def targeted (instructions : List Instruction) (handlers : List (Handler CodePosition)) :
    List InstructionId :=
  (instructions.flatMap Instruction.targets).filterMap JumpTarget.id? ++
    (handlers.flatMap Handler.places).filterMap CodePosition.id?

/-- The instructions of the listing that have a label, by its number. -/
def labels (listing : Listing) : Numbering InstructionId :=
  match listing.body with
  | none => .empty
  | some (_, instructions, handlers) =>
    let targeted := targeted instructions handlers
    .ofList ((instructions.map Instruction.id).filter (· ∈ targeted))

/-- The number of an instruction's label. -/
def label? (listing : Listing) (id : InstructionId) : Option Nat := listing.labels.id? id

/-! ## Text -/

section
variable (labels : Numbering InstructionId)

/-- A reference to an instruction. -/
def referenceText (id : InstructionId) : String :=
  match labels.id? id with
  | some n => s!"L{n}"
  | none => s!"@{id.index}"

/-- A place in the code. -/
def positionText : CodePosition → String
  | .instruction id => referenceText labels id
  | .offset bytes => toString bytes.toNat
  | .finish => "end"

/-- An operand. -/
def operandText : Operand → String
  | .target (.instruction id) => referenceText labels id
  | operand => operand.text

/-- An instruction, after its label. -/
def instructionText (instruction : Instruction) : String :=
  let label :=
    match labels.id? instruction.id with
    | some n => s!"L{n}:\n"
    | none => ""
  let operands := ", ".intercalate (instruction.operands.map (operandText labels))
  let separator := if instruction.operands.isEmpty then "" else " "
  s!"{label}    {instruction.opcode.mnemonic}{separator}{operands}\n"

/-- An exception handler. -/
def handlerText (handler : Handler CodePosition) : String :=
  let start := positionText labels handler.start
  let stop := positionText labels handler.stop
  let entry := positionText labels handler.entry
  let catchType := handler.catchType.text
  let variableName := handler.variableName.text
  s!"  try {start}..{stop} -> {entry} catch {catchType} as {variableName}\n"

end

/-- The first line of a listing. -/
def signatureText (signature : Signature) : String :=
  let parameters := ", ".intercalate (signature.parameters.map Multiname.text)
  s!"method {signature.displayName}({parameters}): {signature.returnType.text}\n"

/-- The line on the frame of a body. -/
def frameText (frame : Frame) : String :=
  s!"  ; max_stack={frame.maxStack.toNat} locals={frame.localCount.toNat} " ++
    s!"scope={frame.initScopeDepth.toNat}..{frame.maxScopeDepth.toNat}\n"

/-- The whole listing. -/
def text (listing : Listing) : String :=
  signatureText listing.signature ++
    match listing.body with
    | none => "  ; no body\n"
    | some (frame, instructions, handlers) =>
      let labels := listing.labels
      frameText frame ++ String.join (instructions.map (instructionText labels)) ++
        String.join (handlers.map (handlerText labels))

end Listing

/-- The listing of a method, which is disassembled for it. -/
def Edit.listing (handle : MethodHandle) : Edit Listing := do
  disassembleMethod handle
  ofExcept (Listing.ofMethod (← requireMethod handle))

end ActionBytecode
