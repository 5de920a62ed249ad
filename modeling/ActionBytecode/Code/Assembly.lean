/-
  ActionBytecode — from instructions to bytes.

  How many bytes an instruction takes does not hang on where its jumps lead, so the instructions
  are laid out first, with every distance 0, and written once all places are known.

  Markers for a debugger can be written between the instructions.  They have no identity, so no
  jump leads to one.
-/
import ActionBytecode.Constant.Indexing
import ActionBytecode.Declaration.Method
import ActionBytecode.Layout.Tables

namespace ActionBytecode

/-! ## What is written -/

/-- An instruction to write; a marker has no identity. -/
structure Emission where
  id? : Option InstructionId
  opcode : Opcode
  operands : List Operand
  deriving DecidableEq

namespace Emission

def ofInstruction (instruction : Instruction) : Emission :=
  ⟨some instruction.id, instruction.opcode, instruction.operands⟩

/-- The marker that names the source file. -/
def debugFile (file : String) : Emission := ⟨none, .debugFile, [.string file]⟩

/-- The marker that gives the line of what follows. -/
def debugLine (line : Nat) : Emission := ⟨none, .debugLine, [.u30 (UInt32.ofNat line)]⟩

/-- Instructions with a marker for the file, and one for the line before each of them. -/
def instrument (file : String) (instructions : List Instruction) : List Emission :=
  debugFile file ::
    (instructions.zipIdx 1).flatMap fun (instruction, line) =>
      [debugLine line, ofInstruction instruction]

end Emission

/-- What is written of a method's code.  Code that has markers is not given others. -/
def Signature.emissions (signature : Signature) (code : Code) (debug : Bool) :
    Except Fault (List Emission) := do
  let instructions ← code.instructions
  if debug && !code.hasDebugMarkers then
    return Emission.instrument signature.markerFile instructions
  return instructions.map Emission.ofInstruction

/-! ## Bytes -/

section
variable (indexing : Indexing)

/-- An operand, with the distances to instructions given. -/
def Operand.bytes (distance : InstructionId → Except Fault Int) : Operand → Except Fault Bytes
  | u8 value => .ok (Bytes.u8 value)
  | s8 value => .ok (Bytes.s8 value)
  | u30 value => .ok (Bytes.u32 value)
  | int value => Bytes.reference <$> indexing.intIndex value
  | uint value => Bytes.reference <$> indexing.uintIndex value
  | double value => Bytes.reference <$> indexing.doubleIndex value
  | string value => Bytes.reference <$> indexing.literalIndex value
  | nspace ns => Bytes.reference <$> indexing.namespaceIndex ns
  | multiname name => Bytes.reference <$> indexing.multinameIndex name
  | method handle => Bytes.reference <$> indexing.methodIndex handle
  | classRef handle => Bytes.reference <$> indexing.classIndex handle
  | target (.offset distance) => Bytes.s24 distance
  | target (.instruction id) => do Bytes.s24 (← distance id)

/-- An instruction, with the distances to instructions given. -/
def Emission.bytes (distance : InstructionId → Except Fault Int) (emission : Emission) :
    Except Fault Bytes :=
  return emission.opcode.byte :: (← emission.operands.mapM (·.bytes indexing distance)).flatten

/-! ## Places -/

/-- An emission and the bytes that it takes up, from `start` up to `stop`. -/
structure Placement where
  start : Nat
  stop : Nat
  emission : Emission
  deriving DecidableEq

/-- The bytes that a jump's distances count from. -/
def Placement.base (placement : Placement) : Nat :=
  if placement.emission.opcode = .lookupSwitch then placement.start else placement.stop

/-- Where instructions stand when they are written one after another from `start` on.  Those of
    `used` are written already. -/
def layOut : (start : Nat) → (used : List InstructionId) → List Emission →
    Except Fault (List Placement)
  | _, _, [] => return []
  | start, used, emission :: emissions => do
    emission.opcode.check emission.operands
    if let some id := emission.id? then
      if id ∈ used then throw (.misuse (.repeatedInstruction id))
    let width := (← emission.bytes indexing fun _ => .ok 0).length
    let rest ← layOut (start + width) (emission.id?.toList ++ used) emissions
    return ⟨start, start + width, emission⟩ :: rest

/-- Where an instruction stands. -/
def startOf? (layout : List Placement) (id : InstructionId) : Option Nat :=
  (layout.find? (·.emission.id? == some id)).map (·.start)

/-- How far it is from a jump to an instruction. -/
def distanceTo (layout : List Placement) (placement : Placement) (id : InstructionId) :
    Except Fault Int :=
  match startOf? layout id with
  | some start => .ok (start - placement.base)
  | none => .error (.misuse (.jumpOutside placement.start id))

/-- The offset of a place that an exception handler names, in code of a given length. -/
def offsetOf (layout : List Placement) (length : Nat) : CodePosition → Except Fault UInt32
  | .instruction id =>
    match startOf? layout id with
    | some start => .ok (UInt32.ofNat start)
    | none => .error (.misuse (.handlerOutside id))
  | .finish => .ok (UInt32.ofNat length)
  | .offset bytes => .error (.mismatch (.handlerOffset bytes))

/-- The bytes of code, and its handlers with offsets into them. -/
def assemble (emissions : List Emission) (handlers : List (Handler CodePosition)) :
    Except Fault (Bytes × List (Handler UInt32)) := do
  let layout ← layOut indexing 0 [] emissions
  let code ← layout.mapM fun placement =>
    placement.emission.bytes indexing (distanceTo layout placement)
  let code := code.flatten
  return (code, ← handlers.mapM (·.mapM (offsetOf layout code.length)))

end

end ActionBytecode
