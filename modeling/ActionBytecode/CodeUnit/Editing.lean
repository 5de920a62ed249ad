/-
  ActionBytecode — editing what a unit holds.

  Each of these forgets the bytes of the unit, also when there is nothing to edit.  Code can be
  edited only in symbolic form; an edit of instructions or handlers that fails keeps the changes
  that it made before.
-/
import ActionBytecode.Code.Disassembly
import ActionBytecode.CodeUnit.Basic

namespace ActionBytecode

/-- Bring the code of a method, if it has any, into symbolic form. -/
def Method.disassemble (tables : Tables) (method : Method) : Identifying Method := do
  match method.body with
  | none => return method
  | some body =>
    let code ← body.code.disassemble tables
    return { method with body := some { body with code } }

namespace Edit

/-! ## Form of the code -/

/-- Bring the code of a method into symbolic form.  The answer is whether it was raw. -/
def convert (handle : MethodHandle) : Edit Bool := do
  let method ← requireMethod handle
  let unit ← get
  match method.disassemble unit.tables unit.nextInstruction with
  | .ok converted next =>
    set { unit with
      methods := unit.methods.setIfInBounds handle.index converted
      nextInstruction := next }
    return method.isRaw
  | .error fault next =>
    set { unit with nextInstruction := next }
    throw fault

/-- Bring one method into symbolic form. -/
def disassembleMethod (handle : MethodHandle) : Edit Unit := do
  if ← convert handle then forget

/-- Bring every method into symbolic form, up to the first that fails. -/
def disassemble : Edit Unit := do
  let handles := (List.range (← get).methods.size).map MethodHandle.mk
  let converted ← handles.mapM convert
  if converted.any id then forget

/-- Have the unit written anew. -/
def markTampered : Edit Unit := do
  disassemble
  forget

/-! ## Declarations -/

/-- Change the signature of a method.  The answer is whether there is one. -/
def editSignature (handle : MethodHandle) (f : Signature → Signature) : Edit Bool := do
  forget
  modify fun unit =>
    { unit with
      methods := unit.methods.modify handle.index fun method =>
        { method with toSignature := f method.toSignature } }
  return ((← get).method? handle).isSome

/-- Change the frame of a method's body.  The answer is whether there is one. -/
def editFrame (handle : MethodHandle) (f : Frame → Frame) : Edit Bool := do
  forget
  modify fun unit =>
    { unit with
      methods := unit.methods.modify handle.index fun method =>
        { method with
          body := method.body.map fun body => { body with toFrame := f body.toFrame } } }
  return (((← get).method? handle).bind (·.body)).isSome

/-- Change a class.  The answer is whether there is one. -/
def editClass (handle : ClassHandle) (f : ClassDefinition → ClassDefinition) : Edit Bool := do
  forget
  modify fun unit => { unit with classes := unit.classes.modify handle.index f }
  return ((← get).class? handle).isSome

/-- Change the scripts. -/
def editScripts (f : List Script → List Script) : Edit Unit := do
  forget
  modify fun unit => { unit with scripts := f unit.scripts }

/-! ## Code -/

/-- Change the code of a method's body, and give back the fault of a change that fails.  The
    answer is whether there is a body. -/
def editCode (handle : MethodHandle) (f : Code → Code × Except Fault Unit) : Edit Bool := do
  forget
  match ((← get).method? handle).bind (·.body) with
  | none => return false
  | some body =>
    let (code, outcome) := f body.code
    modify fun unit =>
      { unit with
        methods := unit.methods.modify handle.index fun method =>
          { method with body := some { body with code } } }
    ofExcept outcome
    return true

/-- Change the instructions of a method.  The answer is whether there is a body. -/
def editInstructions (handle : MethodHandle) (edit : EStateM Fault (List Instruction) Unit) :
    Edit Bool :=
  editCode handle fun
    | .raw bytes handlers => (.raw bytes handlers, .error (.mismatch .noInstructions))
    | .symbolic instructions handlers =>
      match edit instructions with
      | .ok _ instructions => (.symbolic instructions handlers, .ok ())
      | .error fault instructions => (.symbolic instructions handlers, .error fault)

/-- Change the exception handlers of a method.  The answer is whether there is a body. -/
def editHandlers (handle : MethodHandle)
    (edit : EStateM Fault (List (Handler CodePosition)) Unit) : Edit Bool :=
  editCode handle fun
    | .raw bytes handlers => (.raw bytes handlers, .error (.mismatch .handlersAreOffsets))
    | .symbolic instructions handlers =>
      match edit handlers with
      | .ok _ handlers => (.symbolic instructions handlers, .ok ())
      | .error fault handlers => (.symbolic instructions handlers, .error fault)

end Edit

end ActionBytecode
