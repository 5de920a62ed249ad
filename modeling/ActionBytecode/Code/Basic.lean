/-
  ActionBytecode — the code of a method.

  Code is either raw, the bytes as they stand on the wire, or symbolic, a list of instructions
  that can be edited.  Exception handlers go with it, and name places by offsets into the bytes or
  by instructions.  Code and handlers are two fields, and each accessor refuses the form that is not
  there; that the two are of one form is for the operations to see to.
-/
import ActionBytecode.Code.Instruction
import ActionBytecode.Wire.Cursor

namespace ActionBytecode

/-- An exception handler, its places given as `π`. -/
structure Handler (π : Type) where
  /-- Where the protected range starts. -/
  start : π
  /-- Where the protected range ends; what stands here is outside. -/
  stop : π
  /-- Where the handler is entered. -/
  entry : π
  catchType : Multiname
  variableName : Multiname
  deriving DecidableEq

namespace Handler

/-- The handler with each of its places replaced. -/
def map {π ρ : Type} (f : π → ρ) (handler : Handler π) : Handler ρ :=
  { handler with
    start := f handler.start
    stop := f handler.stop
    entry := f handler.entry }

/-- The handler with each of its places replaced, by a function that can fail. -/
def mapM {π ρ : Type} (f : π → Except Fault ρ) (handler : Handler π) :
    Except Fault (Handler ρ) := do
  let start ← f handler.start
  let stop ← f handler.stop
  let entry ← f handler.entry
  return { handler with start, stop, entry }

/-- The places of a handler. -/
def places {π : Type} (handler : Handler π) : List π :=
  [handler.start, handler.stop, handler.entry]

/-- Whether the handler catches every exception. -/
def isCatchAll {π : Type} (handler : Handler π) : Bool := handler.catchType == .any

end Handler

/-- Code in one of its two forms. -/
inductive CodeForm where
  | raw (bytes : Bytes)
  | symbolic (instructions : List Instruction)
  deriving DecidableEq

/-- Code with its exception handlers. -/
structure Code where
  form : CodeForm
  handlers : List (Handler CodePosition)
  deriving DecidableEq

namespace Code

/-- Raw code. -/
@[match_pattern] abbrev raw (bytes : Bytes) (handlers : List (Handler CodePosition)) : Code :=
  ⟨.raw bytes, handlers⟩

/-- Symbolic code. -/
@[match_pattern] abbrev symbolic (instructions : List Instruction)
    (handlers : List (Handler CodePosition)) : Code :=
  ⟨.symbolic instructions, handlers⟩

/-- Raw code whose handlers are those of the wire. -/
abbrev ofWire (bytes : Bytes) (handlers : List (Handler UInt32)) : Code :=
  raw bytes (handlers.map (·.map .offset))

/-- Code is raw or symbolic. -/
@[elab_as_elim, cases_eliminator] theorem casesForm {motive : Code → Prop}
    (raw : ∀ bytes handlers, motive (raw bytes handlers))
    (symbolic : ∀ instructions handlers, motive (symbolic instructions handlers)) :
    ∀ code, motive code
  | .raw bytes handlers => raw bytes handlers
  | .symbolic instructions handlers => symbolic instructions handlers

/-- Whether the code is a list of instructions. -/
def isSymbolic (code : Code) : Bool :=
  match code.form with
  | .raw _ => false
  | .symbolic _ => true

/-- The bytes of raw code. -/
def bytes : Code → Except Fault Bytes
  | raw bytes _ => .ok bytes
  | symbolic .. => .error (.mismatch .noBytes)

/-- The instructions of symbolic code. -/
def instructions : Code → Except Fault (List Instruction)
  | raw .. => .error (.mismatch .noInstructions)
  | symbolic instructions _ => .ok instructions

/-- Whether symbolic code has instructions that only inform a debugger. -/
def hasDebugMarkers : Code → Bool
  | raw .. => false
  | symbolic instructions _ => instructions.any (·.opcode.isDebugMarker)

end Code

end ActionBytecode
