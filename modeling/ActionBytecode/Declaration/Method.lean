/-
  ActionBytecode — methods.

  A method has a signature, and a body unless it is native or belongs to an interface.
  `MethodDraft` collects the parts of a new method; `MethodDraft.build` refuses parts that do not
  fit together.
-/
import ActionBytecode.Code.Basic
import ActionBytecode.Declaration.Trait

namespace ActionBytecode

/-- The properties of a method that are stored as flags. -/
structure MethodFlags where
  /-- The method uses the `arguments` object. -/
  needArguments : Bool := false
  /-- The method creates an activation object. -/
  needActivation : Bool := false
  /-- Surplus arguments are collected into an array. -/
  needRest : Bool := false
  /-- Surplus arguments are ignored. -/
  ignoreRest : Bool := false
  /-- The player implements the method. -/
  native : Bool := false
  /-- The method sets the default XML namespace. -/
  setDxns : Bool := false
  deriving DecidableEq, Repr

/-- What a method promises to its callers. -/
structure Signature where
  /-- The name; a method without one is anonymous. -/
  name : Option String := none
  returnType : Multiname := .any
  parameters : List Multiname := []
  /-- The defaults of the last parameters. -/
  optional : List DefaultValue := []
  /-- The names of the parameters, or nothing. -/
  parameterNames : List String := []
  flags : MethodFlags := {}
  /-- The file that the code was first said to come from. -/
  sourceFile : Option String := none
  deriving DecidableEq

namespace Signature

/-- The name of an anonymous method in listings and markers. -/
def anonymous : String := "<anonymous>"

/-- The name of the method in listings. -/
def displayName (signature : Signature) : String := signature.name.getD anonymous

/-- The file that markers say the method comes from. -/
def markerFile (signature : Signature) : String :=
  (signature.sourceFile <|> signature.name).getD anonymous

end Signature

/-- What a body needs in order to run, the code apart. -/
structure Frame where
  maxStack : UInt32 := 0
  localCount : UInt32 := 0
  initScopeDepth : UInt32 := 0
  maxScopeDepth : UInt32 := 0
  /-- The members of the activation object. -/
  traits : List Trait := []
  deriving DecidableEq

/-- The body of a method. -/
structure Body extends Frame where
  code : Code
  deriving DecidableEq

/-- A method: its signature, and its body if it has one. -/
structure Method extends Signature where
  body : Option Body := none
  deriving DecidableEq

namespace Method

/-- Whether the method has symbolic code. -/
def isSymbolic (method : Method) : Bool :=
  match method.body with
  | some body => body.code.isSymbolic
  | none => false

/-- Whether the method has raw code. -/
def isRaw (method : Method) : Bool :=
  match method.body with
  | some body => !body.code.isSymbolic
  | none => false

end Method

/-! ## New methods -/

/-- The parts of a method that is being put together.  Its code is symbolic, since raw code is only
    ever read. -/
structure MethodDraft where
  signature : Signature := {}
  body : Option Body := none
  symbolic : body.all (·.code.isSymbolic) = true := by exact Eq.refl true
  deriving DecidableEq

namespace MethodDraft

section
variable (draft : MethodDraft)

/-- Set the instructions.  The first call gives the method a body, later ones keep the rest of
    it. -/
def withInstructions (instructions : List Instruction) : MethodDraft :=
  let body := draft.body.getD { code := .symbolic [] [] }
  { draft with
    body := some { body with code := { body.code with form := .symbolic instructions } }
    symbolic := rfl }

/-- Set the sizes of the operand stack and of the registers, if there is a body. -/
def withFrame (maxStack localCount : UInt32) : MethodDraft :=
  { draft with
    body := draft.body.map fun body => { body with maxStack, localCount }
    symbolic := (Option.all_map ..).trans draft.symbolic }

/-- Set the scope depths, if there is a body. -/
def withScopeDepth (initScopeDepth maxScopeDepth : UInt32) : MethodDraft :=
  { draft with
    body := draft.body.map fun body => { body with initScopeDepth, maxScopeDepth }
    symbolic := (Option.all_map ..).trans draft.symbolic }

/-- Add an exception handler, if there is a body. -/
def withHandler (handler : Handler CodePosition) : MethodDraft :=
  { draft with
    body := draft.body.map fun body =>
      { body with code := { body.code with handlers := body.code.handlers ++ [handler] } }
    symbolic := (Option.all_map ..).trans draft.symbolic }

/-- The handlers of the body. -/
def handlers : List (Handler CodePosition) :=
  match draft.body with
  | some body => body.code.handlers
  | none => []

/-- The method, if its parts fit together. -/
def build : Except Fault Method := do
  let signature := draft.signature
  let parameters := signature.parameters.length
  if signature.optional.length > parameters then
    throw (.misuse (.optionalCount signature.optional.length parameters))
  if !signature.parameterNames.isEmpty && signature.parameterNames.length != parameters then
    throw (.misuse (.parameterNames signature.parameterNames.length parameters))
  if draft.handlers.any (·.places.any CodePosition.isOffset) then
    throw (.misuse .handlerOffset)
  return { signature with body := draft.body }

end

end MethodDraft

end ActionBytecode
