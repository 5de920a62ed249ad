/-
  ActionBytecode — what a unit refers to.

  The parts of a unit refer to constants, names, methods and classes.  Before a unit is written,
  all that it refers to is visited in a fixed order, and gets its index when it is first met:
  first the classes, then the scripts, then the methods that are still left, and last the names
  in metadata.  A method is visited from where it is referred to, with all that it refers to in
  turn.
-/
import ActionBytecode.Code.Assembly
import ActionBytecode.CodeUnit.Basic
import ActionBytecode.Constant.Indexing

namespace ActionBytecode

/-- A reference from a part of a unit. -/
inductive Use where
  /-- To the constant of a value. -/
  | value (value : DefaultValue)
  /-- To a string as a name. -/
  | name (name : Option String)
  | multiname (name : Multiname)
  | method (handle : MethodHandle)
  /-- To a class, from an instruction. -/
  | instructionClass (handle : ClassHandle)
  /-- To a class, from a trait. -/
  | traitClass (handle : ClassHandle)
  deriving DecidableEq

/-! ## The references of each part -/

def Operand.uses : Operand → List Use
  | int value => [.value (.int value)]
  | uint value => [.value (.uint value)]
  | double value => [.value (.double value)]
  | string value => [.value (.text value)]
  | nspace ns => [.value (.nspace ns)]
  | multiname name => [.multiname name]
  | method handle => [.method handle]
  | classRef handle => [.instructionClass handle]
  | u8 _ | s8 _ | u30 _ | target _ => []

def Member.uses : Member → List Use
  | slot _ _ type value => .multiname type :: value.toList.map .value
  | access _ _ method => [.method method]
  | classBinding _ handle => [.traitClass handle]
  | function _ method => [.method method]

def Trait.uses (t : Trait) : List Use := .multiname t.name :: t.member.uses

def Signature.uses (signature : Signature) : List Use :=
  .multiname signature.returnType :: signature.parameters.map .multiname ++
    .name signature.name :: signature.optional.map .value ++
    signature.parameterNames.map fun name => .name (some name)

def Handler.uses {π : Type} (handler : Handler π) : List Use :=
  [.multiname handler.catchType, .multiname handler.variableName]

def ClassDefinition.uses (cls : ClassDefinition) : List Use :=
  [.multiname cls.name, .multiname cls.superName] ++
    cls.protectedNamespace.toList.map (fun ns => .value (.nspace ns)) ++
    cls.interfaces.map .multiname ++
    .method cls.constructor :: cls.instanceTraits.flatMap Trait.uses ++
    .method cls.staticInit :: cls.staticTraits.flatMap Trait.uses

def Script.uses (script : Script) : List Use :=
  .method script.init :: script.traits.flatMap Trait.uses

def Metadata.uses (entry : Metadata) : List Use :=
  .name (some entry.name) :: entry.items.flatMap fun (key, value) => [.name key, .name (some value)]

/-- The references of a method, with those of the markers that are written into its code. -/
def Method.uses (debug : Bool) (method : Method) : Except Fault (List Use) := do
  match method.body with
  | none => return method.toSignature.uses
  | some body =>
    let emissions ← method.emissions body.code debug
    return method.toSignature.uses ++ emissions.flatMap (·.operands.flatMap Operand.uses) ++
      body.code.handlers.flatMap Handler.uses ++ body.traits.flatMap Trait.uses

/-! ## The visit -/

namespace CodeUnit

/-- Visit a reference.  The number `unvisited` bounds how many methods have no index yet: when it
    is 0, a handle without an index belongs to no method. -/
def visit (unit : CodeUnit) (debug : Bool) (unvisited : Nat) (indexing : Indexing) :
    Use → Except Fault Indexing
  | .value value => .ok (indexing.addValue value)
  | .name name => .ok (indexing.addName name)
  | .multiname name => .ok (indexing.addMultiname name)
  | .instructionClass handle =>
    if handle ∈ indexing.classes then .ok indexing
    else .error (.misuse (.instructionClass handle))
  | .traitClass handle =>
    if handle ∈ indexing.classes then .ok indexing
    else .error (.misuse (.traitClass handle))
  | .method handle =>
    if handle ∈ indexing.methods then .ok indexing
    else
      match unvisited, unit.method? handle with
      | unvisited + 1, some method => do
        let uses ← method.uses debug
        uses.foldlM (unit.visit debug unvisited)
          { indexing with methods := indexing.methods.register handle }
      | _, _ => .error (.misuse (.unknownMethod handle))

/-- The references of the unit, in the order in which they are visited. -/
def uses (unit : CodeUnit) (classOrder : List ClassHandle) : List Use :=
  (classOrder.filterMap unit.class?).flatMap ClassDefinition.uses ++
    unit.scripts.flatMap Script.uses ++
    unit.methodOrder.map .method ++
    unit.metadata.flatMap Metadata.uses

/-- The indices of all that the unit refers to, its classes written in a given order. -/
def index (unit : CodeUnit) (debug : Bool) (classOrder : List ClassHandle) :
    Except Fault Indexing :=
  (unit.uses classOrder).foldlM (unit.visit debug unit.methods.size)
    { classes := .ofList classOrder }

end CodeUnit

end ActionBytecode
