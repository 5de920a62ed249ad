/-
  ActionBytecode — writing a unit.

  A unit that was not tampered with is written as the bytes that it is known by.  Any other is
  disassembled, everything it refers to gets an index, and its sections are written.  Only when
  all of it is written does the unit take on the new constants, orders and code; a unit that
  cannot be written is left disassembled and is not changed otherwise.
-/
import ActionBytecode.CodeUnit.Editing
import ActionBytecode.CodeUnit.Uses
import ActionBytecode.Layout.Class
import ActionBytecode.Layout.Method
import ActionBytecode.Layout.Pool

namespace ActionBytecode

/-- How a unit is to be written. -/
structure EncodeOptions where
  /-- Whether code without debugging markers is given some. -/
  debugInstrumentation : Bool := false
  /-- The dotted name of the class that is written last. -/
  mainClass : Option String := none
  deriving DecidableEq

/-- The code of a method as it is written. -/
structure AssembledBody where
  method : MethodHandle
  frame : Frame
  code : Bytes
  handlers : List (Handler UInt32)
  deriving DecidableEq

/-- A unit as it is written, with what has to be kept of it. -/
structure Rebuilt where
  bytes : Bytes
  indexing : Indexing
  bodies : List AssembledBody

namespace CodeUnit

section
variable (unit : CodeUnit)

/-! ## Orders -/

/-- The order of the classes, with the main class moved to the end. -/
def classOrderFor : (mainClass : Option String) → Except Fault (List ClassHandle)
  | none => .ok unit.classOrder
  | some name =>
    match unit.classNamed? name with
    | some main => .ok (unit.classOrder.filter (· ≠ main) ++ [main])
    | none => .error (.misuse (.mainClass name))

/-- The methods with indices, in order of index. -/
def indexedMethods (indexing : Indexing) : List (MethodHandle × Method) :=
  indexing.methods.values.filterMap fun handle => (unit.method? handle).map (handle, ·)

/-- The classes with indices, in order of index. -/
def indexedClasses (indexing : Indexing) : List ClassDefinition :=
  indexing.classes.values.filterMap unit.class?

/-! ## Sections -/

/-- The code of a method, if it has a body. -/
def assembleBody (indexing : Indexing) (debug : Bool) (handle : MethodHandle) (method : Method) :
    Except Fault (Option AssembledBody) := do
  match method.body with
  | none => return none
  | some body =>
    let emissions ← method.emissions body.code debug
    let (code, handlers) ← assemble indexing emissions body.code.handlers
    return some { method := handle, frame := body.toFrame, code, handlers }

/-- The code of all methods. -/
def assembleBodies (indexing : Indexing) (debug : Bool) : Except Fault (List AssembledBody) := do
  let bodies ← (unit.indexedMethods indexing).mapM fun (handle, method) =>
    assembleBody indexing debug handle method
  return bodies.filterMap (fun body => body)

/-- The unit as it is written. -/
def rebuild (options : EncodeOptions) : Except Fault Rebuilt := do
  let debug := options.debugInstrumentation
  let classOrder ← unit.classOrderFor options.mainClass
  let indexing ← unit.index debug classOrder
  let metadataCount := unit.metadata.length
  let pool ← indexing.poolBytes
  let signatures ← Bytes.list (fun (_, method) => indexing.signatureBytes method.toSignature)
    (unit.indexedMethods indexing)
  let metadata ← Bytes.list indexing.metadataBytes unit.metadata
  let classes ← indexing.classesBytes metadataCount (unit.indexedClasses indexing)
  let scripts ← Bytes.list (indexing.scriptBytes metadataCount) unit.scripts
  let assembled ← unit.assembleBodies indexing debug
  let bodies ← Bytes.list
    (fun body => indexing.bodyBytes metadataCount body.method body.frame body.code body.handlers)
    assembled
  return {
    bytes :=
      Bytes.u16 minorVersion ++ Bytes.u16 majorVersion ++ pool ++ signatures ++ metadata ++
        classes ++ scripts ++ bodies
    indexing
    bodies := assembled }

/-! ## Taking on what was written -/

/-- Replace the code of a method by what was written of it. -/
def replaceCode (methods : Array Method) (written : AssembledBody) : Array Method :=
  methods.modify written.method.index fun method =>
    { method with
      body := method.body.map fun body =>
        { body with code := .ofWire written.code written.handlers } }

/-- The unit after it was written. -/
def commit (rebuilt : Rebuilt) : CodeUnit :=
  { unit with
    pool := rebuilt.indexing.toPool
    methods := rebuilt.bodies.foldl replaceCode unit.methods
    methodOrder := rebuilt.indexing.methods.values
    classOrder := rebuilt.indexing.classes.values
    written := some rebuilt.bytes }

/-- The bytes of the unit, if they are still right. -/
def current? : Option Bytes := if unit.isTampered then none else unit.written

end

end CodeUnit

/-- The bytes of the unit. -/
def Edit.encode (options : EncodeOptions) : Edit Bytes := do
  match (← get).current? with
  | some bytes => return bytes
  | none =>
    disassemble
    let unit ← get
    let rebuilt ← ofExcept (unit.rebuild options)
    set (unit.commit rebuilt)
    return rebuilt.bytes

end ActionBytecode
