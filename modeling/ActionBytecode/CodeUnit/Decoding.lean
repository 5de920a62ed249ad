/-
  ActionBytecode — reading a unit.

  The sections of a unit follow one another: version, constants, method signatures, metadata,
  classes, scripts, method bodies.  Nothing may follow the last body.

  The code of the bodies stays raw, but it is disassembled once to see that it can be, so a unit
  that is read can be disassembled later.
-/
import ActionBytecode.CodeUnit.Editing
import ActionBytecode.Layout.Class
import ActionBytecode.Layout.Method
import ActionBytecode.Layout.Pool

namespace ActionBytecode

namespace Reader

/-- The version, of which there is only one. -/
def version : Reader Unit := do
  let minor ← u16
  let major ← u16
  if major ≠ majorVersion ∨ minor ≠ minorVersion then throw (.unsupportedVersion major minor)

/-- Read `count` bodies and give each to its method. -/
def bodies (tables : Tables) : (count : Nat) → Array Method → Reader (Array Method)
  | 0, methods => pure methods
  | count + 1, methods => do
    let start ← offset
    let handle ← method tables
    let body ← body tables
    if (methods[handle.index]?.bind (·.body)).isSome then
      malformed start (.secondBody handle)
    bodies tables count (methods.modify handle.index ({ · with body := some body }))

/-- The sections of a unit. -/
def sections : Reader CodeUnit := do
  version
  let pool ← pool
  let constants : Tables := ⟨pool, fun _ => none, fun _ => none, 0⟩
  let signatures ← list (signature constants)
  let metadata ← list (metadata constants)
  let classCount ← index
  let tables : Tables :=
    { pool
      method? := fun i => if i < signatures.length then some ⟨i⟩ else none
      class? := fun i => if i < classCount then some ⟨i⟩ else none
      metadataCount := metadata.length }
  let instances ← times classCount (instanceSide tables)
  let classes ← instances.mapM (staticSide tables)
  let scripts ← list (script tables)
  let bodyCount ← index
  let methods ← bodies tables bodyCount
    (signatures.map fun signature => { signature with body := none }).toArray
  return {
    pool
    methods
    methodOrder := (List.range methods.size).map MethodHandle.mk
    classes := classes.toArray
    classOrder := (List.range classes.length).map ClassHandle.mk
    scripts
    metadata
    nextPrivate := .ofNat pool.namespaces.size }

/-- The end of the bytes. -/
def finish : Reader Unit := do
  let cursor ← get
  unless cursor.atEnd do malformed cursor.offset (.trailing cursor.remaining)

/-- A unit, up to the end of the bytes. -/
def unit : Reader CodeUnit := do
  let unit ← sections
  finish
  return unit

end Reader

/-- The method with the source file that its code names, once the code is seen to be sound. -/
def Method.examine (tables : Tables) (method : Method) : Identifying Method := do
  match method.body with
  | none => return method
  | some body =>
    let code ← body.code.disassemble tables
    return { method with sourceFile := code.sourceFile? }

namespace CodeUnit

/-- The unit with all of its code examined. -/
def examine (unit : CodeUnit) : Except Fault CodeUnit :=
  match unit.methods.toList.mapM (Method.examine unit.tables) 0 with
  | .ok methods _ => .ok { unit with methods := methods.toArray }
  | .error fault _ => .error fault

/-- The unit that bytes stand for. -/
def decode (bytes : Bytes) : Except Fault CodeUnit := do
  match Reader.unit (.start bytes) with
  | .error fault _ => throw fault
  | .ok unit _ =>
    let unit ← unit.examine
    return { unit with written := some bytes }

end CodeUnit

end ActionBytecode
