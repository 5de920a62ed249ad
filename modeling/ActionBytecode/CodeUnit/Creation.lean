/-
  ActionBytecode — creating things in a unit.

  Names, instructions and declarations are made through the unit that they belong to, so that
  the constants they refer to stand in its pool.  What cannot be made changes nothing.
-/
import ActionBytecode.CodeUnit.Basic
import ActionBytecode.Name.Parts

namespace ActionBytecode

namespace Edit

/-! ## Names -/

/-- A namespace.  A private namespace differs from all others, as long as the counter has not come
    round. -/
def createNamespace (kind : NamespaceKind) (name : String) : Edit Namespace := do
  let id := (← get).nextPrivate
  if kind = .privateMembers then
    modify fun unit => { unit with nextPrivate := id + 1 }
  let ns := Namespace.ofKind kind name id.toNat
  pool (·.addNamespace ns)
  return ns

/-- The set of the given namespaces. -/
def createNamespaceSet (members : List Namespace) : Edit NamespaceSet := do
  let set := NamespaceSet.ofList members
  pool (·.addNamespaceSet set)
  return set

/-- A multiname made of parts. -/
def createMultiname (kind : MultinameKind) (name : Option String) (ns : Option Namespace)
    (set : Option NamespaceSet) : Edit Multiname := do
  if kind = .typeName then refuse .typeNameKind
  let name ← ofExcept (Multiname.ofParts kind name ns set none)
  pool (·.addMultiname name)
  return name

/-- A name in a namespace. -/
def createQualified (ns : Namespace) (name : String) : Edit Multiname :=
  createMultiname .qName (some name) (some ns) none

/-- A generic type applied to parameters. -/
def createApplication (base : Multiname) (params : List Multiname) : Edit Multiname := do
  if base.kind = .typeName then refuse .typeNameBase
  let name ← ofExcept (Multiname.ofParts .typeName none none none (some (base, params)))
  pool (·.addMultiname name)
  return name

/-- The name of a class of the platform, given as a dotted name. -/
def createPlatformClass (dotted : String) : Edit Multiname := do
  let parts := dotted.splitOn "."
  let ns ← createNamespace .package (".".intercalate parts.dropLast)
  createQualified ns (parts.getLastD dotted)

/-! ## Instructions -/

/-- Add the constant of an operand, or check the method or class that it names. -/
def admitOperand : Operand → Edit Unit
  | .int value => pool (·.addInt value)
  | .uint value => pool (·.addUint value)
  | .double value => pool (·.addDouble value)
  | .string value => pool (·.addString value)
  | .nspace ns => pool (·.addNamespace ns)
  | .multiname name => pool (·.addMultiname name)
  | .method handle => discard (requireMethod handle)
  | .classRef handle => discard (requireClass handle)
  | .u8 _ | .s8 _ | .u30 _ | .target _ => return

/-- An instruction with an identity of its own. -/
def createInstruction (opcode : Opcode) (operands : List Operand) : Edit Instruction := do
  ofExcept (opcode.check operands)
  operands.forM admitOperand
  let id := (← get).nextInstruction
  modify fun unit => { unit with nextInstruction := id + 1 }
  return ⟨⟨id⟩, opcode, operands⟩

/-! ## Declarations -/

/-- A method. -/
def createMethod (draft : MethodDraft) : Edit MethodHandle := do
  let method ← ofExcept draft.build
  pool (·.addMultiname method.returnType)
  pool (·.addMultinames method.parameters)
  if let some name := method.name then pool (·.addString name)
  let handle : MethodHandle := ⟨(← get).methods.size⟩
  modify fun unit =>
    { unit with
      methods := unit.methods.push method
      methodOrder := unit.methodOrder ++ [handle]
      written := none }
  return handle

/-- The name of a class that another can extend. -/
def superName : ClassReference → Edit Multiname
  | .defined handle => return (← requireClass handle).name
  | .platform name => return name

/-- A class without members. -/
def createClass (name : Multiname) (extended : ClassReference)
    (constructor staticInit : MethodHandle) : Edit ClassHandle := do
  discard (requireMethod constructor)
  discard (requireMethod staticInit)
  let superName ← superName extended
  pool (·.addMultiname name)
  pool (·.addMultiname superName)
  let handle : ClassHandle := ⟨(← get).classes.size⟩
  modify fun unit =>
    { unit with
      classes := unit.classes.push { name, superName, constructor, staticInit }
      classOrder := unit.classOrder ++ [handle]
      written := none }
  return handle

/-- A script, and its place in the unit. -/
def createScript (init : MethodHandle) (traits : List Trait) : Edit Nat := do
  discard (requireMethod init)
  pool (·.addMultinames (traits.map Trait.name))
  let index := (← get).scripts.length
  modify fun unit =>
    { unit with scripts := unit.scripts ++ [⟨init, traits⟩], written := none }
  return index

/-- Add the strings of a metadata item. -/
def addItem (pool : Pool) : Option String × String → Pool
  | (some key, value) => (pool.addString key).addString value
  | (none, value) => pool.addString value

/-- A metadata entry, and its place in the unit. -/
def createMetadata (name : String) (items : List (Option String × String)) : Edit Nat := do
  pool fun pool => items.foldl addItem (pool.addString name)
  let index := (← get).metadata.length
  modify fun unit =>
    { unit with metadata := unit.metadata ++ [⟨name, items⟩], written := none }
  return index

end Edit

end ActionBytecode
