/-
  ActionBytecode — indices for everything that a unit refers to.

  Before a unit is written, each constant, name, method and class that it uses is given an index,
  in the order in which it is first met.  A constant is met after the constants that it refers to.

  Literals always stand in their table at an index above 0, also when they equal the fixed entry
  there.  Names differ: a missing name and the name `*` are index 0.
-/
import ActionBytecode.Constant.Pool
import ActionBytecode.Numbering

namespace ActionBytecode

/-- The indices given so far.  The numberings of literals leave out the fixed entry. -/
structure Indexing where
  ints : Numbering Int32 := .empty
  uints : Numbering UInt32 := .empty
  doubles : Numbering Double := .empty
  strings : Numbering String := .empty
  namespaces : Numbering Namespace := .ofList [.global]
  namespaceSets : Numbering NamespaceSet := .ofList [.empty]
  multinames : Numbering Multiname := .ofList [.any]
  methods : Numbering MethodHandle := .empty
  classes : Numbering ClassHandle := .empty

/-- The name to look for in the table of strings: none when it is missing or `*`. -/
def spelled? (name : Option String) : Option String := name.filter (· ≠ anyName)

namespace Indexing

/-! ## Giving indices -/

section
variable (indexing : Indexing)

def addInt (value : Int32) : Indexing :=
  { indexing with ints := indexing.ints.register value }

def addUint (value : UInt32) : Indexing :=
  { indexing with uints := indexing.uints.register value }

def addDouble (value : Double) : Indexing :=
  { indexing with doubles := indexing.doubles.register value }

def addLiteral (value : String) : Indexing :=
  { indexing with strings := indexing.strings.register value }

def addName (name : Option String) : Indexing :=
  match spelled? name with
  | some name => indexing.addLiteral name
  | none => indexing

/-- A namespace, after its name. -/
def addNamespace (ns : Namespace) : Indexing :=
  if ns ∈ indexing.namespaces then indexing
  else
    let indexing := indexing.addName ns.name
    { indexing with namespaces := indexing.namespaces.register ns }

/-- A set, after its members. -/
def addNamespaceSet (set : NamespaceSet) : Indexing :=
  if set ∈ indexing.namespaceSets then indexing
  else
    let indexing := set.members.foldl addNamespace indexing
    { indexing with namespaceSets := indexing.namespaceSets.register set }

/-- A multiname itself. -/
def addMultinameEntry (name : Multiname) : Indexing :=
  { indexing with multinames := indexing.multinames.register name }

end

mutual
/-- A multiname, after its parts. -/
def addMultiname (indexing : Indexing) : Multiname → Indexing
  | n@(.qualified _ ns name) =>
    if n ∈ indexing.multinames then indexing
    else ((indexing.addName name).addNamespace ns).addMultinameEntry n
  | n@(.runtimeQualified _ name) =>
    if n ∈ indexing.multinames then indexing
    else (indexing.addName name).addMultinameEntry n
  | n@(.runtime _) => indexing.addMultinameEntry n
  | n@(.ambiguous _ name set) =>
    if n ∈ indexing.multinames then indexing
    else ((indexing.addName name).addNamespaceSet set).addMultinameEntry n
  | n@(.late _ set) =>
    if n ∈ indexing.multinames then indexing
    else (indexing.addNamespaceSet set).addMultinameEntry n
  | .applied base params =>
    if .applied base params ∈ indexing.multinames then indexing
    else
      ((indexing.addMultiname base).addMultinames params).addMultinameEntry (.applied base params)

/-- Multinames, each after its parts. -/
def addMultinames (indexing : Indexing) : List Multiname → Indexing
  | [] => indexing
  | name :: names => (indexing.addMultiname name).addMultinames names
end

/-- The constant of a default value. -/
def addValue (indexing : Indexing) : DefaultValue → Indexing
  | .int value => indexing.addInt value
  | .uint value => indexing.addUint value
  | .double value => indexing.addDouble value
  | .text value => indexing.addLiteral value
  | .nspace ns => indexing.addNamespace ns
  | .truth _ | .null | .undefined => indexing

/-! ## The indices given -/

section
variable (indexing : Indexing)

def intIndex (value : Int32) : Except Fault Nat :=
  return (← indexing.ints.id (fun value => toString value.toInt) value) + 1

def uintIndex (value : UInt32) : Except Fault Nat :=
  return (← indexing.uints.id (fun value => toString value.toNat) value) + 1

def doubleIndex (value : Double) : Except Fault Nat :=
  return (← indexing.doubles.id Double.text value) + 1

def literalIndex (value : String) : Except Fault Nat :=
  return (← indexing.strings.id Quoted.quote value) + 1

def nameIndex (name : Option String) : Except Fault Nat :=
  match spelled? name with
  | some name => indexing.literalIndex name
  | none => .ok 0

def namespaceIndex (ns : Namespace) : Except Fault Nat :=
  indexing.namespaces.id Namespace.text ns

def namespaceSetIndex (set : NamespaceSet) : Except Fault Nat :=
  indexing.namespaceSets.id NamespaceSet.text set

def multinameIndex (name : Multiname) : Except Fault Nat :=
  indexing.multinames.id Multiname.text name

def methodIndex (method : MethodHandle) : Except Fault Nat :=
  indexing.methods.id (fun method => toString method.index) method

def classIndex (cls : ClassHandle) : Except Fault Nat :=
  indexing.classes.id (fun cls => toString cls.index) cls

/-- The index of a default value.  A value without a table has an index above 0 all the same. -/
def valueIndex : DefaultValue → Except Fault Nat
  | .int value => indexing.intIndex value
  | .uint value => indexing.uintIndex value
  | .double value => indexing.doubleIndex value
  | .text value => indexing.literalIndex value
  | .nspace ns => indexing.namespaceIndex ns
  | .truth value => .ok (ValueKind.truth value).byte.toNat
  | .null => .ok ValueKind.null.byte.toNat
  | .undefined => .ok 1

/-- The tables of constants, each with its fixed entry at index 0. -/
def toPool : Pool where
  ints := (0 :: indexing.ints.values).toArray
  uints := (0 :: indexing.uints.values).toArray
  doubles := (.nan :: indexing.doubles.values).toArray
  strings := (anyName :: indexing.strings.values).toArray
  namespaces := indexing.namespaces.values.toArray
  namespaceSets := indexing.namespaceSets.values.toArray
  multinames := indexing.multinames.values.toArray

end

end Indexing

end ActionBytecode
