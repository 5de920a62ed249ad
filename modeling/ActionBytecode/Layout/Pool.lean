/-
  ActionBytecode — the constant pool on the wire.

  Each table stands as a count and its entries.  The fixed entry at index 0 is not written, but
  counted; a table of the fixed entry alone has the count 0, and 1 is read like it.

  Entries refer to the tables before theirs, and multinames also to other multinames, in either
  direction.  `resolve` follows these references: it fails on one that leads nowhere, and on a
  chain of more than `typeNestingLimit` type applications, as every circle is.
-/
import ActionBytecode.Constant.Indexing
import ActionBytecode.Layout.Tables
import ActionBytecode.Name.Parts

namespace ActionBytecode

/-! ## Reading -/

/-- A multiname as it stands in the table. -/
inductive MultinameEntry where
  | plain (name : Multiname)
  /-- A type application that stands at `offset`, by the indices of its parts. -/
  | application (offset : Nat) (base : Nat) (params : List Nat)
  deriving DecidableEq

/-- How many type applications can be nested that are not resolved yet. -/
def typeNestingLimit : Nat := 65

/-- The multinames resolved so far, by index. -/
abbrev Resolution := EStateM Fault (Array (Option Multiname))

namespace Resolution

/-- Remember what the multiname at `index` is. -/
def remember (index : Nat) (name : Multiname) : Resolution Multiname := do
  modify (·.setIfInBounds index (some name))
  return name

/-- The multiname at `index`, to which the entry at byte `source` refers.  At most `depth`
    applications are followed in a row. -/
def resolve (entries : Array MultinameEntry) (depth source index : Nat) :
    Resolution Multiname := do
  match (← get)[index]?.join, entries[index]? with
  | some name, _ => return name
  | none, none => throw (.malformed source (.indexRange .multiname index))
  | none, some (.plain name) => remember index name
  | none, some (.application offset base params) =>
    match depth with
    | 0 => throw (.malformed offset .typeNesting)
    | depth + 1 =>
      let base ← resolve entries depth offset base
      let params ← params.mapM (resolve entries depth offset)
      match Multiname.ofParts .typeName none none none (some (base, params)) with
      | .ok name => remember index name
      | .error fault => throw (fault.atOffset offset)

end Resolution

/-- The multinames that the entries of a table stand for. -/
def resolveMultinames (entries : Array MultinameEntry) : Except Fault (List Multiname) :=
  let resolveAll := (List.range entries.size).mapM (Resolution.resolve entries typeNestingLimit 0)
  match resolveAll (Array.replicate entries.size none) with
  | .ok names _ => .ok names
  | .error fault _ => .error fault

namespace Reader

/-- The entries of a table after the fixed one. -/
def table {α : Type} (read : Reader α) : Reader (List α) := do
  let count ← index
  times (count - 1) read

/-- The kind and the name of a namespace. -/
def namespaceEntry (strings : Array String) : Reader (NamespaceKind × String) := do
  let start ← offset
  let tag ← u8
  let kind ← require (NamespaceKind.ofByte? tag) start (.namespaceKind tag)
  let name ← entry .string (strings[·]?)
  return (kind, name)

/-- The namespaces with given kinds and names.  Private ones are told apart by their index. -/
def namespacesOf (entries : List (NamespaceKind × String)) : List Namespace :=
  (entries.zipIdx 1).map fun ((kind, name), index) => Namespace.ofKind kind name index

/-- A set of namespaces. -/
def namespaceSet (namespaces : Array Namespace) : Reader NamespaceSet :=
  return NamespaceSet.ofList (← list (entry .nspace (namespaces[·]?)))

/-- A part that only some forms of a multiname have. -/
def part {α : Type} (present : Bool) (read : Reader α) : Reader (Option α) :=
  if present then some <$> read else return none

/-- A multiname. -/
def multinameEntry (strings : Array String) (namespaces : Array Namespace)
    (sets : Array NamespaceSet) : Reader MultinameEntry := do
  let start ← offset
  let tag ← u8
  let kind ← require (MultinameKind.ofByte? tag) start (.multinameKind tag)
  if kind = .typeName then
    let base ← index
    return .application start base (← list index)
  let ns ← part kind.hasNamespace (entryFrom start .nspace (namespaces[·]?))
  let name ← part kind.hasName (entry .string (strings[·]?))
  let set ← part kind.hasNamespaceSet (entryFrom start .namespaceSet (sets[·]?))
  match Multiname.ofParts kind name ns set none with
  | .ok name => return .plain name
  | .error fault => throw (fault.atOffset start)

/-- The multinames, with the fixed one in front. -/
def multinames (strings : Array String) (namespaces : Array Namespace)
    (sets : Array NamespaceSet) : Reader (List Multiname) := do
  let entries ← table (multinameEntry strings namespaces sets)
  ofExcept (resolveMultinames (.plain .any :: entries).toArray)

/-- The constant pool. -/
def pool : Reader Pool := do
  let ints ← table s32
  let uints ← table u32
  let doubles ← table d64
  let strings := (anyName :: (← table text)).toArray
  let namespaces := (.global :: namespacesOf (← table (namespaceEntry strings))).toArray
  let sets := (.empty :: (← table (namespaceSet namespaces))).toArray
  let multinames ← multinames strings namespaces sets
  return {
    ints := (0 :: ints).toArray
    uints := (0 :: uints).toArray
    doubles := (.nan :: doubles).toArray
    strings
    namespaces
    namespaceSets := sets
    multinames := multinames.toArray }

end Reader

/-! ## Writing -/

/-- A table without its fixed entry. -/
def Bytes.table {α : Type} (write : α → Except Fault Bytes) (entries : List α) :
    Except Fault Bytes := do
  let count ← index (if entries.isEmpty then 0 else entries.length + 1)
  return count ++ (← entries.mapM write).flatten

namespace Indexing

section
variable (indexing : Indexing)

def namespaceBytes (ns : Namespace) : Except Fault Bytes :=
  return ns.kind.byte :: Bytes.reference (← indexing.nameIndex ns.name)

def namespaceSetBytes (set : NamespaceSet) : Except Fault Bytes :=
  Bytes.list (fun ns => return Bytes.reference (← indexing.namespaceIndex ns)) set.members

/-- The parts of a multiname. -/
def multinamePartBytes : Multiname → Except Fault Bytes
  | .qualified _ ns name => do
    let ns ← indexing.namespaceIndex ns
    return Bytes.reference ns ++ Bytes.reference (← indexing.nameIndex name)
  | .runtimeQualified _ name => return Bytes.reference (← indexing.nameIndex name)
  | .runtime _ => return []
  | .ambiguous _ name set => do
    let name ← indexing.nameIndex name
    return Bytes.reference name ++ Bytes.reference (← indexing.namespaceSetIndex set)
  | .late _ set => return Bytes.reference (← indexing.namespaceSetIndex set)
  | .applied base params => do
    let base ← indexing.multinameIndex base
    let params ← Bytes.list (fun p => return Bytes.reference (← indexing.multinameIndex p)) params
    return Bytes.reference base ++ params

def multinameBytes (name : Multiname) : Except Fault Bytes :=
  return name.kind.byte :: (← indexing.multinamePartBytes name)

/-- The constant pool. -/
def poolBytes : Except Fault Bytes := do
  let ints ← Bytes.table (fun value => .ok (Bytes.s32 value)) indexing.ints.values
  let uints ← Bytes.table (fun value => .ok (Bytes.u32 value)) indexing.uints.values
  let doubles ← Bytes.table (fun value => .ok (Bytes.d64 value)) indexing.doubles.values
  let strings ← Bytes.table Bytes.text indexing.strings.values
  let namespaces ← Bytes.table indexing.namespaceBytes indexing.namespaces.values.tail
  let sets ← Bytes.table indexing.namespaceSetBytes indexing.namespaceSets.values.tail
  let multinames ← Bytes.table indexing.multinameBytes indexing.multinames.values.tail
  return ints ++ uints ++ doubles ++ strings ++ namespaces ++ sets ++ multinames

end

end Indexing

end ActionBytecode
