/-
  ActionBytecode — the constant pool.

  A unit keeps its constants in seven tables, and refers to them by index.  Index 0 of each table
  holds a fixed entry.  `Pool.addNamespace` and its like put a constant into its table unless it
  is there, and before it the constants that it refers to.
-/
import ActionBytecode.Constant.Value
import ActionBytecode.Name.Multiname

namespace ActionBytecode

/-- The tables of constants. -/
structure Pool where
  ints : Array Int32
  uints : Array UInt32
  doubles : Array Double
  strings : Array String
  namespaces : Array Namespace
  namespaceSets : Array NamespaceSet
  multinames : Array Multiname
  deriving DecidableEq

namespace Pool

/-- The pool of the fixed entries alone. -/
def initial : Pool where
  ints := #[0]
  uints := #[0]
  doubles := #[.nan]
  strings := #[anyName]
  namespaces := #[.global]
  namespaceSets := #[.empty]
  multinames := #[.any]

instance : Inhabited Pool := ⟨initial⟩

/-- Put `value` at the end of a table, unless it is there. -/
def intern {α : Type} [DecidableEq α] (table : Array α) (value : α) : Array α :=
  if value ∈ table.toList then table else table.push value

section
variable (pool : Pool)

def addInt (value : Int32) : Pool := { pool with ints := intern pool.ints value }

def addUint (value : UInt32) : Pool := { pool with uints := intern pool.uints value }

def addDouble (value : Double) : Pool := { pool with doubles := intern pool.doubles value }

def addString (value : String) : Pool := { pool with strings := intern pool.strings value }

/-- Add a namespace, after its name. -/
def addNamespace (ns : Namespace) : Pool :=
  let pool := pool.addString ns.name
  { pool with namespaces := intern pool.namespaces ns }

/-- Add a set, after its members. -/
def addNamespaceSet (set : NamespaceSet) : Pool :=
  let pool := set.members.foldl addNamespace pool
  { pool with namespaceSets := intern pool.namespaceSets set }

/-- Add a multiname itself. -/
def addMultinameEntry (name : Multiname) : Pool :=
  { pool with multinames := intern pool.multinames name }

end

mutual
/-- Add a multiname, after its parts. -/
def addMultiname (pool : Pool) : Multiname → Pool
  | n@(.qualified _ ns name) => ((pool.addString name).addNamespace ns).addMultinameEntry n
  | n@(.runtimeQualified _ name) => (pool.addString name).addMultinameEntry n
  | n@(.runtime _) => pool.addMultinameEntry n
  | n@(.ambiguous _ name set) => ((pool.addString name).addNamespaceSet set).addMultinameEntry n
  | n@(.late _ set) => (pool.addNamespaceSet set).addMultinameEntry n
  | .applied base params =>
    ((pool.addMultiname base).addMultinames params).addMultinameEntry (.applied base params)

/-- Add multinames, each after its parts. -/
def addMultinames (pool : Pool) : List Multiname → Pool
  | [] => pool
  | name :: names => (pool.addMultiname name).addMultinames names
end

end Pool

end ActionBytecode
