/-
  ActionBytecode — values with ids of 32 bits.

  A table holds its values in the order in which they were registered, and beside them a map from
  values to ids.  Nothing ties the two together but the operations.  The id of a new value is the
  number of values before it, in 32 bits.
-/
import ActionBytecode.Fault

namespace ActionBytecode

/-- Values, and the ids that were given to values. -/
structure IdTable (α : Type) where
  ids : α → Option UInt32 := fun _ => none
  values : List α := []

namespace IdTable

section
variable {α : Type} (table : IdTable α)

/-- How many values were registered. -/
def size : Nat := table.values.length

/-- Whether `a` has an id. -/
def contains (a : α) : Bool := (table.ids a).isSome

/-- The id of `a`; it is a fault to have none. -/
def existing (text : α → String) (a : α) : Except Fault UInt32 :=
  match table.ids a with
  | some id => .ok id
  | none => .error (.misuse (.unregistered (text a)))

/-- The values in messages, in order. -/
def describe (text : α → String) : String :=
  "[" ++ ", ".intercalate (table.values.map text) ++ "]"

end

section
variable {α : Type} [DecidableEq α]

/-- The id of `a`, and the table with it.  A value that has an id keeps it. -/
def register (table : IdTable α) (a : α) : UInt32 × IdTable α :=
  match table.ids a with
  | some id => (id, table)
  | none =>
    let id := UInt32.ofNat table.values.length
    let ids b := if b = a then some id else table.ids b
    (id, { ids, values := table.values ++ [a] })

/-- The id of `a`, which is registered only where it has none. -/
def idFor (table : IdTable α) (a : α) : UInt32 × IdTable α :=
  match table.ids a with
  | some id => (id, table)
  | none => table.register a

/-- The table of the given values, in order. -/
def ofSeeds (seeds : List α) : IdTable α :=
  seeds.foldl (fun table seed => (table.register seed).2) {}

end

end IdTable

end ActionBytecode
