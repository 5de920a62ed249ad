/-
  ActionBytecode — values numbered in the order in which they are first met.

  A numbering holds its values in a list, and beside it the number of each value.  The two say the
  same: a value has a number just when it stands at that place of the list, so no value stands
  there twice (`Numbering.nodup`) and the list alone tells two numberings apart (`Numbering.ext`).

  Registering a value that has a number changes nothing, and a new value gets the next number, so
  no number ever changes.

  Numbers have no end here, and are cut to 32 bits where they are written.  `IdTable` holds them as
  they are cut.
-/
import ActionBytecode.Fault

namespace ActionBytecode

/-- Values with their numbers, each the place of its value. -/
structure Numbering (α : Type) where
  values : List α
  /-- The number of a value, if it has one. -/
  id? : α → Option Nat
  id?_iff : ∀ a i, id? a = some i ↔ values[i]? = some a

namespace Numbering

section
variable {α : Type}

/-- The numbering of no values. -/
def empty : Numbering α := ⟨[], fun _ => none, by simp⟩

instance : Inhabited (Numbering α) := ⟨empty⟩

instance : Membership α (Numbering α) := ⟨fun numbering a => a ∈ numbering.values⟩

theorem mem_def {a : α} {numbering : Numbering α} : a ∈ numbering ↔ a ∈ numbering.values := Iff.rfl

/-- How many values have a number. -/
def size (numbering : Numbering α) : Nat := numbering.values.length

/-- Whether `a` has a number. -/
def contains (numbering : Numbering α) (a : α) : Bool := (numbering.id? a).isSome

/-- The number of `a`; it is a fault to have none. -/
def id (numbering : Numbering α) (text : α → String) (a : α) : Except Fault Nat :=
  match numbering.id? a with
  | some i => .ok i
  | none => .error (.misuse (.unregistered (text a)))

/-- The values in messages, in order. -/
def describe (text : α → String) (numbering : Numbering α) : String :=
  "[" ++ ", ".intercalate (numbering.values.map text) ++ "]"

/-! ## The list and the numbers -/

/-- The number of a value is its place. -/
theorem id?_eq_some {numbering : Numbering α} {a : α} {i : Nat} :
    numbering.id? a = some i ↔ numbering.values[i]? = some a :=
  numbering.id?_iff a i

theorem id?_eq_none {numbering : Numbering α} {a : α} :
    numbering.id? a = none ↔ a ∉ numbering := by
  simp only [Option.eq_none_iff_forall_ne_some, ne_eq, id?_eq_some, mem_def,
    List.mem_iff_getElem?, not_exists]

@[simp] theorem contains_iff {numbering : Numbering α} {a : α} :
    numbering.contains a = true ↔ a ∈ numbering := by
  rw [contains, Option.isSome_iff_ne_none, ne_eq, id?_eq_none, Classical.not_not]

instance (a : α) (numbering : Numbering α) : Decidable (a ∈ numbering) :=
  decidable_of_iff (numbering.contains a = true) contains_iff

theorem nodup (numbering : Numbering α) : numbering.values.Nodup := by
  refine List.pairwise_iff_getElem.2 fun i j hi hj hij heq => ?_
  have hfirst := id?_eq_some.2 (List.getElem?_eq_getElem hi)
  have hsecond := id?_eq_some.2 (List.getElem?_eq_getElem hj)
  rw [heq] at hfirst
  have := Option.some.inj (hfirst.symm.trans hsecond)
  omega

@[ext] theorem ext {a b : Numbering α} (h : a.values = b.values) : a = b := by
  have hid : a.id? = b.id? := by
    funext x
    refine Option.ext fun i => ?_
    rw [id?_eq_some, id?_eq_some, h]
  cases a
  cases b
  cases h
  cases hid
  rfl

end

section
variable {α : Type} [DecidableEq α]

/-- Give `a` the next number, unless it has one. -/
def register (numbering : Numbering α) (a : α) : Numbering α :=
  if h : a ∈ numbering then numbering
  else
    { values := numbering.values ++ [a]
      id? := fun b => if b = a then some numbering.size else numbering.id? b
      id?_iff := by
        intro b i
        have hnew : numbering.values[i]? ≠ some a := fun hi => h (List.mem_of_getElem? hi)
        have hb : numbering.id? b = some i ↔ numbering.values[i]? = some b := id?_eq_some
        grind [size] }

/-- Number the values of a list, in order. -/
def ofList (seeds : List α) : Numbering α :=
  seeds.foldl register empty

/-- The number of `a` once it is registered, and the numbering then. -/
def number (numbering : Numbering α) (a : α) : Nat × Numbering α :=
  ((numbering.id? a).getD numbering.size, numbering.register a)

/-- The number of `a`, which is registered only where it has none. -/
def idFor (numbering : Numbering α) (a : α) : Nat × Numbering α :=
  match numbering.id? a with
  | some i => (i, numbering)
  | none => numbering.number a

/-! ## The values of a numbering -/

theorem register_of_mem {numbering : Numbering α} {a : α} (h : a ∈ numbering) :
    numbering.register a = numbering := by
  simp [register, h]

theorem values_register (numbering : Numbering α) (a : α) :
    (numbering.register a).values =
      if a ∈ numbering.values then numbering.values else numbering.values ++ [a] := by
  by_cases h : a ∈ numbering.values
  · rw [register_of_mem h, if_pos h]
  · have : ¬ a ∈ numbering := h
    simp [register, this, h]

@[simp] theorem mem_register {numbering : Numbering α} {a b : α} :
    b ∈ numbering.register a ↔ b ∈ numbering ∨ b = a := by
  rw [mem_def, values_register, mem_def]
  split
  · next h => exact ⟨Or.inl, fun hb => hb.elim (fun hb => hb) fun hb => hb ▸ h⟩
  · simp

end

end Numbering

end ActionBytecode
