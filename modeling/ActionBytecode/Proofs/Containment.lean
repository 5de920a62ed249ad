/-
  ActionBytecode — writing a unit gives indices only to what it was read with.

  A unit that is read refers to nothing but what its tables have, and a constant of its pool is
  made of others of the pool.  So all that gets an index when the unit is written stands in the
  pool already (`within_index`), and the new tables are no longer than those that were read, up to
  their fixed entries (`Within.legible`).
-/
import ActionBytecode.Proofs.Pool
import ActionBytecode.Proofs.Soundness
import ActionBytecode.Proofs.Writing

namespace ActionBytecode

namespace Numbering

variable {α : Type} {numbering : Numbering α}

theorem forall_register [DecidableEq α] {p : α → Prop} {x : α} (h : ∀ y ∈ numbering, p y)
    (hx : p x) : ∀ y ∈ numbering.register x, p y := by
  intro y hy
  rcases mem_register.1 hy with hy | rfl
  · exact h y hy
  · exact hx

/-- Distinct values of a table are no more than its entries. -/
theorem size_le {table : Array α} (h : ∀ x ∈ numbering, x ∈ table) :
    numbering.size ≤ table.size := by
  have hsub : numbering.values ⊆ table.toList := fun x hx => Array.mem_toList_iff.2 (h x hx)
  exact (numbering.nodup.subperm hsub).length_le

end Numbering

namespace Indexing

/-- Every constant with an index stands in the pool. -/
structure Within (a : Indexing) (pool : Pool) : Prop where
  ints : ∀ value ∈ a.ints, value ∈ pool.ints
  uints : ∀ value ∈ a.uints, value ∈ pool.uints
  doubles : ∀ value ∈ a.doubles, value ∈ pool.doubles
  strings : ∀ s ∈ a.strings, s ∈ pool.strings
  namespaces : ∀ ns ∈ a.namespaces, ns ∈ pool.namespaces
  namespaceSets : ∀ set ∈ a.namespaceSets, set ∈ pool.namespaceSets
  multinames : ∀ name ∈ a.multinames, name ∈ pool.multinames

namespace Within

/-! ## Constants -/

section
variable {pool : Pool} {limit : Nat}

theorem initial (hp : pool.Sound limit) (classes : Numbering ClassHandle) :
    Within { classes := classes } pool where
  ints _ h := absurd h (Numbering.not_mem_empty _)
  uints _ h := absurd h (Numbering.not_mem_empty _)
  doubles _ h := absurd h (Numbering.not_mem_empty _)
  strings _ h := absurd h (Numbering.not_mem_empty _)
  namespaces _ h := List.mem_singleton.1 (Numbering.mem_ofList.1 h) ▸
    Array.mem_of_getElem? hp.global
  namespaceSets _ h := List.mem_singleton.1 (Numbering.mem_ofList.1 h) ▸
    Array.mem_of_getElem? hp.empty
  multinames _ h := List.mem_singleton.1 (Numbering.mem_ofList.1 h) ▸
    Array.mem_of_getElem? hp.any

theorem addName {a : Indexing} (h : a.Within pool) {name : Option String}
    (hn : ∀ s, name = some s → s ∈ pool.strings) : (a.addName name).Within pool := by
  unfold Indexing.addName
  split
  · next s hs =>
    exact { h with
      strings := Numbering.forall_register h.strings (hn s (spelled?_eq_some.1 hs).1) }
  · exact h

theorem addPart {a : Indexing} (h : a.Within pool) {s : String} (hs : s ∈ pool.strings) :
    (a.addName (some s)).Within pool :=
  h.addName fun _ ht => Option.some.inj ht ▸ hs

theorem addNamespace {a : Indexing} (h : a.Within pool) (hp : pool.Sound limit) {ns : Namespace}
    (hn : ns ∈ pool.namespaces) : (a.addNamespace ns).Within pool := by
  unfold Indexing.addNamespace
  split
  · exact h
  · have hname := h.addPart (hp.names ns hn)
    exact { hname with namespaces := Numbering.forall_register hname.namespaces hn }

theorem addNamespaces (hp : pool.Sound limit) {members : List Namespace}
    (hm : ∀ ns ∈ members, ns ∈ pool.namespaces) :
    ∀ {a : Indexing}, a.Within pool → (members.foldl Indexing.addNamespace a).Within pool := by
  induction members with
  | nil => exact fun h => h
  | cons ns members ih =>
    obtain ⟨hn, hm⟩ := List.forall_mem_cons.1 hm
    exact fun h => ih hm (h.addNamespace hp hn)

theorem addNamespaceSet {a : Indexing} (h : a.Within pool) (hp : pool.Sound limit)
    {set : NamespaceSet}
    (hs : set ∈ pool.namespaceSets) : (a.addNamespaceSet set).Within pool := by
  unfold Indexing.addNamespaceSet
  split
  · exact h
  · have hmembers := addNamespaces hp (hp.members set hs) h
    exact { hmembers with namespaceSets := Numbering.forall_register hmembers.namespaceSets hs }

theorem addMultinameEntry {a : Indexing} (h : a.Within pool) {name : Multiname}
    (hn : name ∈ pool.multinames) : (a.addMultinameEntry name).Within pool :=
  { h with multinames := Numbering.forall_register h.multinames hn }

mutual
theorem addMultiname (hp : pool.Sound limit) : ∀ (name : Multiname) {a : Indexing}, a.Within pool →
    name ∈ pool.multinames → (a.addMultiname name).Within pool
  | .qualified attr ns name, a, h, hn => by
    obtain ⟨hns, hname⟩ := hp.parts _ hn
    rw [Indexing.addMultiname]
    split
    · exact h
    · exact ((h.addPart hname).addNamespace hp hns).addMultinameEntry hn
  | .runtimeQualified attr name, a, h, hn => by
    rw [Indexing.addMultiname]
    split
    · exact h
    · exact (h.addPart (hp.parts _ hn)).addMultinameEntry hn
  | .runtime attr, a, h, hn => by
    rw [Indexing.addMultiname]
    exact h.addMultinameEntry hn
  | .ambiguous attr name set, a, h, hn => by
    obtain ⟨hname, hset⟩ := hp.parts _ hn
    rw [Indexing.addMultiname]
    split
    · exact h
    · exact ((h.addPart hname).addNamespaceSet hp hset).addMultinameEntry hn
  | .late attr set, a, h, hn => by
    rw [Indexing.addMultiname]
    split
    · exact h
    · exact (h.addNamespaceSet hp (hp.parts _ hn)).addMultinameEntry hn
  | .applied base params, a, h, hn => by
    obtain ⟨hbase, hparams⟩ := hp.parts _ hn
    rw [Indexing.addMultiname]
    split
    · exact h
    · exact (addMultinames hp params (addMultiname hp base h hbase) hparams).addMultinameEntry hn

theorem addMultinames (hp : pool.Sound limit) : ∀ (names : List Multiname) {a : Indexing},
    a.Within pool → (∀ name ∈ names, name ∈ pool.multinames) → (a.addMultinames names).Within pool
  | [], a, h, _ => by
    rw [Indexing.addMultinames]
    exact h
  | name :: names, a, h, hn => by
    obtain ⟨hname, hnames⟩ := List.forall_mem_cons.1 hn
    rw [Indexing.addMultinames]
    exact addMultinames hp names (addMultiname hp name h hname) hnames
end

theorem addValue {a : Indexing} (h : a.Within pool) (hp : pool.Sound limit) {value : DefaultValue}
    (hv : pool.HasValue value) : (a.addValue value).Within pool := by
  cases value with
  | int => exact { h with ints := Numbering.forall_register h.ints hv }
  | uint => exact { h with uints := Numbering.forall_register h.uints hv }
  | double => exact { h with doubles := Numbering.forall_register h.doubles hv }
  | text => exact { h with strings := Numbering.forall_register h.strings hv }
  | nspace => exact h.addNamespace hp hv
  | truth | null | undefined => exact h

/-- **Tables of what stands in a small pool can be read.** -/
theorem legible {a : Indexing} (h : a.Within pool) (hp : pool.Sound limit)
    (hl : limit + 2 < countLimit) : a.toPool.Legible where
  sizes := by
    have hsizes := hp.sizes
    simp only [Pool.sizes, List.forall_mem_cons] at hsizes
    obtain ⟨h₁, h₂, h₃, h₄, h₅, h₆, h₇, -⟩ := hsizes
    have hlt {α : Type} {numbering : Numbering α} {table : Array α}
        (hm : ∀ x ∈ numbering, x ∈ table) (hs : table.size ≤ limit + 1) :
        numbering.values.length + 1 < countLimit := by
      have hle := Numbering.size_le hm
      rw [Numbering.size] at hle
      omega
    simp only [Reader.sizes_toPool, List.forall_mem_cons]
    exact ⟨hlt h.ints h₁, hlt h.uints h₂, hlt h.doubles h₃, hlt h.strings h₄,
      Nat.lt_of_succ_lt (hlt h.namespaces h₅), Nat.lt_of_succ_lt (hlt h.namespaceSets h₆),
      Nat.lt_of_succ_lt (hlt h.multinames h₇), by simp⟩
  strings s hs := by
    rcases List.mem_cons.1 (List.mem_toArray.1 hs) with rfl | hs
    · decide
    · have := hp.strings s (h.strings s hs)
      omega
  sets set hs := by
    have := hp.setSizes set (h.namespaceSets set (List.mem_toArray.1 hs))
    omega
  applications base params hn := by
    have := hp.applications base params (h.multinames _ (List.mem_toArray.1 hn))
    omega

end

end Within

end Indexing

/-! ## Visits -/

namespace CodeUnit

variable {unit : CodeUnit} {debug : Bool} {limit : Nat} {a b : Indexing}

/-- A visit of what the tables have leads to nothing else. -/
theorem within_foldlM {tables : Tables} {visit : Indexing → Use → Except Fault Indexing}
    (hv : ∀ a use b, visit a use = .ok b → tables.Has use → a.Within tables.pool →
      b.Within tables.pool) {uses : List Use} (hu : ∀ use ∈ uses, tables.Has use) :
    ∀ a b, uses.foldlM visit a = .ok b → a.Within tables.pool → b.Within tables.pool := by
  induction uses with
  | nil =>
    rintro a b h ha
    cases h
    exact ha
  | cons use uses ih =>
    intro a c h ha
    obtain ⟨hu, hus⟩ := List.forall_mem_cons.1 hu
    obtain ⟨b, hb, h⟩ := bind_eq_ok.1 h
    exact ih hus b c h (hv a use b hb hu ha)

theorem within_visit {tables : Tables} (hp : tables.pool.Sound limit)
    (hm : ∀ method ∈ unit.methods, ∃ uses, method.uses debug = .ok uses ∧
      ∀ use ∈ uses, tables.Has use) :
    ∀ n a use b, unit.visit debug n a use = .ok b → tables.Has use → a.Within tables.pool →
      b.Within tables.pool := by
  intro n
  induction n using Nat.strong_induction_on with
  | _ n ih =>
    intro a use b h hu ha
    cases use with
    | value value =>
      rw [← Except.ok.inj ((visit_value value).symm.trans h)]
      exact ha.addValue hp hu
    | name name =>
      rw [← Except.ok.inj ((visit_name name).symm.trans h)]
      exact ha.addName hu
    | multiname name =>
      rw [← Except.ok.inj ((visit_multiname name).symm.trans h)]
      exact .addMultiname hp name ha hu
    | instructionClass handle => exact ((visit_class_eq_ok (Or.inl rfl)).1 h).2 ▸ ha
    | traitClass handle => exact ((visit_class_eq_ok (Or.inr rfl)).1 h).2 ▸ ha
    | method handle =>
      by_cases hn : handle ∈ a.methods
      · rw [visit_of_mem hn] at h
        cases h
        exact ha
      -- the index of the method itself is no constant; what it refers to is one level down
      · obtain ⟨k, method, uses, rfl, hmethod, huses, h⟩ := (visit_method_eq_ok hn).1 h
        obtain ⟨_, huses', hknown⟩ := hm method (mem_methods_iff.2 ⟨handle, hmethod⟩)
        cases huses.symm.trans huses'
        exact within_foldlM (ih k (Nat.lt_succ_self k)) hknown _ b h { ha with }

/-- **What a unit is written with stands in its pool, when all that it refers to does.** -/
theorem within_index {tables : Tables} (hp : tables.pool.Sound limit)
    (hm : ∀ method ∈ unit.methods, ∃ uses, method.uses debug = .ok uses ∧
      ∀ use ∈ uses, tables.Has use) {order : List ClassHandle}
    (hu : ∀ use ∈ unit.uses order, tables.Has use) (h : unit.index debug order = .ok a) :
    a.Within tables.pool :=
  within_foldlM (within_visit hp hm unit.methods.size) hu _ a h (.initial hp _)

end CodeUnit

end ActionBytecode
