/-
  ActionBytecode — indices once given stay, and lead to what refers to them.

  An indexing only ever grows at its end (`Extends`), so an index that was given keeps its
  meaning.  What it holds is closed under reference (`Closed`): the name of a namespace, the
  members of a set and the parts of a multiname have indices too, and the parts of a type
  application even smaller ones than itself.

  * `enlarges_addValue`, `enlarges_addName`, `enlarges_addMultiname`: giving an index to a
    constant extends the indexing, keeps it closed and leaves the handles alone (`Enlarges`);
  * `mem_addMultiname` and its like: the constant has an index then.
-/
import ActionBytecode.Constant.Indexing
import ActionBytecode.Proofs.Outcome
import Mathlib.Tactic

namespace ActionBytecode

/-! ## Numberings -/

namespace Numbering

variable {α : Type}

/-- The numbering has more values, behind those it had. -/
def Extends (a b : Numbering α) : Prop := a.values <+: b.values

theorem not_mem_empty (x : α) : x ∉ (empty : Numbering α) := List.not_mem_nil

theorem Extends.refl (a : Numbering α) : a.Extends a := List.prefix_refl _

theorem Extends.trans {a b c : Numbering α} (h : a.Extends b) (h' : b.Extends c) : a.Extends c :=
  List.IsPrefix.trans h h'

theorem Extends.mem {a b : Numbering α} (h : a.Extends b) {x : α} (hx : x ∈ a) : x ∈ b :=
  List.IsPrefix.mem hx h

theorem Extends.getElem?_eq_some {a b : Numbering α} (h : a.Extends b) {i : Nat} {x : α}
    (hi : a.values[i]? = some x) : b.values[i]? = some x := by
  obtain ⟨more, hb⟩ := h
  rw [← hb, List.getElem?_append_left (List.getElem?_eq_some_iff.1 hi).1, hi]

theorem id_eq_ok {a : Numbering α} {text : α → String} {x : α} {i : Nat} :
    a.id text x = .ok i ↔ a.values[i]? = some x := by
  rw [id, ← id?_eq_some]
  cases a.id? x <;> simp

theorem id_isOk {a : Numbering α} {text : α → String} {x : α} :
    (∃ i, a.id text x = .ok i) ↔ x ∈ a := by
  simp only [id_eq_ok, mem_def, List.mem_iff_getElem?]

theorem lt_size_of_id {a : Numbering α} {text : α → String} {x : α} {i : Nat}
    (h : a.id text x = .ok i) : i < a.size :=
  (List.getElem?_eq_some_iff.1 (id_eq_ok.1 h)).1

variable [DecidableEq α]

theorem extends_register (a : Numbering α) (x : α) : a.Extends (a.register x) := by
  rw [Extends, values_register]
  split
  · exact List.prefix_refl _
  · exact List.prefix_append _ _

theorem mem_register_self (a : Numbering α) (x : α) : x ∈ a.register x :=
  mem_register.2 (Or.inr rfl)

theorem size_register {a : Numbering α} {x : α} (h : x ∉ a) :
    (a.register x).size = a.size + 1 := by
  rw [size, values_register, if_neg (mem_def.not.1 h), List.length_append]
  rfl

theorem ofList_append_singleton (xs : List α) (x : α) :
    ofList (xs ++ [x]) = (ofList xs).register x := by
  simp [ofList]

theorem mem_ofList {seeds : List α} {x : α} : x ∈ ofList seeds ↔ x ∈ seeds := by
  have key : ∀ (seeds : List α) (a : Numbering α),
      x ∈ seeds.foldl register a ↔ x ∈ a ∨ x ∈ seeds := by
    intro seeds
    induction seeds with
    | nil => simp
    | cons y seeds ih =>
      intro a
      rw [List.foldl_cons, ih, mem_register, List.mem_cons, or_assoc]
  exact (key seeds empty).trans (or_iff_right (not_mem_empty x))

end Numbering

namespace Indexing

/-! ## Growth -/

/-- The indexing has more indices, behind those it had; its classes are the same. -/
structure Extends (a b : Indexing) : Prop where
  ints : a.ints.Extends b.ints
  uints : a.uints.Extends b.uints
  doubles : a.doubles.Extends b.doubles
  strings : a.strings.Extends b.strings
  namespaces : a.namespaces.Extends b.namespaces
  namespaceSets : a.namespaceSets.Extends b.namespaceSets
  multinames : a.multinames.Extends b.multinames
  methods : a.methods.Extends b.methods
  classes : b.classes = a.classes

theorem Extends.refl (a : Indexing) : a.Extends a :=
  ⟨.refl _, .refl _, .refl _, .refl _, .refl _, .refl _, .refl _, .refl _, rfl⟩

theorem Extends.trans {a b c : Indexing} (h : a.Extends b) (h' : b.Extends c) : a.Extends c :=
  ⟨h.ints.trans h'.ints, h.uints.trans h'.uints, h.doubles.trans h'.doubles,
    h.strings.trans h'.strings, h.namespaces.trans h'.namespaces,
    h.namespaceSets.trans h'.namespaceSets, h.multinames.trans h'.multinames,
    h.methods.trans h'.methods, h'.classes.trans h.classes⟩

/-! ## What has an index -/

/-- The name has an index: it is missing, or `*`, or among the strings. -/
def CoversName (a : Indexing) (name : Option String) : Prop :=
  ∀ s, spelled? name = some s → s ∈ a.strings

/-- The constant of the value has an index. -/
def CoversValue (a : Indexing) : DefaultValue → Prop
  | .int value => value ∈ a.ints
  | .uint value => value ∈ a.uints
  | .double value => value ∈ a.doubles
  | .text value => value ∈ a.strings
  | .nspace ns => ns ∈ a.namespaces
  | .truth _ | .null | .undefined => True

/-- The parts of a multiname have indices, those of a type application among `earlier`. -/
def CoversParts (a : Indexing) (earlier : List Multiname) : Multiname → Prop
  | .qualified _ ns name => a.CoversName name ∧ ns ∈ a.namespaces
  | .runtimeQualified _ name => a.CoversName name
  | .runtime _ => True
  | .ambiguous _ name set => a.CoversName name ∧ set ∈ a.namespaceSets
  | .late _ set => set ∈ a.namespaceSets
  | .applied base params => base ∈ earlier ∧ ∀ p ∈ params, p ∈ earlier

section
variable {a b : Indexing} (h : a.Extends b)
include h

theorem Extends.coversName {name : Option String} (hn : a.CoversName name) : b.CoversName name :=
  fun s hs => h.strings.mem (hn s hs)

theorem Extends.coversValue {value : DefaultValue} (hv : a.CoversValue value) :
    b.CoversValue value := by
  cases value with
  | int => exact h.ints.mem hv
  | uint => exact h.uints.mem hv
  | double => exact h.doubles.mem hv
  | text => exact h.strings.mem hv
  | nspace => exact h.namespaces.mem hv
  | truth | null | undefined => trivial

theorem Extends.coversParts {earlier : List Multiname} {name : Multiname}
    (hp : a.CoversParts earlier name) : b.CoversParts earlier name := by
  cases name with
  | qualified => exact ⟨h.coversName hp.1, h.namespaces.mem hp.2⟩
  | runtimeQualified => exact h.coversName hp
  | runtime => trivial
  | ambiguous => exact ⟨h.coversName hp.1, h.namespaceSets.mem hp.2⟩
  | late => exact h.namespaceSets.mem hp
  | applied => exact hp

end

/-! ## Closure -/

/-- What has an index refers only to what has one. -/
structure Closed (a : Indexing) : Prop where
  global : a.namespaces.values[0]? = some .global
  empty : a.namespaceSets.values[0]? = some .empty
  any : a.multinames.values[0]? = some .any
  names : ∀ ns ∈ a.namespaces, a.CoversName (some ns.name)
  members : ∀ set ∈ a.namespaceSets, ∀ ns ∈ set.members, ns ∈ a.namespaces
  parts : ∀ i name, a.multinames.values[i]? = some name →
    a.CoversParts (a.multinames.values.take i) name

theorem coversName_any (a : Indexing) : a.CoversName (some anyName) := by
  intro s hs
  simp only [spelled?, Option.filter_eq_some_iff, Option.some.injEq, decide_eq_true_eq] at hs
  exact absurd hs.1.symm hs.2

/-- The indices that every unit starts with are closed. -/
theorem closed_initial (classes : Numbering ClassHandle) : Closed { classes := classes } where
  global := rfl
  empty := rfl
  any := rfl
  names := by
    intro ns hns
    have : ns = .global := by simpa [Numbering.ofList, Numbering.not_mem_empty] using hns
    rw [this]
    exact coversName_any _
  members := by
    intro set hset
    have : set = .empty := by simpa [Numbering.ofList, Numbering.not_mem_empty] using hset
    simp [this, NamespaceSet.empty]
  parts := by
    intro i name hi
    have hv : (Numbering.ofList [Multiname.any]).values = [.any] := rfl
    rw [hv, List.getElem?_singleton] at hi
    split at hi
    · cases hi
      exact ⟨coversName_any _, by simp [Numbering.ofList]⟩
    · cases hi

/-- The indexing has grown by constants. -/
structure Enlarges (a b : Indexing) : Prop extends a.Extends b where
  closed : a.Closed → b.Closed
  handles : b.methods = a.methods

theorem Enlarges.refl (a : Indexing) : a.Enlarges a := ⟨.refl a, fun h => h, rfl⟩

theorem Enlarges.trans {a b c : Indexing} (h : a.Enlarges b) (h' : b.Enlarges c) : a.Enlarges c :=
  ⟨h.toExtends.trans h'.toExtends, fun hc => h'.closed (h.closed hc), h'.handles.trans h.handles⟩

/-! ## Literals and names -/

theorem enlarges_addInt (a : Indexing) (value : Int32) : a.Enlarges (a.addInt value) where
  toExtends := { Extends.refl a with ints := Numbering.extends_register _ _ }
  closed h := ⟨h.global, h.empty, h.any, h.names, h.members, h.parts⟩
  handles := rfl

theorem enlarges_addUint (a : Indexing) (value : UInt32) : a.Enlarges (a.addUint value) where
  toExtends := { Extends.refl a with uints := Numbering.extends_register _ _ }
  closed h := ⟨h.global, h.empty, h.any, h.names, h.members, h.parts⟩
  handles := rfl

theorem enlarges_addDouble (a : Indexing) (value : Double) : a.Enlarges (a.addDouble value) where
  toExtends := { Extends.refl a with doubles := Numbering.extends_register _ _ }
  closed h := ⟨h.global, h.empty, h.any, h.names, h.members, h.parts⟩
  handles := rfl

theorem enlarges_addLiteral (a : Indexing) (value : String) :
    a.Enlarges (a.addLiteral value) := by
  have hx : a.Extends (a.addLiteral value) :=
    { Extends.refl a with strings := Numbering.extends_register _ _ }
  exact ⟨hx, fun h => ⟨h.global, h.empty, h.any, fun ns hns => hx.coversName (h.names ns hns),
    h.members, fun i name hi => hx.coversParts (h.parts i name hi)⟩, rfl⟩

theorem enlarges_addName (a : Indexing) (name : Option String) : a.Enlarges (a.addName name) := by
  unfold addName
  split
  · exact enlarges_addLiteral a _
  · exact .refl a

theorem coversName_addName (a : Indexing) (name : Option String) :
    (a.addName name).CoversName name := by
  intro s hs
  rw [addName, hs]
  exact Numbering.mem_register_self _ _

/-! ## Namespaces and sets -/

theorem enlarges_addNamespace (a : Indexing) (ns : Namespace) : a.Enlarges (a.addNamespace ns) := by
  unfold addNamespace
  split
  · exact .refl a
  · refine (enlarges_addName a (some ns.name)).trans ?_
    have hn := coversName_addName a (some ns.name)
    generalize a.addName (some ns.name) = b at hn
    have hx : b.Extends { b with namespaces := b.namespaces.register ns } :=
      { Extends.refl b with namespaces := Numbering.extends_register _ _ }
    refine ⟨hx, fun h => ⟨?_, h.empty, h.any, ?_, ?_, ?_⟩, rfl⟩
    · exact Numbering.Extends.getElem?_eq_some hx.namespaces h.global
    · intro m hm
      rcases Numbering.mem_register.1 hm with hm | rfl
      · exact h.names m hm
      · exact hn
    · exact fun set hset m hm => hx.namespaces.mem (h.members set hset m hm)
    · exact fun i name hi => hx.coversParts (h.parts i name hi)

theorem mem_addNamespace (a : Indexing) (ns : Namespace) : ns ∈ (a.addNamespace ns).namespaces := by
  unfold addNamespace
  split
  · assumption
  · exact Numbering.mem_register_self _ _

theorem enlarges_addNamespaces (members : List Namespace) :
    ∀ a : Indexing, a.Enlarges (members.foldl addNamespace a) ∧
      ∀ ns ∈ members, ns ∈ (members.foldl addNamespace a).namespaces := by
  induction members with
  | nil => exact fun a => ⟨.refl a, by simp⟩
  | cons m ms ih =>
    intro a
    obtain ⟨hx, hm⟩ := ih (a.addNamespace m)
    refine ⟨(enlarges_addNamespace a m).trans hx, ?_⟩
    rw [List.forall_mem_cons]
    exact ⟨hx.namespaces.mem (mem_addNamespace a m), hm⟩

theorem enlarges_addNamespaceSet (a : Indexing) (set : NamespaceSet) :
    a.Enlarges (a.addNamespaceSet set) := by
  unfold addNamespaceSet
  split
  · exact .refl a
  · obtain ⟨hb, hm⟩ := enlarges_addNamespaces set.members a
    refine hb.trans ?_
    generalize set.members.foldl addNamespace a = b at hm
    have hx : b.Extends { b with namespaceSets := b.namespaceSets.register set } :=
      { Extends.refl b with namespaceSets := Numbering.extends_register _ _ }
    refine ⟨hx, fun h => ⟨h.global, ?_, h.any, h.names, ?_, ?_⟩, rfl⟩
    · exact Numbering.Extends.getElem?_eq_some hx.namespaceSets h.empty
    · intro s hs
      rcases Numbering.mem_register.1 hs with hs | rfl
      · exact h.members s hs
      · exact hm
    · exact fun i name hi => hx.coversParts (h.parts i name hi)

theorem mem_addNamespaceSet (a : Indexing) (set : NamespaceSet) :
    set ∈ (a.addNamespaceSet set).namespaceSets := by
  unfold addNamespaceSet
  split
  · assumption
  · exact Numbering.mem_register_self _ _

/-! ## Multinames -/

theorem mem_addMultinameEntry (a : Indexing) (name : Multiname) :
    name ∈ (a.addMultinameEntry name).multinames :=
  Numbering.mem_register_self _ _

/-- A multiname may follow its parts. -/
theorem enlarges_addMultinameEntry {a : Indexing} {name : Multiname}
    (hp : a.CoversParts a.multinames.values name) : a.Enlarges (a.addMultinameEntry name) := by
  have hx : a.Extends (a.addMultinameEntry name) :=
    { Extends.refl a with multinames := Numbering.extends_register _ _ }
  refine ⟨hx, fun h => ⟨h.global, h.empty, Numbering.Extends.getElem?_eq_some hx.multinames h.any,
    h.names, h.members, ?_⟩, rfl⟩
  intro i n hi
  refine hx.coversParts ?_
  have hv : (a.addMultinameEntry name).multinames.values = _ :=
    Numbering.values_register a.multinames name
  rw [hv] at hi ⊢
  split at hi
  · next hm => rw [if_pos hm]; exact h.parts i n hi
  · next hm =>
    rw [if_neg hm]
    rcases Nat.lt_or_ge i a.multinames.values.length with hlt | hge
    · rw [List.getElem?_append_left hlt] at hi
      rw [List.take_append_of_le_length hlt.le]
      exact h.parts i n hi
    · rw [List.getElem?_append_right hge, List.getElem?_singleton] at hi
      split at hi
      · cases hi
        rw [List.take_left' (by omega)]
        exact hp
      · cases hi

mutual
theorem enlarges_addMultiname : ∀ (name : Multiname) (a : Indexing),
    a.Enlarges (a.addMultiname name) ∧ name ∈ (a.addMultiname name).multinames
  | .qualified attr ns name, a => by
    rw [addMultiname]
    split
    · next hm => exact ⟨.refl a, hm⟩
    · have h₁ := enlarges_addName a (some name)
      have h₂ := enlarges_addNamespace (a.addName (some name)) ns
      exact ⟨(h₁.trans h₂).trans (enlarges_addMultinameEntry
        ⟨h₂.coversName (coversName_addName a _), mem_addNamespace _ ns⟩),
        mem_addMultinameEntry _ _⟩
  | .runtimeQualified attr name, a => by
    rw [addMultiname]
    split
    · next hm => exact ⟨.refl a, hm⟩
    · exact ⟨(enlarges_addName a (some name)).trans (enlarges_addMultinameEntry
        (coversName_addName a (some name))), mem_addMultinameEntry _ _⟩
  | .runtime attr, a => by
    rw [addMultiname]
    exact ⟨enlarges_addMultinameEntry trivial, mem_addMultinameEntry _ _⟩
  | .ambiguous attr name set, a => by
    rw [addMultiname]
    split
    · next hm => exact ⟨.refl a, hm⟩
    · have h₁ := enlarges_addName a (some name)
      have h₂ := enlarges_addNamespaceSet (a.addName (some name)) set
      exact ⟨(h₁.trans h₂).trans (enlarges_addMultinameEntry
        ⟨h₂.coversName (coversName_addName a _), mem_addNamespaceSet _ set⟩),
        mem_addMultinameEntry _ _⟩
  | .late attr set, a => by
    rw [addMultiname]
    split
    · next hm => exact ⟨.refl a, hm⟩
    · exact ⟨(enlarges_addNamespaceSet a set).trans (enlarges_addMultinameEntry
        (mem_addNamespaceSet a set)), mem_addMultinameEntry _ _⟩
  | .applied base params, a => by
    rw [addMultiname]
    split
    · next hm => exact ⟨.refl a, hm⟩
    · obtain ⟨h₁, hb⟩ := enlarges_addMultiname base a
      obtain ⟨h₂, hp⟩ := enlarges_addMultinames params (a.addMultiname base)
      exact ⟨(h₁.trans h₂).trans (enlarges_addMultinameEntry
        ⟨h₂.multinames.mem hb, hp⟩), mem_addMultinameEntry _ _⟩

theorem enlarges_addMultinames : ∀ (names : List Multiname) (a : Indexing),
    a.Enlarges (a.addMultinames names) ∧ ∀ name ∈ names, name ∈ (a.addMultinames names).multinames
  | [], a => by
    rw [addMultinames]
    exact ⟨.refl a, by simp⟩
  | name :: names, a => by
    rw [addMultinames, List.forall_mem_cons]
    obtain ⟨h₁, hn⟩ := enlarges_addMultiname name a
    obtain ⟨h₂, hns⟩ := enlarges_addMultinames names (a.addMultiname name)
    exact ⟨h₁.trans h₂, h₂.multinames.mem hn, hns⟩
end

theorem enlarges_addValue (a : Indexing) (value : DefaultValue) :
    a.Enlarges (a.addValue value) ∧ (a.addValue value).CoversValue value := by
  cases value with
  | int value => exact ⟨enlarges_addInt a value, Numbering.mem_register_self _ _⟩
  | uint value => exact ⟨enlarges_addUint a value, Numbering.mem_register_self _ _⟩
  | double value => exact ⟨enlarges_addDouble a value, Numbering.mem_register_self _ _⟩
  | text value => exact ⟨enlarges_addLiteral a value, Numbering.mem_register_self _ _⟩
  | nspace ns => exact ⟨enlarges_addNamespace a ns, mem_addNamespace a ns⟩
  | truth | null | undefined => exact ⟨.refl a, trivial⟩

end Indexing

end ActionBytecode
