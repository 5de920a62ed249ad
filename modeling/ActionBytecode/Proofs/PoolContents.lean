/-
  ActionBytecode — what the pool of a rebuilt unit holds.

  When a unit is written anew its pool is made from nothing, so it holds what the unit uses and
  nothing else.  What a unit uses is said without regard to how it is gone through: `Refers` has
  one rule for each place that can hold a constant, and a constant needs the constants that it is
  made of (`Constant.Needs`).

  * `Indexing.has_addMultiname` and its like: a constant brings in only what it needs;
  * `CodeUnit.has_visit`: so the visit of a unit brings in only what is used;
  * `Indexing.Closed.has_of_needs`, `Indexing.has_of_covers`: and all that is used;
  * `CodeUnit.mentioned_of_refers`, `CodeUnit.refers_of_mentioned`: the references that are
    visited are those from all places.

  `Edit.pool_exact`: after a unit is written anew, each table of its pool holds its fixed entry
  and then, once each, the constants that the unit uses.
-/
import ActionBytecode.Proofs.FixedPoint

namespace ActionBytecode

/-! ## Constants -/

/-- A constant, with the table that it stands in. -/
inductive Constant where
  | int (value : Int32)
  | uint (value : UInt32)
  | double (value : Double)
  | string (value : String)
  | nspace (ns : Namespace)
  | namespaceSet (set : NamespaceSet)
  | multiname (name : Multiname)

namespace Constant

/-- The constants that a constant is made of, one step down.  The name `*` is index 0 and needs no
    string. -/
inductive Needs : Constant → Constant → Prop
  | namespaceName {ns : Namespace} (h : ns.name ≠ anyName) : Needs (.nspace ns) (.string ns.name)
  | member {set : NamespaceSet} {ns : Namespace} (h : ns ∈ set) :
    Needs (.namespaceSet set) (.nspace ns)
  | qualifier {attr : Bool} {ns : Namespace} {name : String} :
    Needs (.multiname (.qualified attr ns name)) (.nspace ns)
  | qualifiedName {attr : Bool} {ns : Namespace} {name : String} (h : name ≠ anyName) :
    Needs (.multiname (.qualified attr ns name)) (.string name)
  | runtimeName {attr : Bool} {name : String} (h : name ≠ anyName) :
    Needs (.multiname (.runtimeQualified attr name)) (.string name)
  | ambiguousName {attr : Bool} {name : String} {set : NamespaceSet} (h : name ≠ anyName) :
    Needs (.multiname (.ambiguous attr name set)) (.string name)
  | ambiguousSet {attr : Bool} {name : String} {set : NamespaceSet} :
    Needs (.multiname (.ambiguous attr name set)) (.namespaceSet set)
  | lateSet {attr : Bool} {set : NamespaceSet} :
    Needs (.multiname (.late attr set)) (.namespaceSet set)
  | base {base : Multiname} {params : List Multiname} :
    Needs (.multiname (.applied base params)) (.multiname base)
  | parameter {base : Multiname} {params : List Multiname} {p : Multiname} (h : p ∈ params) :
    Needs (.multiname (.applied base params)) (.multiname p)

/-- The second constant is the first or one that it needs, perhaps through others. -/
abbrev Brings : Constant → Constant → Prop := Relation.ReflTransGen Needs

/-- The fixed entries that constants can refer to. -/
def IsFixed (c : Constant) : Prop :=
  c = .nspace .global ∨ c = .namespaceSet .empty ∨ c = .multiname .any

end Constant

def DefaultValue.constant? : DefaultValue → Option Constant
  | .int value => some (.int value)
  | .uint value => some (.uint value)
  | .double value => some (.double value)
  | .text value => some (.string value)
  | .nspace ns => some (.nspace ns)
  | .truth _ | .null | .undefined => none

def Operand.constant? : Operand → Option Constant
  | .int value => some (.int value)
  | .uint value => some (.uint value)
  | .double value => some (.double value)
  | .string value => some (.string value)
  | .nspace ns => some (.nspace ns)
  | .multiname name => some (.multiname name)
  | .u8 _ | .s8 _ | .u30 _ | .method _ | .classRef _ | .target _ => none

namespace CodeUnit

/-- The trait is one of a class, a script or a body of the unit. -/
inductive HasTrait (unit : CodeUnit) (t : Trait) : Prop
  | ofInstance {cls : ClassDefinition} (hc : cls ∈ unit.classes) (ht : t ∈ cls.instanceTraits)
  | ofClass {cls : ClassDefinition} (hc : cls ∈ unit.classes) (ht : t ∈ cls.staticTraits)
  | ofScript {script : Script} (hs : script ∈ unit.scripts) (ht : t ∈ script.traits)
  | ofBody {method : Method} {body : Body} (hm : method ∈ unit.methods)
    (hb : method.body = some body) (ht : t ∈ body.traits)

/-- The code is that of a method of the unit. -/
def HasCode (unit : CodeUnit) (method : Method) (instructions : List Instruction)
    (handlers : List (Handler CodePosition)) : Prop :=
  method ∈ unit.methods ∧
    ∃ body, method.body = some body ∧ body.code = .symbolic instructions handlers

/-- The constants that the unit refers to, one rule for each place that can hold one. -/
inductive Refers (unit : CodeUnit) (debug : Bool) : Constant → Prop
  | className {cls : ClassDefinition} (hc : cls ∈ unit.classes) :
    Refers unit debug (.multiname cls.name)
  | superName {cls : ClassDefinition} (hc : cls ∈ unit.classes) :
    Refers unit debug (.multiname cls.superName)
  | protectedNamespace {cls : ClassDefinition} {ns : Namespace} (hc : cls ∈ unit.classes)
    (hn : cls.protectedNamespace = some ns) : Refers unit debug (.nspace ns)
  | interface {cls : ClassDefinition} {name : Multiname} (hc : cls ∈ unit.classes)
    (hi : name ∈ cls.interfaces) : Refers unit debug (.multiname name)
  | traitName {t : Trait} (ht : unit.HasTrait t) : Refers unit debug (.multiname t.name)
  | slotType {t : Trait} {kind : SlotKind} {n : UInt32} {type : Multiname}
    {value : Option DefaultValue} (ht : unit.HasTrait t) (hm : t.member = .slot kind n type value) :
    Refers unit debug (.multiname type)
  | slotDefault {t : Trait} {kind : SlotKind} {n : UInt32} {type : Multiname}
    {value : DefaultValue} {c : Constant} (ht : unit.HasTrait t)
    (hm : t.member = .slot kind n type (some value)) (hc : value.constant? = some c) :
    Refers unit debug c
  | returnType {method : Method} (hm : method ∈ unit.methods) :
    Refers unit debug (.multiname method.returnType)
  | parameterType {method : Method} {type : Multiname} (hm : method ∈ unit.methods)
    (hp : type ∈ method.parameters) : Refers unit debug (.multiname type)
  | methodName {method : Method} {name : String} (hm : method ∈ unit.methods)
    (hn : method.name = some name) (h : name ≠ anyName) : Refers unit debug (.string name)
  | optionalValue {method : Method} {value : DefaultValue} {c : Constant}
    (hm : method ∈ unit.methods) (hv : value ∈ method.optional) (hc : value.constant? = some c) :
    Refers unit debug c
  | parameterName {method : Method} {name : String} (hm : method ∈ unit.methods)
    (hn : name ∈ method.parameterNames) (h : name ≠ anyName) : Refers unit debug (.string name)
  | operand {method : Method} {instructions : List Instruction}
    {handlers : List (Handler CodePosition)} {instruction : Instruction} {operand : Operand}
    {c : Constant} (hm : unit.HasCode method instructions handlers)
    (hi : instruction ∈ instructions) (ho : operand ∈ instruction.operands)
    (hc : operand.constant? = some c) : Refers unit debug c
  /-- Code without markers is given one that names its file. -/
  | insertedFile {method : Method} {instructions : List Instruction}
    {handlers : List (Handler CodePosition)} (hd : debug = true)
    (hm : unit.HasCode method instructions handlers)
    (hn : ∀ instruction ∈ instructions, instruction.opcode.isDebugMarker = false) :
    Refers unit debug (.string method.markerFile)
  | catchType {method : Method} {instructions : List Instruction}
    {handlers : List (Handler CodePosition)} {handler : Handler CodePosition}
    (hm : unit.HasCode method instructions handlers) (hh : handler ∈ handlers) :
    Refers unit debug (.multiname handler.catchType)
  | variableName {method : Method} {instructions : List Instruction}
    {handlers : List (Handler CodePosition)} {handler : Handler CodePosition}
    (hm : unit.HasCode method instructions handlers) (hh : handler ∈ handlers) :
    Refers unit debug (.multiname handler.variableName)
  | metadataName {entry : Metadata} (he : entry ∈ unit.metadata) (h : entry.name ≠ anyName) :
    Refers unit debug (.string entry.name)
  | metadataKey {entry : Metadata} {key value : String} (he : entry ∈ unit.metadata)
    (hi : (some key, value) ∈ entry.items) (h : key ≠ anyName) : Refers unit debug (.string key)
  | metadataValue {entry : Metadata} {key : Option String} {value : String}
    (he : entry ∈ unit.metadata) (hi : (key, value) ∈ entry.items) (h : value ≠ anyName) :
    Refers unit debug (.string value)

/-- The constants that the unit refers to, and those that they need. -/
def Used (unit : CodeUnit) (debug : Bool) (c : Constant) : Prop :=
  ∃ root, unit.Refers debug root ∧ root.Brings c

end CodeUnit

/-- The table holds its fixed entry and then, once each, what `p` holds of. -/
def HoldsExactly {α : Type} (table : Array α) (fixed : α) (p : α → Prop) : Prop :=
  ∃ entries, table.toList = fixed :: entries ∧ entries.Nodup ∧ ∀ x, x ∈ entries ↔ p x

/-- The tables hold the constants that are used.  A literal that is used stands after the fixed
    entry even if it equals it; a namespace, a set or a multiname does not. -/
structure Pool.Exactly (pool : Pool) (used : Constant → Prop) : Prop where
  ints : HoldsExactly pool.ints 0 fun value => used (.int value)
  uints : HoldsExactly pool.uints 0 fun value => used (.uint value)
  doubles : HoldsExactly pool.doubles .nan fun value => used (.double value)
  strings : HoldsExactly pool.strings anyName fun value => used (.string value)
  namespaces : HoldsExactly pool.namespaces .global fun ns => used (.nspace ns) ∧ ns ≠ .global
  namespaceSets : HoldsExactly pool.namespaceSets .empty fun set =>
    used (.namespaceSet set) ∧ set ≠ .empty
  multinames : HoldsExactly pool.multinames .any fun name => used (.multiname name) ∧ name ≠ .any

/-! ## Constants with an index -/

namespace Indexing

/-- The constant has an index. -/
def Has (a : Indexing) : Constant → Prop
  | .int value => value ∈ a.ints
  | .uint value => value ∈ a.uints
  | .double value => value ∈ a.doubles
  | .string value => value ∈ a.strings
  | .nspace ns => ns ∈ a.namespaces
  | .namespaceSet set => set ∈ a.namespaceSets
  | .multiname name => name ∈ a.multinames

variable {a : Indexing} {c : Constant}

theorem has_initial {classes : Numbering ClassHandle} :
    Has { classes := classes } c ↔ c.IsFixed := by
  cases c <;> simp [Has, Constant.IsFixed, Numbering.mem_ofList, Numbering.not_mem_empty]

theorem has_addInt {value : Int32} : (a.addInt value).Has c ↔ a.Has c ∨ c = .int value := by
  cases c <;> simp [Has, addInt]

theorem has_addUint {value : UInt32} : (a.addUint value).Has c ↔ a.Has c ∨ c = .uint value := by
  cases c <;> simp [Has, addUint]

theorem has_addDouble {value : Double} :
    (a.addDouble value).Has c ↔ a.Has c ∨ c = .double value := by
  cases c <;> simp [Has, addDouble]

theorem has_addLiteral {value : String} :
    (a.addLiteral value).Has c ↔ a.Has c ∨ c = .string value := by
  cases c <;> simp [Has, addLiteral]

theorem has_addName {name : Option String} (h : (a.addName name).Has c) :
    a.Has c ∨ ∃ s, spelled? name = some s ∧ c = .string s := by
  rw [addName] at h
  cases hs : spelled? name with
  | none =>
    rw [hs] at h
    exact .inl h
  | some s =>
    rw [hs] at h
    exact (has_addLiteral.1 h).imp_right fun hc => ⟨s, rfl, hc⟩

/-- A name brings in a string only if it is not `*`. -/
theorem has_addName_some {name : String} (h : (a.addName (some name)).Has c) :
    a.Has c ∨ name ≠ anyName ∧ c = .string name := by
  refine (has_addName h).imp_right ?_
  rintro ⟨s, hs, rfl⟩
  obtain ⟨he, hne⟩ := spelled?_eq_some.1 hs
  cases he
  exact ⟨hne, rfl⟩

/-! ## What a constant brings in -/

theorem has_addNamespace {ns : Namespace} (h : (a.addNamespace ns).Has c) :
    a.Has c ∨ (Constant.nspace ns).Brings c := by
  rw [addNamespace] at h
  split at h
  · exact .inl h
  · have hentry : (a.addName ns.name).Has c ∨ c = .nspace ns := by
      cases c <;> simp_all [Has]
    rcases hentry with h | rfl
    · refine (has_addName_some h).imp_right ?_
      rintro ⟨hne, rfl⟩
      exact .single (.namespaceName hne)
    · exact .inr .refl

theorem has_addNamespaces {members : List Namespace} (h : (members.foldl addNamespace a).Has c) :
    a.Has c ∨ ∃ ns ∈ members, (Constant.nspace ns).Brings c := by
  induction members generalizing a with
  | nil => exact .inl h
  | cons ns members ih =>
    rcases ih h with h | ⟨other, ho, hb⟩
    · exact (has_addNamespace h).imp_right fun hb => ⟨ns, List.mem_cons_self, hb⟩
    · exact .inr ⟨other, List.mem_cons_of_mem ns ho, hb⟩

theorem has_addNamespaceSet {set : NamespaceSet} (h : (a.addNamespaceSet set).Has c) :
    a.Has c ∨ (Constant.namespaceSet set).Brings c := by
  rw [addNamespaceSet] at h
  split at h
  · exact .inl h
  · have hentry : (set.members.foldl addNamespace a).Has c ∨ c = .namespaceSet set := by
      cases c <;> simp_all [Has]
    rcases hentry with h | rfl
    · refine (has_addNamespaces h).imp_right ?_
      rintro ⟨ns, hns, hb⟩
      exact hb.head (.member hns)
    · exact .inr .refl

theorem has_addMultinameEntry {name : Multiname} :
    (a.addMultinameEntry name).Has c ↔ a.Has c ∨ c = .multiname name := by
  cases c <;> simp [Has, addMultinameEntry]

mutual
/-- **A multiname brings in only what it needs.** -/
theorem has_addMultiname : ∀ (name : Multiname) {a : Indexing} {c : Constant},
    (a.addMultiname name).Has c → a.Has c ∨ (Constant.multiname name).Brings c
  | .qualified attr ns name, a, c, h => by
    rw [addMultiname] at h
    split at h
    · exact .inl h
    rcases has_addMultinameEntry.1 h with h | rfl
    · rcases has_addNamespace h with h | hb
      · refine (has_addName_some h).imp_right ?_
        rintro ⟨hne, rfl⟩
        exact .single (.qualifiedName hne)
      · exact .inr (hb.head .qualifier)
    · exact .inr .refl
  | .runtimeQualified attr name, a, c, h => by
    rw [addMultiname] at h
    split at h
    · exact .inl h
    rcases has_addMultinameEntry.1 h with h | rfl
    · refine (has_addName_some h).imp_right ?_
      rintro ⟨hne, rfl⟩
      exact .single (.runtimeName hne)
    · exact .inr .refl
  | .runtime attr, a, c, h => by
    rw [addMultiname] at h
    refine (has_addMultinameEntry.1 h).imp_right ?_
    rintro rfl
    exact .refl
  | .ambiguous attr name set, a, c, h => by
    rw [addMultiname] at h
    split at h
    · exact .inl h
    rcases has_addMultinameEntry.1 h with h | rfl
    · rcases has_addNamespaceSet h with h | hb
      · refine (has_addName_some h).imp_right ?_
        rintro ⟨hne, rfl⟩
        exact .single (.ambiguousName hne)
      · exact .inr (hb.head .ambiguousSet)
    · exact .inr .refl
  | .late attr set, a, c, h => by
    rw [addMultiname] at h
    split at h
    · exact .inl h
    rcases has_addMultinameEntry.1 h with h | rfl
    · exact (has_addNamespaceSet h).imp_right fun hb => hb.head .lateSet
    · exact .inr .refl
  | .applied base params, a, c, h => by
    rw [addMultiname] at h
    split at h
    · exact .inl h
    rcases has_addMultinameEntry.1 h with h | rfl
    · rcases has_addMultinames params h with h | ⟨p, hp, hb⟩
      · exact (has_addMultiname base h).imp_right fun hb => hb.head .base
      · exact .inr (hb.head (.parameter hp))
    · exact .inr .refl

theorem has_addMultinames : ∀ (names : List Multiname) {a : Indexing} {c : Constant},
    (a.addMultinames names).Has c → a.Has c ∨ ∃ name ∈ names, (Constant.multiname name).Brings c
  | [], a, c, h => .inl h
  | name :: names, a, c, h => by
    rw [addMultinames] at h
    rcases has_addMultinames names h with h | ⟨other, ho, hb⟩
    · exact (has_addMultiname name h).imp_right fun hb => ⟨name, List.mem_cons_self, hb⟩
    · exact .inr ⟨other, List.mem_cons_of_mem name ho, hb⟩
end

theorem has_addValue {value : DefaultValue} (h : (a.addValue value).Has c) :
    a.Has c ∨ ∃ root, value.constant? = some root ∧ root.Brings c := by
  have hliteral {root : Constant} (hr : value.constant? = some root) (hc : c = root) :
      ∃ root, value.constant? = some root ∧ root.Brings c :=
    ⟨root, hr, hc ▸ Relation.ReflTransGen.refl⟩
  cases value with
  | int value => exact (has_addInt.1 h).imp_right (hliteral rfl)
  | uint value => exact (has_addUint.1 h).imp_right (hliteral rfl)
  | double value => exact (has_addDouble.1 h).imp_right (hliteral rfl)
  | text value => exact (has_addLiteral.1 h).imp_right (hliteral rfl)
  | nspace ns => exact (has_addNamespace h).imp_right fun hb => ⟨_, rfl, hb⟩
  | truth | null | undefined => exact .inl h

/-! ## What must have an index -/

theorem has_of_coversName {name : String} (h : a.CoversName (some name)) (hne : name ≠ anyName) :
    a.Has (.string name) :=
  h name (spelled?_eq_some.2 ⟨rfl, hne⟩)

theorem Closed.coversParts (closed : a.Closed) {name : Multiname} (h : name ∈ a.multinames) :
    a.CoversParts a.multinames.values name := by
  obtain ⟨i, hi⟩ := List.getElem?_of_mem h
  have hp := closed.parts i name hi
  cases name with
  | applied base params =>
    exact ⟨List.mem_of_mem_take hp.1, fun p hm => List.mem_of_mem_take (hp.2 p hm)⟩
  | _ => exact hp

/-- **What a constant needs has an index if the constant has.** -/
theorem Closed.has_of_needs (closed : a.Closed) {d : Constant} (h : a.Has c) (hn : c.Needs d) :
    a.Has d := by
  cases hn with
  | namespaceName hne => exact has_of_coversName (closed.names _ h) hne
  | member hns => exact closed.members _ h _ hns
  | qualifier => exact (closed.coversParts h).2
  | qualifiedName hne => exact has_of_coversName (closed.coversParts h).1 hne
  | runtimeName hne => exact has_of_coversName (closed.coversParts h) hne
  | ambiguousName hne => exact has_of_coversName (closed.coversParts h).1 hne
  | ambiguousSet => exact (closed.coversParts h).2
  | lateSet => exact closed.coversParts h
  | base => exact (closed.coversParts h).1
  | parameter hm => exact (closed.coversParts h).2 _ hm

theorem Closed.has_of_brings (closed : a.Closed) {d : Constant} (h : a.Has c) (hb : c.Brings d) :
    a.Has d := by
  induction hb with
  | refl => exact h
  | tail _ hn ih => exact closed.has_of_needs ih hn

theorem Closed.has_of_isFixed (closed : a.Closed) (h : c.IsFixed) : a.Has c := by
  rcases h with rfl | rfl | rfl
  · exact List.mem_of_getElem? closed.global
  · exact List.mem_of_getElem? closed.empty
  · exact List.mem_of_getElem? closed.any

end Indexing

/-! ## The visit of a unit -/

/-- The constant that a reference is to. -/
def Use.constant? : Use → Option Constant
  | .value v => v.constant?
  | .name n => (spelled? n).map .string
  | .multiname n => some (.multiname n)
  | .method _ | .instructionClass _ | .traitClass _ => none

theorem Indexing.has_of_covers {a : Indexing} {use : Use} {c : Constant} (h : a.Covers use)
    (hc : use.constant? = some c) : a.Has c := by
  cases use with
  | value value =>
    cases value <;> cases hc <;> exact h
  | name name =>
    obtain ⟨s, hs, rfl⟩ := Option.map_eq_some_iff.1 hc
    exact h s hs
  | multiname name =>
    cases hc
    exact h
  | method | instructionClass | traitClass => cases hc

namespace CodeUnit

/-- A reference of the unit brings in the constant. -/
def Traces (occurs : Use → Prop) (c : Constant) : Prop :=
  ∃ use, occurs use ∧ ∃ root, use.constant? = some root ∧ root.Brings c

section
variable {unit : CodeUnit} {debug : Bool} {occurs : Use → Prop} {c : Constant}

theorem has_foldlM {visit : Indexing → Use → Except Fault Indexing}
    (hv : ∀ a use b, occurs use → visit a use = .ok b → b.Has c → a.Has c ∨ Traces occurs c)
    {uses : List Use} (hu : ∀ use ∈ uses, occurs use) : ∀ {a b : Indexing},
    uses.foldlM visit a = .ok b → b.Has c → a.Has c ∨ Traces occurs c := by
  induction uses with
  | nil =>
    intro a b h hc
    cases h
    exact .inl hc
  | cons use uses ih =>
    intro a b h hc
    rw [List.foldlM_cons, bind_eq_ok] at h
    obtain ⟨middle, hm, h⟩ := h
    rw [List.forall_mem_cons] at hu
    exact (ih hu.2 h hc).elim (hv a use middle hu.1 hm) .inr

/-- **A visit brings in only what the references that are met bring in.** -/
theorem has_visit (hmethods : ∀ handle method uses, unit.method? handle = some method →
      method.uses debug = .ok uses → ∀ use ∈ uses, occurs use) :
    ∀ (n : Nat) (a : Indexing) (use : Use) (b : Indexing), occurs use →
      unit.visit debug n a use = .ok b → b.Has c → a.Has c ∨ Traces occurs c := by
  intro n
  induction n using Nat.strong_induction_on with
  | _ n ih =>
    intro a use b ho h hc
    cases use with
    | value value =>
      rw [← Except.ok.inj ((visit_value value).symm.trans h)] at hc
      exact (Indexing.has_addValue hc).imp_right fun hroot => ⟨_, ho, hroot⟩
    | name name =>
      rw [← Except.ok.inj ((visit_name name).symm.trans h)] at hc
      refine (Indexing.has_addName hc).imp_right ?_
      rintro ⟨s, hs, rfl⟩
      exact ⟨_, ho, _, by rw [Use.constant?, hs]; rfl, .refl⟩
    | multiname name =>
      rw [← Except.ok.inj ((visit_multiname name).symm.trans h)] at hc
      exact (Indexing.has_addMultiname name hc).imp_right fun hb => ⟨_, ho, _, rfl, hb⟩
    | instructionClass handle =>
      obtain ⟨-, rfl⟩ := (visit_class_eq_ok (Or.inl rfl)).1 h
      exact .inl hc
    | traitClass handle =>
      obtain ⟨-, rfl⟩ := (visit_class_eq_ok (Or.inr rfl)).1 h
      exact .inl hc
    | method handle =>
      by_cases hn : handle ∈ a.methods
      · rw [visit_of_mem hn] at h
        cases h
        exact .inl hc
      · -- its index is no constant, so only its references matter
        obtain ⟨m, method, uses, rfl, hm, hu, hf⟩ := (visit_method_eq_ok hn).1 h
        have hstep :=
          has_foldlM (ih m (Nat.lt_succ_self m)) (hmethods handle method uses hm hu) hf hc
        refine hstep.imp_left fun hregistered => ?_
        cases c <;> exact hregistered

end

end CodeUnit

/-! ## The references of each part -/

/-- One of the references is to the constant. -/
def Mentions (uses : List Use) (c : Constant) : Prop := ∃ use ∈ uses, use.constant? = some c

section
variable {c : Constant}

@[simp] theorem mentions_nil : ¬ Mentions [] c := by simp [Mentions]

@[simp] theorem mentions_cons {use : Use} {uses : List Use} :
    Mentions (use :: uses) c ↔ use.constant? = some c ∨ Mentions uses c := by
  simp [Mentions]

@[simp] theorem mentions_append {uses more : List Use} :
    Mentions (uses ++ more) c ↔ Mentions uses c ∨ Mentions more c := by
  simp [Mentions, or_and_right, exists_or]

@[simp] theorem mentions_flatMap {α : Type} {uses : α → List Use} {xs : List α} :
    Mentions (xs.flatMap uses) c ↔ ∃ x ∈ xs, Mentions (uses x) c := by
  simp only [Mentions, List.mem_flatMap]
  grind

@[simp] theorem mentions_map {α : Type} {use : α → Use} {xs : List α} :
    Mentions (xs.map use) c ↔ ∃ x ∈ xs, (use x).constant? = some c := by
  simp [Mentions]

theorem Use.constant?_name {name : Option String} :
    (Use.name name).constant? = some c ↔ ∃ s, name = some s ∧ s ≠ anyName ∧ c = .string s := by
  rw [Use.constant?, Option.map_eq_some_iff]
  simp only [Indexing.spelled?_eq_some, and_assoc, eq_comm]

theorem Use.constant?_multiname {name : Multiname} :
    (Use.multiname name).constant? = some c ↔ c = .multiname name := by
  rw [Use.constant?, Option.some.injEq, eq_comm]

theorem Use.constant?_method {handle : MethodHandle} : (Use.method handle).constant? ≠ some c := by
  rintro ⟨⟩

theorem Operand.mentions_uses {operand : Operand} :
    Mentions operand.uses c ↔ operand.constant? = some c := by
  cases operand <;> simp [uses, constant?, Use.constant?, DefaultValue.constant?]

theorem Trait.mentions_uses {t : Trait} : Mentions t.uses c ↔ c = .multiname t.name ∨
    ∃ kind n type value, t.member = .slot kind n type value ∧
      (c = .multiname type ∨ ∃ v, value = some v ∧ v.constant? = some c) := by
  rw [uses, mentions_cons, Use.constant?_multiname]
  refine or_congr Iff.rfl ?_
  cases t.member with
  | slot kind n type value =>
    simp only [Member.uses, mentions_cons, mentions_map, Option.mem_toList, Use.constant?,
      Member.slot.injEq]
    grind
  | access | classBinding | function => simp [Member.uses, Use.constant?]

theorem Signature.mentions_uses {signature : Signature} : Mentions signature.uses c ↔
    c = .multiname signature.returnType ∨ (∃ type ∈ signature.parameters, c = .multiname type) ∨
    (∃ name, signature.name = some name ∧ name ≠ anyName ∧ c = .string name) ∨
    (∃ value ∈ signature.optional, value.constant? = some c) ∨
    ∃ name ∈ signature.parameterNames, name ≠ anyName ∧ c = .string name := by
  simp only [uses, mentions_append, mentions_cons, mentions_map, Use.constant?_multiname,
    Use.constant?_name, Option.some.injEq, exists_eq_left', or_assoc]
  rfl

theorem Handler.mentions_uses {π : Type} {handler : Handler π} : Mentions handler.uses c ↔
    c = .multiname handler.catchType ∨ c = .multiname handler.variableName := by
  simp only [uses, mentions_cons, mentions_nil, Use.constant?_multiname, or_false]

theorem ClassDefinition.mentions_uses {cls : ClassDefinition} : Mentions cls.uses c ↔
    c = .multiname cls.name ∨ c = .multiname cls.superName ∨
    (∃ ns, cls.protectedNamespace = some ns ∧ c = .nspace ns) ∨
    (∃ name ∈ cls.interfaces, c = .multiname name) ∨
    (∃ t ∈ cls.instanceTraits, Mentions t.uses c) ∨ ∃ t ∈ cls.staticTraits, Mentions t.uses c := by
  simp only [uses, mentions_append, mentions_cons, mentions_nil, mentions_map, mentions_flatMap,
    Use.constant?_multiname, Use.constant?_method, false_or, or_false, or_assoc,
    Option.mem_toList]
  simp only [Use.constant?, DefaultValue.constant?, Option.some.injEq, eq_comm]

theorem Script.mentions_uses {script : Script} :
    Mentions script.uses c ↔ ∃ t ∈ script.traits, Mentions t.uses c := by
  rw [uses, mentions_cons, mentions_flatMap]
  exact or_iff_right Use.constant?_method

theorem Metadata.mentions_uses {entry : Metadata} : Mentions entry.uses c ↔
    (entry.name ≠ anyName ∧ c = .string entry.name) ∨ ∃ item ∈ entry.items,
      (∃ key, item.1 = some key ∧ key ≠ anyName ∧ c = .string key) ∨
        (item.2 ≠ anyName ∧ c = .string item.2) := by
  simp only [uses, mentions_cons, mentions_flatMap, mentions_nil, Use.constant?_name,
    Option.some.injEq, exists_eq_left', or_false]

/-! ## The references of code -/

theorem mentions_instrument {file : String} {instructions : List Instruction} :
    Mentions ((Emission.instrument file instructions).flatMap
        fun emission => emission.operands.flatMap Operand.uses) c ↔
      c = .string file ∨
        ∃ instruction ∈ instructions, ∃ operand ∈ instruction.operands,
          operand.constant? = some c := by
  have hlines : ∀ (instructions : List Instruction) (n : Nat),
      Mentions (((instructions.zipIdx n).flatMap fun entry =>
          [Emission.debugLine entry.2, .ofInstruction entry.1]).flatMap
        fun emission => emission.operands.flatMap Operand.uses) c ↔
      ∃ instruction ∈ instructions, ∃ operand ∈ instruction.operands,
        operand.constant? = some c := by
    intro instructions
    induction instructions with
    | nil => simp
    | cons instruction instructions ih =>
      intro n
      rw [List.zipIdx_cons, List.flatMap_cons, List.flatMap_append, mentions_append, ih]
      simp [Operand.mentions_uses, Emission.debugLine, Operand.constant?, Emission.ofInstruction]
  rw [Emission.instrument, List.flatMap_cons, mentions_append]
  refine or_congr ?_ (hlines instructions 1)
  simp [Operand.mentions_uses, Emission.debugFile, Operand.constant?, eq_comm]

/-- The code of a method refers to what its operands refer to, and to the file that it is said to
    come from if a marker is put into it. -/
theorem Signature.mentions_emissions {signature : Signature} {instructions : List Instruction}
    {handlers : List (Handler CodePosition)} {debug : Bool} {emissions : List Emission}
    (h : signature.emissions (.symbolic instructions handlers) debug = .ok emissions) :
    Mentions (emissions.flatMap fun emission => emission.operands.flatMap Operand.uses) c ↔
      (∃ instruction ∈ instructions, ∃ operand ∈ instruction.operands,
        operand.constant? = some c) ∨
      (debug = true ∧ (∀ instruction ∈ instructions, instruction.opcode.isDebugMarker = false) ∧
        c = .string signature.markerFile) := by
  have hmarkers : (debug && !(Code.symbolic instructions handlers).hasDebugMarkers) = true ↔
      debug = true ∧ ∀ instruction ∈ instructions, instruction.opcode.isDebugMarker = false := by
    simp [Code.hasDebugMarkers]
  rw [Signature.emissions, Code.instructions] at h
  by_cases hd : (debug && !(Code.symbolic instructions handlers).hasDebugMarkers) = true
  · cases (if_pos hd).symm.trans h
    obtain ⟨hdebug, hnone⟩ := hmarkers.1 hd
    rw [mentions_instrument, or_comm]
    refine or_congr Iff.rfl ?_
    simp only [hdebug, true_and, and_iff_right hnone]
  · cases (if_neg hd).symm.trans h
    rw [← and_assoc, ← hmarkers]
    simp [hd, Operand.mentions_uses, Emission.ofInstruction]

end

namespace CodeUnit

variable {unit : CodeUnit} {debug : Bool} {c : Constant}

/-- What the methods of the unit refer to, their code being symbolic. -/
theorem mentions_method {method : Method} {uses : List Use} (hm : method.isRaw = false)
    (hu : method.uses debug = .ok uses) : Mentions uses c ↔
      Mentions method.toSignature.uses c ∨ ∃ body instructions handlers,
        method.body = some body ∧ body.code = .symbolic instructions handlers ∧
        ((∃ instruction ∈ instructions, ∃ operand ∈ instruction.operands,
            operand.constant? = some c) ∨
          (debug = true ∧
            (∀ instruction ∈ instructions, instruction.opcode.isDebugMarker = false) ∧
            c = .string method.markerFile) ∨
          (∃ handler ∈ handlers, Mentions handler.uses c) ∨
          ∃ t ∈ body.traits, Mentions t.uses c) := by
  obtain ⟨signature, body⟩ := method
  cases body with
  | none =>
    cases hu
    simp
  | some body =>
    obtain ⟨frame, code⟩ := body
    cases code with
    | raw => cases hm
    | symbolic instructions handlers =>
      obtain ⟨emissions, he, hu⟩ := bind_eq_ok.1 hu
      rw [← pure_eq_ok.1 hu]
      simp only [mentions_append, signature.mentions_emissions he, or_assoc]
      simp

/-- What the unit refers to outside of its methods. -/
theorem mentions_uses (ho : unit.Ordered) {mainClass : Option String} {order : List ClassHandle}
    (horder : unit.classOrderFor mainClass = .ok order) : Mentions (unit.uses order) c ↔
      (∃ cls ∈ unit.classes, Mentions cls.uses c) ∨
      (∃ script ∈ unit.scripts, Mentions script.uses c) ∨
      ∃ entry ∈ unit.metadata, Mentions entry.uses c := by
  have hclasses {cls : ClassDefinition} :
      cls ∈ order.filterMap unit.class? ↔ cls ∈ unit.classes := by
    rw [List.mem_filterMap, mem_classes_iff]
    refine ⟨fun ⟨handle, _, h⟩ => ⟨handle, h⟩, fun ⟨handle, h⟩ => ⟨handle, ?_, h⟩⟩
    exact (mem_classOrderFor horder).2 ((ho.classes handle).2 (lt_size_of_class? h))
  have hmethods : ¬ Mentions (unit.methodOrder.map .method) c := by
    simp [Use.constant?]
  simp only [uses, mentions_append, mentions_flatMap, hclasses, hmethods, or_false, or_assoc]

theorem refers_of_trait {t : Trait} (ht : unit.HasTrait t) (h : Mentions t.uses c) :
    unit.Refers debug c := by
  rcases Trait.mentions_uses.1 h with rfl | ⟨kind, n, type, value, hm, rfl | ⟨v, rfl, hv⟩⟩
  · exact .traitName ht
  · exact .slotType ht hm
  · exact .slotDefault ht hm hv

/-- The references that are visited. -/
def Meets (unit : CodeUnit) (debug : Bool) (order : List ClassHandle) (use : Use) : Prop :=
  use ∈ unit.uses order ∨
    ∃ method ∈ unit.methods, ∃ uses, method.uses debug = .ok uses ∧ use ∈ uses

/-- A reference that is visited is to the constant. -/
def Mentioned (unit : CodeUnit) (debug : Bool) (order : List ClassHandle) (c : Constant) : Prop :=
  ∃ use, unit.Meets debug order use ∧ use.constant? = some c

section
variable {order : List ClassHandle}

theorem mentioned_of_uses (h : Mentions (unit.uses order) c) : unit.Mentioned debug order c := by
  obtain ⟨use, hu, hc⟩ := h
  exact ⟨use, .inl hu, hc⟩

theorem mentioned_of_method {method : Method} {uses : List Use} (hm : method ∈ unit.methods)
    (hu : method.uses debug = .ok uses) (h : Mentions uses c) :
    unit.Mentioned debug order c := by
  obtain ⟨use, hmem, hc⟩ := h
  exact ⟨use, .inr ⟨method, hm, uses, hu, hmem⟩, hc⟩

theorem mentioned_cases (h : unit.Mentioned debug order c) : Mentions (unit.uses order) c ∨
    ∃ method ∈ unit.methods, ∃ uses, method.uses debug = .ok uses ∧ Mentions uses c := by
  obtain ⟨use, hu | ⟨method, hm, uses, hu, hmem⟩, hc⟩ := h
  · exact .inl ⟨use, hu, hc⟩
  · exact .inr ⟨method, hm, uses, hu, use, hmem, hc⟩

variable {mainClass : Option String} (ho : unit.Ordered) (hplain : unit.Plain)
  (horder : unit.classOrderFor mainClass = .ok order)
  (hmethods : ∀ method ∈ unit.methods, ∃ uses, method.uses debug = .ok uses)
include ho hplain horder hmethods

theorem mentioned_of_trait {t : Trait} (ht : unit.HasTrait t) (h : Mentions t.uses c) :
    unit.Mentioned debug order c := by
  cases ht with
  | ofInstance hc ht =>
    refine mentioned_of_uses ((mentions_uses ho horder).2 (.inl ⟨_, hc, ?_⟩))
    exact ClassDefinition.mentions_uses.2 (.inr (.inr (.inr (.inr (.inl ⟨t, ht, h⟩)))))
  | ofClass hc ht =>
    refine mentioned_of_uses ((mentions_uses ho horder).2 (.inl ⟨_, hc, ?_⟩))
    exact ClassDefinition.mentions_uses.2 (.inr (.inr (.inr (.inr (.inr ⟨t, ht, h⟩)))))
  | ofScript hs ht =>
    refine mentioned_of_uses ((mentions_uses ho horder).2 (.inr (.inl ⟨_, hs, ?_⟩)))
    exact Script.mentions_uses.2 ⟨t, ht, h⟩
  | @ofBody method body hm hb ht =>
    obtain ⟨uses, hu⟩ := hmethods method hm
    have hraw := hplain method hm
    obtain ⟨instructions, handlers, hcode⟩ :
        ∃ instructions handlers, body.code = .symbolic instructions handlers := by
      rw [Method.isRaw, hb] at hraw
      cases hcode : body.code with
      | raw => simp [hcode, Code.isSymbolic] at hraw
      | symbolic instructions handlers => exact ⟨instructions, handlers, rfl⟩
    refine mentioned_of_method hm hu ((mentions_method hraw hu).2 (.inr
      ⟨body, instructions, handlers, hb, hcode, ?_⟩))
    exact .inr (.inr (.inr ⟨t, ht, h⟩))

/-- **Every place is visited.** -/
theorem mentioned_of_refers (h : unit.Refers debug c) : unit.Mentioned debug order c := by
  have hclass {cls : ClassDefinition} (hc : cls ∈ unit.classes) (h : Mentions cls.uses c) :
      unit.Mentioned debug order c :=
    mentioned_of_uses ((mentions_uses ho horder).2 (.inl ⟨cls, hc, h⟩))
  have hentry {entry : Metadata} (he : entry ∈ unit.metadata) (h : Mentions entry.uses c) :
      unit.Mentioned debug order c :=
    mentioned_of_uses ((mentions_uses ho horder).2 (.inr (.inr ⟨entry, he, h⟩)))
  have hsignature {method : Method} (hm : method ∈ unit.methods)
      (h : Mentions method.toSignature.uses c) : unit.Mentioned debug order c := by
    obtain ⟨uses, hu⟩ := hmethods method hm
    exact mentioned_of_method hm hu ((mentions_method (hplain method hm) hu).2 (.inl h))
  have hcode {method : Method} {instructions : List Instruction}
      {handlers : List (Handler CodePosition)} (hm : unit.HasCode method instructions handlers)
      (h : (∃ instruction ∈ instructions, ∃ operand ∈ instruction.operands,
            operand.constant? = some c) ∨
          (debug = true ∧
            (∀ instruction ∈ instructions, instruction.opcode.isDebugMarker = false) ∧
            c = .string method.markerFile) ∨
          ∃ handler ∈ handlers, Mentions handler.uses c) : unit.Mentioned debug order c := by
    obtain ⟨hm, body, hb, hcode⟩ := hm
    obtain ⟨uses, hu⟩ := hmethods method hm
    refine mentioned_of_method hm hu ((mentions_method (hplain method hm) hu).2 (.inr
      ⟨body, instructions, handlers, hb, hcode, ?_⟩))
    exact h.imp_right (Or.imp_right .inl)
  have htrait {t : Trait} (ht : unit.HasTrait t) (h : Mentions t.uses c) :
      unit.Mentioned debug order c := mentioned_of_trait ho hplain horder hmethods ht h
  cases h with
  | className hc => exact hclass hc (ClassDefinition.mentions_uses.2 (.inl rfl))
  | superName hc => exact hclass hc (ClassDefinition.mentions_uses.2 (.inr (.inl rfl)))
  | protectedNamespace hc hn =>
    exact hclass hc (ClassDefinition.mentions_uses.2 (.inr (.inr (.inl ⟨_, hn, rfl⟩))))
  | interface hc hi =>
    exact hclass hc (ClassDefinition.mentions_uses.2 (.inr (.inr (.inr (.inl ⟨_, hi, rfl⟩)))))
  | traitName ht => exact htrait ht (Trait.mentions_uses.2 (.inl rfl))
  | slotType ht hm =>
    exact htrait ht (Trait.mentions_uses.2 (.inr ⟨_, _, _, _, hm, .inl rfl⟩))
  | slotDefault ht hm hc =>
    exact htrait ht (Trait.mentions_uses.2 (.inr ⟨_, _, _, _, hm, .inr ⟨_, rfl, hc⟩⟩))
  | returnType hm => exact hsignature hm (Signature.mentions_uses.2 (.inl rfl))
  | parameterType hm hp =>
    exact hsignature hm (Signature.mentions_uses.2 (.inr (.inl ⟨_, hp, rfl⟩)))
  | methodName hm hn hne =>
    exact hsignature hm (Signature.mentions_uses.2 (.inr (.inr (.inl ⟨_, hn, hne, rfl⟩))))
  | optionalValue hm hv hc =>
    exact hsignature hm (Signature.mentions_uses.2 (.inr (.inr (.inr (.inl ⟨_, hv, hc⟩)))))
  | parameterName hm hn hne =>
    exact hsignature hm (Signature.mentions_uses.2
      (.inr (.inr (.inr (.inr ⟨_, hn, hne, rfl⟩)))))
  | operand hm hi ho hc => exact hcode hm (.inl ⟨_, hi, _, ho, hc⟩)
  | insertedFile hd hm hn => exact hcode hm (.inr (.inl ⟨hd, hn, rfl⟩))
  | catchType hm hh => exact hcode hm (.inr (.inr ⟨_, hh, Handler.mentions_uses.2 (.inl rfl)⟩))
  | variableName hm hh =>
    exact hcode hm (.inr (.inr ⟨_, hh, Handler.mentions_uses.2 (.inr rfl)⟩))
  | metadataName he hne => exact hentry he (Metadata.mentions_uses.2 (.inl ⟨hne, rfl⟩))
  | metadataKey he hi hne =>
    exact hentry he (Metadata.mentions_uses.2 (.inr ⟨_, hi, .inl ⟨_, rfl, hne, rfl⟩⟩))
  | metadataValue he hi hne =>
    exact hentry he (Metadata.mentions_uses.2 (.inr ⟨_, hi, .inr ⟨hne, rfl⟩⟩))

omit hmethods in
/-- **Nothing else is visited.** -/
theorem refers_of_mentioned (h : unit.Mentioned debug order c) : unit.Refers debug c := by
  rcases mentioned_cases h with h | ⟨method, hm, uses, hu, h⟩
  · rcases (mentions_uses ho horder).1 h with ⟨cls, hc, h⟩ | ⟨script, hs, h⟩ | ⟨entry, he, h⟩
    · rcases ClassDefinition.mentions_uses.1 h with
        rfl | rfl | ⟨ns, hn, rfl⟩ | ⟨name, hi, rfl⟩ | ⟨t, ht, h⟩ | ⟨t, ht, h⟩
      · exact .className hc
      · exact .superName hc
      · exact .protectedNamespace hc hn
      · exact .interface hc hi
      · exact refers_of_trait (.ofInstance hc ht) h
      · exact refers_of_trait (.ofClass hc ht) h
    · obtain ⟨t, ht, h⟩ := Script.mentions_uses.1 h
      exact refers_of_trait (.ofScript hs ht) h
    · rcases Metadata.mentions_uses.1 h with
        ⟨hne, rfl⟩ | ⟨⟨_, value⟩, hi, ⟨key, rfl, hne, rfl⟩ | ⟨hne, rfl⟩⟩
      · exact .metadataName he hne
      · exact .metadataKey he hi hne
      · exact .metadataValue he hi hne
  · rcases (mentions_method (hplain method hm) hu).1 h with
      h | ⟨body, instructions, handlers, hb, hcode, h⟩
    · rcases Signature.mentions_uses.1 h with
        rfl | ⟨type, hp, rfl⟩ | ⟨name, hn, hne, rfl⟩ | ⟨value, hv, hc⟩ | ⟨name, hn, hne, rfl⟩
      · exact .returnType hm
      · exact .parameterType hm hp
      · exact .methodName hm hn hne
      · exact .optionalValue hm hv hc
      · exact .parameterName hm hn hne
    · have hcode : unit.HasCode method instructions handlers := ⟨hm, body, hb, hcode⟩
      rcases h with ⟨instruction, hi, operand, ho, hc⟩ | ⟨hd, hn, rfl⟩ | ⟨handler, hh, h⟩ |
        ⟨t, ht, h⟩
      · exact .operand hcode hi ho hc
      · exact .insertedFile hd hcode hn
      · rcases Handler.mentions_uses.1 h with rfl | rfl
        · exact .catchType hcode hh
        · exact .variableName hcode hh
      · exact refers_of_trait (.ofBody hm hb ht) h

end

/-! ## The pool -/

/-- **What has an index is what is used, and the fixed entries.** -/
theorem has_index_iff {mainClass : Option String} {order : List ClassHandle} {a : Indexing}
    (ho : unit.Ordered) (hplain : unit.Plain)
    (horder : unit.classOrderFor mainClass = .ok order) (ha : unit.index debug order = .ok a) :
    a.Has c ↔ c.IsFixed ∨ unit.Used debug c := by
  obtain ⟨closed, -, hcovers, hcomplete⟩ := index_spec ha
  have hcompleted {handle : MethodHandle} {method : Method}
      (hm : unit.method? handle = some method) :
      ∃ uses, method.uses debug = .ok uses ∧ ∀ use ∈ uses, a.Covers use := by
    obtain ⟨same, uses, hsame, hu, hc⟩ :=
      hcomplete handle ((mem_methods_of_index ho ha).2 (lt_size_of_method? hm))
    cases hm.symm.trans hsame
    exact ⟨uses, hu, hc⟩
  constructor
  · intro h
    have hmeets : ∀ handle method uses, unit.method? handle = some method →
        method.uses debug = .ok uses → ∀ use ∈ uses, unit.Meets debug order use :=
      fun handle method uses hm hu use hmem =>
        .inr ⟨method, mem_methods_iff.2 ⟨handle, hm⟩, uses, hu, hmem⟩
    have hvisited := has_foldlM (has_visit hmeets _) (fun use hmem => Or.inl hmem) ha h
    refine hvisited.imp Indexing.has_initial.1 ?_
    rintro ⟨use, hmeets, root, hroot, hb⟩
    exact ⟨root, refers_of_mentioned ho hplain horder ⟨use, hmeets, hroot⟩, hb⟩
  · rintro (h | ⟨root, hroot, hb⟩)
    · exact closed.has_of_isFixed h
    · refine closed.has_of_brings ?_ hb
      have hmethods : ∀ method ∈ unit.methods, ∃ uses, method.uses debug = .ok uses := by
        intro method hm
        obtain ⟨handle, hh⟩ := mem_methods_iff.1 hm
        obtain ⟨uses, hu, -⟩ := hcompleted hh
        exact ⟨uses, hu⟩
      obtain ⟨use, hmeets, hc⟩ := mentioned_of_refers ho hplain horder hmethods hroot
      refine Indexing.has_of_covers ?_ hc
      rcases hmeets with hmem | ⟨method, hm, uses, hu, hmem⟩
      · exact hcovers use hmem
      · obtain ⟨handle, hh⟩ := mem_methods_iff.1 hm
        obtain ⟨same, hsame, hall⟩ := hcompleted hh
        cases hu.symm.trans hsame
        exact hall use hmem

end CodeUnit

section
variable {α : Type} {numbering : Numbering α} {fixed : α} {p : α → Prop}

theorem holdsExactly_cons (h : ∀ x, x ∈ numbering ↔ p x) :
    HoldsExactly (fixed :: numbering.values).toArray fixed p :=
  ⟨numbering.values, rfl, numbering.nodup, h⟩

/-- A table whose fixed entry has an index of its own does not hold it again. -/
theorem holdsExactly_values (hz : numbering.values[0]? = some fixed)
    (h : ∀ x, x ∈ numbering ↔ x = fixed ∨ p x) :
    HoldsExactly numbering.values.toArray fixed fun x => p x ∧ x ≠ fixed := by
  have hcons := Reader.eq_cons_of_getElem?_zero hz
  have hnodup := numbering.nodup
  rw [hcons, List.nodup_cons] at hnodup
  refine ⟨numbering.values.tail, hcons, hnodup.2, fun x => ?_⟩
  have hx := h x
  rw [Numbering.mem_def, hcons, List.mem_cons] at hx
  constructor
  · intro hmem
    have hne : x ≠ fixed := fun he => hnodup.1 (he ▸ hmem)
    exact ⟨(hx.1 (.inr hmem)).resolve_left hne, hne⟩
  · rintro ⟨hp, hne⟩
    exact (hx.2 (.inr hp)).resolve_left hne

end

/-- A table of the pool for each kind of constant. -/
theorem Indexing.Closed.exactly_toPool {a : Indexing} {used : Constant → Prop} (closed : a.Closed)
    (h : ∀ c, a.Has c ↔ c.IsFixed ∨ used c) : a.toPool.Exactly used where
  ints := holdsExactly_cons fun value => by simpa [Has, Constant.IsFixed] using h (.int value)
  uints := holdsExactly_cons fun value => by simpa [Has, Constant.IsFixed] using h (.uint value)
  doubles := holdsExactly_cons fun value => by
    simpa [Has, Constant.IsFixed] using h (.double value)
  strings := holdsExactly_cons fun value => by
    simpa [Has, Constant.IsFixed] using h (.string value)
  namespaces := holdsExactly_values closed.global fun ns => by
    simpa [Has, Constant.IsFixed] using h (.nspace ns)
  namespaceSets := holdsExactly_values closed.empty fun set => by
    simpa [Has, Constant.IsFixed] using h (.namespaceSet set)
  multinames := holdsExactly_values closed.any fun name => by
    simpa [Has, Constant.IsFixed] using h (.multiname name)

/-- **A pool that is written anew holds what the unit uses and no more.**  What was in the pool
    before has no part in it. -/
theorem Edit.pool_exact {options : EncodeOptions} {unit later : CodeUnit} {bytes : Bytes}
    (hreachable : Reachable unit) (ht : unit.isTampered = true)
    (he : encode options unit = .ok bytes later) :
    ∃ plain, disassemble unit = .ok () plain ∧
      later.pool.Exactly (plain.Used options.debugInstrumentation) := by
  obtain ⟨plain, order, s, rebuilt, hd, hr, -, rfl⟩ := rebuilds_of_encode ht he
  have ho : plain.Ordered := hreachable.ordered.kept (keeps_disassemble.of_ok hd)
  have closed := (CodeUnit.index_spec hr.index_eq).1
  exact ⟨plain, hd, closed.exactly_toPool fun c =>
    CodeUnit.has_index_iff ho (plain_of_disassemble hd) hr.order_eq hr.index_eq⟩

/-- Code that answers with a text. -/
def answering (text : String) : List Instruction :=
  [⟨⟨0⟩, .pushString, [.string text]⟩, ⟨⟨1⟩, .returnValue, []⟩]

def vectorOf (element : Multiname) : Multiname :=
  .applied (.qualified false (.ofKind .package "p" 0) "Vector") [element]

/-- A method that is written, read back into instructions and given another string. -/
def retextedUnit : CodeUnit :=
  [.createMethod {
      signature := { returnType := vectorOf (vectorOf .any) }
      body := some { code := .symbolic (answering "tick") [] } },
    .encode {}, .disassembleMethod ⟨0⟩, .editInstructions ⟨0⟩ (set (answering "tock"))].foldl
      (fun unit (operation : Operation) => operation.run unit) .empty

/-- The text that the pool held goes, and the one in its place comes. -/
theorem pool_exact_retextedUnit : "tick" ∈ retextedUnit.pool.strings ∧ ∃ bytes later plain,
    Edit.encode {} retextedUnit = .ok bytes later ∧
      Edit.disassemble retextedUnit = .ok () plain ∧
      later.pool.Exactly (plain.Used false) ∧ plain.Used false (.string "tock") ∧
      plain.Used false (.multiname (vectorOf .any)) ∧ ¬ plain.Used false (.string "tick") := by
  have hok : ((Edit.encode {}).outcome retextedUnit).isOk = true := by decide +kernel
  obtain ⟨bytes, he⟩ := Edit.exists_ok_of_outcome hok
  obtain ⟨hstrings, hnames⟩ : let pool := ((Edit.encode {}).after retextedUnit).pool
      pool.strings.toList.tail = ["Vector", "p", "tock"] ∧
        vectorOf .any ∈ pool.multinames.toList.tail := by decide +kernel
  obtain ⟨plain, hd, hexact⟩ := Edit.pool_exact
    (ReachableBy.foldl (fun _ _ _ => trivial) .empty) (by decide +kernel) he
  obtain ⟨texts, htexts, -, htext⟩ := hexact.strings
  obtain ⟨names, heq, -, hname⟩ := hexact.multinames
  rw [htexts, List.tail_cons] at hstrings
  rw [heq, List.tail_cons] at hnames
  subst hstrings
  exact ⟨by decide +kernel, bytes, _, plain, he, hd, hexact, (htext _).1 (by simp),
    ((hname _).1 hnames).1, fun h => absurd ((htext _).2 h) (by simp)⟩

end ActionBytecode
