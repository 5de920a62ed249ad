/-
  ActionBytecode — when a unit can be written.

  Under indices for all that it refers to (`Indexing.Covers`), a part of a unit is written unless
  it is wrong in itself: a trait names metadata that are not there, a method has parameter names
  for some of its parameters only, code has an instruction or a place that does not fit.

  * `succeeds_traitsBytes`, `succeeds_signatureBytes`, …: each part is written exactly when
    nothing is wrong in it;
  * `succeeds_assemble`: the same for code;
  * `succeeds_rebuild`: and for a unit.
-/
import ActionBytecode.CodeUnit.Encoding
import ActionBytecode.Proofs.Assembly
import ActionBytecode.Proofs.Declarations
import ActionBytecode.Proofs.Disassembly
import ActionBytecode.Proofs.Pool
import ActionBytecode.Proofs.Visit

namespace ActionBytecode

/-! ## Counts -/

/-- The counts that are written of a list of traits. -/
def traitCounts (traits : List Trait) : List Nat :=
  traits.length :: traits.map (·.metadata.length)

def Signature.counts (signature : Signature) : List Nat :=
  [signature.parameters.length, signature.optional.length]

def Body.counts (body : Body) : List Nat := body.code.handlers.length :: traitCounts body.traits

def Method.counts (method : Method) : List Nat :=
  method.toSignature.counts ++ method.body.toList.flatMap Body.counts

def ClassDefinition.counts (cls : ClassDefinition) : List Nat :=
  cls.interfaces.length :: (traitCounts cls.instanceTraits ++ traitCounts cls.staticTraits)

/-- The counts that are written of a unit, those of its constants apart. -/
def CodeUnit.counts (unit : CodeUnit) : List Nat :=
  [unit.methods.size, unit.metadata.length, unit.classes.size, unit.scripts.length] ++
    unit.methods.toList.flatMap Method.counts ++ unit.metadata.map (·.items.length) ++
    unit.classes.toList.flatMap ClassDefinition.counts ++
    unit.scripts.flatMap fun script => traitCounts script.traits

theorem succeeds_index {n : Nat} (h : n < countLimit) : Succeeds (Bytes.index n) :=
  Reader.index_isOk.2 (Nat.lt_trans h (by decide))

theorem succeeds_list {α : Type} {write : α → Except Fault Bytes} {xs : List α}
    (h : xs.length < countLimit) :
    Succeeds (Bytes.list write xs) ↔ ∀ x ∈ xs, Succeeds (write x) :=
  (succeeds_index h).bind_iff fun _ _ => succeeds_bind_pure.trans mapM_isOk

namespace Indexing

/-! ## Declarations -/

section
variable {a : Indexing}

theorem succeeds_multinameIndex {name : Multiname} (h : name ∈ a.multinames) :
    Succeeds (a.multinameIndex name) := Numbering.id_isOk.2 h

theorem succeeds_methodIndex {handle : MethodHandle} (h : handle ∈ a.methods) :
    Succeeds (a.methodIndex handle) := Numbering.id_isOk.2 h

theorem succeeds_classIndex {handle : ClassHandle} (h : handle ∈ a.classes) :
    Succeeds (a.classIndex handle) := Numbering.id_isOk.2 h

theorem succeeds_namespaceIndex {ns : Namespace} (h : ns ∈ a.namespaces) :
    Succeeds (a.namespaceIndex ns) := Numbering.id_isOk.2 h

theorem succeeds_namespaceSetIndex {set : NamespaceSet} (h : set ∈ a.namespaceSets) :
    Succeeds (a.namespaceSetIndex set) := Numbering.id_isOk.2 h

theorem succeeds_literalIndex {s : String} (h : s ∈ a.strings) : Succeeds (a.literalIndex s) :=
  succeeds_bind_pure.2 (Numbering.id_isOk.2 h)

theorem succeeds_nameIndex {name : Option String} (h : a.CoversName name) :
    Succeeds (a.nameIndex name) := by
  cases hs : spelled? name with
  | none => exact ⟨0, nameIndex_of_not_spelled hs⟩
  | some s =>
    rw [nameIndex_of_spelled hs]
    exact succeeds_literalIndex (h s hs)

theorem succeeds_valueIndex {value : DefaultValue} (h : a.CoversValue value) :
    Succeeds (a.valueIndex value) := by
  cases value with
  | int | uint | double => exact succeeds_bind_pure.2 (Numbering.id_isOk.2 h)
  | text => exact succeeds_literalIndex h
  | nspace => exact succeeds_namespaceIndex h
  | truth | null | undefined => exact succeeds_ok _

theorem succeeds_valueBytes {value : DefaultValue} (h : a.CoversValue value) :
    Succeeds (a.valueBytes value) := succeeds_bind_pure.2 (succeeds_valueIndex h)

theorem succeeds_valueBytes? {value : Option DefaultValue}
    (h : ∀ v, value = some v → a.CoversValue v) : Succeeds (a.valueBytes? value) := by
  cases value with
  | none => exact succeeds_ok _
  | some value => exact succeeds_valueBytes (h value rfl)

theorem succeeds_memberBytes {member : Member} (h : ∀ use ∈ member.uses, a.Covers use) :
    Succeeds (a.memberBytes member) := by
  cases member with
  | slot kind slot type value =>
    refine (succeeds_multinameIndex (h (.multiname type) (by simp [Member.uses]))).bind fun _ _ =>
      succeeds_bind_pure.2 (succeeds_valueBytes? ?_)
    rintro value rfl
    exact h (.value value) (by simp [Member.uses])
  | access kind dispatch method =>
    exact succeeds_bind_pure.2 (succeeds_methodIndex (h (.method method) (by simp [Member.uses])))
  | classBinding slot handle =>
    exact succeeds_bind_pure.2
      (succeeds_classIndex (h (.traitClass handle) (by simp [Member.uses])))
  | function slot method =>
    exact succeeds_bind_pure.2 (succeeds_methodIndex (h (.method method) (by simp [Member.uses])))

variable {count : Nat}

theorem succeeds_metadataReferences {indices : List UInt32} (hn : indices.length < countLimit) :
    Succeeds (if indices.isEmpty then pure [] else
      Bytes.list (metadataReferenceBytes count) indices) ↔ ∀ i ∈ indices, i.toNat < count := by
  have hlist : Succeeds (Bytes.list (metadataReferenceBytes count) indices) ↔
      ∀ i ∈ indices, i.toNat < count := by
    refine (succeeds_list hn).trans (forall₂_congr fun i _ => ?_)
    rw [metadataReferenceBytes]
    split <;> simp_all [Succeeds]
  cases indices with
  | nil => exact iff_of_true (succeeds_ok _) (by simp)
  | cons i indices => exact hlist

/-- The part of a sequence that is written only on a condition. -/
theorem succeeds_ite_bind {α β : Type} {c : Prop} [Decidable c] {x y : Except Fault α}
    {f : α → Except Fault β} : Succeeds (if c then x >>= f else y >>= f) ↔
      Succeeds ((if c then x else y) >>= f) := by
  split <;> rfl

theorem succeeds_traitBytes {t : Trait} (h : ∀ use ∈ t.uses, a.Covers use)
    (hn : t.metadata.length < countLimit) :
    Succeeds (a.traitBytes count t) ↔ ∀ i ∈ t.metadata, i.toNat < count := by
  rw [Trait.uses, List.forall_mem_cons] at h
  refine (succeeds_multinameIndex h.1).bind_iff fun _ _ =>
    (succeeds_memberBytes h.2).bind_iff fun _ _ => ?_
  exact succeeds_ite_bind.trans (succeeds_bind_pure.trans (succeeds_metadataReferences hn))

/-- Traits are written exactly when the metadata that they name are there. -/
theorem succeeds_traitsBytes {traits : List Trait}
    (h : ∀ use ∈ traits.flatMap Trait.uses, a.Covers use)
    (hn : ∀ n ∈ traitCounts traits, n < countLimit) :
    Succeeds (a.traitsBytes count traits) ↔
      ∀ t ∈ traits, ∀ i ∈ t.metadata, i.toNat < count := by
  simp only [traitCounts, List.forall_mem_cons, List.forall_mem_map] at hn
  refine (succeeds_list hn.1).trans (forall₂_congr fun t ht => ?_)
  exact succeeds_traitBytes (fun use hu => h use (List.mem_flatMap.2 ⟨t, ht, hu⟩)) (hn.2 t ht)

theorem succeeds_parameterNameBytes {signature : Signature}
    (h : ∀ name ∈ signature.parameterNames, a.CoversName (some name)) :
    Succeeds (a.parameterNameBytes signature) ↔ signature.parameterNames = [] ∨
      signature.parameterNames.length = signature.parameters.length := by
  have hindices : Succeeds (signature.parameterNames.mapM fun name => a.nameIndex (some name)) :=
    mapM_isOk.2 fun name hname => succeeds_nameIndex (h name hname)
  obtain ⟨is, his⟩ := hindices
  by_cases hn : signature.parameterNames = []
  · exact iff_of_true ⟨[], Reader.parameterNameBytes_eq_ok.2 (.inl ⟨hn, rfl⟩)⟩ (.inl hn)
  · rw [or_iff_right hn]
    constructor
    · rintro ⟨bytes, hw⟩
      rcases Reader.parameterNameBytes_eq_ok.1 hw with ⟨hn', -⟩ | ⟨-, hl, -⟩
      · exact absurd hn' hn
      · exact hl
    · exact fun hl => ⟨_, Reader.parameterNameBytes_eq_ok.2 (.inr ⟨hn, hl, is, his, rfl⟩)⟩

theorem succeeds_optional {values : List DefaultValue} (h : ∀ value ∈ values, a.CoversValue value)
    (hn : values.length < countLimit) :
    Succeeds (if values.isEmpty then pure [] else Bytes.list a.valueBytes values) := by
  split
  · exact succeeds_ok _
  · exact (succeeds_list hn).2 fun value hv => succeeds_valueBytes (h value hv)

/-- A signature is written exactly when its parameters have no names or all of them do. -/
theorem succeeds_signatureBytes {signature : Signature}
    (h : ∀ use ∈ signature.uses, a.Covers use) (hn : ∀ n ∈ signature.counts, n < countLimit) :
    Succeeds (a.signatureBytes signature) ↔ signature.parameterNames = [] ∨
      signature.parameterNames.length = signature.parameters.length := by
  simp only [Signature.uses, List.forall_mem_append, List.forall_mem_cons,
    List.forall_mem_map] at h
  obtain ⟨⟨⟨hreturn, hparameters⟩, hname, hoptional⟩, hnames⟩ := h
  simp only [Signature.counts, List.forall_mem_cons] at hn
  have hindices : Succeeds (signature.parameters.mapM a.multinameIndex) :=
    mapM_isOk.2 fun name hm => succeeds_multinameIndex (hparameters name hm)
  refine (succeeds_index hn.1).bind_iff fun _ _ =>
    (succeeds_multinameIndex hreturn).bind_iff fun _ _ => hindices.bind_iff fun _ _ =>
    (succeeds_nameIndex hname).bind_iff fun _ _ => succeeds_ite_bind.trans ?_
  exact (succeeds_optional hoptional hn.2.1).bind_iff fun _ _ =>
    succeeds_bind_pure.trans (succeeds_parameterNameBytes hnames)

theorem succeeds_handlerBytes {handler : Handler UInt32} (h : ∀ use ∈ handler.uses, a.Covers use) :
    Succeeds (a.handlerBytes handler) := by
  simp only [Handler.uses, List.forall_mem_cons] at h
  exact (succeeds_multinameIndex h.1).bind fun _ _ =>
    succeeds_bind_pure.2 (succeeds_multinameIndex h.2.1)

theorem succeeds_bodyBytes {handle : MethodHandle} {frame : Frame} {code : Bytes}
    {handlers : List (Handler UInt32)} (hm : handle ∈ a.methods)
    (hcode : code.length < countLimit) (hhandlers : handlers.length < countLimit)
    (hh : ∀ use ∈ handlers.flatMap Handler.uses, a.Covers use)
    (ht : ∀ use ∈ frame.traits.flatMap Trait.uses, a.Covers use)
    (hn : ∀ n ∈ traitCounts frame.traits, n < countLimit) :
    Succeeds (a.bodyBytes count handle frame code handlers) ↔
      ∀ t ∈ frame.traits, ∀ i ∈ t.metadata, i.toNat < count := by
  have hlist : Succeeds (Bytes.list a.handlerBytes handlers) :=
    (succeeds_list hhandlers).2 fun handler hmem => succeeds_handlerBytes fun use hu =>
      hh use (List.mem_flatMap.2 ⟨handler, hmem, hu⟩)
  exact (succeeds_methodIndex hm).bind_iff fun _ _ => (succeeds_index hcode).bind_iff fun _ _ =>
    hlist.bind_iff fun _ _ => succeeds_bind_pure.trans (succeeds_traitsBytes ht hn)

/-- The parts of a class that refer to something, each with an index. -/
theorem covers_class {cls : ClassDefinition} (h : ∀ use ∈ cls.uses, a.Covers use) :
    (cls.name ∈ a.multinames ∧ cls.superName ∈ a.multinames) ∧
      (∀ ns, cls.protectedNamespace = some ns → ns ∈ a.namespaces) ∧
      (∀ name ∈ cls.interfaces, name ∈ a.multinames) ∧
      (cls.constructor ∈ a.methods ∧ ∀ use ∈ cls.instanceTraits.flatMap Trait.uses, a.Covers use) ∧
      (cls.staticInit ∈ a.methods ∧ ∀ use ∈ cls.staticTraits.flatMap Trait.uses, a.Covers use) := by
  simp only [ClassDefinition.uses, List.forall_mem_append, List.forall_mem_cons,
    List.forall_mem_map, Option.mem_toList] at h
  obtain ⟨⟨⟨⟨hnames, hprotected⟩, hinterfaces⟩, hinstance⟩, hstatic⟩ := h
  exact ⟨⟨hnames.1, hnames.2.1⟩, fun ns hns => hprotected ns hns, hinterfaces, hinstance, hstatic⟩

theorem succeeds_protected_bind {ns : Option Namespace} {f : Bytes → Except Fault Bytes} {p : Prop}
    (h : ∀ n, ns = some n → n ∈ a.namespaces) (hf : ∀ first, Succeeds (f first) ↔ p) :
    Succeeds (match ns with
      | some ns => Bytes.reference <$> a.namespaceIndex ns >>= f
      | none => pure [] >>= f) ↔ p := by
  cases ns with
  | none => exact hf []
  | some ns =>
    exact (succeeds_map.2 (succeeds_namespaceIndex (h ns rfl))).bind_iff fun first _ => hf first

theorem succeeds_instanceBytes {cls : ClassDefinition} (h : ∀ use ∈ cls.uses, a.Covers use)
    (hn : ∀ n ∈ cls.counts, n < countLimit) :
    Succeeds (a.instanceBytes count cls) ↔
      ∀ t ∈ cls.instanceTraits, ∀ i ∈ t.metadata, i.toNat < count := by
  obtain ⟨⟨hname, hsuper⟩, hprotected, hinterfaces, ⟨hconstructor, htraits⟩, -⟩ := covers_class h
  simp only [ClassDefinition.counts, List.forall_mem_cons, List.forall_mem_append] at hn
  have hlist : Succeeds (Bytes.list (fun interface =>
      return Bytes.reference (← a.multinameIndex interface)) cls.interfaces) :=
    (succeeds_list hn.1).2 fun name hm =>
      succeeds_bind_pure.2 (succeeds_multinameIndex (hinterfaces name hm))
  refine (succeeds_multinameIndex hname).bind_iff fun _ _ =>
    (succeeds_multinameIndex hsuper).bind_iff fun _ _ => ?_
  exact succeeds_protected_bind hprotected fun _ =>
    hlist.bind_iff fun _ _ => (succeeds_methodIndex hconstructor).bind_iff fun _ _ =>
    succeeds_bind_pure.trans (succeeds_traitsBytes htraits hn.2.1)

theorem succeeds_staticBytes {cls : ClassDefinition} (h : ∀ use ∈ cls.uses, a.Covers use)
    (hn : ∀ n ∈ cls.counts, n < countLimit) :
    Succeeds (a.staticBytes count cls) ↔
      ∀ t ∈ cls.staticTraits, ∀ i ∈ t.metadata, i.toNat < count := by
  obtain ⟨-, -, -, -, hinit, htraits⟩ := covers_class h
  simp only [ClassDefinition.counts, List.forall_mem_cons, List.forall_mem_append] at hn
  exact (succeeds_methodIndex hinit).bind_iff fun _ _ =>
    succeeds_bind_pure.trans (succeeds_traitsBytes htraits hn.2.2)

/-- Classes are written exactly when the metadata that their traits name are there. -/
theorem succeeds_classesBytes {classes : List ClassDefinition}
    (h : ∀ use ∈ classes.flatMap ClassDefinition.uses, a.Covers use)
    (hlength : classes.length < countLimit)
    (hn : ∀ n ∈ classes.flatMap ClassDefinition.counts, n < countLimit) :
    Succeeds (a.classesBytes count classes) ↔
      ∀ cls ∈ classes, ∀ t ∈ cls.instanceTraits ++ cls.staticTraits,
        ∀ i ∈ t.metadata, i.toNat < count := by
  have hc (cls) (hm : cls ∈ classes) (use) (hu : use ∈ cls.uses) : a.Covers use :=
    h use (List.mem_flatMap.2 ⟨cls, hm, hu⟩)
  have hcounts (cls) (hm : cls ∈ classes) (n) (hn' : n ∈ cls.counts) : n < countLimit :=
    hn n (List.mem_flatMap.2 ⟨cls, hm, hn'⟩)
  have hinstances : Succeeds (Bytes.list (a.instanceBytes count) classes) ↔ _ :=
    (succeeds_list hlength).trans
      (forall₂_congr fun cls hm => succeeds_instanceBytes (hc cls hm) (hcounts cls hm))
  have hstatics : Succeeds (classes.mapM (a.staticBytes count)) ↔ _ :=
    mapM_isOk.trans (forall₂_congr fun cls hm => succeeds_staticBytes (hc cls hm) (hcounts cls hm))
  refine (succeeds_bind_and hinstances fun _ _ => succeeds_bind_pure.trans hstatics).trans ?_
  simp only [List.forall_mem_append, ← forall₂_and]

theorem succeeds_scriptBytes {script : Script} (h : ∀ use ∈ script.uses, a.Covers use)
    (hn : ∀ n ∈ traitCounts script.traits, n < countLimit) :
    Succeeds (a.scriptBytes count script) ↔
      ∀ t ∈ script.traits, ∀ i ∈ t.metadata, i.toNat < count := by
  rw [Script.uses, List.forall_mem_cons] at h
  exact (succeeds_methodIndex h.1).bind_iff fun _ _ =>
    succeeds_bind_pure.trans (succeeds_traitsBytes h.2 hn)

theorem succeeds_metadataBytes {entry : Metadata} (h : ∀ use ∈ entry.uses, a.Covers use)
    (hn : entry.items.length < countLimit) : Succeeds (a.metadataBytes entry) := by
  rw [Metadata.uses, List.forall_mem_cons, List.forall_mem_flatMap] at h
  refine (succeeds_nameIndex h.1).bind fun _ _ =>
    succeeds_bind_pure.2 ((succeeds_list hn).2 fun item hm => ?_)
  have hitem := h.2 item hm
  simp only [List.forall_mem_cons] at hitem
  exact (succeeds_nameIndex hitem.1).bind fun _ _ =>
    succeeds_bind_pure.2 (succeeds_nameIndex hitem.2.1)

/-! ## Constants -/

theorem succeeds_table {α : Type} {write : α → Except Fault Bytes} {xs : List α}
    (hn : xs.length + 1 < countLimit) (h : ∀ x ∈ xs, Succeeds (write x)) :
    Succeeds (Bytes.table write xs) := by
  have hcount : Succeeds (Bytes.index (if xs.isEmpty then 0 else xs.length + 1)) := by
    refine succeeds_index ?_
    split
    · exact Nat.lt_of_le_of_lt (Nat.zero_le _) hn
    · exact hn
  exact hcount.bind fun _ _ => succeeds_bind_pure.2 (mapM_isOk.2 h)

theorem succeeds_text {s : String} (h : (Utf8.encode s).length < countLimit) :
    Succeeds (Bytes.text s) := succeeds_bind_pure.2 (succeeds_index h)

theorem succeeds_namespaceSetBytes {set : NamespaceSet} (hn : set.members.length < countLimit)
    (h : ∀ ns ∈ set.members, ns ∈ a.namespaces) : Succeeds (a.namespaceSetBytes set) :=
  (succeeds_list hn).2 fun ns hm => succeeds_bind_pure.2 (succeeds_namespaceIndex (h ns hm))

theorem succeeds_multinamePartBytes {earlier : List Multiname} {name : Multiname}
    (hsub : ∀ n ∈ earlier, n ∈ a.multinames) (hn : name.Countable)
    (h : a.CoversParts earlier name) : Succeeds (a.multinamePartBytes name) := by
  cases name with
  | qualified attr ns name =>
    exact (succeeds_namespaceIndex h.2).bind fun _ _ =>
      succeeds_bind_pure.2 (succeeds_nameIndex h.1)
  | runtimeQualified attr name => exact succeeds_bind_pure.2 (succeeds_nameIndex h)
  | runtime attr => exact succeeds_ok _
  | ambiguous attr name set =>
    exact (succeeds_nameIndex h.1).bind fun _ _ =>
      succeeds_bind_pure.2 (succeeds_namespaceSetIndex h.2)
  | late attr set => exact succeeds_bind_pure.2 (succeeds_namespaceSetIndex h)
  | applied base params =>
    refine (succeeds_multinameIndex (hsub base h.1)).bind fun _ _ => succeeds_bind_pure.2 ?_
    exact (succeeds_list hn).2 fun p hp =>
      succeeds_bind_pure.2 (succeeds_multinameIndex (hsub p (h.2 p hp)))

/-- **A pool whose tables are in range is written.** -/
theorem succeeds_poolBytes (closed : a.Closed) (hl : a.toPool.Legible) : Succeeds a.poolBytes := by
  obtain ⟨h₁, h₂, h₃, ⟨h₄, hstrings⟩, h₅, ⟨h₆, hsets⟩, h₇, hnames⟩ :=
    (Reader.legible_iff closed).1 hl
  have hnamespace (ns) (hm : ns ∈ a.namespaces.values.tail) : Succeeds (a.namespaceBytes ns) :=
    succeeds_bind_pure.2 (succeeds_nameIndex (closed.names ns (List.mem_of_mem_tail hm)))
  have hset (set) (hm : set ∈ a.namespaceSets.values.tail) : Succeeds (a.namespaceSetBytes set) :=
    succeeds_namespaceSetBytes (hsets set hm) (closed.members set (List.mem_of_mem_tail hm))
  have hname (name) (hm : name ∈ a.multinames.values.tail) : Succeeds (a.multinameBytes name) := by
    obtain ⟨i, hi⟩ := List.mem_iff_getElem?.1 (List.mem_of_mem_tail hm)
    refine succeeds_bind_pure.2 (succeeds_multinamePartBytes ?_ (hnames name hm)
      (closed.parts i name hi))
    exact fun n hn => List.mem_of_mem_take hn
  refine (succeeds_table h₁ fun _ _ => succeeds_ok _).bind fun _ _ =>
    (succeeds_table h₂ fun _ _ => succeeds_ok _).bind fun _ _ =>
    (succeeds_table h₃ fun _ _ => succeeds_ok _).bind fun _ _ =>
    (succeeds_table h₄ fun s hs => succeeds_text (hstrings s hs)).bind fun _ _ =>
    (succeeds_table h₅ hnamespace).bind fun _ _ => (succeeds_table h₆ hset).bind fun _ _ =>
    succeeds_bind_pure.2 (succeeds_table h₇ hname)

end

end Indexing

/-! ## Code -/

/-- The target is an instruction with one of the identities, or a distance of 24 bits. -/
def JumpTarget.Within (ids : List InstructionId) : JumpTarget → Prop
  | .instruction id => id ∈ ids
  | .offset distance => fitsS24 distance

/-- The place is an instruction with one of the identities, or the end. -/
def CodePosition.Within (ids : List InstructionId) : CodePosition → Prop
  | .instruction id => id ∈ ids
  | .finish => True
  | .offset _ => False

instance (ids : List InstructionId) : DecidablePred (JumpTarget.Within ids)
  | .instruction id => inferInstanceAs (Decidable (id ∈ ids))
  | .offset distance => inferInstanceAs (Decidable (fitsS24 distance = true))

instance (ids : List InstructionId) : DecidablePred (CodePosition.Within ids)
  | .instruction id => inferInstanceAs (Decidable (id ∈ ids))
  | .finish => .isTrue trivial
  | .offset _ => .isFalse id

/-- Nothing is wrong in the code: each instruction has the operands that it takes and an identity
    of its own, and all jumps and handlers stay within the code. -/
structure Assemblable (instructions : List Instruction) (handlers : List (Handler CodePosition)) :
    Prop where
  checked : ∀ instruction ∈ instructions,
    instruction.opcode.check instruction.operands = .ok ()
  distinct : (instructions.map Instruction.id).Nodup
  targets : ∀ instruction ∈ instructions, ∀ target ∈ instruction.targets,
    target.Within (instructions.map Instruction.id)
  places : ∀ handler ∈ handlers, ∀ place ∈ handler.places,
    place.Within (instructions.map Instruction.id)

/-- A marker for a debugger. -/
def Emission.IsMarker (emission : Emission) : Prop :=
  (∃ file, emission = debugFile file) ∨ ∃ line, emission = debugLine line

/-- The emissions are the instructions, perhaps with markers among them. -/
structure Renders (instructions : List Instruction) (emissions : List Emission) : Prop where
  ids : emissions.filterMap Emission.id? = instructions.map Instruction.id
  subset : ∀ emission ∈ emissions,
    emission.IsMarker ∨ ∃ instruction ∈ instructions, emission = .ofInstruction instruction
  superset : ∀ instruction ∈ instructions, .ofInstruction instruction ∈ emissions

section
variable {instructions : List Instruction} {emissions : List Emission}

theorem Renders.forall_iff {p : Emission → Prop} (h : Renders instructions emissions)
    (hp : ∀ marker : Emission, marker.IsMarker → p marker) :
    (∀ emission ∈ emissions, p emission) ↔
      ∀ instruction ∈ instructions, p (.ofInstruction instruction) := by
  refine ⟨fun he i hi => he _ (h.superset i hi), fun hi emission he => ?_⟩
  rcases h.subset emission he with hm | ⟨i, hmem, rfl⟩
  · exact hp emission hm
  · exact hi i hmem

theorem renders_map (instructions : List Instruction) :
    Renders instructions (instructions.map Emission.ofInstruction) where
  ids := by
    rw [List.filterMap_map]
    exact congrFun List.filterMap_eq_map _
  subset e he := by
    obtain ⟨i, hi, rfl⟩ := List.mem_map.1 he
    exact .inr ⟨i, hi, rfl⟩
  superset i hi := List.mem_map_of_mem hi

theorem renders_instrument (file : String) (instructions : List Instruction) :
    Renders instructions (Emission.instrument file instructions) := by
  have key : ∀ (instructions : List Instruction) (n : Nat), Renders instructions
      ((instructions.zipIdx n).flatMap fun entry =>
        [Emission.debugLine entry.2, .ofInstruction entry.1]) := by
    intro instructions
    induction instructions with
    | nil => exact fun _ => ⟨rfl, by simp, by simp⟩
    | cons i instructions ih =>
      intro n
      obtain ⟨hids, hsub, hsup⟩ := ih (n + 1)
      rw [List.zipIdx_cons, List.flatMap_cons]
      refine ⟨?_, ?_, ?_⟩
      · rw [List.filterMap_append, hids]
        rfl
      · simp only [List.cons_append, List.nil_append, List.forall_mem_cons]
        refine ⟨.inl (.inr ⟨n, rfl⟩), .inr ⟨i, by simp, rfl⟩, fun e he => ?_⟩
        refine (hsub e he).imp_right ?_
        rintro ⟨j, hj, he⟩
        exact ⟨j, List.mem_cons_of_mem _ hj, he⟩
      · simp only [List.cons_append, List.nil_append, List.forall_mem_cons]
        exact ⟨by simp, fun j hj => by simp [hsup j hj]⟩
  obtain ⟨hids, hsub, hsup⟩ := key instructions 1
  refine ⟨hids, List.forall_mem_cons.2 ⟨.inl (.inl ⟨file, rfl⟩), hsub⟩, fun i hi => ?_⟩
  exact List.mem_cons_of_mem _ (hsup i hi)

/-- Symbolic code is written as its instructions, perhaps with markers. -/
theorem Signature.exists_emissions (signature : Signature) (instructions : List Instruction)
    (handlers : List (Handler CodePosition)) (debug : Bool) :
    ∃ emissions, signature.emissions (.symbolic instructions handlers) debug = .ok emissions ∧
      Renders instructions emissions := by
  rw [Signature.emissions, Code.instructions]
  by_cases hd : (debug && !(Code.symbolic instructions handlers).hasDebugMarkers) = true
  · exact ⟨_, if_pos hd, renders_instrument _ _⟩
  · exact ⟨_, if_neg hd, renders_map _⟩

theorem Signature.renders_of_emissions {signature : Signature}
    {handlers : List (Handler CodePosition)} {debug : Bool}
    (h : signature.emissions (.symbolic instructions handlers) debug = .ok emissions) :
    Renders instructions emissions := by
  obtain ⟨_, h', hr⟩ := signature.exists_emissions instructions handlers debug
  cases h.symm.trans h'
  exact hr

variable {a : Indexing}

theorem succeeds_s24 {distance : Int} : Succeeds (Bytes.s24 distance) ↔ fitsS24 distance := by
  simp [Succeeds, Reader.s24_eq_ok, Reader.fitsS24_iff]

/-- The target leads over a distance of 24 bits. -/
def JumpTarget.Writable (distance : InstructionId → Except Fault Int) : JumpTarget → Prop
  | .offset d => fitsS24 d
  | .instruction id => ∃ d, distance id = .ok d ∧ fitsS24 d

theorem succeeds_operandBytes {operand : Operand} (h : ∀ use ∈ operand.uses, a.Covers use)
    (distance : InstructionId → Except Fault Int) : Succeeds (operand.bytes a distance) ↔
      ∀ target, operand.target? = some target → target.Writable distance := by
  have free {x : Except Fault Bytes} (hx : Succeeds x) (hn : operand.target? = none) :
      Succeeds x ↔ ∀ target, operand.target? = some target → target.Writable distance :=
    iff_of_true hx (by simp [hn])
  have constant (value : DefaultValue) (hv : operand.uses = [.value value]) :
      Succeeds (Bytes.reference <$> a.valueIndex value) :=
    succeeds_map.2 (Indexing.succeeds_valueIndex (h (.value value) (by simp [hv])))
  cases operand with
  | u8 | s8 | u30 => exact free (succeeds_ok _) rfl
  | int value => exact free (constant (.int value) rfl) rfl
  | uint value => exact free (constant (.uint value) rfl) rfl
  | double value => exact free (constant (.double value) rfl) rfl
  | string value => exact free (constant (.text value) rfl) rfl
  | nspace ns => exact free (constant (.nspace ns) rfl) rfl
  | multiname name =>
    exact free (succeeds_map.2 (Indexing.succeeds_multinameIndex
      (h (.multiname name) (by simp [Operand.uses])))) rfl
  | method handle =>
    exact free (succeeds_map.2 (Indexing.succeeds_methodIndex
      (h (.method handle) (by simp [Operand.uses])))) rfl
  | classRef handle =>
    exact free (succeeds_map.2 (Indexing.succeeds_classIndex
      (h (.instructionClass handle) (by simp [Operand.uses])))) rfl
  | target place =>
    have hone : (∀ target, (Operand.target place).target? = some target →
        target.Writable distance) ↔ place.Writable distance := by
      simp [Operand.target?]
    rw [hone]
    cases place with
    | offset d => exact succeeds_s24
    | instruction id =>
      simp only [Operand.bytes, JumpTarget.Writable, Succeeds, bind_eq_ok, ← succeeds_s24]
      constructor
      · rintro ⟨b, d, hd, hb⟩
        exact ⟨d, hd, b, hb⟩
      · rintro ⟨d, hd, b, hb⟩
        exact ⟨b, d, hd, hb⟩

theorem succeeds_emissionBytes {emission : Emission}
    (h : ∀ use ∈ emission.operands.flatMap Operand.uses, a.Covers use)
    (distance : InstructionId → Except Fault Int) : Succeeds (emission.bytes a distance) ↔
      ∀ target ∈ emission.operands.filterMap Operand.target?, target.Writable distance := by
  refine succeeds_bind_pure.trans (mapM_isOk.trans ((forall₂_congr fun operand hm =>
    succeeds_operandBytes (fun use hu => h use (List.mem_flatMap.2 ⟨operand, hm, hu⟩))
      distance).trans ?_))
  simp only [List.mem_filterMap]
  exact ⟨fun ht target ⟨operand, hm, he⟩ => ht operand hm target he,
    fun ht operand hm target he => ht target ⟨operand, hm, he⟩⟩

theorem mem_of_startOf? {layout : List Placement} {id : InstructionId} {s : Nat}
    (h : startOf? layout id = some s) :
    ∃ q ∈ layout, q.emission.id? = some id ∧ q.start = s := by
  obtain ⟨q, hq, rfl⟩ := Option.map_eq_some_iff.1 h
  exact ⟨q, List.mem_of_find?_eq_some hq, by simpa using List.find?_some hq, rfl⟩

theorem startOf?_isSome {layout : List Placement} {id : InstructionId} :
    (∃ s, startOf? layout id = some s) ↔
      id ∈ (layout.map Placement.emission).filterMap Emission.id? := by
  simp only [List.mem_filterMap, List.mem_map]
  constructor
  · rintro ⟨s, hs⟩
    obtain ⟨q, hq, hid, -⟩ := mem_of_startOf? hs
    exact ⟨_, ⟨q, hq, rfl⟩, hid⟩
  · rintro ⟨_, ⟨q, hq, rfl⟩, hid⟩
    have hfind : (layout.find? (·.emission.id? == some id)).isSome :=
      List.find?_isSome.2 ⟨q, hq, by simp [hid]⟩
    obtain ⟨found, hfound⟩ := Option.isSome_iff_exists.1 hfind
    exact ⟨found.start, by rw [startOf?, hfound]; rfl⟩

/-- Every distance in code below `2^23` bytes fits in 24 bits. -/
theorem writable_distanceTo {layout : List Placement} {p : Placement}
    (hsmall : ∀ q ∈ layout, q.start < q.stop ∧ q.stop < 0x800000) (hp : p ∈ layout)
    {target : JumpTarget} : target.Writable (distanceTo layout p) ↔
      target.Within ((layout.map Placement.emission).filterMap Emission.id?) := by
  cases target with
  | offset d => rfl
  | instruction id =>
    rw [JumpTarget.Within, ← startOf?_isSome]
    simp only [JumpTarget.Writable, distanceTo]
    cases hs : startOf? layout id with
    | none => simp
    | some s =>
      obtain ⟨q, hq, -, rfl⟩ := mem_of_startOf? hs
      refine iff_of_true ⟨_, rfl, Reader.fitsS24_iff.2 ?_⟩ ⟨_, rfl⟩
      have hbase : p.base ≤ p.stop := by
        have := (hsmall p hp).1
        rw [Placement.base]
        split <;> omega
      have := hsmall q hq
      have := (hsmall p hp).2
      omega

theorem succeeds_offsetOf {layout : List Placement} {length : Nat} {place : CodePosition} :
    Succeeds (offsetOf layout length place) ↔
      place.Within ((layout.map Placement.emission).filterMap Emission.id?) := by
  cases place with
  | offset bytes => simp [Succeeds, offsetOf, CodePosition.Within]
  | finish => exact iff_of_true (succeeds_ok _) trivial
  | instruction id =>
    rw [CodePosition.Within, ← startOf?_isSome, offsetOf]
    cases startOf? layout id <;> simp [Succeeds]

theorem succeeds_handler {π ρ : Type} {f : π → Except Fault ρ} {handler : Handler π} :
    Succeeds (handler.mapM f) ↔ ∀ place ∈ handler.places, Succeeds (f place) := by
  simp only [Handler.places, List.forall_mem_cons]
  refine (succeeds_bind_and Iff.rfl fun _ _ => succeeds_bind_and Iff.rfl fun _ _ =>
    succeeds_bind_pure).trans ?_
  simp

theorem Handler.uses_of_mapM {π ρ : Type} {f : π → Except Fault ρ} {handler : Handler π}
    {placed : Handler ρ} (h : handler.mapM f = .ok placed) : placed.uses = handler.uses := by
  have hcaught := caught_of_mapM h
  rw [caught, caught, Prod.mk.injEq] at hcaught
  rw [uses, uses, hcaught.1, hcaught.2]

theorem Handler.places_of_mapM {π ρ : Type} {f : π → Except Fault ρ} {handler : Handler π}
    {placed : Handler ρ} (h : handler.mapM f = .ok placed) :
    List.Forall₂ (fun place resolved => f place = .ok resolved) handler.places placed.places := by
  obtain ⟨start, hstart, h⟩ := bind_eq_ok.1 h
  obtain ⟨stop, hstop, h⟩ := bind_eq_ok.1 h
  obtain ⟨entry, hentry, h⟩ := bind_eq_ok.1 h
  rw [← pure_eq_ok.1 h]
  exact .cons hstart (.cons hstop (.cons hentry .nil))

/-- What holds of no targets at all holds of a marker. -/
theorem Renders.forall_targets {p : JumpTarget → Prop} (h : Renders instructions emissions) :
    (∀ emission ∈ emissions, ∀ target ∈ emission.operands.filterMap Operand.target?, p target) ↔
      ∀ instruction ∈ instructions, ∀ target ∈ instruction.targets, p target := by
  refine h.forall_iff fun marker hmarker => ?_
  rcases hmarker with ⟨file, rfl⟩ | ⟨line, rfl⟩ <;>
    exact fun target hm => absurd hm List.not_mem_nil

theorem within_of_bytes {layout : List Placement} {p : Placement} {target : JumpTarget}
    {bytes : Bytes} (h : (Operand.target target).bytes a (distanceTo layout p) = .ok bytes) :
    target.Within ((layout.map Placement.emission).filterMap Emission.id?) := by
  cases target with
  | offset d => exact succeeds_s24.1 ⟨bytes, h⟩
  | instruction id =>
    obtain ⟨d, hd, -⟩ := bind_eq_ok.1 h
    rw [distanceTo] at hd
    rw [JumpTarget.Within, ← startOf?_isSome]
    cases hs : startOf? layout id with
    | none => rw [hs] at hd; cases hd
    | some s => exact ⟨s, rfl⟩

/-- Nothing is wrong in code that is assembled. -/
theorem Renders.assemblable (hr : Renders instructions emissions)
    {handlers : List (Handler CodePosition)} {code : Bytes} {places : List (Handler UInt32)}
    (h : assemble a emissions handlers = .ok (code, places)) :
    Assemblable instructions handlers := by
  obtain ⟨layout, pieces, hl, hpieces, -, hplaces⟩ := assemble_eq_ok.1 h
  obtain ⟨stop, hout⟩ := laidOut_of_layOut hl
  have hids : (layout.map Placement.emission).filterMap Emission.id? =
      instructions.map Instruction.id := by rw [hout.map_emission, hr.ids]
  have hplaced (instruction) (hi : instruction ∈ instructions) :
      ∃ p ∈ layout, p.emission = .ofInstruction instruction :=
    List.mem_map.1 (hout.map_emission ▸ hr.superset instruction hi)
  constructor
  · intro instruction hi
    obtain ⟨p, hp, he⟩ := hplaced instruction hi
    have hcheck := (hout.fits p hp).1
    rwa [he] at hcheck
  · exact hr.ids ▸ hout.nodup
  · intro instruction hi target ht
    obtain ⟨p, hp, he⟩ := hplaced instruction hi
    obtain ⟨bytes, -, hb⟩ := exists_mem_left hpieces.flip hp
    obtain ⟨operand, ho, htarget⟩ := List.mem_filterMap.1 ht
    obtain ⟨written, hw, -⟩ := bind_eq_ok.1 hb
    rw [he] at hw
    obtain ⟨piece, -, hpiece⟩ := exists_mem_left (mapM_eq_ok.1 hw).flip ho
    cases operand with
    | target place =>
      cases htarget
      exact hids ▸ within_of_bytes hpiece
    | _ => cases htarget
  · intro handler hh place hp
    obtain ⟨placed, -, hm⟩ := exists_mem_left hplaces.flip hh
    exact hids ▸ succeeds_offsetOf.1 (succeeds_handler.1 ⟨placed, hm⟩ place hp)

section
variable (hr : Renders instructions emissions)
  (h : ∀ emission ∈ emissions, ∀ use ∈ emission.operands.flatMap Operand.uses, a.Covers use)
include hr h

theorem succeeds_layOut : Succeeds (layOut a 0 [] emissions) ↔
    (∀ instruction ∈ instructions, instruction.opcode.check instruction.operands = .ok ()) ∧
    (∀ instruction ∈ instructions, ∀ target ∈ instruction.targets,
      target.Writable fun _ => .ok 0) ∧
    (instructions.map Instruction.id).Nodup := by
  have hcheck : (∀ emission ∈ emissions, emission.opcode.check emission.operands = .ok ()) ↔ _ :=
    hr.forall_iff fun marker hmarker => by rcases hmarker with ⟨file, rfl⟩ | ⟨line, rfl⟩ <;> rfl
  have hbytes : (∀ emission ∈ emissions, Succeeds (emission.bytes a fun _ => .ok 0)) ↔ _ :=
    (forall₂_congr fun emission hm => succeeds_emissionBytes (h emission hm) _).trans
      hr.forall_targets
  refine layOut_isOk.trans ?_
  rw [forall₂_and, hcheck, hr.ids, and_assoc]
  exact and_congr Iff.rfl (and_congr hbytes (by simp))

/-- **Code is assembled exactly when nothing is wrong in it.** -/
theorem succeeds_assemble {handlers : List (Handler CodePosition)}
    (hsmall : ∀ layout, layOut a 0 [] emissions = .ok layout → ∀ p ∈ layout, p.stop < 0x800000) :
    Succeeds (assemble a emissions handlers) ↔ Assemblable instructions handlers := by
  have hpieces (layout : List Placement) (hl : layOut a 0 [] emissions = .ok layout) :
      Succeeds (layout.mapM fun p => p.emission.bytes a (distanceTo layout p)) ↔
        ∀ instruction ∈ instructions, ∀ target ∈ instruction.targets,
          target.Within (instructions.map Instruction.id) := by
    obtain ⟨stop, hout⟩ := laidOut_of_layOut hl
    have hplaced (p) (hp : p ∈ layout) : p.emission ∈ emissions :=
      hout.map_emission ▸ List.mem_map_of_mem hp
    have hbounds (q) (hq : q ∈ layout) : q.start < q.stop ∧ q.stop < 0x800000 :=
      ⟨(hout.tiles.start_le_of_mem hq).2.1, hsmall layout hl q hq⟩
    rw [mapM_isOk, ← hr.forall_targets, ← hr.ids, ← hout.map_emission, List.forall_mem_map]
    exact forall₂_congr fun p hp => (succeeds_emissionBytes (h _ (hplaced p hp)) _).trans
      (forall₂_congr fun target _ => writable_distanceTo hbounds hp)
  have hplaces (layout : List Placement) (hl : layOut a 0 [] emissions = .ok layout)
      (length : Nat) : Succeeds (handlers.mapM (·.mapM (offsetOf layout length))) ↔
        ∀ handler ∈ handlers, ∀ place ∈ handler.places,
          place.Within (instructions.map Instruction.id) := by
    obtain ⟨stop, hout⟩ := laidOut_of_layOut hl
    rw [← hr.ids, ← hout.map_emission]
    exact mapM_isOk.trans (forall₂_congr fun handler _ => succeeds_handler.trans
      (forall₂_congr fun place _ => succeeds_offsetOf))
  refine (succeeds_bind_and (succeeds_layOut hr h) fun layout hl =>
    succeeds_bind_and (hpieces layout hl) fun _ _ =>
    succeeds_bind_pure.trans (hplaces layout hl _)).trans ⟨?_, ?_⟩
  · rintro ⟨⟨hcheck, -, hnodup⟩, htargets, hplaces⟩
    exact ⟨hcheck, hnodup, htargets, hplaces⟩
  · rintro ⟨hcheck, hnodup, htargets, hplaces⟩
    refine ⟨⟨hcheck, fun i hi target ht => ?_, hnodup⟩, htargets, hplaces⟩
    -- a distance of 0 can always be written, so only raw distances count here
    cases target with
    | offset d => exact htargets i hi _ ht
    | instruction id => exact ⟨0, rfl, rfl⟩

end

end

/-! ## Units -/

/-- The sections of a unit as they are written. -/
structure Sections where
  pool : Bytes
  signatures : Bytes
  metadata : Bytes
  classes : Bytes
  scripts : Bytes
  bodies : Bytes

namespace Sections

/-- The bytes of all sections, after the version. -/
def bytes (s : Sections) : Bytes :=
  Bytes.u16 minorVersion ++ Bytes.u16 majorVersion ++ s.pool ++ s.signatures ++ s.metadata ++
    s.classes ++ s.scripts ++ s.bodies

end Sections

namespace CodeUnit

section
variable {unit : CodeUnit}

theorem isSome_method? {handle : MethodHandle} :
    (unit.method? handle).isSome ↔ handle.index < unit.methods.size := by
  simp [method?]

theorem isSome_class? {handle : ClassHandle} :
    (unit.class? handle).isSome ↔ handle.index < unit.classes.size := by
  simp [class?]

theorem mem_methods_iff {method : Method} :
    method ∈ unit.methods ↔ ∃ handle, unit.method? handle = some method := by
  rw [Array.mem_iff_getElem?]
  exact ⟨fun ⟨i, hi⟩ => ⟨⟨i⟩, hi⟩, fun ⟨handle, hh⟩ => ⟨handle.index, hh⟩⟩

theorem mem_classes_iff {cls : ClassDefinition} :
    cls ∈ unit.classes ↔ ∃ handle, unit.class? handle = some cls := by
  rw [Array.mem_iff_getElem?]
  exact ⟨fun ⟨i, hi⟩ => ⟨⟨i⟩, hi⟩, fun ⟨handle, hh⟩ => ⟨handle.index, hh⟩⟩

theorem lt_size_of_method? {handle : MethodHandle} {method : Method}
    (h : unit.method? handle = some method) : handle.index < unit.methods.size :=
  isSome_method?.1 (by rw [h]; rfl)

theorem lt_size_of_class? {handle : ClassHandle} {cls : ClassDefinition}
    (h : unit.class? handle = some cls) : handle.index < unit.classes.size :=
  isSome_class?.1 (by rw [h]; rfl)

theorem mem_indexedMethods {a : Indexing} {handle : MethodHandle} {method : Method} :
    (handle, method) ∈ unit.indexedMethods a ↔
      handle ∈ a.methods ∧ unit.method? handle = some method := by
  simp only [indexedMethods, List.mem_filterMap, Option.map_eq_some_iff, Prod.mk.injEq]
  constructor
  · rintro ⟨_, hm, _, h, rfl, rfl⟩
    exact ⟨hm, h⟩
  · rintro ⟨hm, h⟩
    exact ⟨handle, hm, method, h, rfl, rfl⟩

theorem assembleBody_eq_some {a : Indexing} {debug : Bool} {handle : MethodHandle}
    {method : Method} {assembled : AssembledBody} :
    assembleBody a debug handle method = .ok (some assembled) ↔
      ∃ body emissions code handlers, method.body = some body ∧
        method.emissions body.code debug = .ok emissions ∧
        assemble a emissions body.code.handlers = .ok (code, handlers) ∧
        ⟨handle, body.toFrame, code, handlers⟩ = assembled := by
  rw [assembleBody]
  cases method.body with
  | none => simp
  | some body => simp [bind_eq_ok, map_eq_ok]

theorem assembleBody_eq_none {a : Indexing} {debug : Bool} {handle : MethodHandle}
    {method : Method} : assembleBody a debug handle method = .ok none ↔ method.body = none := by
  rw [assembleBody]
  cases method.body with
  | none => simp
  | some body => simp [bind_eq_ok, map_eq_ok]

theorem mem_assembleBodies {a : Indexing} {debug : Bool} {bodies : List AssembledBody}
    (h : unit.assembleBodies a debug = .ok bodies) {assembled : AssembledBody} :
    assembled ∈ bodies ↔ ∃ handle method, (handle, method) ∈ unit.indexedMethods a ∧
      assembleBody a debug handle method = .ok (some assembled) := by
  obtain ⟨found, hf, h⟩ := bind_eq_ok.1 h
  have hf := mapM_eq_ok.1 hf
  rw [← pure_eq_ok.1 h, List.mem_filterMap]
  constructor
  · rintro ⟨_, hm, rfl⟩
    obtain ⟨⟨handle, method⟩, hmem, ha⟩ := exists_mem_left hf hm
    exact ⟨handle, method, hmem, ha⟩
  · rintro ⟨handle, method, hmem, ha⟩
    obtain ⟨other, hm, ha'⟩ := exists_mem_left hf.flip hmem
    cases ha.symm.trans ha'
    exact ⟨_, hm, rfl⟩

end

/-- What it means that a unit is written as `rebuilt`: its classes stand in `order`, and each of
    its sections is written. -/
structure Rebuilds (unit : CodeUnit) (options : EncodeOptions) (order : List ClassHandle)
    (s : Sections) (rebuilt : Rebuilt) : Prop where
  order_eq : unit.classOrderFor options.mainClass = .ok order
  index_eq : unit.index options.debugInstrumentation order = .ok rebuilt.indexing
  pool : rebuilt.indexing.poolBytes = .ok s.pool
  signatures : Bytes.list
    (fun (_, method) => rebuilt.indexing.signatureBytes (Method.toSignature method))
    (unit.indexedMethods rebuilt.indexing) = .ok s.signatures
  metadata : Bytes.list rebuilt.indexing.metadataBytes unit.metadata = .ok s.metadata
  classes : rebuilt.indexing.classesBytes unit.metadata.length
    (unit.indexedClasses rebuilt.indexing) = .ok s.classes
  scripts : Bytes.list (rebuilt.indexing.scriptBytes unit.metadata.length) unit.scripts =
    .ok s.scripts
  assembled : unit.assembleBodies rebuilt.indexing options.debugInstrumentation =
    .ok rebuilt.bodies
  bodies : Bytes.list (fun body => rebuilt.indexing.bodyBytes unit.metadata.length
    (AssembledBody.method body) body.frame body.code body.handlers) rebuilt.bodies = .ok s.bodies
  bytes_eq : s.bytes = rebuilt.bytes

theorem rebuild_eq_ok {unit : CodeUnit} {options : EncodeOptions} {rebuilt : Rebuilt} :
    unit.rebuild options = .ok rebuilt ↔ ∃ order s, unit.Rebuilds options order s rebuilt := by
  constructor
  · intro h
    obtain ⟨order, ho, h⟩ := bind_eq_ok.1 h
    obtain ⟨a, ha, h⟩ := bind_eq_ok.1 h
    obtain ⟨pool, hp, h⟩ := bind_eq_ok.1 h
    obtain ⟨signatures, hs, h⟩ := bind_eq_ok.1 h
    obtain ⟨metadata, hm, h⟩ := bind_eq_ok.1 h
    obtain ⟨classes, hc, h⟩ := bind_eq_ok.1 h
    obtain ⟨scripts, hr, h⟩ := bind_eq_ok.1 h
    obtain ⟨assembled, hb, h⟩ := bind_eq_ok.1 h
    obtain ⟨bodies, hl, h⟩ := bind_eq_ok.1 h
    rw [← pure_eq_ok.1 h]
    exact ⟨order, ⟨pool, signatures, metadata, classes, scripts, bodies⟩,
      ho, ha, hp, hs, hm, hc, hr, hb, hl, rfl⟩
  · rintro ⟨order, s, ho, ha, hp, hs, hm, hc, hr, hb, hl, he⟩
    unfold rebuild
    simp only [bind_eq_ok, pure_eq_ok]
    refine ⟨order, ho, _, ha, _, hp, _, hs, _, hm, _, hc, _, hr, _, hb, _, hl, ?_⟩
    cases rebuilt
    cases he
    rfl

end CodeUnit

end ActionBytecode
