/-
  ActionBytecode — which units can be written.

  A unit that was tampered with and whose code is symbolic is written exactly when nothing is
  wrong in it (`CodeUnit.Encodable`): its handles are those of its methods and classes, parameter
  names and metadata references are right, and so is all code.  The indices are given in one walk
  over the unit and asked for in another, and no index that is asked for is missing.
-/
import ActionBytecode.Proofs.Reachability

namespace ActionBytecode

/-! ## What a unit uses -/

/-- The class that the member is bound to. -/
def Member.class? : Member → Option ClassHandle
  | .classBinding _ handle => some handle
  | .slot .. | .access .. | .function .. => none

def Operand.method? : Operand → Option MethodHandle
  | .method handle => some handle
  | _ => none

def Operand.class? : Operand → Option ClassHandle
  | .classRef handle => some handle
  | _ => none

namespace CodeUnit

/-- The methods that classes, scripts, traits and instructions name. -/
def usedMethods (unit : CodeUnit) : List MethodHandle :=
  (unit.classes.toList.flatMap fun cls => [cls.constructor, cls.staticInit]) ++
    unit.scripts.map Script.init ++ unit.allTraits.filterMap (·.member.method?) ++
    unit.operands.filterMap Operand.method?

/-- The classes that traits and instructions name. -/
def usedClasses (unit : CodeUnit) : List ClassHandle :=
  unit.allTraits.filterMap (·.member.class?) ++ unit.operands.filterMap Operand.class?

/-- Nothing is wrong in the unit. -/
structure Encodable (unit : CodeUnit) (options : EncodeOptions) : Prop where
  mainClass : ∀ name, options.mainClass = some name →
    ∃ cls ∈ unit.classes, cls.name.dotted? = some name
  methods : ∀ handle ∈ unit.usedMethods, (unit.method? handle).isSome
  classes : ∀ handle ∈ unit.usedClasses, (unit.class? handle).isSome
  parameterNames : ∀ method ∈ unit.methods, method.parameterNames = [] ∨
    method.parameterNames.length = method.parameters.length
  metadata : ∀ t ∈ unit.allTraits, ∀ i ∈ t.metadata, i.toNat < unit.metadata.length
  code : ∀ method ∈ unit.methods, ∀ frame instructions handlers,
    method.body = some ⟨frame, .symbolic instructions handlers⟩ →
      Assemblable instructions handlers

/-- The counts, the lengths of strings and the sizes of code are in range, those of constants and
    code under the indices that the unit is written with. -/
structure InRange (unit : CodeUnit) (options : EncodeOptions) : Prop where
  counts : ∀ n ∈ unit.counts, n < countLimit
  constants : ∀ order a, unit.classOrderFor options.mainClass = .ok order →
    unit.index options.debugInstrumentation order = .ok a → a.toPool.Legible
  code : ∀ order a, unit.classOrderFor options.mainClass = .ok order →
    unit.index options.debugInstrumentation order = .ok a →
    ∀ method ∈ unit.methods, ∀ body emissions layout, method.body = some body →
      method.emissions body.code options.debugInstrumentation = .ok emissions →
      layOut a 0 [] emissions = .ok layout → ∀ p ∈ layout, p.stop < 0x800000

section
variable {unit : CodeUnit}

/-! ## Valid references -/

/-- The handles that a trait names are valid. -/
def ValidTrait (unit : CodeUnit) (classes : Numbering ClassHandle) (t : Trait) : Prop :=
  (∀ handle, t.member.method? = some handle → (unit.method? handle).isSome) ∧
    ∀ handle, t.member.class? = some handle → handle ∈ classes

/-- The handle that an operand names is valid. -/
def ValidOperand (unit : CodeUnit) (classes : Numbering ClassHandle) (operand : Operand) : Prop :=
  (∀ handle, operand.method? = some handle → (unit.method? handle).isSome) ∧
    ∀ handle, operand.class? = some handle → handle ∈ classes

variable {classes : Numbering ClassHandle}

theorem validUses_trait {t : Trait} :
    (∀ use ∈ t.uses, unit.ValidUse classes use) ↔ unit.ValidTrait classes t := by
  obtain ⟨name, member, -, -, -⟩ := t
  cases member with
  | slot kind slot type value =>
    cases value <;>
    simp [Trait.uses, Member.uses, ValidUse, ValidTrait, Member.method?, Member.class?]
  | access | classBinding | function =>
    simp [Trait.uses, Member.uses, ValidUse, ValidTrait, Member.method?, Member.class?]

theorem validUses_traits {traits : List Trait} :
    (∀ use ∈ traits.flatMap Trait.uses, unit.ValidUse classes use) ↔
      ∀ t ∈ traits, unit.ValidTrait classes t := by
  rw [List.forall_mem_flatMap]
  exact forall₂_congr fun t _ => validUses_trait

theorem validUses_operand {operand : Operand} :
    (∀ use ∈ operand.uses, unit.ValidUse classes use) ↔ unit.ValidOperand classes operand := by
  cases operand <;>
  simp [Operand.uses, ValidUse, ValidOperand, Operand.method?, Operand.class?]

theorem validUses_class {cls : ClassDefinition} :
    (∀ use ∈ cls.uses, unit.ValidUse classes use) ↔
      ((unit.method? cls.constructor).isSome ∧ (unit.method? cls.staticInit).isSome) ∧
        ∀ t ∈ cls.instanceTraits ++ cls.staticTraits, unit.ValidTrait classes t := by
  simp only [ClassDefinition.uses, List.forall_mem_append, List.forall_mem_cons,
    List.forall_mem_map, validUses_traits]
  simp only [ValidUse, implies_true, true_and, List.not_mem_nil, false_implies]
  tauto

theorem validUses_script {script : Script} :
    (∀ use ∈ script.uses, unit.ValidUse classes use) ↔
      (unit.method? script.init).isSome ∧ ∀ t ∈ script.traits, unit.ValidTrait classes t := by
  rw [Script.uses, List.forall_mem_cons, validUses_traits]
  rfl

theorem validUses_metadata (entry : Metadata) :
    ∀ use ∈ entry.uses, unit.ValidUse classes use := by
  simp only [Metadata.uses, List.forall_mem_cons, List.forall_mem_flatMap]
  simp [ValidUse]

theorem validUses_signature (signature : Signature) :
    ∀ use ∈ signature.uses, unit.ValidUse classes use := by
  simp only [Signature.uses, List.forall_mem_append, List.forall_mem_cons, List.forall_mem_map]
  simp [ValidUse]

theorem validUses_handlers (handlers : List (Handler CodePosition)) :
    ∀ use ∈ handlers.flatMap Handler.uses, unit.ValidUse classes use := by
  simp only [Handler.uses, List.forall_mem_cons, List.forall_mem_flatMap]
  simp [ValidUse]

/-- The uses of a method are valid when those of its body are. -/
theorem validUses_method {method : Method} (hplain : method.isRaw = false) (debug : Bool) :
    (∃ uses, method.uses debug = .ok uses ∧ ∀ use ∈ uses, unit.ValidUse classes use) ↔
      (∀ body, method.body = some body → ∀ t ∈ body.traits, unit.ValidTrait classes t) ∧
        ∀ instruction ∈ method.instructions, ∀ operand ∈ instruction.operands,
          unit.ValidOperand classes operand := by
  obtain ⟨signature, body⟩ := method
  cases body with
  | none =>
    refine iff_of_true ⟨_, rfl, validUses_signature signature⟩ ?_
    simp [Method.instructions]
  | some body =>
    obtain ⟨frame, code⟩ := body
    cases code with
    | raw bytes handlers => cases hplain
    | symbolic instructions handlers =>
      obtain ⟨emissions, he, hr⟩ := signature.exists_emissions instructions handlers debug
      have huses : Method.uses debug ⟨signature, some ⟨frame, .symbolic instructions handlers⟩⟩ =
          .ok (signature.uses ++ emissions.flatMap (·.operands.flatMap Operand.uses) ++
            handlers.flatMap Handler.uses ++ frame.traits.flatMap Trait.uses) :=
        bind_eq_ok.2 ⟨emissions, he, rfl⟩
      have hoperands : (∀ emission ∈ emissions, ∀ operand ∈ emission.operands,
          unit.ValidOperand classes operand) ↔ _ := hr.forall_iff fun marker hm => by
        rcases hm with ⟨file, rfl⟩ | ⟨line, rfl⟩ <;>
        simp [Emission.debugFile, Emission.debugLine, ValidOperand, Operand.method?,
          Operand.class?]
      have hfree : ∀ use ∈ handlers.flatMap Handler.uses, unit.ValidUse classes use :=
        validUses_handlers handlers
      simp only [huses, Except.ok.injEq, exists_eq_left', List.forall_mem_append,
        validUses_traits, and_iff_right (validUses_signature signature), and_iff_left hfree]
      simp only [List.forall_mem_flatMap, validUses_operand, hoperands, Option.some.injEq,
        forall_eq']
      exact and_comm

theorem forall_filterMap {α β : Type} {f : α → Option β} {xs : List α} {p : β → Prop} :
    (∀ b ∈ xs.filterMap f, p b) ↔ ∀ a ∈ xs, ∀ b, f a = some b → p b := by
  simp only [List.mem_filterMap]
  exact ⟨fun h a ha b hb => h b ⟨a, ha, hb⟩, fun h b ⟨a, ha, hb⟩ => h a ha b hb⟩

/-- The handles that the unit uses, part by part. -/
theorem forall_used {p : MethodHandle → Prop} {q : ClassHandle → Prop} :
    ((∀ handle ∈ unit.usedMethods, p handle) ∧ ∀ handle ∈ unit.usedClasses, q handle) ↔
      (∀ cls ∈ unit.classes, p cls.constructor ∧ p cls.staticInit) ∧
      (∀ script ∈ unit.scripts, p script.init) ∧
      (∀ t ∈ unit.allTraits, (∀ handle, t.member.method? = some handle → p handle) ∧
        ∀ handle, t.member.class? = some handle → q handle) ∧
      (∀ method ∈ unit.methods, ∀ instruction ∈ method.instructions,
        ∀ operand ∈ instruction.operands, (∀ handle, operand.method? = some handle → p handle) ∧
        ∀ handle, operand.class? = some handle → q handle) := by
  simp only [usedMethods, usedClasses, operands, List.forall_mem_append, List.forall_mem_flatMap,
    List.forall_mem_cons, List.forall_mem_map, forall_filterMap, Array.mem_toList_iff,
    List.not_mem_nil, false_implies, implies_true, and_true, forall_and]
  tauto

/-- The references of the unit are valid when the handles that it uses are. -/
theorem valid_iff (ho : unit.Ordered) (hplain : unit.Plain) (debug : Bool)
    {order : List ClassHandle} (horder : ∀ handle, handle ∈ order ↔ handle ∈ unit.classOrder) :
    ((∀ use ∈ unit.uses order, unit.ValidUse (.ofList order) use) ∧
      unit.ValidMethods debug (.ofList order)) ↔
    (∀ handle ∈ unit.usedMethods, (unit.method? handle).isSome) ∧
      ∀ handle ∈ unit.usedClasses, (unit.class? handle).isSome := by
  have hclass (handle : ClassHandle) :
      handle ∈ Numbering.ofList order ↔ (unit.class? handle).isSome := by
    rw [Numbering.mem_ofList, horder, ho.classes, isSome_class?]
  have hclasses (cls : ClassDefinition) : cls ∈ order.filterMap unit.class? ↔
      cls ∈ unit.classes := by
    rw [List.mem_filterMap, mem_classes_iff]
    refine ⟨fun ⟨handle, _, h⟩ => ⟨handle, h⟩, fun ⟨handle, h⟩ => ⟨handle, ?_, h⟩⟩
    exact (horder handle).2 ((ho.classes handle).2 (lt_size_of_class? h))
  have hmethods : unit.ValidMethods debug (.ofList order) ↔ ∀ method ∈ unit.methods,
      (∀ body, method.body = some body → ∀ t ∈ body.traits, unit.ValidTrait (.ofList order) t) ∧
        ∀ instruction ∈ method.instructions, ∀ operand ∈ instruction.operands,
          unit.ValidOperand (.ofList order) operand := by
    simp only [ValidMethods, mem_methods_iff, forall_exists_index]
    rw [forall_comm]
    refine forall₃_congr fun method handle hm => validUses_method ?_ debug
    exact hplain method (mem_methods_iff.2 ⟨handle, hm⟩)
  have hmember (handle : MethodHandle) (hm : handle ∈ unit.methodOrder) :
      unit.ValidUse (.ofList order) (.method handle) :=
    isSome_method?.2 ((ho.methods handle).1 hm)
  have huses : (∀ use ∈ unit.uses order, unit.ValidUse (.ofList order) use) ↔
      (∀ cls ∈ unit.classes,
        ((unit.method? cls.constructor).isSome ∧ (unit.method? cls.staticInit).isSome) ∧
        ∀ t ∈ cls.instanceTraits ++ cls.staticTraits, unit.ValidTrait (.ofList order) t) ∧
      ∀ script ∈ unit.scripts, (unit.method? script.init).isSome ∧
        ∀ t ∈ script.traits, unit.ValidTrait (.ofList order) t := by
    simp only [uses, List.forall_mem_append, List.forall_mem_flatMap, List.forall_mem_map,
      validUses_class, validUses_script, hclasses]
    exact ⟨fun h => h.1.1, fun h => ⟨⟨h, hmember⟩, fun entry _ => validUses_metadata entry⟩⟩
  rw [huses, hmethods, forall_used, forall_allTraits ho]
  simp only [ValidTrait, ValidOperand, hclass, forall_and]
  tauto

/-! ## Sections -/

section
variable {debug : Bool} {order : List ClassHandle} {a : Indexing}
  (ha : unit.index debug order = .ok a)
include ha

/-- What a method refers to has an index. -/
theorem covers_signature {handle : MethodHandle} {method : Method}
    (hm : (handle, method) ∈ unit.indexedMethods a) :
    ∀ use ∈ method.toSignature.uses, a.Covers use := by
  obtain ⟨hmem, hmethod⟩ := mem_indexedMethods.1 hm
  obtain ⟨method', uses, hmethod', huses, hc⟩ := (index_spec ha).2.2.2 handle hmem
  cases hmethod.symm.trans hmethod'
  obtain ⟨signature, body⟩ := method
  cases body with
  | none =>
    cases huses
    exact hc
  | some body =>
    obtain ⟨emissions, -, huses⟩ := bind_eq_ok.1 huses
    rw [← pure_eq_ok.1 huses] at hc
    simp only [List.forall_mem_append] at hc
    exact hc.1.1.1

/-- What the body of a method refers to has an index. -/
theorem covers_body {handle : MethodHandle} {method : Method} {body : Body}
    {emissions : List Emission} (hm : (handle, method) ∈ unit.indexedMethods a)
    (hb : method.body = some body) (he : method.emissions body.code debug = .ok emissions) :
    (∀ emission ∈ emissions, ∀ use ∈ emission.operands.flatMap Operand.uses, a.Covers use) ∧
      (∀ use ∈ body.code.handlers.flatMap Handler.uses, a.Covers use) ∧
      ∀ use ∈ body.traits.flatMap Trait.uses, a.Covers use := by
  obtain ⟨hmem, hmethod⟩ := mem_indexedMethods.1 hm
  obtain ⟨method', uses, hmethod', huses, hc⟩ := (index_spec ha).2.2.2 handle hmem
  cases hmethod.symm.trans hmethod'
  obtain ⟨signature, _⟩ := method
  cases hb
  obtain ⟨emissions', he', huses⟩ := bind_eq_ok.1 huses
  cases he.symm.trans he'
  rw [← pure_eq_ok.1 huses] at hc
  simp only [List.forall_mem_append, List.forall_mem_flatMap (l := emissions)] at hc
  exact ⟨hc.1.1.2, hc.1.2, hc.2⟩

end

theorem succeeds_assembleBody {a : Indexing} {debug : Bool} {handle : MethodHandle}
    {method : Method} : Succeeds (assembleBody a debug handle method) ↔
      ∀ body, method.body = some body → ∃ emissions,
        method.emissions body.code debug = .ok emissions ∧
        Succeeds (assemble a emissions body.code.handlers) := by
  rw [assembleBody]
  cases method.body with
  | none => exact iff_of_true (succeeds_ok _) (by simp)
  | some body =>
    simp only [Option.some.injEq, forall_eq']
    cases he : method.emissions body.code debug with
    | error fault => simp [Succeeds, bind_eq_ok]
    | ok emissions =>
      simp only [Except.ok.injEq, exists_eq_left']
      exact succeeds_bind_pure

/-- Assembled code is as long as its layout, and its handlers refer to what they did. -/
theorem assembled_spec {a : Indexing} {emissions : List Emission}
    {handlers : List (Handler CodePosition)} {code : Bytes} {places : List (Handler UInt32)}
    (h : assemble a emissions handlers = .ok (code, places))
    (hsmall : ∀ layout, layOut a 0 [] emissions = .ok layout → ∀ p ∈ layout, p.stop < 0x800000) :
    code.length < 0x800000 ∧ places.length = handlers.length ∧
      ∀ use ∈ places.flatMap Handler.uses, use ∈ handlers.flatMap Handler.uses := by
  obtain ⟨layout, pieces, hlayout, hpieces, rfl, hplaces⟩ := assemble_eq_ok.1 h
  obtain ⟨stop, hout⟩ := laidOut_of_layOut hlayout
  refine ⟨?_, hplaces.length_eq.symm, fun use hu => ?_⟩
  · have := hout.length_flatten hpieces
    have := hout.tiles.stop_lt (by decide) (hsmall layout hlayout)
    omega
  · obtain ⟨placed, hp, hu⟩ := List.mem_flatMap.1 hu
    obtain ⟨handler, hh, hm⟩ := exists_mem_left hplaces hp
    exact List.mem_flatMap.2 ⟨handler, hh, Handler.uses_of_mapM hm ▸ hu⟩

/-- The counts of a unit, part by part. -/
theorem forall_counts {p : Nat → Prop} : (∀ n ∈ unit.counts, p n) ↔
    (p unit.methods.size ∧ p unit.metadata.length ∧ p unit.classes.size ∧ p unit.scripts.length) ∧
    (∀ method ∈ unit.methods, (∀ n ∈ method.toSignature.counts, p n) ∧
      ∀ body, method.body = some body → p body.code.handlers.length ∧
        ∀ n ∈ traitCounts body.traits, p n) ∧
    (∀ entry ∈ unit.metadata, p entry.items.length) ∧
    (∀ cls ∈ unit.classes, ∀ n ∈ cls.counts, p n) ∧
    (∀ script ∈ unit.scripts, ∀ n ∈ traitCounts script.traits, p n) := by
  simp only [counts, Method.counts, Body.counts, List.forall_mem_append, List.forall_mem_cons,
    List.forall_mem_flatMap, List.forall_mem_map, Array.mem_toList_iff, Option.mem_toList,
    List.not_mem_nil, false_implies, implies_true, and_true, and_assoc]

section
variable {options : EncodeOptions} {order : List ClassHandle} {a : Indexing}
  (ho : unit.Ordered) (hrange : unit.InRange options)
  (horder : unit.classOrderFor options.mainClass = .ok order)
  (ha : unit.index options.debugInstrumentation order = .ok a)
include ho hrange ha

theorem succeeds_signatures : Succeeds (Bytes.list
    (fun (_, method) => a.signatureBytes (Method.toSignature method)) (unit.indexedMethods a)) ↔
    ∀ method ∈ unit.methods, method.parameterNames = [] ∨
      method.parameterNames.length = method.parameters.length := by
  obtain ⟨⟨hsize, -⟩, hmethods, -⟩ := forall_counts.1 hrange.counts
  rw [← forall_indexedMethods ho ha]
  refine (succeeds_list ((length_indexedMethods ho ha).trans_lt hsize)).trans
    (forall₂_congr fun ⟨handle, method⟩ hm => ?_)
  refine Indexing.succeeds_signatureBytes (covers_signature ha hm) (hmethods method ?_).1
  exact mem_methods_iff.2 ⟨handle, (mem_indexedMethods.1 hm).2⟩

omit ho in
theorem succeeds_metadata : Succeeds (Bytes.list a.metadataBytes unit.metadata) := by
  obtain ⟨⟨-, hsize, -⟩, -, hentries, -⟩ := forall_counts.1 hrange.counts
  refine (succeeds_list hsize).2 fun entry hm =>
    Indexing.succeeds_metadataBytes (fun use hu => ?_) (hentries entry hm)
  refine (index_spec ha).2.2.1 use ?_
  simp only [uses, List.mem_append, List.mem_flatMap]
  exact .inr ⟨entry, hm, hu⟩

omit ho in
theorem succeeds_scripts :
    Succeeds (Bytes.list (a.scriptBytes unit.metadata.length) unit.scripts) ↔
      ∀ script ∈ unit.scripts, ∀ t ∈ script.traits, ∀ i ∈ t.metadata,
        i.toNat < unit.metadata.length := by
  obtain ⟨⟨-, -, -, hsize⟩, -, -, -, hscripts⟩ := forall_counts.1 hrange.counts
  refine (succeeds_list hsize).trans (forall₂_congr fun script hm =>
    Indexing.succeeds_scriptBytes (fun use hu => ?_) (hscripts script hm))
  refine (index_spec ha).2.2.1 use ?_
  simp only [uses, List.mem_append, List.mem_flatMap]
  exact .inl (.inl (.inr ⟨script, hm, hu⟩))

include horder

theorem succeeds_classes :
    Succeeds (a.classesBytes unit.metadata.length (unit.indexedClasses a)) ↔
      ∀ cls ∈ unit.classes, ∀ t ∈ cls.instanceTraits ++ cls.staticTraits, ∀ i ∈ t.metadata,
        i.toNat < unit.metadata.length := by
  obtain ⟨⟨-, -, hsize, -⟩, -, -, hclasses, -⟩ := forall_counts.1 hrange.counts
  have hmem (cls : ClassDefinition) : cls ∈ unit.indexedClasses a ↔ cls ∈ unit.classes :=
    mem_indexedClasses ho horder ha
  have hlength := length_indexedClasses ho horder ha
  refine (Indexing.succeeds_classesBytes ?_ (hlength.trans_lt hsize) ?_).trans
    (forall_congr' fun cls => by rw [hmem])
  · intro use hu
    obtain ⟨cls, hm, hu⟩ := List.mem_flatMap.1 hu
    refine (index_spec ha).2.2.1 use ?_
    simp only [uses, List.mem_append, List.mem_flatMap, List.mem_filterMap]
    obtain ⟨handle, hh, hcls⟩ := List.mem_filterMap.1 hm
    rw [← Numbering.mem_def, (index_spec ha).2.1, Numbering.mem_ofList] at hh
    exact .inl (.inl (.inl ⟨cls, ⟨handle, hh, hcls⟩, hu⟩))
  · intro n hn
    obtain ⟨cls, hm, hn⟩ := List.mem_flatMap.1 hn
    exact hclasses cls ((hmem cls).1 hm) n hn

/-- The code of all methods is assembled exactly when nothing is wrong in it. -/
theorem succeeds_assembleBodies (hplain : unit.Plain) :
    Succeeds (unit.assembleBodies a options.debugInstrumentation) ↔
      ∀ method ∈ unit.methods, ∀ frame instructions handlers,
        method.body = some ⟨frame, .symbolic instructions handlers⟩ →
          Assemblable instructions handlers := by
  refine succeeds_bind_pure.trans (mapM_isOk.trans ?_)
  rw [← forall_indexedMethods ho ha]
  refine forall₂_congr fun ⟨handle, method⟩ hm => succeeds_assembleBody.trans ?_
  have hmethod := mem_methods_iff.2 ⟨handle, (mem_indexedMethods.1 hm).2⟩
  constructor
  · intro h frame instructions handlers hb
    obtain ⟨emissions, he, hs⟩ := h _ hb
    exact (succeeds_assemble (Signature.renders_of_emissions he) (covers_body ha hm hb he).1
      (hrange.code order a horder ha method hmethod _ _ · hb he)).1 hs
  · rintro h ⟨frame, code⟩ hb
    cases code with
    | raw bytes handlers =>
      have := hplain method hmethod
      rw [Method.isRaw, hb] at this
      cases this
    | symbolic instructions handlers =>
      obtain ⟨emissions, he, hr⟩ :=
        method.exists_emissions instructions handlers options.debugInstrumentation
      exact ⟨emissions, he, (succeeds_assemble hr (covers_body ha hm hb he).1
        (hrange.code order a horder ha method hmethod _ _ · hb he)).2 (h _ _ _ hb)⟩

/-- Assembled bodies are written exactly when the metadata that their traits name are there. -/
theorem succeeds_bodies {bodies : List AssembledBody}
    (hb : unit.assembleBodies a options.debugInstrumentation = .ok bodies) :
    Succeeds (Bytes.list (fun body => a.bodyBytes unit.metadata.length
      (AssembledBody.method body) body.frame body.code body.handlers) bodies) ↔
      ∀ method ∈ unit.methods, ∀ body, method.body = some body → ∀ t ∈ body.traits,
        ∀ i ∈ t.metadata, i.toNat < unit.metadata.length := by
  obtain ⟨⟨hsize, -⟩, hmethods, -⟩ := forall_counts.1 hrange.counts
  have hcount : bodies.length < countLimit := by
    obtain ⟨found, hf, h⟩ := bind_eq_ok.1 hb
    rw [← pure_eq_ok.1 h]
    have hlength := (mapM_eq_ok.1 hf).length_eq
    have := length_indexedMethods ho ha
    exact (List.length_filterMap_le _ _).trans_lt (by omega)
  -- what is known of an assembled body: it is that of a method, with the same traits
  have hspec (assembled : AssembledBody) (hm : assembled ∈ bodies) :
      Succeeds (a.bodyBytes unit.metadata.length assembled.method assembled.frame assembled.code
        assembled.handlers) ↔
      ∀ t ∈ assembled.frame.traits, ∀ i ∈ t.metadata, i.toNat < unit.metadata.length := by
    obtain ⟨handle, method, hmem, hassembled⟩ := (mem_assembleBodies hb).1 hm
    obtain ⟨body, emissions, code, handlers, hbody, he, hw, rfl⟩ :=
      assembleBody_eq_some.1 hassembled
    have hmethod := mem_methods_iff.2 ⟨handle, (mem_indexedMethods.1 hmem).2⟩
    obtain ⟨hcode, hlength, huses⟩ :=
      assembled_spec hw (hrange.code order a horder ha method hmethod _ _ · hbody he)
    obtain ⟨-, hhandlers, htraits⟩ := covers_body ha hmem hbody he
    obtain ⟨hcount, htraitCounts⟩ := (hmethods method hmethod).2 body hbody
    exact Indexing.succeeds_bodyBytes (mem_indexedMethods.1 hmem).1
      (hcode.trans (by decide)) (hlength ▸ hcount) (fun use hu => hhandlers use (huses use hu))
      htraits htraitCounts
  refine (succeeds_list hcount).trans ((forall₂_congr hspec).trans
    ⟨fun h method hm body hbody => ?_, fun h assembled hm => ?_⟩)
  · obtain ⟨handle, hhandle⟩ := mem_methods_iff.1 hm
    have hindex := (mem_methods_of_index ho ha).2 (lt_size_of_method? hhandle)
    have hmem := mem_indexedMethods.2 ⟨hindex, hhandle⟩
    obtain ⟨found, hf, -⟩ := bind_eq_ok.1 hb
    obtain ⟨assembled, -, hassembled⟩ := exists_mem_left (mapM_eq_ok.1 hf).flip hmem
    obtain ⟨emissions, he, ⟨code, handlers⟩, hw⟩ :=
      succeeds_assembleBody.1 ⟨assembled, hassembled⟩ body hbody
    have hsome : assembleBody a options.debugInstrumentation handle method = .ok (some _) :=
      assembleBody_eq_some.2 ⟨body, emissions, code, handlers, hbody, he, hw, rfl⟩
    exact h _ ((mem_assembleBodies hb).2 ⟨handle, method, hmem, hsome⟩)
  · obtain ⟨handle, method, hmem, hassembled⟩ := (mem_assembleBodies hb).1 hm
    obtain ⟨body, emissions, code, handlers, hbody, he, hw, rfl⟩ :=
      assembleBody_eq_some.1 hassembled
    exact h method (mem_methods_iff.2 ⟨handle, (mem_indexedMethods.1 hmem).2⟩) body hbody

end

/-! ## Units -/

theorem succeeds_classOrderFor (ho : unit.Ordered) {mainClass : Option String} :
    Succeeds (unit.classOrderFor mainClass) ↔ ∀ name, mainClass = some name →
      ∃ cls ∈ unit.classes, cls.name.dotted? = some name := by
  cases mainClass with
  | none => exact iff_of_true (succeeds_ok _) (by simp)
  | some name =>
    have hnamed : (∃ handle, unit.classNamed? name = some handle) ↔
        ∃ cls ∈ unit.classes, cls.name.dotted? = some name := by
      constructor
      · rintro ⟨handle, h⟩
        obtain ⟨-, cls, hcls, hname⟩ := mem_of_classNamed? h
        exact ⟨cls, mem_classes_iff.2 ⟨handle, hcls⟩, hname⟩
      · rintro ⟨cls, hcls, hname⟩
        obtain ⟨handle, hm⟩ := (mem_wireClasses ho).2 hcls
        rw [← Option.isSome_iff_exists, classNamed?, Option.isSome_map, List.find?_isSome]
        exact ⟨_, hm, by simp [hname]⟩
    simp only [Option.some.injEq, forall_eq', ← hnamed, classOrderFor]
    cases unit.classNamed? name <;> simp [Succeeds]

/-- **A unit in symbolic form is rebuilt exactly when nothing is wrong in it.** -/
theorem succeeds_rebuild {options : EncodeOptions} (ho : unit.Ordered) (hplain : unit.Plain)
    (hrange : unit.InRange options) : Succeeds (unit.rebuild options) ↔ unit.Encodable options := by
  have hindex (order : List ClassHandle)
      (horder : unit.classOrderFor options.mainClass = .ok order) :
      Succeeds (unit.index options.debugInstrumentation order) ↔
        (∀ handle ∈ unit.usedMethods, (unit.method? handle).isSome) ∧
          ∀ handle ∈ unit.usedClasses, (unit.class? handle).isSome :=
    (index_isOk fun handle h => (ho.methods handle).2 (isSome_method?.1 h)).trans
      (valid_iff ho hplain _ fun _ => mem_classOrderFor horder)
  refine (succeeds_bind_and (succeeds_classOrderFor ho) fun order horder =>
    succeeds_bind_and (hindex order horder) fun a ha =>
    (Indexing.succeeds_poolBytes (index_spec ha).1
      (hrange.constants order a horder ha)).bind_iff fun _ _ =>
    succeeds_bind_and (succeeds_signatures ho hrange ha) fun _ _ =>
    (succeeds_metadata hrange ha).bind_iff fun _ _ =>
    succeeds_bind_and (succeeds_classes ho hrange horder ha) fun _ _ =>
    succeeds_bind_and (succeeds_scripts hrange ha) fun _ _ =>
    succeeds_bind_and (succeeds_assembleBodies ho hrange horder ha hplain) fun bodies hb =>
    succeeds_bind_pure.trans (succeeds_bodies ho hrange horder ha hb)).trans ?_
  constructor
  · rintro ⟨hmain, ⟨hmethods, hclasses⟩, hnames, hclassTraits, hscripts, hcode, hbodies⟩
    exact ⟨hmain, hmethods, hclasses, hnames,
      (forall_allTraits ho).2 ⟨hclassTraits, hscripts, hbodies⟩, hcode⟩
  · rintro ⟨hmain, hmethods, hclasses, hnames, htraits, hcode⟩
    obtain ⟨hclassTraits, hscripts, hbodies⟩ := (forall_allTraits ho).1 htraits
    exact ⟨hmain, ⟨hmethods, hclasses⟩, hnames, hclassTraits, hscripts, hcode, hbodies⟩

end

end CodeUnit

/-- **A unit that can be reached, in symbolic form and tampered with, is written exactly when
    nothing is wrong in it.** -/
theorem encode_succeeds_iff {unit : CodeUnit} {options : EncodeOptions} (hr : Reachable unit)
    (hplain : unit.Plain) (htampered : unit.isTampered) (hrange : unit.InRange options) :
    (∃ bytes later, Edit.encode options unit = .ok bytes later) ↔ unit.Encodable options := by
  have hcurrent : unit.current? = none := by rw [CodeUnit.current?, if_pos htampered]
  rw [← CodeUnit.succeeds_rebuild hr.ordered hplain hrange]
  simp only [Edit.encode_of_tampered hcurrent, Edit.disassemble_of_plain hplain]
  cases unit.rebuild options <;> simp [Succeeds]

/-! A class with a method that loops under an exception handler, and a script that binds it. -/

/-- The name of the class. -/
def mainName : Multiname := .qualified false (.ofKind .package "" 0) "Main"

/-- One jump, to itself. -/
def loopCode : Code :=
  .symbolic [⟨⟨0⟩, .jump, [.target (.instruction ⟨0⟩)]⟩]
    [⟨.instruction ⟨0⟩, .finish, .instruction ⟨0⟩, .any, .any⟩]

/-- The unit of the class. -/
def mainUnit : CodeUnit :=
  [.createMethod {}, .createMethod { body := some { code := loopCode } },
    .createMetadata "Event" [(some "name", "load")],
    .createClass mainName (.platform .any) ⟨0⟩ ⟨1⟩,
    .createScript ⟨0⟩ [{ name := mainName, member := .classBinding 1 ⟨0⟩, metadata := [0] }]].foldl
      (fun unit (operation : Operation) => operation.run unit) .empty

/-- The indices of the unit. -/
def mainIndexing : Indexing := ((mainUnit.index true [⟨0⟩]).toOption).getD {}

theorem index_mainUnit {order : List ClassHandle} {a : Indexing}
    (ho : mainUnit.classOrderFor (some "Main") = .ok order)
    (ha : mainUnit.index true order = .ok a) : mainIndexing = a := by
  have horder : mainUnit.classOrderFor (some "Main") = .ok [⟨0⟩] := by decide
  cases horder.symm.trans ho
  rw [mainIndexing, ha]
  rfl

theorem body_mainUnit {method : Method} (hm : method ∈ mainUnit.methods) {body : Body}
    (hb : method.body = some body) : method = { body := some { code := loopCode } } := by
  have hmethods : mainUnit.methods = #[{}, { body := some { code := loopCode } }] := by decide
  rw [hmethods] at hm
  rcases List.mem_cons.1 (Array.mem_toList_iff.2 hm) with rfl | hm
  · cases hb
  · exact List.mem_singleton.1 hm

theorem inRange_mainUnit : mainUnit.InRange ⟨true, some "Main"⟩ where
  counts := by decide
  constants order a ho ha := by
    cases index_mainUnit ho ha
    have hplain : ∀ name ∈ mainIndexing.toPool.multinames, name.application? = none := by decide
    exact ⟨by decide, by decide, by decide, fun base params h => nomatch hplain _ h⟩
  code order a ho ha method hm body emissions layout hb he hl := by
    cases index_mainUnit ho ha
    cases body_mainUnit hm hb
    cases hb
    have hall : (Signature.emissions {} loopCode true >>= layOut mainIndexing 0 []).map
        (·.all (·.stop < 0x800000)) = .ok true := by decide
    rw [bind_eq_ok.2 ⟨emissions, he, hl⟩] at hall
    simpa using Except.ok.inj hall

theorem assemblable_loopCode {frame : Frame} {instructions : List Instruction}
    {handlers : List (Handler CodePosition)}
    (h : (⟨frame, .symbolic instructions handlers⟩ : Body) = { code := loopCode }) :
    Assemblable instructions handlers := by
  cases h
  exact ⟨by decide, by decide, by decide, by decide⟩

/-- The unit of the class can be written, with markers and with the class last. -/
theorem encode_mainUnit :
    ∃ bytes later, Edit.encode ⟨true, some "Main"⟩ mainUnit = .ok bytes later := by
  have hreachable : Reachable mainUnit := ReachableBy.foldl (fun _ _ _ => trivial) .empty
  refine (encode_succeeds_iff hreachable (by decide) (by decide) inRange_mainUnit).2 ?_
  have hmetadata : mainUnit.allTraits.all (fun t =>
      t.metadata.all (·.toNat < mainUnit.metadata.length)) = true := by decide
  simp only [List.all_eq_true, decide_eq_true_eq] at hmetadata
  refine ⟨?_, by decide, by decide, by decide, hmetadata, fun method hm _ _ _ hb => ?_⟩
  · rintro name ⟨⟩
    decide
  · cases body_mainUnit hm hb
    exact assemblable_loopCode (Option.some.inj hb).symm

end ActionBytecode
