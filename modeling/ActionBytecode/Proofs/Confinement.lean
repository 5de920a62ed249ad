/-
  ActionBytecode — operations that bring no unknown namespace into a unit.

  Most operations put into a unit what was in it before or what is passed in (`Operation.Passes`).
  So if all of that is known, every namespace in the unit stays known (`Operation.confined_run`).
  The one exception is the operation that makes a private namespace, which is also the only one that
  moves the counter of such namespaces.
-/
import ActionBytecode.Proofs.Provenance

namespace ActionBytecode

variable {known : Namespace → Prop}

/-! ## Edits -/

/-- What an edit leaves, also when it fails. -/
def leaves {σ : Type} (edit : EStateM Fault σ Unit) (s : σ) : σ :=
  match edit s with
  | .ok _ later | .error _ later => later

/-- All namespaces in the later unit are known, and no private one was numbered in between. -/
structure Confined (known : Namespace → Prop) (unit later : CodeUnit) : Prop where
  namespaces : later.Over known
  next : later.nextPrivate = unit.nextPrivate

theorem Confined.trans {a b c : CodeUnit} (h : Confined known a b) (h' : Confined known b c) :
    Confined known a c :=
  ⟨h'.namespaces, h'.next.trans h.next⟩

theorem CodeUnit.Over.confined {unit : CodeUnit} (h : unit.Over known) : Confined known unit unit :=
  ⟨h, rfl⟩

namespace Edit

section
variable {α β : Type}

/-- The edit brings no namespace into a unit but known ones. -/
def Confines (known : Namespace → Prop) (edit : Edit α) : Prop :=
  ∀ unit, unit.Over known → Confined known unit (edit.after unit)

/-- What is done next can depend on the answer. -/
theorem confined_bind {x : Edit α} {f : α → Edit β} {unit : CodeUnit}
    (hx : Confined known unit (x.after unit))
    (hf : ∀ a later, x unit = .ok a later → later.Over known →
      Confined known later ((f a).after later)) :
    Confined known unit ((x >>= f).after unit) := by
  rw [after_bind]
  cases hr : x unit with
  | ok a later =>
    rw [after_of_ok hr] at hx
    exact hx.trans (hf a later hr hx.namespaces)
  | error fault later =>
    rw [after_of_error hr] at hx
    exact hx

theorem Confines.bind {x : Edit α} {f : α → Edit β} (h : Confines known x)
    (h' : ∀ a, Confines known (f a)) : Confines known (x >>= f) :=
  fun unit hu => confined_bind (h unit hu) fun a later _ => h' a later

theorem confines_pure (a : α) : Confines known (pure a) := fun _ hu => hu.confined

theorem confines_throw (fault : Fault) : Confines known (throw fault : Edit α) :=
  fun _ hu => hu.confined

theorem confines_get : Confines known get := fun _ hu => hu.confined

theorem confines_ofExcept (x : Except Fault α) : Confines known (ofExcept x) := by
  cases x
  · exact confines_throw _
  · exact confines_pure _

theorem confines_forget : Confines known forget :=
  fun _ hu => ⟨⟨hu.pool, hu.methods, hu.classes, hu.scripts⟩, rfl⟩

theorem confines_requireMethod (handle : MethodHandle) : Confines known (requireMethod handle) := by
  refine confines_get.bind fun unit => ?_
  cases unit.method? handle
  · exact confines_throw _
  · exact confines_pure _

theorem confines_requireClass (handle : ClassHandle) : Confines known (requireClass handle) := by
  refine confines_get.bind fun unit => ?_
  cases unit.class? handle
  · exact confines_throw _
  · exact confines_pure _

theorem Confines.forM {f : α → Edit Unit} {xs : List α} (h : ∀ x ∈ xs, Confines known (f x)) :
    Confines known (xs.forM f) := by
  induction xs with
  | nil => exact confines_pure _
  | cons x xs ih =>
    rw [List.forall_mem_cons] at h
    exact h.1.bind fun _ => ih h.2

theorem confines_pool {f : Pool → Pool} (h : ∀ pool : Pool, pool.Over known → (f pool).Over known) :
    Confines known (pool f) :=
  fun _ hu => ⟨⟨h _ hu.pool, hu.methods, hu.classes, hu.scripts⟩, rfl⟩

theorem confines_multiname {name : Multiname} (h : (Constant.multiname name).Over known) :
    Confines known (pool (·.addMultiname name)) :=
  confines_pool fun _ hp => hp.addMultiname name h

theorem confines_multinames {names : List Multiname}
    (h : ∀ name ∈ names, (Constant.multiname name).Over known) :
    Confines known (pool (·.addMultinames names)) :=
  confines_pool fun _ hp => hp.addMultinames names h

end

/-! ## Creation -/

/-- A namespace that is not private joins the pool. -/
theorem confines_createNamespace {kind : NamespaceKind} (hkind : kind ≠ .privateMembers)
    (hcommon : ∀ ns, ns.kind ≠ .privateMembers → known ns) (name : String) :
    Confines known (createNamespace kind name) := by
  refine confines_get.bind fun unit => ?_
  rw [if_neg hkind]
  exact (confines_pool fun _ hp => hp.addNamespace (hcommon _ hkind)).bind fun _ => confines_pure _

theorem confines_createNamespaceSet {members : List Namespace} (h : ∀ ns ∈ members, known ns) :
    Confines known (createNamespaceSet members) :=
  (confines_pool fun _ hp => hp.addNamespaceSet fun ns hns =>
    h ns (NamespaceSet.mem_ofList.1 hns)).bind fun _ => confines_pure _

/-- The namespaces in a multiname that is made of parts are those in the parts. -/
theorem over_ofParts {kind : MultinameKind} {name : Option String} {ns : Option Namespace}
    {set : Option NamespaceSet} (hns : ∀ n, ns = some n → known n)
    (hset : ∀ s, set = some s → ∀ n ∈ s, known n) {made : Multiname}
    (h : Multiname.ofParts kind name ns set none = .ok made) :
    (Constant.multiname made).Over known := by
  refine Constant.over_multiname fun d hd => ?_
  cases kind <;> cases ns <;> cases set <;> cases h <;> cases hd <;> simp_all

theorem confines_createMultiname {kind : MultinameKind} {name : Option String}
    {ns : Option Namespace} {set : Option NamespaceSet} (hns : ∀ n, ns = some n → known n)
    (hset : ∀ s, set = some s → ∀ n ∈ s, known n) :
    Confines known (createMultiname kind name ns set) := by
  rw [createMultiname]
  have hrest : Confines known (do
      let name ← ofExcept (Multiname.ofParts kind name ns set none)
      pool (·.addMultiname name)
      pure name) := by
    cases hmade : Multiname.ofParts kind name ns set none with
    | error fault => exact confines_throw _
    | ok made =>
      rw [ofExcept_ok_bind]
      exact (confines_multiname (over_ofParts hns hset hmade)).bind fun _ => confines_pure _
  split
  · exact (confines_throw _).bind fun _ => hrest
  · exact hrest

theorem confines_createApplication {base : Multiname} {params : List Multiname}
    (hbase : (Constant.multiname base).Over known)
    (hparams : ∀ p ∈ params, (Constant.multiname p).Over known) :
    Confines known (createApplication base params) := by
  have hmade : (Constant.multiname (.applied base params)).Over known := by
    refine Constant.over_multiname ?_
    rintro _ ⟨⟩
    · exact hbase
    · next p hp => exact hparams p hp
  unfold createApplication
  split
  · exact (confines_throw _).bind fun _ => (confines_multiname hmade).bind fun _ => confines_pure _
  · exact (confines_multiname hmade).bind fun _ => confines_pure _

theorem confines_createPlatformClass (hcommon : ∀ ns, ns.kind ≠ .privateMembers → known ns)
    (dotted : String) : Confines known (createPlatformClass dotted) := by
  intro unit hu
  refine confined_bind (confines_createNamespace (by decide) hcommon _ unit hu) ?_
  intro ns later hns hlater
  have hknown : known ns := by
    cases hns
    exact hcommon _ (show NamespaceKind.package ≠ .privateMembers by decide)
  refine confines_createMultiname ?_ (by rintro _ ⟨⟩) later hlater
  rintro _ ⟨⟩
  exact hknown

theorem confines_admitOperand {operand : Operand}
    (h : ∀ c, operand.constant? = some c → c.Over known) :
    Confines known (admitOperand operand) := by
  cases operand with
  | int value => exact confines_pool fun _ hp => hp.addInt value
  | uint value => exact confines_pool fun _ hp => hp.addUint value
  | double value => exact confines_pool fun _ hp => hp.addDouble value
  | string value => exact confines_pool fun _ hp => hp.addString value
  | nspace ns => exact confines_pool fun _ hp => hp.addNamespace (Constant.over_nspace.1 (h _ rfl))
  | multiname name => exact confines_multiname (h _ rfl)
  | method handle => exact (confines_requireMethod handle).bind fun _ => confines_pure _
  | classRef handle => exact (confines_requireClass handle).bind fun _ => confines_pure _
  | u8 | s8 | u30 | target => exact confines_pure _

theorem confines_createInstruction {opcode : Opcode} {operands : List Operand}
    (h : ∀ operand ∈ operands, ∀ c, operand.constant? = some c → c.Over known) :
    Confines known (createInstruction opcode operands) :=
  (confines_ofExcept _).bind fun _ =>
    (Confines.forM fun operand ho => confines_admitOperand (h operand ho)).bind fun _ =>
    confines_get.bind fun _ => Confines.bind
      (fun _ hu => ⟨⟨hu.pool, hu.methods, hu.classes, hu.scripts⟩, rfl⟩) fun _ => confines_pure _

/-- What a new method refers to is what its parts refer to. -/
theorem confines_createMethod {draft : MethodDraft}
    (h : ∀ use ∈ Method.references ⟨draft.signature, draft.body⟩, use.Over known) :
    Confines known (createMethod draft) := by
  rw [createMethod]
  cases hbuild : draft.build with
  | error fault => exact confines_throw _
  | ok method =>
    obtain rfl : (⟨draft.signature, draft.body⟩ : Method) = method := by
      simp only [MethodDraft.build, ite_throw_eq_ok, pure_eq_ok] at hbuild
      exact hbuild.2.2.2
    have hsignature := (Method.over_references.1 h).1
    simp only [Signature.uses, List.forall_mem_append, List.forall_mem_cons,
      List.forall_mem_map] at hsignature
    have hjoin (handle : MethodHandle) : Confines known (modify fun unit =>
        { unit with
          methods := unit.methods.push ⟨draft.signature, draft.body⟩
          methodOrder := unit.methodOrder ++ [handle]
          written := none }) :=
      fun _ hu => ⟨⟨hu.pool, forall_mem_push hu.methods h, hu.classes, hu.scripts⟩, rfl⟩
    rw [ofExcept_ok_bind]
    refine (confines_multiname (hsignature.1.1.1 _ rfl)).bind fun _ =>
      (confines_multinames fun name hn => hsignature.1.1.2 name hn _ rfl).bind fun _ => ?_
    cases draft.signature.name with
    | none => exact confines_get.bind fun _ => (hjoin _).bind fun _ => confines_pure _
    | some name =>
      exact (confines_pool fun _ hp => hp.addString name).bind fun _ =>
        confines_get.bind fun _ => (hjoin _).bind fun _ => confines_pure _

/-- The class that is extended is named as it is in the unit, or as it is passed in. -/
theorem over_superName {extended : ClassReference}
    (hextended : ∀ n, extended = .platform n → (Constant.multiname n).Over known)
    {unit later : CodeUnit} {found : Multiname} (hu : unit.Over known)
    (hs : superName extended unit = .ok found later) : (Constant.multiname found).Over known := by
  cases extended with
  | platform given =>
    cases hs
    exact hextended _ rfl
  | defined handle =>
    obtain ⟨cls, _, hr, hs⟩ := run_bind_eq_ok.1 hs
    cases hs
    rw [requireClass, run_get_bind] at hr
    cases hc : unit.class? handle with
    | none =>
      rw [hc] at hr
      cases hr
    | some found =>
      rw [hc] at hr
      cases hr
      exact hu.classes cls (CodeUnit.mem_classes_iff.2 ⟨handle, hc⟩) (.multiname cls.name)
        (by simp [ClassDefinition.uses]) _ rfl

theorem confines_createClass {name : Multiname} {extended : ClassReference}
    (hname : (Constant.multiname name).Over known)
    (hextended : ∀ n, extended = .platform n → (Constant.multiname n).Over known)
    (constructor staticInit : MethodHandle) :
    Confines known (createClass name extended constructor staticInit) := by
  have hmethod (handle : MethodHandle) : Confines known (discard (requireMethod handle)) :=
    (confines_requireMethod handle).bind fun _ => confines_pure _
  have hsuper : Confines known (superName extended) := by
    cases extended with
    | defined handle => exact (confines_requireClass handle).bind fun _ => confines_pure _
    | platform name => exact confines_pure _
  refine (hmethod constructor).bind fun _ => (hmethod staticInit).bind fun _ unit hu =>
    confined_bind (hsuper unit hu) fun superName later hs hlater => ?_
  have hfound := over_superName hextended hu hs
  have hjoin (handle : ClassHandle) : Confines known (modify fun unit =>
      { unit with
        classes := unit.classes.push { name, superName, constructor, staticInit }
        classOrder := unit.classOrder ++ [handle]
        written := none }) := by
    refine fun _ hu => ⟨⟨hu.pool, hu.methods, forall_mem_push hu.classes ?_, hu.scripts⟩, rfl⟩
    refine forall_over_iff.2 fun c hc => ?_
    rcases ClassDefinition.mentions_uses.1 hc with
      rfl | rfl | ⟨_, ⟨⟩, -⟩ | ⟨_, ⟨⟩, -⟩ | ⟨_, ⟨⟩, -⟩ | ⟨_, ⟨⟩, -⟩
    · exact hname
    · exact hfound
  exact ((confines_multiname hname).bind fun _ => (confines_multiname hfound).bind fun _ =>
    confines_get.bind fun _ => (hjoin _).bind fun _ => confines_pure _) later hlater

theorem confines_createScript {init : MethodHandle} {traits : List Trait}
    (h : ∀ use ∈ Script.uses ⟨init, traits⟩, use.Over known) :
    Confines known (createScript init traits) := by
  have htraits := List.forall_mem_flatMap.1 (List.forall_mem_cons.1 h).2
  have hnames : ∀ name ∈ traits.map Trait.name, (Constant.multiname name).Over known := by
    refine List.forall_mem_map.2 fun t ht => ?_
    exact htraits t ht (.multiname t.name) List.mem_cons_self _ rfl
  have hjoin : Confines known (modify fun unit =>
      { unit with scripts := unit.scripts ++ [⟨init, traits⟩], written := none }) :=
    fun _ hu => ⟨⟨hu.pool, hu.methods, hu.classes,
      List.forall_mem_append.2 ⟨hu.scripts, List.forall_mem_singleton.2 h⟩⟩, rfl⟩
  exact ((confines_requireMethod init).bind fun _ => confines_pure _).bind fun _ =>
    (confines_multinames hnames).bind fun _ => confines_get.bind fun _ =>
    hjoin.bind fun _ => confines_pure _

theorem confines_createMetadata (name : String) (items : List (Option String × String)) :
    Confines known (createMetadata name items) := by
  have hitems (pool : Pool) (hp : pool.Over known) : (items.foldl addItem pool).Over known := by
    induction items generalizing pool with
    | nil => exact hp
    | cons item items ih =>
      obtain ⟨_ | key, value⟩ := item
      · exact ih _ (hp.addString value)
      · exact ih _ ((hp.addString key).addString value)
  have hjoin : Confines known (modify fun unit =>
      { unit with metadata := unit.metadata ++ [⟨name, items⟩], written := none }) :=
    fun _ hu => ⟨⟨hu.pool, hu.methods, hu.classes, hu.scripts⟩, rfl⟩
  exact (confines_pool fun _ hp => hitems _ (hp.addString name)).bind fun _ =>
    confines_get.bind fun _ => hjoin.bind fun _ => confines_pure _

/-! ## Changes -/

section
variable {unit : CodeUnit} {handle : MethodHandle} (hu : unit.Over known)
include hu

/-- A method was changed. -/
theorem confined_modify {i : Nat} {f : Method → Method}
    (h : ∀ method, unit.methods[i]? = some method → ∀ use ∈ (f method).references, use.Over known) :
    Confined known unit { unit with methods := unit.methods.modify i f, written := none } :=
  ⟨⟨hu.pool, forall_mem_modify hu.methods h, hu.classes, hu.scripts⟩, rfl⟩

theorem confined_editSignature {f : Signature → Signature}
    (h : ∀ method, unit.method? handle = some method →
      ∀ use ∈ (f method.toSignature).uses, use.Over known) :
    Confined known unit ((editSignature handle f).after unit) := by
  refine confined_modify hu (i := handle.index)
    (f := fun method => { method with toSignature := f method.toSignature }) fun method hm => ?_
  obtain ⟨-, hbody⟩ := Method.over_references.1 (hu.methods method (Array.mem_of_getElem? hm))
  exact Method.over_references.2 ⟨h method hm, hbody⟩

theorem confined_editFrame {f : Frame → Frame}
    (h : ∀ method body, unit.method? handle = some method → method.body = some body →
      ∀ t ∈ (f body.toFrame).traits, ∀ use ∈ t.uses, use.Over known) :
    Confined known unit ((editFrame handle f).after unit) := by
  refine confined_modify hu (i := handle.index) (f := fun method => { method with
    body := method.body.map fun body => { body with toFrame := f body.toFrame } })
    fun method hm => ?_
  obtain ⟨hsignature, hold⟩ :=
    Method.over_references.1 (hu.methods method (Array.mem_of_getElem? hm))
  refine Method.over_references.2 ⟨hsignature, fun later hl => ?_⟩
  obtain ⟨body, hb, rfl⟩ := Option.map_eq_some_iff.1 hl
  exact ⟨h method body hm hb, (hold body hb).2⟩

/-- Only the code that the change leaves matters. -/
theorem confined_editCode {f : Code → Code × Except Fault Unit}
    (h : ∀ code, unit.code? handle = some code → (f code).1.Over known) :
    Confined known unit ((editCode handle f).after unit) := by
  rw [editCode]
  refine confined_bind (confines_forget unit hu) fun _ forgotten hf hforgotten => ?_
  cases hf
  refine confined_bind (confines_get _ hforgotten) fun _ _ hg _ => ?_
  cases hg
  cases hb : ({ unit with written := none }.method? handle).bind (·.body) with
  | none => exact hforgotten.confined
  | some body =>
    obtain ⟨method, hm, hbody⟩ := Option.bind_eq_some_iff.1 hb
    have hcode : unit.code? handle = some body.code :=
      Option.bind_eq_some_iff.2 ⟨method, hm, Option.map_eq_some_iff.2 ⟨body, hbody, rfl⟩⟩
    refine confined_bind (confined_modify hforgotten (i := handle.index)
      (f := fun method => { method with body := some { body with code := (f body.code).1 } }) ?_)
      fun _ later _ => ((confines_ofExcept _).bind fun _ => confines_pure true) later
    intro same hsame
    cases hm.symm.trans hsame
    obtain ⟨hsignature, hold⟩ :=
      Method.over_references.1 (hu.methods method (Array.mem_of_getElem? hm))
    refine Method.over_references.2 ⟨hsignature, ?_⟩
    rintro _ ⟨⟩
    exact ⟨(hold body hbody).1, h body.code hcode⟩

/-- What the code of the unit refers to is known. -/
theorem over_code {code : Code} (hc : unit.code? handle = some code) : code.Over known := by
  obtain ⟨method, hm, hc⟩ := Option.bind_eq_some_iff.1 hc
  obtain ⟨body, hb, rfl⟩ := Option.map_eq_some_iff.1 hc
  exact ((Method.over_references.1 (hu.methods method (Array.mem_of_getElem? hm))).2 body hb).2

theorem confined_editInstructions {edit : EStateM Fault (List Instruction) Unit}
    (h : ∀ instructions handlers, unit.code? handle = some (.symbolic instructions handlers) →
      ∀ instruction ∈ leaves edit instructions, ∀ operand ∈ instruction.operands,
        ∀ use ∈ operand.uses, use.Over known) :
    Confined known unit ((editInstructions handle edit).after unit) := by
  refine confined_editCode hu fun code hc => ?_
  have hcode := over_code hu hc
  cases code with
  | raw bytes handlers => exact hcode
  | symbolic instructions handlers =>
    have hleft := h instructions handlers hc
    unfold leaves at hleft
    dsimp only
    cases he : edit instructions with
    | ok _ later | error _ later =>
      rw [he] at hleft
      exact ⟨hcode.1, hleft⟩

theorem confined_editHandlers {edit : EStateM Fault (List (Handler CodePosition)) Unit}
    (h : ∀ instructions handlers, unit.code? handle = some (.symbolic instructions handlers) →
      ∀ handler ∈ leaves edit handlers, ∀ use ∈ handler.uses, use.Over known) :
    Confined known unit ((editHandlers handle edit).after unit) := by
  refine confined_editCode hu fun code hc => ?_
  have hcode := over_code hu hc
  cases code with
  | raw bytes handlers => exact hcode
  | symbolic instructions handlers =>
    have hleft := h instructions handlers hc
    unfold leaves at hleft
    dsimp only
    cases he : edit handlers with
    | ok _ later | error _ later =>
      rw [he] at hleft
      exact ⟨hleft, hcode.2⟩

theorem confined_editClass {handle : ClassHandle} {f : ClassDefinition → ClassDefinition}
    (h : ∀ cls, unit.class? handle = some cls → ∀ use ∈ (f cls).uses, use.Over known) :
    Confined known unit ((editClass handle f).after unit) :=
  ⟨⟨hu.pool, hu.methods, forall_mem_modify hu.classes h, hu.scripts⟩, rfl⟩

theorem confined_editScripts {f : List Script → List Script}
    (h : ∀ script ∈ f unit.scripts, ∀ use ∈ script.uses, use.Over known) :
    Confined known unit ((editScripts f).after unit) :=
  ⟨⟨hu.pool, hu.methods, hu.classes, h⟩, rfl⟩

end

/-! ## Code that changes form -/

theorem confines_convert (handle : MethodHandle) : Confines known (convert handle) := by
  intro unit hu
  cases hm : unit.method? handle with
  | none =>
    rw [after_of_error (convert_of_none hm)]
    exact hu.confined
  | some method =>
    have hconvert := convert_of_some hm
    cases hd : method.disassemble unit.tables unit.nextInstruction with
    | error fault next =>
      rw [hd] at hconvert
      rw [after_of_error hconvert]
      exact ⟨⟨hu.pool, hu.methods, hu.classes, hu.scripts⟩, rfl⟩
    | ok converted next =>
      rw [hd] at hconvert
      rw [after_of_ok hconvert]
      refine ⟨⟨hu.pool, fun later hl => ?_, hu.classes, hu.scripts⟩, rfl⟩
      rcases Array.mem_or_eq_of_mem_setIfInBounds hl with hl | rfl
      · exact hu.methods later hl
      · have hold := hu.methods method (Array.mem_of_getElem? hm)
        rcases Method.stays_of_disassemble hd with rfl | hconverted
        · exact hold
        · exact hconverted.over hu.pool hold

theorem confines_disassembleMethod (handle : MethodHandle) :
    Confines known (disassembleMethod handle) := by
  refine (confines_convert handle).bind fun raw => ?_
  cases raw
  · exact confines_pure _
  · exact confines_forget

theorem confines_disassemble : Confines known disassemble :=
  fun _ hu => ⟨hu.disassemble.1, hu.disassemble.2⟩

theorem confines_markTampered : Confines known markTampered :=
  confines_disassemble.bind fun _ => confines_forget

theorem confined_encode {unit : CodeUnit} (hu : unit.Over known) (ho : unit.Ordered)
    (hglobal : known .global) (options : EncodeOptions) :
    Confined known unit ((encode options).after unit) := by
  have hplain := confines_disassemble unit hu
  cases he : encode options unit with
  | error fault later =>
    rw [after_of_error he]
    rcases (encode_eq_error.1 he).2 with hd | ⟨hd, -⟩
    · rwa [after_of_error hd] at hplain
    · rwa [after_of_ok hd] at hplain
  | ok bytes later =>
    rw [after_of_ok he]
    rcases encode_eq_ok.1 he with ⟨-, rfl⟩ | ⟨-, plain, rebuilt, hd, hr, -, rfl⟩
    · exact hu.confined
    · rw [after_of_ok hd] at hplain
      have hordered := ho.kept (keeps_disassemble.of_ok hd)
      exact ⟨hplain.namespaces.commit hordered (plain_of_disassemble hd) hglobal hr, hplain.next⟩

end Edit

/-! ## Operations -/

/-- The constants that an operation is passed, one rule for each place that can hold one.  An edit
    passes what it leaves in place of what it found. -/
inductive Operation.Passes (unit : CodeUnit) : Operation → Constant → Prop
  | member {members : List Namespace} {ns : Namespace} (h : ns ∈ members) :
    Passes unit (.createNamespaceSet members) (.nspace ns)
  | qualifier {kind : MultinameKind} {name : Option String} {ns : Namespace}
    {set : Option NamespaceSet} :
    Passes unit (.createMultiname kind name (some ns) set) (.nspace ns)
  | namespaceSet {kind : MultinameKind} {name : Option String} {ns : Option Namespace}
    {set : NamespaceSet} :
    Passes unit (.createMultiname kind name ns (some set)) (.namespaceSet set)
  | base {base : Multiname} {params : List Multiname} :
    Passes unit (.createApplication base params) (.multiname base)
  | parameter {base p : Multiname} {params : List Multiname} (h : p ∈ params) :
    Passes unit (.createApplication base params) (.multiname p)
  | operand {opcode : Opcode} {operands : List Operand} {operand : Operand} {c : Constant}
    (ho : operand ∈ operands) (hc : operand.constant? = some c) :
    Passes unit (.createInstruction opcode operands) c
  | method {draft : MethodDraft} {c : Constant}
    (hc : Mentions (Method.references ⟨draft.signature, draft.body⟩) c) :
    Passes unit (.createMethod draft) c
  | className {name : Multiname} {extended : ClassReference}
    {constructor staticInit : MethodHandle} :
    Passes unit (.createClass name extended constructor staticInit) (.multiname name)
  | superName {name superName : Multiname} {constructor staticInit : MethodHandle} :
    Passes unit (.createClass name (.platform superName) constructor staticInit)
      (.multiname superName)
  | script {init : MethodHandle} {traits : List Trait} {c : Constant}
    (hc : Mentions (Script.uses ⟨init, traits⟩) c) : Passes unit (.createScript init traits) c
  | signature {handle : MethodHandle} {f : Signature → Signature} {method : Method} {c : Constant}
    (hm : unit.method? handle = some method) (hc : Mentions (f method.toSignature).uses c) :
    Passes unit (.editSignature handle f) c
  | frame {handle : MethodHandle} {f : Frame → Frame} {method : Method} {body : Body} {t : Trait}
    {c : Constant} (hm : unit.method? handle = some method) (hb : method.body = some body)
    (ht : t ∈ (f body.toFrame).traits) (hc : Mentions t.uses c) :
    Passes unit (.editFrame handle f) c
  | editedClass {handle : ClassHandle} {f : ClassDefinition → ClassDefinition}
    {cls : ClassDefinition} {c : Constant} (hm : unit.class? handle = some cls)
    (hc : Mentions (f cls).uses c) : Passes unit (.editClass handle f) c
  | editedScript {f : List Script → List Script} {script : Script} {c : Constant}
    (hs : script ∈ f unit.scripts) (hc : Mentions script.uses c) : Passes unit (.editScripts f) c
  | instruction {handle : MethodHandle} {edit : EStateM Fault (List Instruction) Unit}
    {instructions : List Instruction} {handlers : List (Handler CodePosition)}
    {instruction : Instruction} {operand : Operand} {c : Constant}
    (hm : unit.code? handle = some (.symbolic instructions handlers))
    (hi : instruction ∈ leaves edit instructions) (ho : operand ∈ instruction.operands)
    (hc : operand.constant? = some c) : Passes unit (.editInstructions handle edit) c
  | handler {handle : MethodHandle} {edit : EStateM Fault (List (Handler CodePosition)) Unit}
    {instructions : List Instruction} {handlers : List (Handler CodePosition)}
    {handler : Handler CodePosition} {c : Constant}
    (hm : unit.code? handle = some (.symbolic instructions handlers))
    (hh : handler ∈ leaves edit handlers) (hc : Mentions handler.uses c) :
    Passes unit (.editHandlers handle edit) c

/-- **Known namespaces stay among themselves when only known ones are passed.** -/
theorem Operation.confined_run {unit : CodeUnit} (hu : unit.Over known) (ho : unit.Ordered)
    (hcommon : ∀ ns, ns.kind ≠ .privateMembers → known ns) {operation : Operation}
    (hnew : ∀ name, operation ≠ .createNamespace .privateMembers name)
    (h : ∀ c, operation.Passes unit c → c.Over known) :
    Confined known unit (operation.run unit) := by
  cases operation with
  | createNamespace kind name =>
    have hkind : kind ≠ .privateMembers := fun hk => hnew name (by rw [hk])
    exact Edit.confines_createNamespace hkind hcommon name unit hu
  | createNamespaceSet members =>
    exact Edit.confines_createNamespaceSet
      (fun ns hns => Constant.over_nspace.1 (h _ (.member hns))) unit hu
  | createMultiname kind name ns set =>
    refine Edit.confines_createMultiname ?_ ?_ unit hu
    · rintro n rfl
      exact Constant.over_nspace.1 (h _ .qualifier)
    · rintro s rfl
      exact Constant.over_namespaceSet.1 (h _ .namespaceSet)
  | createApplication base params =>
    exact Edit.confines_createApplication (h _ .base) (fun p hp => h _ (.parameter hp)) unit hu
  | createPlatformClass dotted => exact Edit.confines_createPlatformClass hcommon dotted unit hu
  | createInstruction opcode operands =>
    exact Edit.confines_createInstruction (fun operand ho c hc => h c (.operand ho hc)) unit hu
  | createMethod draft =>
    exact Edit.confines_createMethod (forall_over_iff.2 fun c hc => h c (.method hc)) unit hu
  | createClass name extended constructor staticInit =>
    refine Edit.confines_createClass (h _ .className) ?_ constructor staticInit unit hu
    rintro n rfl
    exact h _ .superName
  | createScript init traits =>
    exact Edit.confines_createScript (forall_over_iff.2 fun c hc => h c (.script hc)) unit hu
  | createMetadata name items => exact Edit.confines_createMetadata name items unit hu
  | editSignature handle f =>
    exact Edit.confined_editSignature hu fun method hm =>
      forall_over_iff.2 fun c hc => h c (.signature hm hc)
  | editFrame handle f =>
    exact Edit.confined_editFrame hu fun method body hm hb t ht =>
      forall_over_iff.2 fun c hc => h c (.frame hm hb ht hc)
  | editClass handle f =>
    exact Edit.confined_editClass hu fun cls hm =>
      forall_over_iff.2 fun c hc => h c (.editedClass hm hc)
  | editScripts f =>
    exact Edit.confined_editScripts hu fun script hs =>
      forall_over_iff.2 fun c hc => h c (.editedScript hs hc)
  | editInstructions handle edit =>
    refine Edit.confined_editInstructions hu ?_
    intro instructions handlers hm instruction hi operand ho
    exact forall_over_iff.2 fun c hc => h c (.instruction hm hi ho (Operand.mentions_uses.1 hc))
  | editHandlers handle edit =>
    exact Edit.confined_editHandlers hu fun instructions handlers hm handler hh =>
      forall_over_iff.2 fun c hc => h c (.handler hm hh hc)
  | disassembleMethod handle => exact Edit.confines_disassembleMethod handle unit hu
  | disassemble => exact Edit.confines_disassemble unit hu
  | markTampered => exact Edit.confines_markTampered unit hu
  | encode options => exact Edit.confined_encode hu ho (hcommon _ (by decide)) options

end ActionBytecode
