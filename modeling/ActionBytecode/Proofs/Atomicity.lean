/-
  ActionBytecode — creation succeeds or changes nothing.

  What is created in a unit is checked before it is added.  An edit of this kind is all or nothing
  (`Edit.AllOrNothing`): it succeeds exactly on the units that it accepts, and leaves the others as
  they were.  Checks that leave the unit alone come first (`Checks.bind`), and what follows cannot
  fail (`AllOrNothing.bind_sure`).

  Instructions are the exception: their operands are checked and added in turn, so a handle that is
  not known could be met after a constant was added.  No instruction has its operands in that order,
  since a handle is always the first of them (`Opcode.handle_first`).
-/
import ActionBytecode.CodeUnit.Creation
import ActionBytecode.Proofs.Disassembly
import ActionBytecode.Proofs.Instructions

namespace ActionBytecode

namespace Edit

section
variable {α β : Type} {x : Edit α} {f : α → Edit β} {p q : CodeUnit → Prop}

/-- The edit succeeds exactly on the units that are accepted, and leaves the others as they were. -/
structure AllOrNothing (edit : Edit α) (accepted : CodeUnit → Prop) : Prop where
  succeeds : ∀ unit, (∃ a later, edit unit = .ok a later) ↔ accepted unit
  unchanged : ∀ unit fault later, edit unit = .error fault later → later = unit

/-- The edit succeeds exactly on the units that are accepted, and leaves every unit as it was. -/
structure Checks (edit : Edit α) (accepted : CodeUnit → Prop) : Prop
    extends AllOrNothing edit accepted where
  kept : ∀ unit a later, edit unit = .ok a later → later = unit

/-- The edit succeeds on every unit. -/
def Sure (edit : Edit α) : Prop := ∀ unit, ∃ a later, edit unit = .ok a later

/-! ## Edits that cannot fail -/

theorem sure_pure (a : α) : Sure (pure a) := fun unit => ⟨a, unit, rfl⟩

theorem sure_get : Sure get := fun unit => ⟨unit, unit, rfl⟩

theorem sure_modify (g : CodeUnit → CodeUnit) : Sure (modify g) := fun unit => ⟨(), g unit, rfl⟩

theorem sure_pool (g : Pool → Pool) : Sure (pool g) := sure_modify _

theorem Sure.bind (h : Sure x) (h' : ∀ a, Sure (f a)) : Sure (x >>= f) := by
  intro unit
  obtain ⟨a, middle, ha⟩ := h unit
  obtain ⟨b, later, hb⟩ := h' a middle
  exact ⟨b, later, run_bind_eq_ok.2 ⟨a, middle, ha, hb⟩⟩

theorem Sure.forM {γ : Type} {g : γ → Edit Unit} {xs : List γ} (h : ∀ c ∈ xs, Sure (g c)) :
    Sure (xs.forM g) := by
  induction xs with
  | nil => exact sure_pure ()
  | cons c xs ih =>
    rw [List.forall_mem_cons] at h
    exact h.1.bind fun _ => ih h.2

theorem Sure.allOrNothing (h : Sure x) : AllOrNothing x fun _ => True where
  succeeds unit := iff_true_intro (h unit)
  unchanged unit fault later he := by
    obtain ⟨a, middle, ha⟩ := h unit
    cases he.symm.trans ha

/-! ## Checks, and what follows them -/

theorem AllOrNothing.of_iff (h : AllOrNothing x p) (hp : ∀ unit, p unit ↔ q unit) :
    AllOrNothing x q where
  succeeds unit := (h.succeeds unit).trans (hp unit)
  unchanged := h.unchanged

theorem AllOrNothing.bind_sure (h : AllOrNothing x p) (h' : ∀ a, Sure (f a)) :
    AllOrNothing (x >>= f) p where
  succeeds unit := by
    rw [← h.succeeds unit]
    constructor
    · rintro ⟨b, later, hr⟩
      obtain ⟨a, middle, ha, -⟩ := run_bind_eq_ok.1 hr
      exact ⟨a, middle, ha⟩
    · rintro ⟨a, middle, ha⟩
      obtain ⟨b, later, hb⟩ := h' a middle
      exact ⟨b, later, run_bind_eq_ok.2 ⟨a, middle, ha, hb⟩⟩
  unchanged unit fault later he := by
    rcases run_bind_eq_error.1 he with hx | ⟨a, middle, -, hf⟩
    · exact h.unchanged unit fault later hx
    · obtain ⟨b, later', hb⟩ := h' a middle
      cases hf.symm.trans hb

/-- What follows a check is done to the unit that was checked. -/
theorem Checks.bind (h : Checks x p) (h' : ∀ a, AllOrNothing (f a) q) :
    AllOrNothing (x >>= f) fun unit => p unit ∧ q unit where
  succeeds unit := by
    constructor
    · rintro ⟨b, later, hr⟩
      obtain ⟨a, middle, ha, hb⟩ := run_bind_eq_ok.1 hr
      obtain rfl := h.kept unit a middle ha
      exact ⟨(h.succeeds middle).1 ⟨a, middle, ha⟩, ((h' a).succeeds middle).1 ⟨b, later, hb⟩⟩
    · rintro ⟨hp, hq⟩
      obtain ⟨a, middle, ha⟩ := (h.succeeds unit).2 hp
      obtain rfl := h.kept unit a middle ha
      obtain ⟨b, later, hb⟩ := ((h' a).succeeds middle).2 hq
      exact ⟨b, later, run_bind_eq_ok.2 ⟨a, middle, ha, hb⟩⟩
  unchanged unit fault later he := by
    rcases run_bind_eq_error.1 he with hx | ⟨a, middle, ha, hf⟩
    · exact h.unchanged unit fault later hx
    · obtain rfl := h.kept unit a middle ha
      exact (h' a).unchanged middle fault later hf

theorem Checks.bind_pure (h : Checks x p) (g : α → β) : Checks (x >>= fun a => pure (g a)) p where
  toAllOrNothing := h.bind_sure fun a => sure_pure (g a)
  kept unit b later hr := by
    obtain ⟨a, middle, ha, hb⟩ := run_bind_eq_ok.1 hr
    cases hb
    exact h.kept unit a later ha

theorem checks_pure (a : α) : Checks (pure a) fun _ => True where
  toAllOrNothing := (sure_pure a).allOrNothing
  kept _ _ _ h := by
    cases h
    rfl

/-- What follows a failure is never done. -/
theorem allOrNothing_throw_bind (fault : Fault) (f : α → Edit β) :
    AllOrNothing (throw fault >>= f) fun _ => False where
  succeeds unit := by
    constructor
    · rintro ⟨_, _, ⟨⟩⟩
    · exact False.elim
  unchanged _ _ _ h := by
    cases h
    rfl

/-- A result that does not hang on the unit is there or it is not. -/
theorem allOrNothing_ofExcept_bind {result : Except Fault α}
    (h : ∀ a, result = .ok a → AllOrNothing (f a) q) :
    AllOrNothing (ofExcept result >>= f) fun unit => Succeeds result ∧ q unit := by
  cases result with
  | error fault =>
    refine (allOrNothing_throw_bind fault f).of_iff fun unit => ?_
    simp [Succeeds]
  | ok a =>
    refine (h a rfl).of_iff fun unit => ?_
    simp [succeeds_ok]

/-- What is looked up in a unit is there or it is not. -/
theorem checks_lookup {find : CodeUnit → Option α} {fault : Fault}
    (h : ∀ unit, x unit = match find unit with
      | some a => .ok a unit
      | none => .error fault unit) : Checks x fun unit => (find unit).isSome where
  succeeds unit := by
    rw [h]
    cases find unit <;> simp
  unchanged unit fault later he := by
    rw [h] at he
    cases hf : find unit <;> rw [hf] at he <;> cases he
    rfl
  kept unit a later hr := by
    rw [h] at hr
    cases hf : find unit <;> rw [hf] at hr <;> cases hr
    rfl

end

theorem checks_requireMethod (handle : MethodHandle) :
    Checks (requireMethod handle) fun unit => (unit.method? handle).isSome :=
  checks_lookup fun unit => by
    rw [requireMethod, run_get_bind]
    cases unit.method? handle <;> rfl

theorem checks_requireClass (handle : ClassHandle) :
    Checks (requireClass handle) fun unit => (unit.class? handle).isSome :=
  checks_lookup fun unit => by
    rw [requireClass, run_get_bind]
    cases unit.class? handle <;> rfl

end Edit

/-! ## Names -/

/-- **The parts that a multiname needs are those of its form.** -/
theorem Multiname.succeeds_ofParts {kind : MultinameKind} {name : Option String}
    {ns : Option Namespace} {set : Option NamespaceSet}
    {application : Option (Multiname × List Multiname)} :
    Succeeds (ofParts kind name ns set application) ↔
      (kind.hasNamespace → ns.isSome) ∧ (kind.hasNamespaceSet → set.isSome) ∧
        (kind = .typeName → application.isSome) := by
  cases kind <;> cases ns <;> cases set <;> cases application <;>
    simp [Succeeds, ofParts, MultinameKind.hasNamespace, MultinameKind.hasNamespaceSet]

namespace Edit

theorem allOrNothing_createMultiname (kind : MultinameKind) (name : Option String)
    (ns : Option Namespace) (set : Option NamespaceSet) :
    AllOrNothing (createMultiname kind name ns set) fun _ => kind ≠ .typeName ∧
      (kind.hasNamespace → ns.isSome) ∧ (kind.hasNamespaceSet → set.isSome) := by
  by_cases hk : kind = .typeName
  · rw [createMultiname, if_pos hk]
    exact (allOrNothing_throw_bind _ _).of_iff fun _ => by simp [hk]
  · rw [createMultiname, if_neg hk]
    refine AllOrNothing.of_iff (allOrNothing_ofExcept_bind fun _ _ =>
      Sure.allOrNothing ((sure_pool _).bind fun _ => sure_pure _)) fun _ => ?_
    simp [Multiname.succeeds_ofParts, hk]

theorem sure_createQualified (ns : Namespace) (name : String) : Sure (createQualified ns name) := by
  intro unit
  refine ((allOrNothing_createMultiname .qName (some name) (some ns) none).succeeds unit).2 ?_
  simp [MultinameKind.hasNamespaceSet]

theorem allOrNothing_createApplication (base : Multiname) (params : List Multiname) :
    AllOrNothing (createApplication base params) fun _ => base.kind ≠ .typeName := by
  have hadd (name : Multiname) : Sure (do pool (·.addMultiname name); pure name) :=
    (sure_pool _).bind fun _ => sure_pure _
  by_cases hb : base.kind = .typeName
  · rw [createApplication, if_pos hb]
    exact (allOrNothing_throw_bind _ _).of_iff fun _ => by simp [hb]
  · rw [createApplication, if_neg hb]
    exact (hadd _).allOrNothing.of_iff fun _ => by simp [hb]

theorem sure_createNamespace (kind : NamespaceKind) (name : String) :
    Sure (createNamespace kind name) := by
  refine sure_get.bind fun unit => ?_
  have hadd (ns : Namespace) : Sure (do pool (·.addNamespace ns); pure ns) :=
    (sure_pool _).bind fun _ => sure_pure _
  by_cases hk : kind = .privateMembers
  · rw [if_pos hk]
    exact (sure_modify _).bind fun _ => hadd _
  · rw [if_neg hk]
    exact hadd _

theorem sure_createPlatformClass (dotted : String) : Sure (createPlatformClass dotted) :=
  (sure_createNamespace _ _).bind fun _ => sure_createQualified _ _

end Edit

/-! ## Instructions -/

/-- **A handle is the first operand of its instruction.** -/
theorem Opcode.handle_first {opcode : Opcode} {operands : List Operand}
    (h : opcode.check operands = .ok ()) {i : Nat} {operand : Operand}
    (hi : operands[i + 1]? = some operand) :
    operand.kind ≠ .method ∧ operand.kind ≠ .classRef := by
  have table : ∀ opcode ∈ all, ∀ kind ∈ opcode.operandKinds.tail,
      kind ≠ .method ∧ kind ≠ .classRef := by decide +kernel
  rw [(check_eq_ok.1 h).2 (i + 1) operand hi, operandKind, ← List.getElem?_tail]
  cases hk : opcode.operandKinds.tail[i]? with
  | none => decide
  | some kind => exact table opcode (mem_all opcode) kind (List.mem_of_getElem? hk)

/-- The method or the class that the operand names is in the unit. -/
def Operand.Known (unit : CodeUnit) : Operand → Prop
  | .method handle => (unit.method? handle).isSome
  | .classRef handle => (unit.class? handle).isSome
  | _ => True

namespace Edit

theorem allOrNothing_admitOperand (operand : Operand) :
    AllOrNothing (admitOperand operand) fun unit => operand.Known unit := by
  cases operand with
  | method handle => exact (checks_requireMethod handle).bind_sure fun _ => sure_pure ()
  | classRef handle => exact (checks_requireClass handle).bind_sure fun _ => sure_pure ()
  | u8 | s8 | u30 | target => exact (sure_pure ()).allOrNothing
  | int value => exact (sure_pool (·.addInt value)).allOrNothing
  | uint value => exact (sure_pool (·.addUint value)).allOrNothing
  | double value => exact (sure_pool (·.addDouble value)).allOrNothing
  | string value => exact (sure_pool (·.addString value)).allOrNothing
  | nspace ns => exact (sure_pool (·.addNamespace ns)).allOrNothing
  | multiname name => exact (sure_pool (·.addMultiname name)).allOrNothing

theorem known_of_kind {operand : Operand} (h : operand.kind ≠ .method ∧ operand.kind ≠ .classRef)
    (unit : CodeUnit) : operand.Known unit := by
  cases operand with
  | method => exact absurd rfl h.1
  | classRef => exact absurd rfl h.2
  | _ => trivial

/-- **The operands of an instruction are all admitted, or none is.** -/
theorem allOrNothing_admitOperands {opcode : Opcode} {operands : List Operand}
    (h : opcode.check operands = .ok ()) :
    AllOrNothing (operands.forM admitOperand) fun unit =>
      ∀ operand ∈ operands, operand.Known unit := by
  cases operands with
  | nil => exact (sure_pure ()).allOrNothing.of_iff fun _ => by simp
  | cons first rest =>
    have hrest : ∀ operand ∈ rest, ∀ unit, operand.Known unit := by
      intro operand hm
      obtain ⟨i, hi⟩ := List.getElem?_of_mem hm
      exact known_of_kind (Opcode.handle_first h (i := i) hi)
    have hsure : Sure (rest.forM admitOperand) := Sure.forM fun operand hm unit =>
      ((allOrNothing_admitOperand operand).succeeds unit).2 (hrest operand hm unit)
    refine ((allOrNothing_admitOperand first).bind_sure fun _ => hsure).of_iff fun unit => ?_
    rw [List.forall_mem_cons]
    exact (and_iff_left fun operand hm => hrest operand hm unit).symm

theorem allOrNothing_createInstruction (opcode : Opcode) (operands : List Operand) :
    AllOrNothing (createInstruction opcode operands) fun unit =>
      Succeeds (opcode.check operands) ∧ ∀ operand ∈ operands, operand.Known unit :=
  allOrNothing_ofExcept_bind fun _ hc => (allOrNothing_admitOperands hc).bind_sure fun _ =>
    sure_get.bind fun _ => (sure_modify _).bind fun _ => sure_pure _

end Edit

/-! ## Declarations -/

/-- The parts of the draft fit together: it has no more optional values than parameters, a name for
    each parameter if for any, and handlers that name instructions. -/
structure MethodDraft.Fits (draft : MethodDraft) : Prop where
  optional : draft.signature.optional.length ≤ draft.signature.parameters.length
  names : draft.signature.parameterNames = [] ∨
    draft.signature.parameterNames.length = draft.signature.parameters.length
  handlers : ∀ handler ∈ draft.handlers, ∀ place ∈ handler.places, place.isOffset = false

theorem MethodDraft.succeeds_build {draft : MethodDraft} : Succeeds draft.build ↔ draft.Fits := by
  simp only [build, succeeds_ite_throw]
  constructor
  · rintro ⟨hoptional, hnames, hhandlers, -⟩
    exact ⟨by omega, by simpa [or_iff_not_imp_left] using hnames, by simpa using hhandlers⟩
  · rintro ⟨hoptional, hnames, hhandlers⟩
    exact ⟨by omega, by simpa [or_iff_not_imp_left] using hnames, by simpa using hhandlers,
      succeeds_ok _⟩

/-- The class that is to be extended is in the unit, or it is one of the platform. -/
def ClassReference.Known (unit : CodeUnit) : ClassReference → Prop
  | .defined handle => (unit.class? handle).isSome
  | .platform _ => True

namespace Edit

theorem allOrNothing_createMethod (draft : MethodDraft) :
    AllOrNothing (createMethod draft) fun _ => draft.Fits := by
  refine AllOrNothing.of_iff (allOrNothing_ofExcept_bind (q := fun _ => True) fun method _ => ?_)
    fun _ => by rw [MethodDraft.succeeds_build, and_true]
  refine Sure.allOrNothing ((sure_pool _).bind fun _ => (sure_pool _).bind fun _ => ?_)
  cases method.name with
  | none => exact sure_get.bind fun _ => (sure_modify _).bind fun _ => sure_pure _
  | some name =>
    exact (sure_pool _).bind fun _ => sure_get.bind fun _ => (sure_modify _).bind fun _ =>
      sure_pure _

theorem checks_superName (extended : ClassReference) :
    Checks (superName extended) fun unit => extended.Known unit := by
  cases extended with
  | defined handle => exact (checks_requireClass handle).bind_pure ClassDefinition.name
  | platform name => exact checks_pure name

theorem allOrNothing_createClass (name : Multiname) (extended : ClassReference)
    (constructor staticInit : MethodHandle) :
    AllOrNothing (createClass name extended constructor staticInit) fun unit =>
      (unit.method? constructor).isSome ∧ (unit.method? staticInit).isSome ∧
        extended.Known unit := by
  refine ((checks_requireMethod constructor).bind_pure fun _ => ()).bind fun _ =>
    ((checks_requireMethod staticInit).bind_pure fun _ => ()).bind fun _ =>
    (checks_superName extended).bind_sure fun superName => ?_
  exact (sure_pool _).bind fun _ => (sure_pool _).bind fun _ => sure_get.bind fun _ =>
    (sure_modify _).bind fun _ => sure_pure _

theorem allOrNothing_createScript (init : MethodHandle) (traits : List Trait) :
    AllOrNothing (createScript init traits) fun unit => (unit.method? init).isSome :=
  ((checks_requireMethod init).bind_pure fun _ => ()).bind_sure fun _ => (sure_pool _).bind fun _ =>
    sure_get.bind fun _ => (sure_modify _).bind fun _ => sure_pure _

/-- **Creation succeeds or changes nothing.**  What each creation accepts is said on the right; on
    any other unit or argument it fails, and the whole unit is as before. -/
theorem creation_allOrNothing :
    (∀ kind name ns set, AllOrNothing (createMultiname kind name ns set) fun _ =>
      kind ≠ .typeName ∧ (kind.hasNamespace → ns.isSome) ∧
        (kind.hasNamespaceSet → set.isSome)) ∧
    (∀ ns name, AllOrNothing (createQualified ns name) fun _ => True) ∧
    (∀ base params, AllOrNothing (createApplication base params) fun _ =>
      base.kind ≠ .typeName) ∧
    (∀ opcode operands, AllOrNothing (createInstruction opcode operands) fun unit =>
      Succeeds (opcode.check operands) ∧ ∀ operand ∈ operands, operand.Known unit) ∧
    (∀ draft, AllOrNothing (createMethod draft) fun _ => draft.Fits) ∧
    (∀ name extended constructor staticInit,
      AllOrNothing (createClass name extended constructor staticInit) fun unit =>
        (unit.method? constructor).isSome ∧ (unit.method? staticInit).isSome ∧
          extended.Known unit) ∧
    (∀ dotted, AllOrNothing (createPlatformClass dotted) fun _ => True) ∧
    (∀ init traits, AllOrNothing (createScript init traits) fun unit =>
      (unit.method? init).isSome) :=
  ⟨allOrNothing_createMultiname, fun ns name => (sure_createQualified ns name).allOrNothing,
    allOrNothing_createApplication, allOrNothing_createInstruction, allOrNothing_createMethod,
    allOrNothing_createClass, fun dotted => (sure_createPlatformClass dotted).allOrNothing,
    allOrNothing_createScript⟩

end Edit

end ActionBytecode
