/-
  ActionBytecode — the units that can be reached.

  A unit is reached from the empty one, or from one that was read, by operations
  (`Operation`), which may also fail on the way.  Most operations keep the number of methods and
  classes and their orders (`Keeps`); a new method or class joins the order at its end, and a unit
  that is written gets new orders.  Constants join the pool after their parts, and a unit that is
  written gets a new pool too.

  `ReachableBy.ordered`: in a unit that can be reached, the orders hold the methods and the classes
  of the unit and nothing else.
-/
import ActionBytecode.CodeUnit.Creation
import ActionBytecode.CodeUnit.Decoding
import ActionBytecode.Proofs.Disassembly
import ActionBytecode.Proofs.Interning
import ActionBytecode.Proofs.Writing

namespace ActionBytecode

/-! ## Operations -/

/-- What can be done to a unit. -/
inductive Operation where
  | createNamespace (kind : NamespaceKind) (name : String)
  | createNamespaceSet (members : List Namespace)
  | createMultiname (kind : MultinameKind) (name : Option String) (ns : Option Namespace)
    (set : Option NamespaceSet)
  | createApplication (base : Multiname) (params : List Multiname)
  | createPlatformClass (dotted : String)
  | createInstruction (opcode : Opcode) (operands : List Operand)
  | createMethod (draft : MethodDraft)
  | createClass (name : Multiname) (extended : ClassReference)
    (constructor staticInit : MethodHandle)
  | createScript (init : MethodHandle) (traits : List Trait)
  | createMetadata (name : String) (items : List (Option String × String))
  | editSignature (handle : MethodHandle) (f : Signature → Signature)
  | editFrame (handle : MethodHandle) (f : Frame → Frame)
  | editClass (handle : ClassHandle) (f : ClassDefinition → ClassDefinition)
  | editScripts (f : List Script → List Script)
  | editInstructions (handle : MethodHandle) (edit : EStateM Fault (List Instruction) Unit)
  | editHandlers (handle : MethodHandle)
    (edit : EStateM Fault (List (Handler CodePosition)) Unit)
  | disassembleMethod (handle : MethodHandle)
  | disassemble
  | markTampered
  | encode (options : EncodeOptions)

/-- The unit after an edit, also when the edit fails. -/
def Edit.after {α : Type} (edit : Edit α) (unit : CodeUnit) : CodeUnit :=
  match edit unit with
  | .ok _ unit | .error _ unit => unit

theorem Edit.after_of_ok {α : Type} {edit : Edit α} {unit later : CodeUnit} {a : α}
    (h : edit unit = .ok a later) : edit.after unit = later := by
  rw [after, h]

theorem Edit.after_of_error {α : Type} {edit : Edit α} {unit later : CodeUnit} {fault : Fault}
    (h : edit unit = .error fault later) : edit.after unit = later := by
  rw [after, h]

/-- The answer of an edit, without the unit that it leaves. -/
def Edit.outcome {α : Type} (edit : Edit α) (unit : CodeUnit) : Except Fault α :=
  match edit unit with
  | .ok a _ => .ok a
  | .error fault _ => .error fault

theorem Edit.exists_ok_of_outcome {α : Type} {edit : Edit α} {unit : CodeUnit}
    (h : (edit.outcome unit).isOk = true) : ∃ a, edit unit = .ok a (edit.after unit) := by
  rw [outcome] at h
  rw [after]
  cases he : edit unit with
  | ok a later => exact ⟨a, rfl⟩
  | error fault later =>
    rw [he] at h
    cases h

/-- The unit after an operation. -/
def Operation.run : Operation → CodeUnit → CodeUnit
  | createNamespace kind name => (Edit.createNamespace kind name).after
  | createNamespaceSet members => (Edit.createNamespaceSet members).after
  | createMultiname kind name ns set => (Edit.createMultiname kind name ns set).after
  | createApplication base params => (Edit.createApplication base params).after
  | createPlatformClass dotted => (Edit.createPlatformClass dotted).after
  | createInstruction opcode operands => (Edit.createInstruction opcode operands).after
  | createMethod draft => (Edit.createMethod draft).after
  | createClass name extended constructor staticInit =>
    (Edit.createClass name extended constructor staticInit).after
  | createScript init traits => (Edit.createScript init traits).after
  | createMetadata name items => (Edit.createMetadata name items).after
  | editSignature handle f => (Edit.editSignature handle f).after
  | editFrame handle f => (Edit.editFrame handle f).after
  | editClass handle f => (Edit.editClass handle f).after
  | editScripts f => (Edit.editScripts f).after
  | editInstructions handle edit => (Edit.editInstructions handle edit).after
  | editHandlers handle edit => (Edit.editHandlers handle edit).after
  | disassembleMethod handle => (Edit.disassembleMethod handle).after
  | disassemble => Edit.disassemble.after
  | markTampered => Edit.markTampered.after
  | encode options => (Edit.encode options).after

/-- The unit can be reached by operations that are allowed where they are done. -/
inductive ReachableBy (allowed : CodeUnit → Operation → Prop) : CodeUnit → Prop
  | empty : ReachableBy allowed .empty
  | decode {bytes : Bytes} {unit : CodeUnit} (h : CodeUnit.decode bytes = .ok unit) :
    ReachableBy allowed unit
  | step {unit : CodeUnit} {operation : Operation} (h : ReachableBy allowed unit)
    (ha : allowed unit operation) : ReachableBy allowed (operation.run unit)

/-- The unit can be reached. -/
def Reachable : CodeUnit → Prop := ReachableBy fun _ _ => True

theorem ReachableBy.foldl {allowed : CodeUnit → Operation → Prop} {operations : List Operation}
    (ha : ∀ operation ∈ operations, ∀ unit, allowed unit operation) {unit : CodeUnit}
    (h : ReachableBy allowed unit) :
    ReachableBy allowed (operations.foldl (fun unit operation => operation.run unit) unit) := by
  induction operations generalizing unit with
  | nil => exact h
  | cons operation operations ih =>
    rw [List.forall_mem_cons] at ha
    exact ih ha.2 (h.step (ha.1 unit))

/-! ## What most operations keep -/

/-- The later unit has the declarations and the bytes of the earlier one.  Methods can have been
    disassembled in between, and constants can have joined. -/
structure Unedited (unit later : CodeUnit) : Prop where
  written : later.written = unit.written
  classes : later.classes = unit.classes
  scripts : later.scripts = unit.scripts
  metadata : later.metadata = unit.metadata
  methods : ∀ i : Nat, later.methods[i]? = unit.methods[i]? ∨
    ∃ method : Method, later.methods[i]? = some method ∧ method.isSymbolic = true

theorem Unedited.of_eq {unit later : CodeUnit} (written : later.written = unit.written)
    (classes : later.classes = unit.classes) (scripts : later.scripts = unit.scripts)
    (metadata : later.metadata = unit.metadata) (methods : later.methods = unit.methods) :
    Unedited unit later :=
  ⟨written, classes, scripts, metadata, fun _ => .inl (by rw [methods])⟩

theorem Unedited.trans {a b c : CodeUnit} (h : Unedited a b) (h' : Unedited b c) :
    Unedited a c where
  written := h'.written.trans h.written
  classes := h'.classes.trans h.classes
  scripts := h'.scripts.trans h.scripts
  metadata := h'.metadata.trans h.metadata
  methods i := by
    rcases h'.methods i with hi | hi
    · rw [hi]
      exact h.methods i
    · exact .inr hi

/-- The code of a method, if it has any. -/
def Method.code? (method : Method) : Option Code := method.body.map (·.code)

theorem Method.not_isSymbolic_of_raw {method : Method} {bytes : Bytes}
    {handlers : List (Handler CodePosition)} (h : method.code? = some (.raw bytes handlers)) :
    ¬ method.isSymbolic = true := by
  obtain ⟨body, hb, hc⟩ := Option.map_eq_some_iff.1 h
  rw [isSymbolic, hb]
  simp only [hc, Code.isSymbolic]
  decide

/-- The code of the method with a handle, if it has any. -/
def CodeUnit.code? (unit : CodeUnit) (handle : MethodHandle) : Option Code :=
  (unit.method? handle).bind Method.code?

/-- All raw code of the later unit is that of the earlier one. -/
def RawFrom (unit later : CodeUnit) : Prop :=
  ∀ handle bytes handlers, later.code? handle = some (.raw bytes handlers) →
    unit.code? handle = some (.raw bytes handlers)

namespace RawFrom

variable {unit later : CodeUnit}

theorem of_methods (h : later.methods = unit.methods) : RawFrom unit later := by
  intro handle bytes handlers hr
  rwa [CodeUnit.code?, CodeUnit.method?, h] at hr

theorem trans {a b c : CodeUnit} (h : RawFrom a b) (h' : RawFrom b c) : RawFrom a c :=
  fun handle bytes handlers hr => h handle bytes handlers (h' handle bytes handlers hr)

/-- Only one method was changed, or joined. -/
theorem of_change {i : Nat} (hother : ∀ j, i ≠ j → later.methods[j]? = unit.methods[j]?)
    (hi : ∀ method bytes handlers, later.methods[i]? = some method →
      method.code? = some (.raw bytes handlers) →
      unit.code? ⟨i⟩ = some (.raw bytes handlers)) : RawFrom unit later := by
  rintro ⟨j⟩ bytes handlers hr
  by_cases hj : i = j
  · subst hj
    obtain ⟨method, hm, hr⟩ := Option.bind_eq_some_iff.1 hr
    exact hi method bytes handlers hm hr
  · rw [CodeUnit.code?, CodeUnit.method?] at hr ⊢
    rwa [← hother j hj]

theorem of_modify {i : Nat} {f : Method → Method} (h : later.methods = unit.methods.modify i f)
    (hf : ∀ method bytes handlers, unit.methods[i]? = some method →
      (f method).code? = some (.raw bytes handlers) →
      method.code? = some (.raw bytes handlers)) : RawFrom unit later := by
  refine of_change (i := i) (fun j hj => ?_) fun method bytes handlers hm hr => ?_
  · rw [h, Array.getElem?_modify, if_neg hj]
  · rw [h, Array.getElem?_modify, if_pos rfl] at hm
    obtain ⟨earlier, he, rfl⟩ := Option.map_eq_some_iff.1 hm
    exact Option.bind_eq_some_iff.2 ⟨earlier, he, hf earlier bytes handlers he hr⟩

end RawFrom

/-- The later unit has as many methods and classes as the earlier one, in the same orders, and its
    constants.  It has no bytes, unless it was not edited. -/
structure Kept (unit later : CodeUnit) : Prop where
  methods : later.methods.size = unit.methods.size
  methodOrder : later.methodOrder = unit.methodOrder
  classes : later.classes.size = unit.classes.size
  classOrder : later.classOrder = unit.classOrder
  pool : unit.pool.Enlarges later.pool
  raw : RawFrom unit later
  bytes : later.written = none ∨ Unedited unit later

theorem Kept.written {unit later : CodeUnit} (h : Kept unit later) :
    later.written = unit.written ∨ later.written = none :=
  h.bytes.symm.imp_left Unedited.written

/-- Constants and counters do not count as an edit. -/
theorem Kept.of_eq {unit later : CodeUnit} (methodOrder : later.methodOrder = unit.methodOrder)
    (classOrder : later.classOrder = unit.classOrder) (written : later.written = unit.written)
    (classes : later.classes = unit.classes) (scripts : later.scripts = unit.scripts)
    (metadata : later.metadata = unit.metadata) (methods : later.methods = unit.methods)
    (pool : unit.pool.Enlarges later.pool) : Kept unit later :=
  ⟨by rw [methods], methodOrder, by rw [classes], classOrder, pool, .of_methods methods,
    .inr (.of_eq written classes scripts metadata methods)⟩

theorem Kept.refl (unit : CodeUnit) : Kept unit unit :=
  .of_eq rfl rfl rfl rfl rfl rfl rfl (.refl unit.pool)

theorem Kept.trans {a b c : CodeUnit} (h : Kept a b) (h' : Kept b c) : Kept a c where
  methods := h'.methods.trans h.methods
  methodOrder := h'.methodOrder.trans h.methodOrder
  classes := h'.classes.trans h.classes
  classOrder := h'.classOrder.trans h.classOrder
  pool := h.pool.trans h'.pool
  raw := h.raw.trans h'.raw
  bytes := by
    rcases h'.bytes with hw | hu
    · exact .inl hw
    · exact h.bytes.imp hu.written.trans fun h => h.trans hu

/-- A method was changed, and its code is not raw now unless it was before. -/
theorem Kept.of_modify {unit : CodeUnit} {i : Nat} {f : Method → Method}
    (hf : ∀ method bytes handlers, unit.methods[i]? = some method →
      (f method).code? = some (.raw bytes handlers) →
      method.code? = some (.raw bytes handlers)) :
    Kept unit { unit with methods := unit.methods.modify i f, written := none } :=
  ⟨Array.size_modify .., rfl, rfl, rfl, .refl _, .of_modify rfl hf, .inl rfl⟩

namespace Edit

section
variable {α β : Type}

/-- The edit keeps the orders of every unit. -/
def Keeps (edit : Edit α) : Prop := ∀ unit, Kept unit (edit.after unit)

theorem Keeps.of_ok {edit : Edit α} (h : Keeps edit) {unit later : CodeUnit} {a : α}
    (he : edit unit = .ok a later) : Kept unit later := by
  have hk := h unit
  rwa [after_of_ok he] at hk

theorem after_bind (x : Edit α) (f : α → Edit β) (unit : CodeUnit) : (x >>= f).after unit =
    match x unit with
    | .ok a unit => (f a).after unit
    | .error _ unit => unit := by
  unfold after
  show (match EStateM.bind x f unit with | .ok _ unit | .error _ unit => unit) = _
  unfold EStateM.bind
  cases x unit <;> rfl

theorem keeps_pure (a : α) : Keeps (pure a) := Kept.refl

theorem keeps_throw (fault : Fault) : Keeps (throw fault : Edit α) := Kept.refl

theorem keeps_get : Keeps get := Kept.refl

theorem keeps_ofExcept (x : Except Fault α) : Keeps (ofExcept x) := by
  cases x
  · exact keeps_throw _
  · exact keeps_pure _

theorem ofExcept_ok_bind (a : α) (f : α → Edit β) : (ofExcept (.ok a) >>= f) = f a := rfl

theorem keeps_modify {f : CodeUnit → CodeUnit} (h : ∀ unit, Kept unit (f unit)) :
    Keeps (modify f) := h

theorem Keeps.bind {x : Edit α} {f : α → Edit β} (h : Keeps x) (h' : ∀ a, Keeps (f a)) :
    Keeps (x >>= f) := by
  intro unit
  have hx := h unit
  rw [after_bind]
  unfold after at hx
  cases hr : x unit with
  | ok a later =>
    rw [hr] at hx
    exact hx.trans (h' a later)
  | error fault later =>
    rw [hr] at hx
    exact hx

/-- What is done with the unit keeps the orders of that unit. -/
theorem keeps_get_bind {f : CodeUnit → Edit α} (h : ∀ unit, Kept unit ((f unit).after unit)) :
    Keeps (get >>= f) := h

theorem Keeps.mapM {f : α → Edit β} (h : ∀ a, Keeps (f a)) (xs : List α) : Keeps (xs.mapM f) := by
  induction xs with
  | nil => exact keeps_pure _
  | cons x xs ih =>
    rw [List.mapM_cons]
    exact (h x).bind fun _ => ih.bind fun _ => keeps_pure _

theorem Keeps.forM {f : α → Edit Unit} (h : ∀ a, Keeps (f a)) (xs : List α) :
    Keeps (xs.forM f) := by
  induction xs with
  | nil => exact keeps_pure _
  | cons x xs ih =>
    exact (h x).bind fun _ => ih

theorem keeps_pool {f : Pool → Pool} (h : ∀ pool : Pool, pool.Enlarges (f pool)) :
    Keeps (pool f) :=
  keeps_modify fun unit => .of_eq rfl rfl rfl rfl rfl rfl rfl (h unit.pool)

theorem keeps_multiname (name : Multiname) : Keeps (pool (·.addMultiname name)) :=
  keeps_pool fun pool => (pool.enlarges_addMultiname name).1

theorem keeps_multinames (names : List Multiname) : Keeps (pool (·.addMultinames names)) :=
  keeps_pool fun pool => (pool.enlarges_addMultinames names).1

theorem keeps_forget : Keeps forget :=
  keeps_modify fun _ => ⟨rfl, rfl, rfl, rfl, .refl _, .of_methods rfl, .inl rfl⟩

theorem keeps_requireMethod (handle : MethodHandle) : Keeps (requireMethod handle) := by
  refine keeps_get_bind fun unit => ?_
  cases unit.method? handle <;> exact Kept.refl unit

theorem keeps_requireClass (handle : ClassHandle) : Keeps (requireClass handle) := by
  refine keeps_get_bind fun unit => ?_
  cases unit.class? handle <;> exact Kept.refl unit

/-! ## Creation -/

theorem keeps_createNamespace (kind : NamespaceKind) (name : String) :
    Keeps (createNamespace kind name) := by
  refine keeps_get.bind fun unit => ?_
  have hrest (ns : Namespace) : Keeps (do pool (·.addNamespace ns); pure ns) :=
    (keeps_pool (·.enlarges_addNamespace ns)).bind fun _ => keeps_pure _
  by_cases hk : kind = .privateMembers
  · rw [if_pos hk]
    exact Keeps.bind (keeps_modify fun _ => .of_eq rfl rfl rfl rfl rfl rfl rfl (.refl _))
      fun _ => hrest _
  · rw [if_neg hk]
    exact hrest _

theorem keeps_createNamespaceSet (members : List Namespace) : Keeps (createNamespaceSet members) :=
  (keeps_pool (·.enlarges_addNamespaceSet _)).bind fun _ => keeps_pure _

theorem keeps_createMultiname (kind : MultinameKind) (name : Option String)
    (ns : Option Namespace) (set : Option NamespaceSet) :
    Keeps (createMultiname kind name ns set) := by
  have hrest : Keeps (do
      let name ← ofExcept (Multiname.ofParts kind name ns set none)
      pool (·.addMultiname name)
      pure name) :=
    (keeps_ofExcept _).bind fun _ => (keeps_multiname _).bind fun _ => keeps_pure _
  unfold createMultiname
  split
  · exact (keeps_throw _).bind fun _ => hrest
  · exact hrest

theorem keeps_createApplication (base : Multiname) (params : List Multiname) :
    Keeps (createApplication base params) := by
  unfold createApplication
  split
  · exact (keeps_throw _).bind fun _ => (keeps_multiname _).bind fun _ => keeps_pure _
  · exact (keeps_multiname _).bind fun _ => keeps_pure _

theorem keeps_createPlatformClass (dotted : String) : Keeps (createPlatformClass dotted) :=
  (keeps_createNamespace _ _).bind fun _ => keeps_createMultiname _ _ _ _

theorem keeps_admitOperand (operand : Operand) : Keeps (admitOperand operand) := by
  cases operand with
  | int value => exact keeps_pool (·.enlarges_addInt value)
  | uint value => exact keeps_pool (·.enlarges_addUint value)
  | double value => exact keeps_pool (·.enlarges_addDouble value)
  | string value => exact keeps_pool (·.enlarges_addString value)
  | nspace ns => exact keeps_pool (·.enlarges_addNamespace ns)
  | multiname name => exact keeps_multiname name
  | method handle => exact (keeps_requireMethod handle).bind fun _ => keeps_pure _
  | classRef handle => exact (keeps_requireClass handle).bind fun _ => keeps_pure _
  | u8 | s8 | u30 | target => exact keeps_pure _

theorem keeps_createInstruction (opcode : Opcode) (operands : List Operand) :
    Keeps (createInstruction opcode operands) :=
  (keeps_ofExcept _).bind fun _ => (Keeps.forM keeps_admitOperand operands).bind fun _ =>
    keeps_get.bind fun _ => Keeps.bind (fun _ => .of_eq rfl rfl rfl rfl rfl rfl rfl (.refl _))
    fun _ => keeps_pure _

theorem keeps_createScript (init : MethodHandle) (traits : List Trait) :
    Keeps (createScript init traits) :=
  ((keeps_requireMethod init).bind fun _ => keeps_pure _).bind fun _ =>
    (keeps_multinames _).bind fun _ => keeps_get.bind fun _ =>
    Keeps.bind (fun _ => ⟨rfl, rfl, rfl, rfl, .refl _, .of_methods rfl, .inl rfl⟩)
    fun _ => keeps_pure _

theorem enlarges_addItems (items : List (Option String × String)) :
    ∀ pool : Pool, pool.Enlarges (items.foldl addItem pool) := by
  induction items with
  | nil => exact Pool.Enlarges.refl
  | cons item items ih =>
    intro pool
    obtain ⟨key, value⟩ := item
    refine Pool.Enlarges.trans ?_ (ih _)
    cases key with
    | none => exact pool.enlarges_addString value
    | some key =>
      exact (pool.enlarges_addString key).trans ((pool.addString key).enlarges_addString value)

theorem keeps_createMetadata (name : String) (items : List (Option String × String)) :
    Keeps (createMetadata name items) :=
  (keeps_pool fun pool => (pool.enlarges_addString name).trans (enlarges_addItems items _)).bind
    fun _ => keeps_get.bind fun _ =>
    Keeps.bind (fun _ => ⟨rfl, rfl, rfl, rfl, .refl _, .of_methods rfl, .inl rfl⟩)
    fun _ => keeps_pure _

/-! ## Edits -/

theorem keeps_editSignature (handle : MethodHandle) (f : Signature → Signature) :
    Keeps (editSignature handle f) :=
  fun _ => Kept.of_modify (i := handle.index)
    (f := fun method => { method with toSignature := f method.toSignature }) fun _ _ _ _ h => h

theorem keeps_editFrame (handle : MethodHandle) (f : Frame → Frame) :
    Keeps (editFrame handle f) := by
  intro unit
  refine Kept.of_modify (i := handle.index) (f := fun method => { method with
    body := method.body.map fun body => { body with toFrame := f body.toFrame } }) ?_
  rintro ⟨signature, body⟩ bytes handlers - h
  cases body <;> exact h

theorem keeps_editClass (handle : ClassHandle) (f : ClassDefinition → ClassDefinition) :
    Keeps (editClass handle f) :=
  fun _ => ⟨rfl, rfl, Array.size_modify .., rfl, .refl _, .of_methods rfl, .inl rfl⟩

theorem keeps_editScripts (f : List Script → List Script) : Keeps (editScripts f) :=
  fun _ => ⟨rfl, rfl, rfl, rfl, .refl _, .of_methods rfl, .inl rfl⟩

/-- Code that is edited is not raw afterwards unless it was before. -/
theorem keeps_editCode (handle : MethodHandle) {f : Code → Code × Except Fault Unit}
    (hf : ∀ code bytes handlers, (f code).1 = .raw bytes handlers → code = .raw bytes handlers) :
    Keeps (editCode handle f) := by
  intro unit
  rw [editCode, after_bind]
  show Kept unit ((get >>= _ : Edit Bool).after { unit with written := none })
  rw [after_bind]
  dsimp only [get, getThe, MonadStateOf.get, EStateM.get]
  cases hb : ({ unit with written := none }.method? handle).bind (·.body) with
  | none => exact keeps_forget unit
  | some body =>
    rw [after_bind]
    refine Kept.trans (b := { unit with written := none, methods := _ }) ?_
      (((keeps_ofExcept _).bind fun _ => keeps_pure true) _)
    refine Kept.of_modify fun method bytes handlers hm hr => ?_
    obtain ⟨found, hfound, hb⟩ := Option.bind_eq_some_iff.1 hb
    cases hm.symm.trans hfound
    rw [Method.code?, hb]
    exact congrArg some (hf _ _ _ (Option.some.inj hr))

theorem keeps_editInstructions (handle : MethodHandle)
    (edit : EStateM Fault (List Instruction) Unit) : Keeps (editInstructions handle edit) := by
  refine keeps_editCode handle fun code bytes handlers h => ?_
  cases code with
  | raw => exact h
  | symbolic instructions placed =>
    dsimp only at h
    cases he : edit instructions <;> rw [he] at h <;> cases h

theorem keeps_editHandlers (handle : MethodHandle)
    (edit : EStateM Fault (List (Handler CodePosition)) Unit) : Keeps (editHandlers handle edit) := by
  refine keeps_editCode handle fun code bytes handlers h => ?_
  cases code with
  | raw => exact h
  | symbolic instructions placed =>
    dsimp only at h
    cases he : edit placed <;> rw [he] at h <;> cases h

theorem keeps_convert (handle : MethodHandle) : Keeps (convert handle) := by
  intro unit
  rw [convert, after_bind, requireMethod, run_get_bind]
  cases hm : unit.method? handle with
  | none => exact Kept.refl unit
  | some method =>
    show Kept unit ((get >>= _ : Edit Bool).after unit)
    rw [after_bind]
    dsimp only [get, getThe, MonadStateOf.get, EStateM.get]
    cases hd : method.disassemble unit.tables unit.nextInstruction with
    | error fault next => exact .of_eq rfl rfl rfl rfl rfl rfl rfl (.refl _)
    | ok converted next =>
      have hset : (unit.methods.setIfInBounds handle.index converted)[handle.index]? =
          some converted :=
        Array.getElem?_setIfInBounds_self_of_lt (CodeUnit.lt_size_of_method? hm)
      have hother (i : Nat) (hi : handle.index ≠ i) :
          (unit.methods.setIfInBounds handle.index converted)[i]? = unit.methods[i]? :=
        Array.getElem?_setIfInBounds_ne hi
      have hsymbolic := Method.isSymbolic_of_disassemble hd
      refine ⟨Array.size_setIfInBounds, rfl, rfl, rfl, .refl _,
        .of_change hother fun found bytes handlers hf hr => ?_,
        .inr ⟨rfl, rfl, rfl, rfl, fun i => ?_⟩⟩
      · cases hset.symm.trans hf
        rcases hsymbolic with rfl | hs
        · exact Option.bind_eq_some_iff.2 ⟨converted, hm, hr⟩
        · exact absurd hs (Method.not_isSymbolic_of_raw hr)
      · show (unit.methods.setIfInBounds handle.index converted)[i]? = _ ∨ _
        by_cases hi : handle.index = i
        · subst hi
          rw [hset]
          rcases hsymbolic with rfl | hs
          · exact .inl hm.symm
          · exact .inr ⟨converted, hset, hs⟩
        · exact .inl (hother i hi)

theorem keeps_disassembleMethod (handle : MethodHandle) : Keeps (disassembleMethod handle) := by
  refine (keeps_convert handle).bind fun raw => ?_
  cases raw
  · exact keeps_pure _
  · exact keeps_forget

theorem keeps_disassemble : Keeps disassemble := by
  refine keeps_get.bind fun unit => (Keeps.mapM keeps_convert _).bind fun converted => ?_
  split
  · exact keeps_forget
  · exact keeps_pure _

theorem keeps_markTampered : Keeps markTampered := keeps_disassemble.bind fun _ => keeps_forget

end

end Edit

/-! ## What an operation can do -/

/-- A method joined the unit, at the end of the order. -/
structure MethodJoins (unit later : CodeUnit) : Prop where
  methods : later.methods.size = unit.methods.size + 1
  methodOrder : later.methodOrder = unit.methodOrder ++ [⟨unit.methods.size⟩]
  classes : later.classes.size = unit.classes.size
  classOrder : later.classOrder = unit.classOrder
  pool : unit.pool.Enlarges later.pool
  raw : RawFrom unit later
  written : later.written = none

/-- A class joined the unit, at the end of the order. -/
structure ClassJoins (unit later : CodeUnit) : Prop where
  methods : later.methods.size = unit.methods.size
  methodOrder : later.methodOrder = unit.methodOrder
  classes : later.classes.size = unit.classes.size + 1
  classOrder : later.classOrder = unit.classOrder ++ [⟨unit.classes.size⟩]
  pool : unit.pool.Enlarges later.pool
  raw : RawFrom unit later
  written : later.written = none

theorem Kept.methodJoins {a b c : CodeUnit} (h : Kept a b) (h' : MethodJoins b c) :
    MethodJoins a c where
  methods := by rw [h'.methods, h.methods]
  methodOrder := by rw [h'.methodOrder, h.methodOrder, h.methods]
  classes := by rw [h'.classes, h.classes]
  classOrder := by rw [h'.classOrder, h.classOrder]
  pool := h.pool.trans h'.pool
  raw := h.raw.trans h'.raw
  written := h'.written

theorem Kept.classJoins {a b c : CodeUnit} (h : Kept a b) (h' : ClassJoins b c) :
    ClassJoins a c where
  methods := by rw [h'.methods, h.methods]
  methodOrder := by rw [h'.methodOrder, h.methodOrder]
  classes := by rw [h'.classes, h.classes]
  classOrder := by rw [h'.classOrder, h.classOrder, h.classes]
  pool := h.pool.trans h'.pool
  raw := h.raw.trans h'.raw
  written := h'.written

namespace Edit

/-- An edit that keeps the orders, and then one that relates the units by `R`, which takes in
    what was kept. -/
theorem Keeps.bind_or {α β : Type} {R : CodeUnit → CodeUnit → Prop}
    (hR : ∀ {a b c}, Kept a b → R b c → R a c) {x : Edit α} {f : α → Edit β} (h : Keeps x)
    (hf : ∀ a unit, Kept unit ((f a).after unit) ∨ R unit ((f a).after unit)) (unit : CodeUnit) :
    Kept unit ((x >>= f).after unit) ∨ R unit ((x >>= f).after unit) := by
  have hx := h unit
  rw [after_bind]
  unfold after at hx
  cases hr : x unit with
  | ok a later =>
    rw [hr] at hx
    exact (hf a later).imp hx.trans (hR hx)
  | error fault later =>
    rw [hr] at hx
    exact .inl hx

/-- The code of a method that is put together is not raw. -/
theorem not_raw_of_build {draft : MethodDraft} {method : Method} (h : draft.build = .ok method)
    (bytes : Bytes) (handlers : List (Handler CodePosition)) :
    method.code? ≠ some (.raw bytes handlers) := by
  have hbody : method.body = draft.body := by
    simp only [MethodDraft.build, ite_throw_eq_ok, pure_eq_ok] at h
    obtain ⟨-, -, -, rfl⟩ := h
    rfl
  intro hr
  obtain ⟨body, hb, hc⟩ := Option.map_eq_some_iff.1 hr
  have hs := draft.symbolic
  rw [← hbody, hb, Option.all_some, hc] at hs
  cases hs

theorem createMethod_cases (draft : MethodDraft) (unit : CodeUnit) :
    Kept unit ((createMethod draft).after unit) ∨
      MethodJoins unit ((createMethod draft).after unit) := by
  have hthen {α β : Type} {x : Edit α} {f : α → Edit β} (h : Keeps x) :=
    Keeps.bind_or (R := MethodJoins) (f := f) Kept.methodJoins h
  rw [createMethod]
  cases hbuild : draft.build with
  | error fault => exact .inl (Kept.refl unit)
  | ok method =>
    rw [ofExcept_ok_bind]
    refine hthen (keeps_multiname _) (fun _ => hthen (keeps_multinames _) fun _ => ?_) unit
    have join (unit : CodeUnit) : MethodJoins unit
        { unit with
          methods := unit.methods.push method
          methodOrder := unit.methodOrder ++ [⟨unit.methods.size⟩]
          written := none } := by
      refine ⟨Array.size_push _, rfl, rfl, rfl, .refl _, .of_change (i := unit.methods.size)
        (fun j hj => ?_) fun found bytes handlers hf hr => ?_, rfl⟩
      · rw [Array.getElem?_push, if_neg hj.symm]
      · rw [Array.getElem?_push, if_pos rfl] at hf
        cases hf
        exact absurd hr (not_raw_of_build hbuild bytes handlers)
    cases method.name with
    | none => exact fun unit => .inr (join unit)
    | some name =>
      exact hthen (keeps_pool (·.enlarges_addString name)) fun _ unit => .inr (join unit)

theorem createClass_cases (name : Multiname) (extended : ClassReference)
    (constructor staticInit : MethodHandle) (unit : CodeUnit) :
    Kept unit ((createClass name extended constructor staticInit).after unit) ∨
      ClassJoins unit ((createClass name extended constructor staticInit).after unit) := by
  have hsuper : Keeps (superName extended) := by
    cases extended with
    | defined handle => exact (keeps_requireClass handle).bind fun _ => keeps_pure _
    | platform name => exact keeps_pure _
  have hmethod (handle : MethodHandle) : Keeps (discard (requireMethod handle)) :=
    (keeps_requireMethod handle).bind fun _ => keeps_pure _
  have hthen {α β : Type} {x : Edit α} {f : α → Edit β} (h : Keeps x) :=
    Keeps.bind_or (R := ClassJoins) (f := f) Kept.classJoins h
  refine hthen (hmethod constructor) (fun _ => hthen (hmethod staticInit) fun _ =>
    hthen hsuper fun superName => hthen (keeps_multiname name) fun _ =>
    hthen (keeps_multiname superName) fun _ unit => .inr ?_) unit
  exact ⟨rfl, rfl, Array.size_push _, rfl, .refl _, .of_methods rfl, rfl⟩

theorem encode_of_current {options : EncodeOptions} {unit : CodeUnit} {bytes : Bytes}
    (h : unit.current? = some bytes) : encode options unit = .ok bytes unit := by
  rw [encode, run_get_bind, h]
  rfl

theorem encode_of_tampered {options : EncodeOptions} {unit : CodeUnit} (h : unit.current? = none) :
    encode options unit = match disassemble unit with
      | .error fault plain => .error fault plain
      | .ok _ plain =>
        match plain.rebuild options with
        | .error fault => .error fault plain
        | .ok rebuilt => .ok rebuilt.bytes (plain.commit rebuilt) := by
  rw [encode, run_get_bind, h]
  cases hd : disassemble unit with
  | error fault plain => exact run_bind_of_error hd
  | ok _ plain =>
    refine (run_bind_of_ok hd).trans ?_
    rw [run_get_bind]
    dsimp only
    cases plain.rebuild options <;> rfl

/-- What it takes for a unit to be written. -/
theorem encode_eq_ok {options : EncodeOptions} {unit later : CodeUnit} {bytes : Bytes} :
    encode options unit = .ok bytes later ↔
      (unit.current? = some bytes ∧ unit = later) ∨
      (unit.current? = none ∧ ∃ plain rebuilt, disassemble unit = .ok () plain ∧
        plain.rebuild options = .ok rebuilt ∧ rebuilt.bytes = bytes ∧
        plain.commit rebuilt = later) := by
  cases hc : unit.current? with
  | some known => simp [encode_of_current hc]
  | none =>
    rw [encode_of_tampered hc]
    cases disassemble unit with
    | error fault plain => simp
    | ok _ plain => cases hr : plain.rebuild options <;> simp [hr]

/-- A unit that is written anew takes on new orders; all else keeps them. -/
theorem encode_cases (options : EncodeOptions) (unit : CodeUnit) :
    Kept unit ((encode options).after unit) ∨
      ∃ plain rebuilt, encode options unit = .ok rebuilt.bytes (plain.commit rebuilt) ∧
        Kept unit plain ∧ plain.rebuild options = .ok rebuilt := by
  have hk := keeps_disassemble unit
  unfold after at hk ⊢
  cases hc : unit.current? with
  | some known =>
    rw [encode_of_current hc]
    exact .inl (Kept.refl unit)
  | none =>
    rw [encode_of_tampered hc]
    cases hd : disassemble unit with
    | error fault plain =>
      rw [hd] at hk
      exact .inl hk
    | ok _ plain =>
      rw [hd] at hk
      dsimp only
      cases hr : plain.rebuild options with
      | error fault => exact .inl hk
      | ok rebuilt => exact .inr ⟨plain, rebuilt, rfl, hk, hr⟩

end Edit

/-- **What an operation can do to the orders of a unit.** -/
theorem Operation.run_cases (operation : Operation) (unit : CodeUnit) :
    Kept unit (operation.run unit) ∨ MethodJoins unit (operation.run unit) ∨
      ClassJoins unit (operation.run unit) ∨
      ∃ options plain rebuilt, operation = .encode options ∧ Kept unit plain ∧
        plain.rebuild options = .ok rebuilt ∧
        Edit.encode options unit = .ok rebuilt.bytes (plain.commit rebuilt) := by
  cases operation with
  | createMethod draft => exact (Edit.createMethod_cases draft unit).imp_right .inl
  | createClass name extended constructor staticInit =>
    exact (Edit.createClass_cases name extended constructor staticInit unit).imp_right
      fun h => .inr (.inl h)
  | encode options =>
    refine (Edit.encode_cases options unit).imp_right fun ⟨plain, rebuilt, he, hk, hr⟩ => ?_
    exact .inr (.inr ⟨options, plain, rebuilt, rfl, hk, hr, he⟩)
  | createNamespace kind name => exact .inl (Edit.keeps_createNamespace kind name unit)
  | createNamespaceSet members => exact .inl (Edit.keeps_createNamespaceSet members unit)
  | createMultiname kind name ns set =>
    exact .inl (Edit.keeps_createMultiname kind name ns set unit)
  | createApplication base params => exact .inl (Edit.keeps_createApplication base params unit)
  | createPlatformClass dotted => exact .inl (Edit.keeps_createPlatformClass dotted unit)
  | createInstruction opcode operands =>
    exact .inl (Edit.keeps_createInstruction opcode operands unit)
  | createScript init traits => exact .inl (Edit.keeps_createScript init traits unit)
  | createMetadata name items => exact .inl (Edit.keeps_createMetadata name items unit)
  | editSignature handle f => exact .inl (Edit.keeps_editSignature handle f unit)
  | editFrame handle f => exact .inl (Edit.keeps_editFrame handle f unit)
  | editClass handle f => exact .inl (Edit.keeps_editClass handle f unit)
  | editScripts f => exact .inl (Edit.keeps_editScripts f unit)
  | editInstructions handle edit => exact .inl (Edit.keeps_editInstructions handle edit unit)
  | editHandlers handle edit => exact .inl (Edit.keeps_editHandlers handle edit unit)
  | disassembleMethod handle => exact .inl (Edit.keeps_disassembleMethod handle unit)
  | disassemble => exact .inl (Edit.keeps_disassemble unit)
  | markTampered => exact .inl (Edit.keeps_markTampered unit)

/-! ## Units that are read -/

/-- The second method is the first one once it was examined. -/
def Method.Examined (tables : Tables) (method examined : Method) : Prop :=
  (method.body = none ∧ method = examined) ∨ ∃ body code n m, method.body = some body ∧
    body.code.disassemble tables n = .ok code m ∧
    { method with sourceFile := code.sourceFile? } = examined

theorem Method.examined_of_examine {tables : Tables} {method examined : Method} {n m : Nat}
    (h : method.examine tables n = .ok examined m) : method.Examined tables examined := by
  obtain ⟨signature, body⟩ := method
  cases body with
  | none =>
    cases h
    exact .inl ⟨rfl, rfl⟩
  | some body =>
    obtain ⟨code, k, hc, h⟩ := run_bind_eq_ok.1 h
    cases h
    exact .inr ⟨body, code, n, m, rfl, hc, rfl⟩

/-- A method that was examined learned its source file, and it can be disassembled. -/
theorem Method.Examined.exists_disassemble {tables : Tables} {method examined : Method}
    (h : method.Examined tables examined) :
    (∃ file, { method with sourceFile := file } = examined) ∧
      ∃ n converted m, examined.disassemble tables n = .ok converted m := by
  obtain ⟨signature, body⟩ := method
  rcases h with ⟨hb, rfl⟩ | ⟨body, code, n, m, hb, hc, rfl⟩
  · cases hb
    exact ⟨⟨_, rfl⟩, 0, _, 0, rfl⟩
  · cases hb
    exact ⟨⟨_, rfl⟩, n, _, m, run_bind_of_ok hc⟩

namespace CodeUnit

theorem examine_eq_ok {unit examined : CodeUnit} : unit.examine = .ok examined ↔
    ∃ methods n, unit.methods.toList.mapM (Method.examine unit.tables) 0 = .ok methods n ∧
      { unit with methods := methods.toArray } = examined := by
  rw [examine]
  cases unit.methods.toList.mapM (Method.examine unit.tables) 0 <;> simp

theorem decode_eq_ok {bytes : Bytes} {unit : CodeUnit} : decode bytes = .ok unit ↔
    ∃ parsed cursor examined, Reader.unit (.start bytes) = .ok parsed cursor ∧
      parsed.examine = .ok examined ∧ { examined with written := some bytes } = unit := by
  rw [decode]
  cases Reader.unit (.start bytes) with
  | error fault cursor => simp [throw, throwThe, MonadExceptOf.throw]
  | ok parsed cursor => simp [map_eq_ok]

theorem examined_of_decode {bytes : Bytes} {unit : CodeUnit} (h : decode bytes = .ok unit) :
    ∃ parsed cursor methods, Reader.unit (.start bytes) = .ok parsed cursor ∧
      List.Forall₂ (Method.Examined parsed.tables) parsed.methods.toList methods ∧
      { parsed with methods := methods.toArray, written := some bytes } = unit := by
  obtain ⟨parsed, cursor, examined, hp, he, rfl⟩ := decode_eq_ok.1 h
  obtain ⟨methods, n, hm, rfl⟩ := examine_eq_ok.1 he
  exact ⟨parsed, cursor, methods, hp,
    forall₂_of_run_mapM hm fun _ _ _ _ _ h => Method.examined_of_examine h, rfl⟩

/-- A unit that was read consists of its sections, with the methods examined. -/
theorem sections_of_decode {bytes : Bytes} {unit : CodeUnit} (h : decode bytes = .ok unit) :
    ∃ parsed cursor methods, Reader.sections (.start bytes) = .ok parsed cursor ∧
      List.Forall₂ (Method.Examined parsed.tables) parsed.methods.toList methods ∧
      { parsed with methods := methods.toArray, written := some bytes } = unit := by
  obtain ⟨parsed, _, methods, hp, hexamined, hunit⟩ := examined_of_decode h
  obtain ⟨_, cursor, hs, hp⟩ := run_bind_eq_ok.1 hp
  obtain ⟨_, _, -, hp⟩ := run_bind_eq_ok.1 hp
  cases hp
  exact ⟨parsed, cursor, methods, hs, hexamined, hunit⟩

end CodeUnit

/-! ## Orders -/

/-- The orders hold the methods and the classes of the unit and nothing else. -/
structure CodeUnit.Ordered (unit : CodeUnit) : Prop where
  methods : ∀ handle, handle ∈ unit.methodOrder ↔ handle.index < unit.methods.size
  classes : ∀ handle, handle ∈ unit.classOrder ↔ handle.index < unit.classes.size

namespace CodeUnit

variable {unit later : CodeUnit}

theorem Ordered.kept (h : unit.Ordered) (hk : Kept unit later) : later.Ordered where
  methods := by rw [hk.methods, hk.methodOrder]; exact h.methods
  classes := by rw [hk.classes, hk.classOrder]; exact h.classes

theorem mem_append_next {α : Type} {index : α → Nat} {next : Nat → α}
    (hn : ∀ a n, a = next n ↔ index a = n) {order : List α} {size : Nat}
    (h : ∀ a, a ∈ order ↔ index a < size) (a : α) :
    a ∈ order ++ [next size] ↔ index a < size + 1 := by
  rw [List.mem_append, List.mem_singleton, h a, hn a size, Nat.lt_succ_iff_lt_or_eq]

theorem Ordered.methodJoins (h : unit.Ordered) (hj : MethodJoins unit later) : later.Ordered where
  methods := by
    rw [hj.methods, hj.methodOrder]
    exact mem_append_next (fun ⟨_⟩ _ => MethodHandle.mk.injEq .. ▸ Iff.rfl) h.methods
  classes := by rw [hj.classes, hj.classOrder]; exact h.classes

theorem Ordered.classJoins (h : unit.Ordered) (hj : ClassJoins unit later) : later.Ordered where
  methods := by rw [hj.methods, hj.methodOrder]; exact h.methods
  classes := by
    rw [hj.classes, hj.classOrder]
    exact mem_append_next (fun ⟨_⟩ _ => ClassHandle.mk.injEq .. ▸ Iff.rfl) h.classes

theorem mem_of_classNamed? {name : String} {handle : ClassHandle}
    (h : unit.classNamed? name = some handle) : handle ∈ unit.classOrder ∧
      ∃ cls, unit.class? handle = some cls ∧ cls.name.dotted? = some name := by
  obtain ⟨⟨_, cls⟩, hfind, rfl⟩ := Option.map_eq_some_iff.1 h
  have hmem := List.mem_of_find?_eq_some hfind
  obtain ⟨other, ho, hcls⟩ := List.mem_filterMap.1 hmem
  obtain ⟨cls', hcls', he⟩ := Option.map_eq_some_iff.1 hcls
  cases he
  exact ⟨ho, cls, hcls', by simpa using List.find?_some hfind⟩

/-- The main class is moved and no class is lost. -/
theorem mem_classOrderFor {mainClass : Option String} {order : List ClassHandle}
    (h : unit.classOrderFor mainClass = .ok order) {handle : ClassHandle} :
    handle ∈ order ↔ handle ∈ unit.classOrder := by
  cases mainClass with
  | none =>
    cases h
    rfl
  | some name =>
    rw [classOrderFor] at h
    cases hm : unit.classNamed? name with
    | none => rw [hm] at h; cases h
    | some main =>
      rw [hm] at h
      cases h
      have := (mem_of_classNamed? hm).1
      by_cases he : handle = main <;> simp_all

/-! ## What has an index -/

/-- Distinct values, one for each index below a bound, are as many as the bound. -/
theorem length_of_nodup {α : Type} {index : α → Nat} (hi : Function.Injective index)
    (hs : Function.Surjective index) {values : List α} (hn : values.Nodup) {size : Nat}
    (h : ∀ a, a ∈ values ↔ index a < size) : values.length = size := by
  have hperm : (values.map index).Perm (List.range size) := by
    refine (List.perm_ext_iff_of_nodup (hn.map hi) List.nodup_range).2 fun i => ?_
    obtain ⟨a, rfl⟩ := hs i
    rw [List.mem_map_of_injective hi, h, List.mem_range]
  rw [← List.length_map, hperm.length_eq, List.length_range]

section
variable {mainClass : Option String} {debug : Bool} {order : List ClassHandle} {a : Indexing}
  (ho : unit.Ordered) (horder : unit.classOrderFor mainClass = .ok order)
  (ha : unit.index debug order = .ok a)
include ho ha

/-- The methods of the unit have an index, and nothing else. -/
theorem mem_methods_of_index {handle : MethodHandle} :
    handle ∈ a.methods ↔ handle.index < unit.methods.size := by
  obtain ⟨-, -, hcovers, hcomplete⟩ := index_spec ha
  constructor
  · intro hm
    obtain ⟨method, -, hmethod, -⟩ := hcomplete handle hm
    exact lt_size_of_method? hmethod
  · intro hi
    refine hcovers (.method handle) ?_
    simp only [uses, List.mem_append, List.mem_map]
    exact .inl (.inr ⟨handle, (ho.methods handle).2 hi, rfl⟩)

theorem size_methods_of_index : a.methods.size = unit.methods.size :=
  length_of_nodup MethodHandle.index_injective (fun i => ⟨⟨i⟩, rfl⟩) a.methods.nodup
    fun _ => mem_methods_of_index ho ha

theorem forall_indexedMethods {p : Method → Prop} :
    (∀ entry ∈ unit.indexedMethods a, p entry.2) ↔ ∀ method ∈ unit.methods, p method := by
  constructor
  · intro h method hm
    obtain ⟨handle, hh⟩ := mem_methods_iff.1 hm
    have hindex := (mem_methods_of_index ho ha).2 (lt_size_of_method? hh)
    exact h (handle, method) (mem_indexedMethods.2 ⟨hindex, hh⟩)
  · rintro h ⟨handle, method⟩ hm
    exact h method (mem_methods_iff.2 ⟨handle, (mem_indexedMethods.1 hm).2⟩)

theorem length_indexedMethods : (unit.indexedMethods a).length = unit.methods.size := by
  rw [← size_methods_of_index ho ha]
  refine List.filterMap_length_eq_length.2 fun handle hm => ?_
  rw [Option.isSome_map]
  exact isSome_method?.2 ((mem_methods_of_index ho ha).1 hm)

include horder

/-- The classes of the unit have an index, and nothing else. -/
theorem mem_classes_of_index {handle : ClassHandle} :
    handle ∈ a.classes ↔ handle.index < unit.classes.size := by
  rw [(index_spec ha).2.1, Numbering.mem_ofList, mem_classOrderFor horder, ho.classes]

theorem size_classes_of_index : a.classes.size = unit.classes.size :=
  length_of_nodup ClassHandle.index_injective (fun i => ⟨⟨i⟩, rfl⟩) a.classes.nodup
    fun _ => mem_classes_of_index ho horder ha

theorem mem_indexedClasses {cls : ClassDefinition} :
    cls ∈ unit.indexedClasses a ↔ cls ∈ unit.classes := by
  simp only [indexedClasses, List.mem_filterMap, mem_classes_iff]
  refine ⟨fun ⟨handle, _, h⟩ => ⟨handle, h⟩, fun ⟨handle, h⟩ => ⟨handle, ?_, h⟩⟩
  exact (mem_classes_of_index ho horder ha).2 (lt_size_of_class? h)

theorem length_indexedClasses : (unit.indexedClasses a).length = unit.classes.size := by
  rw [← size_classes_of_index ho horder ha]
  exact List.filterMap_length_eq_length.2 fun handle hm =>
    isSome_class?.2 ((mem_classes_of_index ho horder ha).1 hm)

end

/-! ## The orders of a unit that can be reached -/

theorem size_foldl_replaceCode (bodies : List AssembledBody) : ∀ methods : Array Method,
    (bodies.foldl replaceCode methods).size = methods.size := by
  induction bodies with
  | nil => exact fun _ => rfl
  | cons body bodies ih =>
    intro methods
    rw [List.foldl_cons, ih, replaceCode, Array.size_modify]

theorem Ordered.commit (h : unit.Ordered) {options : EncodeOptions} {rebuilt : Rebuilt}
    (hr : unit.rebuild options = .ok rebuilt) : (unit.commit rebuilt).Ordered := by
  obtain ⟨order, s, hr⟩ := rebuild_eq_ok.1 hr
  refine ⟨fun handle => ?_, fun handle => ?_⟩
  · show _ ↔ handle.index < (rebuilt.bodies.foldl replaceCode unit.methods).size
    rw [size_foldl_replaceCode]
    exact mem_methods_of_index h hr.index_eq
  · exact mem_classes_of_index h hr.order_eq hr.index_eq

theorem ordered_empty : CodeUnit.empty.Ordered where
  methods handle := by simp [CodeUnit.empty]
  classes handle := by simp [CodeUnit.empty]

/-- What is read has the pool that is read, and the orders of the wire. -/
theorem of_read {cursor later : Cursor} (h : Reader.unit cursor = .ok unit later) :
    (∃ start next, Reader.pool start = .ok unit.pool next) ∧
      unit.methodOrder = (List.range unit.methods.size).map MethodHandle.mk ∧
      unit.classOrder = (List.range unit.classes.size).map ClassHandle.mk := by
  obtain ⟨_, _, h, hfinish⟩ := run_bind_eq_ok.1 h
  obtain ⟨_, _, -, hfinish⟩ := run_bind_eq_ok.1 hfinish
  cases hfinish
  obtain ⟨_, _, -, h⟩ := run_bind_eq_ok.1 h
  obtain ⟨pool, _, hpool, h⟩ := run_bind_eq_ok.1 h
  obtain ⟨signatures, _, -, h⟩ := run_bind_eq_ok.1 h
  obtain ⟨metadata, _, -, h⟩ := run_bind_eq_ok.1 h
  obtain ⟨classCount, _, -, h⟩ := run_bind_eq_ok.1 h
  obtain ⟨instances, _, -, h⟩ := run_bind_eq_ok.1 h
  obtain ⟨classes, _, -, h⟩ := run_bind_eq_ok.1 h
  obtain ⟨scripts, _, -, h⟩ := run_bind_eq_ok.1 h
  obtain ⟨bodyCount, _, -, h⟩ := run_bind_eq_ok.1 h
  obtain ⟨methods, _, -, h⟩ := run_bind_eq_ok.1 h
  cases h
  exact ⟨⟨_, _, hpool⟩, rfl, rfl⟩

theorem orders_of_decode {bytes : Bytes} (h : CodeUnit.decode bytes = .ok unit) :
    unit.methodOrder = (List.range unit.methods.size).map MethodHandle.mk ∧
      unit.classOrder = (List.range unit.classes.size).map ClassHandle.mk := by
  obtain ⟨parsed, cursor, methods, hp, hexamined, rfl⟩ := examined_of_decode h
  have hsize := hexamined.length_eq
  obtain ⟨-, horders⟩ := of_read hp
  rw [Array.length_toList] at hsize
  simpa [hsize] using horders

theorem ordered_of_decode {bytes : Bytes} (h : CodeUnit.decode bytes = .ok unit) :
    unit.Ordered := by
  obtain ⟨hm, hc⟩ := orders_of_decode h
  constructor
  · rintro ⟨i⟩
    simp [hm]
  · rintro ⟨i⟩
    simp [hc]

theorem Ordered.run (h : unit.Ordered) (operation : Operation) : (operation.run unit).Ordered := by
  rcases operation.run_cases unit with hk | hj | hj | ⟨options, plain, rebuilt, rfl, hk, hr, he⟩
  · exact h.kept hk
  · exact h.methodJoins hj
  · exact h.classJoins hj
  · have hrun : (Operation.encode options).run unit = plain.commit rebuilt := Edit.after_of_ok he
    rw [hrun]
    exact (h.kept hk).commit hr

/-! ## Traits -/

theorem mem_wireClasses (ho : unit.Ordered) {cls : ClassDefinition} :
    (∃ handle, (handle, cls) ∈ unit.wireClasses) ↔ cls ∈ unit.classes := by
  simp only [wireClasses, List.mem_filterMap, Option.map_eq_some_iff, Prod.mk.injEq,
    mem_classes_iff]
  constructor
  · rintro ⟨_, handle, -, cls, h, rfl, rfl⟩
    exact ⟨handle, h⟩
  · rintro ⟨handle, h⟩
    exact ⟨handle, handle, (ho.classes handle).2 (lt_size_of_class? h), cls, h, rfl, rfl⟩

theorem mem_wireMethods (ho : unit.Ordered) {method : Method} :
    (∃ handle, (handle, method) ∈ unit.wireMethods) ↔ method ∈ unit.methods := by
  simp only [wireMethods, List.mem_filterMap, Option.map_eq_some_iff, Prod.mk.injEq,
    mem_methods_iff]
  constructor
  · rintro ⟨_, handle, -, method, h, rfl, rfl⟩
    exact ⟨handle, h⟩
  · rintro ⟨handle, h⟩
    exact ⟨handle, handle, (ho.methods handle).2 (lt_size_of_method? h), method, h, rfl, rfl⟩

/-- The traits of a unit are those of its classes, scripts and bodies. -/
theorem forall_allTraits (ho : unit.Ordered) {p : Trait → Prop} : (∀ t ∈ unit.allTraits, p t) ↔
    (∀ cls ∈ unit.classes, ∀ t ∈ cls.instanceTraits ++ cls.staticTraits, p t) ∧
    (∀ script ∈ unit.scripts, ∀ t ∈ script.traits, p t) ∧
    (∀ method ∈ unit.methods, ∀ body, method.body = some body → ∀ t ∈ body.traits, p t) := by
  simp only [allTraits, List.forall_mem_append, List.forall_mem_flatMap, and_assoc]
  refine and_congr ?_ (and_congr Iff.rfl ?_)
  · constructor
    · intro h cls hcls
      obtain ⟨handle, hm⟩ := (mem_wireClasses ho).2 hcls
      exact h _ hm
    · rintro h ⟨handle, cls⟩ hm
      exact h cls ((mem_wireClasses ho).1 ⟨handle, hm⟩)
  · simp only [List.mem_filterMap]
    constructor
    · intro h method hmethod body hbody
      obtain ⟨handle, hm⟩ := (mem_wireMethods ho).2 hmethod
      exact h body ⟨_, hm, hbody⟩
    · rintro h body ⟨⟨handle, method⟩, hm, hbody⟩
      exact h method ((mem_wireMethods ho).1 ⟨handle, hm⟩) body hbody

end CodeUnit

/-- **In a unit that can be reached, the orders hold the methods and the classes of the unit.** -/
theorem ReachableBy.ordered {allowed : CodeUnit → Operation → Prop} {unit : CodeUnit}
    (h : ReachableBy allowed unit) : unit.Ordered := by
  induction h with
  | empty => exact CodeUnit.ordered_empty
  | decode h => exact CodeUnit.ordered_of_decode h
  | step _ _ ih => exact ih.run _

end ActionBytecode
