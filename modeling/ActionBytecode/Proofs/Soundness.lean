/-
  ActionBytecode — the declarations that are read from any bytes.

  Whatever the bytes, all that a declaration refers to is in the tables that it was read with
  (`Tables.Has`), and its counts and numbers are such as can be read again.  `Trait.Sound`,
  `Signature.Sound` and the like say so for each kind of declaration, `CodeUnit.Sound` for a unit
  (`Reader.sound_of_unit`).  What is known of code is left open there, since code comes in two
  forms.  The counts are only bounded when the bytes are not too many; `CodeUnit.Resolved` is what
  holds of a unit that is read from any number of them.
-/
import ActionBytecode.CodeUnit.Decoding
import ActionBytecode.CodeUnit.Uses
import ActionBytecode.Proofs.Constants
import ActionBytecode.Proofs.Declarations

namespace ActionBytecode

/-! ## What tables have -/

/-- The constant of a value is in the pool. -/
def Pool.HasValue (pool : Pool) : DefaultValue → Prop
  | .int value => value ∈ pool.ints
  | .uint value => value ∈ pool.uints
  | .double value => value ∈ pool.doubles
  | .text value => value ∈ pool.strings
  | .nspace ns => ns ∈ pool.namespaces
  | .truth _ | .null | .undefined => True

/-- What a reference leads to is in the tables. -/
def Tables.Has (tables : Tables) : Use → Prop
  | .value value => tables.pool.HasValue value
  | .name name => ∀ s, name = some s → s ∈ tables.pool.strings
  | .multiname name => name ∈ tables.pool.multinames
  | .method handle => ∃ i, tables.method? i = some handle
  | .instructionClass handle | .traitClass handle => ∃ i, tables.class? i = some handle

/-! ## Sound declarations -/

section
variable (tables : Tables)

/-- What holds of a trait that is read. -/
structure Trait.Sound (t : Trait) : Prop where
  uses : ∀ use ∈ t.uses, tables.Has use
  legible : t.Legible
  metadata : ∀ i ∈ t.metadata, i.toNat < tables.metadataCount

/-- What holds of traits that are read. -/
structure SoundTraits (traits : List Trait) : Prop where
  length : traits.length < countLimit
  all : ∀ t ∈ traits, t.Sound tables

/-- What holds of a signature that is read. -/
structure Signature.Sound (signature : Signature) : Prop where
  uses : ∀ use ∈ signature.uses, tables.Has use
  legible : signature.Legible
  parameterNames : signature.parameterNames = [] ∨
    signature.parameterNames.length = signature.parameters.length

/-- What holds of a metadata entry that is read. -/
structure Metadata.Sound (entry : Metadata) : Prop where
  uses : ∀ use ∈ entry.uses, tables.Has use
  items : entry.items.length < countLimit

/-- What holds of a class that is read. -/
structure ClassDefinition.Sound (cls : ClassDefinition) : Prop where
  uses : ∀ use ∈ cls.uses, tables.Has use
  interfaces : cls.interfaces.length < countLimit
  instanceTraits : SoundTraits tables cls.instanceTraits
  staticTraits : SoundTraits tables cls.staticTraits

/-- What holds of a script that is read. -/
structure Script.Sound (script : Script) : Prop where
  init : tables.Has (.method script.init)
  traits : SoundTraits tables script.traits

variable (known : Code → Prop)

/-- What holds of a body that is read, when `known` holds of its code. -/
structure Body.Sound (body : Body) : Prop where
  frame : body.toFrame.Legible
  traits : SoundTraits tables body.traits
  handlerCount : body.code.handlers.length < countLimit
  handlers : ∀ use ∈ body.code.handlers.flatMap Handler.uses, tables.Has use
  code : known body.code

/-- What holds of a method that is read.  Its source file is the one that its code names. -/
structure Method.Sound (method : Method) : Prop where
  signature : method.toSignature.Sound tables
  sourceFile : method.sourceFile = method.body.bind (·.code.sourceFile?)
  body : ∀ body, method.body = some body → body.Sound tables known

/-- What holds of a unit that is read from at most `limit` bytes. -/
structure CodeUnit.Sound (unit : CodeUnit) (limit : Nat) : Prop where
  pool : unit.pool.Sound limit
  methodCount : unit.methods.size < countLimit
  classCount : unit.classes.size < countLimit
  scriptCount : unit.scripts.length < countLimit
  metadataCount : unit.metadata.length < countLimit
  methods : ∀ method ∈ unit.methods, method.Sound unit.tables known
  classes : ∀ cls ∈ unit.classes, cls.Sound unit.tables
  scripts : ∀ script ∈ unit.scripts, script.Sound unit.tables
  metadata : ∀ entry ∈ unit.metadata, entry.Sound unit.tables

end

/-- The handlers of raw code give all their places as offsets. -/
def Code.Uniform (code : Code) : Prop :=
  code.isSymbolic = false → ∀ handler ∈ code.handlers, ∀ place ∈ handler.places,
    place.isOffset = true

theorem Code.uniform_ofWire (bytes : Bytes) (handlers : List (Handler UInt32)) :
    (Code.ofWire bytes handlers).Uniform := by
  intro _ handler hh place hp
  obtain ⟨given, -, rfl⟩ := List.mem_map.1 hh
  simp only [Handler.places, Handler.map, List.mem_cons, List.not_mem_nil, or_false] at hp
  rcases hp with rfl | rfl | rfl <;> rfl

/-- The code of a method is raw, and what the method refers to is in the tables. -/
structure Method.Resolved (tables : Tables) (method : Method) : Prop where
  raw : method.isSymbolic = false
  uniform : ∀ body, method.body = some body → body.code.Uniform
  signature : ∀ use ∈ method.toSignature.uses, tables.Has use
  body : ∀ body, method.body = some body →
    (∀ use ∈ body.traits.flatMap Trait.uses, tables.Has use) ∧
      ∀ use ∈ body.code.handlers.flatMap Handler.uses, tables.Has use

/-- What holds of a unit that is read, however many bytes there are. -/
structure CodeUnit.Resolved (unit : CodeUnit) (limit : Nat) : Prop where
  pool : unit.pool.Sound limit
  methods : ∀ method ∈ unit.methods, method.Resolved unit.tables
  classes : ∀ cls ∈ unit.classes, ∀ use ∈ cls.uses, unit.tables.Has use
  scripts : ∀ script ∈ unit.scripts, ∀ use ∈ script.uses, unit.tables.Has use
  nextPrivate : unit.nextPrivate = .ofNat unit.pool.namespaces.size

/-- Code that is raw, its handlers with it, and takes up at most `limit` bytes. -/
def Code.IsRaw (limit : Nat) (code : Code) : Prop :=
  ∃ bytes handlers, code = .ofWire bytes handlers ∧ bytes.length ≤ limit

theorem SoundTraits.uses {tables : Tables} {traits : List Trait} (h : SoundTraits tables traits) :
    ∀ use ∈ traits.flatMap Trait.uses, tables.Has use :=
  List.forall_mem_flatMap.2 fun t ht => (h.all t ht).uses

theorem SoundTraits.legible {tables : Tables} {traits : List Trait}
    (h : SoundTraits tables traits) : LegibleTraits traits :=
  ⟨h.length, fun t ht => (h.all t ht).legible⟩

/-- What has been read before methods and classes are known stays in the tables. -/
theorem Tables.Has.of_constants {pool : Pool} {tables : Tables} (hp : tables.pool = pool)
    {use : Use} (h : (Tables.mk pool (fun _ => none) (fun _ => none) 0).Has use) :
    tables.Has use := by
  subst hp
  cases use with
  | value value => exact h
  | name name => exact h
  | multiname name => exact h
  | method handle =>
    obtain ⟨i, hi⟩ := h
    cases hi
  | instructionClass handle =>
    obtain ⟨i, hi⟩ := h
    cases hi
  | traitClass handle =>
    obtain ⟨i, hi⟩ := h
    cases hi

/-- The tables of a unit whose methods and classes stand in the order of their handles. -/
theorem CodeUnit.tables_of_range {unit : CodeUnit} {methods classes : Nat}
    (hm : unit.methodOrder = (List.range methods).map MethodHandle.mk)
    (hc : unit.classOrder = (List.range classes).map ClassHandle.mk) : unit.tables =
      { pool := unit.pool
        method? := fun i => if i < methods then some ⟨i⟩ else none
        class? := fun i => if i < classes then some ⟨i⟩ else none
        metadataCount := unit.metadata.length } := by
  unfold tables methodAt? classAt?
  simp only [hm, hc, getElem?_map_range]

/-- Raw code that is read has handlers that refer to what theirs on the wire do. -/
theorem uses_handlers_ofWire (bytes : Bytes) (handlers : List (Handler UInt32)) :
    (Code.ofWire bytes handlers).handlers.flatMap Handler.uses = handlers.flatMap Handler.uses :=
  List.flatMap_map ..

theorem forall_mem_modify {α : Type} {p : α → Prop} {xs : Array α} {i : Nat} {f : α → α}
    (h : ∀ x ∈ xs, p x) (hf : ∀ x, xs[i]? = some x → p (f x)) : ∀ x ∈ xs.modify i f, p x := by
  intro x hx
  obtain ⟨j, hj⟩ := Array.getElem?_of_mem hx
  rw [Array.getElem?_modify] at hj
  split at hj
  · next he =>
    obtain ⟨old, hold, rfl⟩ := Option.map_eq_some_iff.1 hj
    exact hf old (he ▸ hold)
  · exact h x (Array.mem_of_getElem? hj)

namespace Reader

section
variable {limit : Nat} {tables : Tables}

theorem yields_string : Yields limit (string tables) fun n s => 1 ≤ n ∧ s ∈ tables.pool.strings :=
  yields_member

theorem yields_nspace :
    Yields limit (nspace tables) fun n ns => 1 ≤ n ∧ ns ∈ tables.pool.namespaces :=
  yields_member

theorem yields_multiname :
    Yields limit (multiname tables) fun n name => 1 ≤ n ∧ tables.Has (.multiname name) :=
  yields_member

theorem yields_method :
    Yields limit (method tables) fun n handle => 1 ≤ n ∧ tables.Has (.method handle) :=
  yields_entry

theorem yields_classRef : Yields limit (classRef tables) fun n handle =>
    1 ≤ n ∧ ∃ i, tables.class? i = some handle :=
  yields_entry

theorem yields_name :
    Yields limit (name tables) fun n name => 1 ≤ n ∧ tables.Has (.name name) := by
  refine yields_entry.mono ?_
  rintro n name - ⟨hn, i, hi⟩
  refine ⟨hn, fun s hs => ?_⟩
  subst hs
  split at hi
  · cases hi
  · obtain ⟨s', hs', he⟩ := Option.map_eq_some_iff.1 hi
    cases he
    exact Array.mem_of_getElem? hs'

theorem yields_metadataIndex : Yields limit (metadataIndex tables) fun n i =>
    1 ≤ n ∧ i.toNat < tables.metadataCount := by
  refine yields_entry.mono ?_
  rintro n index - ⟨hn, i, hi⟩
  refine ⟨hn, ?_⟩
  split at hi
  · next hlt =>
    cases hi
    rw [UInt32.toNat_ofNat']
    exact (Nat.mod_le _ _).trans_lt hlt
  · cases hi

/-! ## Values -/

theorem yields_valueOf {start i : Nat} {tag : UInt8} :
    Yields limit (valueOf tables start i tag) fun _ value => tables.Has (.value value) := by
  refine yields_require_bind fun kind _ => ?_
  cases kind with
  | int => exact yields_require_bind fun _ h => yields_pure (Array.mem_of_getElem? h)
  | uint => exact yields_require_bind fun _ h => yields_pure (Array.mem_of_getElem? h)
  | double => exact yields_require_bind fun _ h => yields_pure (Array.mem_of_getElem? h)
  | text => exact yields_require_bind fun _ h => yields_pure (Array.mem_of_getElem? h)
  | nspace => exact yields_require_bind fun _ h => yields_pure (Array.mem_of_getElem? h)
  | truth | null | undefined => exact yields_pure trivial

theorem yields_value :
    Yields limit (value tables) fun n value => 1 ≤ n ∧ tables.Has (.value value) := by
  refine yields_offset_bind fun start => yields_index.bind fun m i hm =>
    yields_u8.bind fun _ tag _ => yields_valueOf.mono fun n value _ hv => ⟨by omega, hv⟩

theorem yields_value? : Yields limit (value? tables) fun n value =>
    1 ≤ n ∧ ∀ v, value = some v → tables.Has (.value v) := by
  refine yields_offset_bind fun start => yields_index.bind fun m i hm =>
    Yields.ite (fun _ => yields_pure ⟨by omega, nofun⟩) fun _ =>
      yields_u8.bind fun _ tag _ => yields_valueOf.bind fun n value hv =>
        yields_pure ⟨by omega, fun v he => ?_⟩
  cases he
  exact hv

/-! ## Traits -/

theorem yields_memberOf (kind : MemberKind) : Yields limit (member tables kind) fun n member =>
    1 ≤ n ∧ IsU30 member.number ∧ ∀ use ∈ member.uses, tables.Has use := by
  cases kind with
  | slot kind =>
    refine yields_u30.bind fun m slot hslot => yields_multiname.bind fun _ type htype =>
      yields_value?.bind fun _ value hvalue => yields_pure ⟨by omega, hslot.2, ?_⟩
    rw [Member.uses, List.forall_mem_cons]
    refine ⟨htype.2, fun use hu => ?_⟩
    obtain ⟨v, hv, rfl⟩ := List.mem_map.1 hu
    exact hvalue.2 v (Option.mem_toList.1 hv)
  | access kind =>
    exact yields_u30.bind fun m number hnumber => yields_method.bind fun _ handle hhandle =>
      yields_pure ⟨by omega, hnumber.2, List.forall_mem_singleton.2 hhandle.2⟩
  | classBinding =>
    exact yields_u30.bind fun m number hnumber => yields_classRef.bind fun _ handle hhandle =>
      yields_pure ⟨by omega, hnumber.2, List.forall_mem_singleton.2 hhandle.2⟩
  | function =>
    exact yields_u30.bind fun m number hnumber => yields_method.bind fun _ handle hhandle =>
      yields_pure ⟨by omega, hnumber.2, List.forall_mem_singleton.2 hhandle.2⟩

/-- A trait that is read refers to what is in the tables, and it is sound if it is not read from
    too many bytes.  So it is with all declarations below. -/
theorem yields_trait : Yields limit (traitEntry tables) fun n t => 1 ≤ n ∧
    (∀ use ∈ t.uses, tables.Has use) ∧ (limit < countLimit → t.Sound tables) := by
  refine yields_multiname.bind fun m name hname => yields_offset_bind fun start =>
    yields_u8.bind fun _ bits _ => yields_require_bind fun kind _ =>
      (yields_memberOf kind).bind ?_
  rintro _ member ⟨-, hnumber, huses⟩
  have hmetadata : Yields limit
      (if bits &&& 0x40 ≠ 0 then list (metadataIndex tables) else pure []) fun _ indices =>
        indices.length ≤ limit ∧ ∀ i ∈ indices, i.toNat < tables.metadataCount :=
    Yields.ite (fun _ => yields_metadataIndex.list.mono fun _ _ _ h => h.2) fun _ =>
      yields_pure ⟨Nat.zero_le _, by simp⟩
  refine hmetadata.bind_ite ?_
  rintro _ indices ⟨hlength, hindices⟩
  have hall := List.forall_mem_cons.2 ⟨hname.2, huses⟩
  exact yields_pure ⟨by omega, hall, fun hlimit =>
    ⟨hall, ⟨hnumber, hlength.trans_lt hlimit⟩, hindices⟩⟩

theorem yields_traits : Yields limit (traits tables) fun n traits => 1 ≤ n ∧
    (∀ use ∈ traits.flatMap Trait.uses, tables.Has use) ∧
      (limit < countLimit → SoundTraits tables traits) := by
  refine yields_trait.list.mono ?_
  rintro n traits - ⟨hn, hlength, htraits⟩
  exact ⟨hn, List.forall_mem_flatMap.2 fun t ht => (htraits t ht).1, fun hlimit =>
    ⟨hlength.trans_lt hlimit, fun t ht => (htraits t ht).2 hlimit⟩⟩

/-! ## Signatures and bodies -/

theorem yields_optional {bits : UInt8} {parameters : Nat} :
    Yields limit (if bits &&& 0x08 ≠ 0 then optionalValues tables parameters else pure [])
      fun _ values => values.length ≤ parameters ∧ ∀ value ∈ values, tables.Has (.value value) := by
  refine Yields.ite (fun _ => yields_offset_bind fun start => yields_index.bind fun m count _ =>
    yields_refuse fun hc => (yields_value.times count).mono ?_) fun _ =>
      yields_pure ⟨Nat.zero_le _, by simp⟩
  rintro n values - ⟨hlength, -, hvalues⟩
  exact ⟨by omega, hvalues⟩

theorem yields_parameterNames {bits : UInt8} {count : Nat} :
    Yields limit (if bits &&& 0x80 ≠ 0 then times count (string tables) else pure [])
      fun _ names =>
        (names = [] ∨ names.length = count) ∧ ∀ s ∈ names, s ∈ tables.pool.strings := by
  refine Yields.ite (fun _ => (yields_string.times count).mono ?_) fun _ =>
    yields_pure ⟨.inl rfl, by simp⟩
  rintro n names - ⟨hlength, -, hnames⟩
  exact ⟨.inr hlength, hnames⟩

theorem yields_signature : Yields limit (signature tables) fun n signature => 1 ≤ n ∧
    (∀ use ∈ signature.uses, tables.Has use) ∧
      (limit < countLimit → signature.Sound tables ∧ signature.sourceFile = none) := by
  refine yields_index.bind fun m count hm => yields_multiname.bind fun _ returnType hreturn =>
    ((yields_multiname.times count).mono fun n ps hn h => And.intro hn h).bind ?_
  rintro _ parameters ⟨hn, hlength, hcount, hparameters⟩
  refine yields_name.bind fun _ name hname => yields_u8.bind fun _ bits _ =>
    yields_optional.bind_ite fun _ optional hoptional =>
      yields_parameterNames.bind_ite fun _ names hnames => yields_pure ⟨by omega, ?uses,
        fun hlimit => ⟨⟨?uses, ⟨?length, hlength ▸ hoptional.1⟩, hlength ▸ hnames.1⟩, rfl⟩⟩
  case uses =>
    simp only [Signature.uses, List.forall_mem_append, List.forall_mem_cons, List.forall_mem_map]
    exact ⟨⟨⟨hreturn.2, hparameters⟩, hname.2, hoptional.2⟩, fun s hs s' he =>
      Option.some.inj he ▸ hnames.2 s hs⟩
  case length =>
    show parameters.length < countLimit
    omega

theorem yields_handler : Yields limit (handler tables) fun n handler =>
    1 ≤ n ∧ ∀ use ∈ handler.uses, tables.Has use := by
  refine yields_u30.bind fun m start hstart => yields_u30.bind fun _ stop _ =>
    yields_u30.bind fun _ entry _ => yields_multiname.bind fun _ catchType hcatch =>
      yields_multiname.bind fun _ variableName hvariable => yields_pure ⟨by omega, ?_⟩
  rw [Handler.uses, List.forall_mem_cons, List.forall_mem_singleton]
  exact ⟨hcatch.2, hvariable.2⟩

theorem yields_body : Yields limit (body tables) fun n body => 1 ≤ n ∧
    ((∀ use ∈ body.traits.flatMap Trait.uses, tables.Has use) ∧
      ∀ use ∈ body.code.handlers.flatMap Handler.uses, tables.Has use) ∧
    body.code.IsRaw limit ∧ (limit < countLimit → body.Sound tables (Code.IsRaw limit)) := by
  refine yields_u30.bind fun m maxStack hstack => yields_u30.bind fun _ localCount hlocal =>
    yields_u30.bind fun _ initScopeDepth hinit => yields_u30.bind fun _ maxScopeDepth hmax =>
      yields_index.bind fun _ length _ => (yields_bytes length).bind ?_
  rintro _ code ⟨-, hlength, hcode⟩
  refine yields_handler.list.bind ?_
  rintro _ handlers ⟨-, hcount, hhandlers⟩
  refine yields_traits.bind ?_
  rintro _ traits ⟨-, htraits, hsound⟩
  have hraw : (Code.ofWire code handlers).IsRaw limit := ⟨code, handlers, rfl, hlength ▸ hcode⟩
  rw [← List.forall_mem_flatMap, ← uses_handlers_ofWire code] at hhandlers
  refine yields_pure ⟨by omega, ⟨htraits, hhandlers⟩, hraw, fun hlimit => ?_⟩
  exact {
    frame := ⟨hstack.2, hlocal.2, hinit.2, hmax.2, (hsound hlimit).legible⟩
    traits := hsound hlimit
    handlerCount := by
      rw [Code.handlers, List.length_map]
      exact hcount.trans_lt hlimit
    handlers := hhandlers
    code := hraw }

/-! ## Classes, scripts and metadata -/

theorem yields_instanceSide : Yields limit (instanceSide tables) fun n cls => 1 ≤ n ∧
    (∀ use ∈ cls.uses, tables.Has use) ∧ (limit < countLimit → cls.Sound tables) := by
  refine yields_multiname.bind fun m name hname => yields_multiname.bind fun _ superName hsuper =>
    yields_u8.bind fun _ bits _ => ?_
  have hprotected : Yields limit (if bits &&& 0x08 ≠ 0 then some <$> nspace tables else pure none)
      fun _ ns => ∀ n, ns = some n → n ∈ tables.pool.namespaces := by
    refine Yields.ite (fun _ => yields_nspace.bind fun _ ns hns => yields_pure ?_) fun _ =>
      yields_pure nofun
    rintro n ⟨⟩
    exact hns.2
  refine hprotected.bind_ite fun _ ns hns => yields_multiname.list.bind ?_
  rintro _ interfaces ⟨-, hlength, hinterfaces⟩
  refine yields_method.bind fun _ constructor hconstructor => yields_traits.bind ?_
  rintro _ traits ⟨-, htraits, hsound⟩
  refine yields_pure ⟨by omega, ?uses, fun hlimit => ⟨?uses, hlength.trans_lt hlimit,
    hsound hlimit, ⟨(by decide : 0 < countLimit), by simp⟩⟩⟩
  simp only [ClassDefinition.uses, List.forall_mem_append, List.forall_mem_cons,
    List.forall_mem_map, Option.mem_toList, List.flatMap_nil, List.not_mem_nil]
  exact ⟨⟨⟨⟨⟨hname.2, hsuper.2, by simp⟩, hns⟩, hinterfaces⟩, hconstructor.2, htraits⟩,
    hconstructor.2, by simp⟩

theorem yields_staticSide {cls : ClassDefinition} (h : ∀ use ∈ cls.uses, tables.Has use)
    (hs : limit < countLimit → cls.Sound tables) :
    Yields limit (staticSide tables cls) fun n cls => 1 ≤ n ∧
      (∀ use ∈ cls.uses, tables.Has use) ∧ (limit < countLimit → cls.Sound tables) := by
  refine yields_method.bind fun m staticInit hinit => yields_traits.bind ?_
  rintro _ traits ⟨-, htraits, hsound⟩
  refine yields_pure ⟨by omega, ?uses, fun hlimit => ⟨?uses, (hs hlimit).interfaces,
    (hs hlimit).instanceTraits, hsound hlimit⟩⟩
  simp only [ClassDefinition.uses, List.forall_mem_append] at h ⊢
  exact ⟨h.1, List.forall_mem_cons.2 ⟨hinit.2, htraits⟩⟩

theorem yields_script : Yields limit (script tables) fun n script => 1 ≤ n ∧
    (∀ use ∈ script.uses, tables.Has use) ∧ (limit < countLimit → script.Sound tables) := by
  refine yields_method.bind fun m init hinit => yields_traits.bind ?_
  rintro _ traits ⟨-, htraits, hsound⟩
  exact yields_pure ⟨by omega, List.forall_mem_cons.2 ⟨hinit.2, htraits⟩, fun hlimit =>
    ⟨hinit.2, hsound hlimit⟩⟩

theorem yields_metadata : Yields limit (metadata tables) fun n entry =>
    1 ≤ n ∧ (limit < countLimit → entry.Sound tables) := by
  have hitem : Yields limit (metadataItem tables) fun n item =>
      1 ≤ n ∧ tables.Has (.name item.1) ∧ tables.Has (.name (some item.2)) :=
    yields_name.bind fun m key hkey => yields_string.bind fun _ value hvalue =>
      yields_pure ⟨by omega, hkey.2, fun s he => Option.some.inj he ▸ hvalue.2⟩
  refine yields_string.bind fun m name hname => hitem.list.bind ?_
  rintro _ items ⟨-, hlength, hitems⟩
  refine yields_pure ⟨by omega, fun hlimit => ⟨?_, hlength.trans_lt hlimit⟩⟩
  simp only [Metadata.uses, List.forall_mem_cons, List.forall_mem_flatMap]
  exact ⟨fun s he => Option.some.inj he ▸ hname.2, fun item hi =>
    ⟨(hitems item hi).1, (hitems item hi).2, by simp⟩⟩

/-! ## Units -/

/-- Each method that is given a body is as sound with it as it was before. -/
theorem yields_bodies : ∀ (count : Nat) (methods : Array Method),
    (∀ method ∈ methods, method.Resolved tables ∧
      (limit < countLimit → method.Sound tables (Code.IsRaw limit))) →
    Yields limit (bodies tables count methods) fun _ later =>
      later.size = methods.size ∧ ∀ method ∈ later, method.Resolved tables ∧
        (limit < countLimit → method.Sound tables (Code.IsRaw limit))
  | 0, methods, hm => yields_pure ⟨rfl, hm⟩
  | count + 1, methods, hm => by
    refine yields_offset_bind fun start => yields_method.bind fun _ handle _ =>
      yields_body.bind ?_
    rintro _ body ⟨-, huses, ⟨bytes, handlers, hraw, -⟩, hbody⟩
    refine yields_refuse fun hfree => (yields_bodies count _ ?_).mono fun _ later _ h =>
      ⟨by rw [h.1, Array.size_modify], h.2⟩
    refine forall_mem_modify hm fun old hold => ?_
    obtain ⟨hresolved, hsound⟩ := hm old (Array.mem_of_getElem? hold)
    refine ⟨⟨congrArg Code.isSymbolic hraw, ?_, hresolved.signature, ?_⟩, fun hlimit =>
      ⟨(hsound hlimit).signature, ?_, ?_⟩⟩
    · rintro _ ⟨⟩
      exact hraw ▸ Code.uniform_ofWire bytes handlers
    · rintro _ ⟨⟩
      exact huses
    · have hnone : old.body = none := by
        rw [hold] at hfree
        simpa using hfree
      have hsource := (hsound hlimit).sourceFile
      rw [hnone] at hsource
      simpa [hraw, Code.sourceFile?] using hsource
    · rintro _ ⟨⟩
      exact hbody hlimit

theorem yields_version : Yields limit version fun n _ => n = 4 := by
  have hu16 : Yields limit u16 fun n _ => n = 2 :=
    (yields_bytes 2).bind fun n _ h => yields_pure h.1
  exact hu16.bind fun _ minor hminor => hu16.bind fun _ major hmajor =>
    Yields.ite (fun _ _ _ _ _ hr => by cases hr) fun _ => yields_pure (by omega)

theorem yields_sections : Yields limit sections fun _ unit => unit.Resolved limit ∧
    (limit < countLimit → unit.Sound (Code.IsRaw limit) limit) := by
  refine yields_version.bind fun _ _ _ => yields_pool.bind fun _ pool hpool =>
    yields_signature.list.bind ?_
  rintro _ signatures ⟨-, hsignatureCount, hsignatures⟩
  refine yields_metadata.list.bind ?_
  rintro _ metadata ⟨-, hmetadataCount, hmetadata⟩
  refine yields_index.bind fun _ classCount _ => ?_
  dsimp only
  refine ((yields_instanceSide.times classCount).mono fun n as hn h => And.intro hn h).bind ?_
  rintro _ instances ⟨hn, hinstanceCount, hclassCount, hinstances⟩
  refine (Yields.mapM fun cls hcls =>
    yields_staticSide (hinstances cls hcls).1 (hinstances cls hcls).2).bind ?_
  rintro _ classes ⟨-, hclasses⟩
  refine yields_script.list.bind ?_
  rintro _ scripts ⟨-, hscriptCount, hscripts⟩
  refine yields_index.bind fun _ bodyCount _ => (yields_bodies bodyCount _ ?_).bind ?_
  · intro method hmethod
    obtain ⟨signature, hs, rfl⟩ := List.mem_map.1 (List.mem_toArray.1 hmethod)
    obtain ⟨huses, hsound⟩ := hsignatures signature hs
    have hhas {tables : Tables} (hp : tables.pool = pool) :
        ∀ use ∈ signature.uses, tables.Has use := fun use hu => .of_constants hp (huses use hu)
    refine ⟨⟨rfl, nofun, hhas rfl, nofun⟩, fun hlimit => ?_⟩
    obtain ⟨hsound, hsource⟩ := hsound hlimit
    exact ⟨⟨hhas rfl, hsound.legible, hsound.parameterNames⟩, hsource, nofun⟩
  rintro _ methods ⟨hsize, hmethods⟩
  have hsize : methods.size = signatures.length := by simpa using hsize
  have hlength : classes.length = classCount := hclasses.length_eq.symm.trans hinstanceCount
  refine yields_pure ⟨?_, fun hlimit => ?_⟩
  -- classes and bodies were read with the tables that the unit has in the end
  · refine ⟨hpool, ?_, ?_, ?_, rfl⟩ <;> rw [CodeUnit.tables_of_range rfl rfl, hsize, hlength]
    · exact fun method hm => (hmethods method hm).1
    · intro cls hcls
      obtain ⟨_, -, h⟩ := exists_mem_left hclasses (List.mem_toArray.1 hcls)
      exact h.1
    · exact fun script hs => (hscripts script hs).1
  exact {
    pool := hpool
    methodCount := by
      rw [hsize]
      exact hsignatureCount.trans_lt hlimit
    classCount := by
      rw [List.size_toArray]
      omega
    scriptCount := hscriptCount.trans_lt hlimit
    metadataCount := hmetadataCount.trans_lt hlimit
    methods := by
      rw [CodeUnit.tables_of_range rfl rfl, hsize, hlength]
      exact fun method hm => (hmethods method hm).2 hlimit
    classes := by
      rw [CodeUnit.tables_of_range rfl rfl, hsize, hlength]
      intro cls hcls
      obtain ⟨_, -, h⟩ := exists_mem_left hclasses (List.mem_toArray.1 hcls)
      exact h.2 hlimit
    scripts := by
      rw [CodeUnit.tables_of_range rfl rfl, hsize, hlength]
      exact fun script hs => (hscripts script hs).2 hlimit
    metadata := by
      rw [CodeUnit.tables_of_range rfl rfl, hsize, hlength]
      intro entry he
      have hsound := hmetadata entry he hlimit
      exact ⟨fun use hu => .of_constants rfl (hsound.uses use hu), hsound.items⟩ }

end

/-- What holds of a unit that is read from any bytes. -/
theorem resolved_of_unit {bytes : Bytes} {parsed : CodeUnit} {cursor : Cursor}
    (h : unit (.start bytes) = .ok parsed cursor) : parsed.Resolved bytes.length ∧
      (bytes.length < countLimit → parsed.Sound (Code.IsRaw bytes.length) bytes.length) := by
  obtain ⟨sectioned, middle, hs, h⟩ := run_bind_eq_ok.1 h
  obtain ⟨_, last, -, h⟩ := run_bind_eq_ok.1 h
  cases h
  obtain ⟨_, -, hresolved⟩ := yields_sections (.start bytes) _ _ (Nat.le_refl _) hs
  exact hresolved

/-- **A unit that is read from any bytes is sound.** -/
theorem sound_of_unit {bytes : Bytes} (hl : bytes.length < countLimit) {parsed : CodeUnit}
    {cursor : Cursor} (h : unit (.start bytes) = .ok parsed cursor) :
    parsed.Sound (Code.IsRaw bytes.length) bytes.length :=
  (resolved_of_unit h).2 hl

end Reader

end ActionBytecode
