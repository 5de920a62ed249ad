/-
  ActionBytecode — which units can be read once they are written.

  Writing checks less than reading does.  A number is written whatever its upper bits, a method is
  written with more optional values than parameters, and a raw distance need not lead to an
  instruction; none of this can be read.  `CodeUnit.Legible` says what has to hold in addition for
  a unit that was written to be read (`decode_encode_iff`), and `decode_encode_wideLocal` is a
  unit that is written and cannot be read.

  A unit remembers what it was last written as, so once it was written as bytes that cannot be
  read it gives them again.  `ReadBack` leaves such runs out.
-/
import ActionBytecode.Proofs.Encodability
import ActionBytecode.Proofs.Reading

namespace ActionBytecode

/-- The code of a method is not too long to be read. -/
def Method.ShortCode (method : Method) (a : Indexing) (debug : Bool) : Prop :=
  ∀ body, method.body = some body →
    ∀ emissions, method.emissions body.code debug = .ok emissions →
      ∀ layout, layOut a 0 [] emissions = .ok layout → ∀ p ∈ layout, p.stop < countLimit

namespace CodeUnit

/-- The counts, numbers and code of the unit can be read, those of constants and code under the
    indices that the unit is written with. -/
structure Legible (unit : CodeUnit) (options : EncodeOptions) : Prop where
  methodCount : unit.methods.size < countLimit
  classCount : unit.classes.size < countLimit
  scriptCount : unit.scripts.length < countLimit
  metadataCount : unit.metadata.length < countLimit
  signatures : ∀ method ∈ unit.methods, method.toSignature.Legible
  classes : ∀ cls ∈ unit.classes, cls.Legible
  scripts : ∀ script ∈ unit.scripts, LegibleTraits script.traits
  metadata : ∀ entry ∈ unit.metadata, entry.items.length < countLimit
  bodies : ∀ method ∈ unit.methods, ∀ body, method.body = some body →
    body.toFrame.Legible ∧ body.code.handlers.length < countLimit
  constants : ∀ order a, unit.classOrderFor options.mainClass = .ok order →
    unit.index options.debugInstrumentation order = .ok a → a.toPool.Legible
  code : ∀ order a, unit.classOrderFor options.mainClass = .ok order →
    unit.index options.debugInstrumentation order = .ok a → ∀ method ∈ unit.methods,
      method.LegibleCode a options.debugInstrumentation ∧
      method.ShortCode a options.debugInstrumentation

/-! ## Bodies -/

theorem isU30_offsetOf {layout : List Placement} {stop : Nat} (ht : Tiles 0 layout stop)
    (hs : stop < countLimit) {position : CodePosition} {place : UInt32}
    (h : offsetOf layout stop position = .ok place) : IsU30 place := by
  have hsmall {n : Nat} (hn : n ≤ stop) : IsU30 (UInt32.ofNat n) := by
    have hlimit := hn.trans_lt hs
    exact (isU30_ofNat (hlimit.trans (by decide))).2 hlimit
  cases position with
  | offset => cases h
  | finish =>
    cases h
    exact hsmall (Nat.le_refl _)
  | instruction id =>
    rw [offsetOf] at h
    cases hstart : startOf? layout id with
    | none =>
      rw [hstart] at h
      cases h
    | some start =>
      rw [hstart] at h
      cases h
      obtain ⟨p, hp, rfl⟩ := Option.map_eq_some_iff.1 hstart
      have := ht.start_le_of_mem (List.mem_of_find?_eq_some hp)
      exact hsmall (by omega)

/-- The places of a handler can be read when the code is not too long. -/
theorem legible_handler {layout : List Placement} {stop : Nat} (ht : Tiles 0 layout stop)
    (hs : stop < countLimit) {handler : Handler CodePosition} {placed : Handler UInt32}
    (h : handler.mapM (offsetOf layout stop) = .ok placed) : placed.Legible := by
  intro place hp
  obtain ⟨position, -, hposition⟩ := exists_mem_left (Handler.places_of_mapM h) hp
  exact isU30_offsetOf ht hs hposition

/-- What is assembled of a body can be read when the frame can, the handlers can be counted and
    the code is not too long. -/
theorem legible_assembled {a : Indexing} {emissions : List Emission} {code : Bytes}
    {handlers : List (Handler CodePosition)} {places : List (Handler UInt32)}
    (h : assemble a emissions handlers = .ok (code, places)) (method : MethodHandle)
    (frame : Frame) :
    (AssembledBody.mk method frame code places).Legible ↔
      frame.Legible ∧ handlers.length < countLimit ∧
        ∀ layout, layOut a 0 [] emissions = .ok layout → ∀ p ∈ layout, p.stop < countLimit := by
  obtain ⟨layout, pieces, hlayout, hpieces, rfl, hplaces⟩ := assemble_eq_ok.1 h
  obtain ⟨stop, hout⟩ := laidOut_of_layOut hlayout
  have hlength : pieces.flatten.length = stop := by
    have := hout.length_flatten hpieces
    omega
  have hstops : pieces.flatten.length < countLimit ↔ ∀ p ∈ layout, p.stop < countLimit := by
    rw [hlength]
    exact ⟨fun hs p hp => (hout.tiles.start_le_of_mem hp).2.2.trans_lt hs,
      hout.tiles.stop_lt (by decide)⟩
  unfold AssembledBody.Legible
  simp only [hlayout, Except.ok.injEq, forall_eq', ← hstops, hplaces.length_eq]
  refine and_congr_right fun _ => ⟨fun h => ⟨h.2.1, h.1⟩, fun h => ⟨h.2, h.1, fun placed hp => ?_⟩⟩
  obtain ⟨handler, -, hh⟩ := exists_mem_left hplaces hp
  rw [hlength] at hh h
  exact legible_handler hout.tiles h.2 hh

/-! ## Units -/

section
variable {unit : CodeUnit} {options : EncodeOptions} {order : List ClassHandle} {s : Sections}
  {rebuilt : Rebuilt}

/-- The bodies that are written are those of the methods. -/
theorem forall_assembled (hr : unit.Rebuilds options order s rebuilt) (ho : unit.Ordered)
    {p : AssembledBody → Prop} {q : Method → Body → Prop}
    (h : ∀ handle method body emissions code handlers, method.body = some body →
      method.emissions body.code options.debugInstrumentation = .ok emissions →
      assemble rebuilt.indexing emissions body.code.handlers = .ok (code, handlers) →
      (p ⟨handle, body.toFrame, code, handlers⟩ ↔ q method body)) :
    (∀ written ∈ rebuilt.bodies, p written) ↔
      ∀ method ∈ unit.methods, ∀ body, method.body = some body → q method body := by
  rw [← forall_indexedMethods ho hr.index_eq]
  constructor
  · rintro hp ⟨handle, method⟩ hm body hb
    obtain ⟨written, hw⟩ := exists_assembleBody hr hm
    obtain ⟨emissions, he, ⟨code, handlers⟩, ha⟩ := succeeds_assembleBody.1 ⟨written, hw⟩ body hb
    have hsome : assembleBody rebuilt.indexing options.debugInstrumentation handle method =
        .ok (some ⟨handle, body.toFrame, code, handlers⟩) :=
      assembleBody_eq_some.2 ⟨body, emissions, code, handlers, hb, he, ha, rfl⟩
    exact (h handle method body emissions code handlers hb he ha).1
      (hp _ ((mem_assembleBodies hr.assembled).2 ⟨handle, method, hm, hsome⟩))
  · intro hq written hw
    obtain ⟨handle, method, hm, ha⟩ := (mem_assembleBodies hr.assembled).1 hw
    obtain ⟨body, emissions, code, handlers, hb, he, hassemble, rfl⟩ := assembleBody_eq_some.1 ha
    exact (h handle method body emissions code handlers hb he hassemble).2 (hq _ hm body hb)

theorem legible_bodies (hr : unit.Rebuilds options order s rebuilt) (ho : unit.Ordered) :
    (∀ written ∈ rebuilt.bodies, written.Legible) ↔
      (∀ method ∈ unit.methods, ∀ body, method.body = some body →
        body.toFrame.Legible ∧ body.code.handlers.length < countLimit) ∧
      ∀ method ∈ unit.methods,
        method.ShortCode rebuilt.indexing options.debugInstrumentation := by
  rw [forall_assembled hr ho (q := fun method body => body.toFrame.Legible ∧
    body.code.handlers.length < countLimit ∧
    ∀ emissions, method.emissions body.code options.debugInstrumentation = .ok emissions →
      ∀ layout, layOut rebuilt.indexing 0 [] emissions = .ok layout →
        ∀ p ∈ layout, p.stop < countLimit)]
  · constructor
    · intro h
      exact ⟨fun method hm body hb => ⟨(h method hm body hb).1, (h method hm body hb).2.1⟩,
        fun method hm body hb => (h method hm body hb).2.2⟩
    · rintro ⟨h, hshort⟩ method hm body hb
      exact ⟨(h method hm body hb).1, (h method hm body hb).2, hshort method hm body hb⟩
  · intro handle method body emissions code handlers _ he ha
    simp only [he, Except.ok.injEq, forall_eq']
    exact legible_assembled ha handle body.toFrame

/-- A unit has no more bodies than methods. -/
theorem length_assembled_le (hr : unit.Rebuilds options order s rebuilt) (ho : unit.Ordered) :
    rebuilt.bodies.length ≤ unit.methods.size := by
  obtain ⟨found, hf, h⟩ := bind_eq_ok.1 hr.assembled
  have hlength := (mapM_eq_ok.1 hf).length_eq
  rw [length_indexedMethods ho hr.index_eq] at hlength
  rw [← pure_eq_ok.1 h, hlength]
  exact List.length_filterMap_le _ _

/-- **What is written of a unit is legible exactly when the unit is.** -/
theorem legible_iff (hr : unit.Rebuilds options order s rebuilt) (ho : unit.Ordered) :
    (unit.LegibleSections rebuilt ∧ ∀ entry ∈ unit.indexedMethods rebuilt.indexing,
      entry.2.LegibleCode rebuilt.indexing options.debugInstrumentation) ↔
      unit.Legible options := by
  have hmethods := size_methods_of_index ho hr.index_eq
  have hclasses := size_classes_of_index ho hr.order_eq hr.index_eq
  have hindexed (p : Method → Prop) := forall_indexedMethods ho hr.index_eq (p := p)
  have hmem (cls : ClassDefinition) : cls ∈ unit.indexedClasses rebuilt.indexing ↔
      cls ∈ unit.classes := mem_indexedClasses ho hr.order_eq hr.index_eq
  rw [hindexed (·.LegibleCode rebuilt.indexing options.debugInstrumentation)]
  constructor
  · rintro ⟨hl, hcode⟩
    obtain ⟨hbodies, hshort⟩ := (legible_bodies hr ho).1 hl.bodies
    refine ⟨hmethods ▸ hl.methodCount, hclasses ▸ hl.classCount, hl.scriptCount, hl.metadataCount,
      (hindexed _).1 hl.signatures, fun cls hcls => hl.classes cls ((hmem cls).2 hcls),
      hl.scripts, hl.metadata, hbodies, fun order' a horder ha => ?_, fun order' a horder ha => ?_⟩
    all_goals
      cases hr.order_eq.symm.trans horder
      cases hr.index_eq.symm.trans ha
    · exact hl.pool
    · exact fun method hm => ⟨hcode method hm, hshort method hm⟩
  · intro hl
    have hcode := hl.code order _ hr.order_eq hr.index_eq
    exact ⟨⟨hl.constants order _ hr.order_eq hr.index_eq, hmethods ▸ hl.methodCount,
      (hindexed _).2 hl.signatures, hl.metadataCount, hl.metadata, hclasses ▸ hl.classCount,
      fun cls hcls => hl.classes cls ((hmem cls).1 hcls), hl.scriptCount, hl.scripts,
      (length_assembled_le hr ho).trans_lt hl.methodCount,
      (legible_bodies hr ho).2 ⟨hl.bodies, fun method hm => (hcode method hm).2⟩⟩,
      fun method hm => (hcode method hm).1⟩

/-- The traits of a unit stay when its code is disassembled. -/
theorem forall_allTraits_of_disassemble {plain : CodeUnit} (ho : unit.Ordered)
    (hd : Edit.disassemble unit = .ok () plain) {p : Trait → Prop} (h : ∀ t ∈ unit.allTraits, p t) :
    ∀ t ∈ plain.allTraits, p t := by
  have hk := Edit.keeps_disassemble.of_ok hd
  obtain ⟨hc, hs, hm⟩ := (forall_allTraits ho).1 h
  obtain ⟨methods, next, hmethods, rfl⟩ := Edit.disassemble_eq_ok.1 hd
  refine (forall_allTraits (ho.kept hk)).2 ⟨hc, hs, fun converted hmem body hb => ?_⟩
  have hsame := forall₂_of_run_mapM hmethods fun _ _ _ _ _ h => Method.frame_of_disassemble h
  obtain ⟨method, hmethod, hframe⟩ := exists_mem_left hsame (Array.mem_toList_iff.2 hmem)
  rw [hb] at hframe
  obtain ⟨body', hb', hframe⟩ := Option.map_eq_some_iff.1 hframe.symm
  rw [← hframe]
  exact hm method (Array.mem_toList_iff.1 hmethod) body' hb'

end

end CodeUnit

/-- If the operation writes the unit, what it writes can be read. -/
def ReadBack (unit : CodeUnit) (operation : Operation) : Prop :=
  ∀ options bytes later, operation = .encode options →
    Edit.encode options unit = .ok bytes later → Succeeds (CodeUnit.decode bytes)

/-- The bytes that a unit remembers can be read. -/
theorem ReachableBy.succeeds_decode {unit : CodeUnit} (h : ReachableBy ReadBack unit) :
    ∀ bytes, unit.written = some bytes → Succeeds (CodeUnit.decode bytes) := by
  induction h with
  | empty => nofun
  | decode h =>
    intro bytes hw
    obtain ⟨parsed, cursor, examined, -, -, rfl⟩ := CodeUnit.decode_eq_ok.1 h
    cases hw
    exact ⟨_, h⟩
  | @step unit operation _ ha ih =>
    intro bytes hw
    rcases operation.run_cases unit with hk | hj | hj | ⟨options, plain, rebuilt, rfl, -, -, he⟩
    · rcases hk.written with hk | hk
      · exact ih bytes (hk.symm.trans hw)
      · cases hk.symm.trans hw
    · cases hj.written.symm.trans hw
    · cases hj.written.symm.trans hw
    · rw [Operation.run, Edit.after, he] at hw
      cases hw
      exact ha options _ _ rfl he

/-- **What was written of a unit can be read exactly when the unit is legible.**  A unit that was
    not tampered with gives the bytes that it was read from. -/
theorem decode_encode_iff {unit later : CodeUnit} {options : EncodeOptions} {bytes : Bytes}
    (hr : ReachableBy ReadBack unit) (hg : ∀ t ∈ unit.allTraits, t.defaultsToGlobal = false)
    (he : Edit.encode options unit = .ok bytes later) :
    (∃ decoded, CodeUnit.decode bytes = .ok decoded) ↔ (unit.isTampered →
      ∀ plain, Edit.disassemble unit = .ok () plain → plain.Legible options) := by
  rcases Edit.encode_eq_ok.1 he with ⟨hc, -⟩ | ⟨hc, plain, rebuilt, hd, hrebuild, rfl, -⟩
  · rw [CodeUnit.current?] at hc
    split at hc
    · cases hc
    · next ht =>
      exact iff_of_true (hr.succeeds_decode bytes hc) fun h => absurd h ht
  · have ht : unit.isTampered := by
      by_contra ht
      rw [CodeUnit.current?, if_neg ht] at hc
      exact ht (by simp [CodeUnit.isTampered, hc])
    have hk := Edit.keeps_disassemble unit
    rw [Edit.after, hd] at hk
    have ho := hr.ordered.kept hk
    obtain ⟨order, s, hrebuilds⟩ := CodeUnit.rebuild_eq_ok.1 hrebuild
    have hplain := CodeUnit.forall_allTraits_of_disassemble hr.ordered hd hg
    refine (CodeUnit.succeeds_decode hrebuilds ho hplain).trans
      ((CodeUnit.legible_iff hrebuilds ho).trans ?_)
    rw [forall_prop_of_true ht]
    constructor
    · intro hl plain' hd'
      cases hd.symm.trans hd'
      exact hl
    · exact fun hl => hl plain hd

/-! A method that reads a local by number and jumps back over a raw distance. -/

/-- The code of the method. -/
def localCode (number : UInt32) : Code :=
  .symbolic [⟨⟨0⟩, .getLocal, [.u30 number]⟩, ⟨⟨1⟩, .jump, [.target (.offset (-10))]⟩] []

/-- The unit of the method. -/
def localUnit (number : UInt32) : CodeUnit :=
  [.createInstruction .getLocal [.u30 number], .createInstruction .jump [.target (.offset (-10))],
    .createMethod { body := some { code := localCode number } }].foldl
      (fun unit (operation : Operation) => operation.run unit) .empty

theorem reachable_localUnit (number : UInt32) : ReachableBy ReadBack (localUnit number) := by
  refine ReachableBy.foldl ?_ .empty
  simp only [List.forall_mem_cons]
  refine ⟨?_, ?_, ?_, fun _ hm => absurd hm List.not_mem_nil⟩
  all_goals
    intro unit options bytes later h
    cases h

/-- The indices of the unit. -/
def localIndexing (number : UInt32) : Indexing :=
  (((localUnit number).index false []).toOption).getD {}

theorem index_localUnit {number : UInt32} {order : List ClassHandle} {a : Indexing}
    (ho : (localUnit number).classOrderFor none = .ok order)
    (ha : (localUnit number).index false order = .ok a) : localIndexing number = a := by
  have horder : (localUnit number).classOrderFor none = .ok [] := rfl
  cases horder.symm.trans ho
  rw [localIndexing, ha]
  rfl

theorem body_localUnit {method : Method} (hm : method ∈ (localUnit 0xffffffff).methods) :
    method = { body := some { code := localCode 0xffffffff } } := by
  have hmethods : (localUnit 0xffffffff).methods =
      #[{ body := some { code := localCode 0xffffffff } }] := by decide
  rw [hmethods] at hm
  exact List.mem_singleton.1 (Array.mem_toList_iff.2 hm)

theorem legible_localUnit : (localUnit 0xffffffff).Legible {} where
  methodCount := by decide
  classCount := by decide
  scriptCount := by decide
  metadataCount := by decide
  signatures := by decide
  classes := by decide
  scripts := by decide
  metadata := by decide
  bodies method hm body hb := by
    cases body_localUnit hm
    cases hb
    decide
  constants order a ho ha := by
    cases index_localUnit ho ha
    have hplain : ∀ name ∈ (localIndexing 0xffffffff).toPool.multinames,
        name.application? = none := by decide
    exact ⟨by decide, by decide, by decide, fun base params h => nomatch hplain _ h⟩
  code order a ho ha method hm := by
    cases index_localUnit ho ha
    cases body_localUnit hm
    have hall : (Signature.emissions {} (localCode 0xffffffff) false >>=
        layOut (localIndexing 0xffffffff) 0 []).map
        (fun layout => decide (LegibleLayout layout ∧ ∀ p ∈ layout, p.stop < countLimit)) =
        .ok true := by decide
    constructor
    all_goals
      intro body hb emissions he layout hlayout
      cases hb
      rw [bind_eq_ok.2 ⟨emissions, he, hlayout⟩] at hall
      have hlegible := of_decide_eq_true (Except.ok.inj hall)
    · exact hlegible.1
    · exact hlegible.2

theorem encode_localUnit {number : UInt32} {rebuilt : Rebuilt} (hp : (localUnit number).Plain)
    (ht : (localUnit number).current? = none) (h : (localUnit number).rebuild {} = .ok rebuilt) :
    Edit.encode {} (localUnit number) =
      .ok rebuilt.bytes ((localUnit number).commit rebuilt) :=
  Edit.encode_eq_ok.2 (.inr ⟨ht, _, rebuilt, Edit.disassemble_of_plain hp, h, rfl, rfl⟩)

/-- A number whose upper bits agree is read back. -/
theorem decode_encode_localUnit : ∃ bytes later,
    Edit.encode {} (localUnit 0xffffffff) = .ok bytes later ∧
      ∃ decoded, CodeUnit.decode bytes = .ok decoded := by
  have hplain : (localUnit 0xffffffff).Plain := by decide
  have hrebuilds : ((localUnit 0xffffffff).rebuild {}).toOption.isSome := by decide +kernel
  cases hr : (localUnit 0xffffffff).rebuild {} with
  | error fault =>
    rw [hr] at hrebuilds
    cases hrebuilds
  | ok rebuilt =>
    have he := encode_localUnit hplain (by decide) hr
    refine ⟨_, _, he, (decode_encode_iff (reachable_localUnit _) (by decide) he).2 ?_⟩
    intro _ plain hd
    rw [Edit.disassemble_of_plain hplain] at hd
    cases hd
    exact legible_localUnit

/-- **A number whose upper bits differ is written and cannot be read.** -/
theorem decode_encode_wideLocal : ReachableBy ReadBack (localUnit 0x20000000) ∧
    ∃ bytes later, Edit.encode {} (localUnit 0x20000000) = .ok bytes later ∧
      ¬ ∃ decoded, CodeUnit.decode bytes = .ok decoded := by
  refine ⟨reachable_localUnit _, ?_⟩
  have hfails : ((localUnit 0x20000000).rebuild {}).toOption.map
      (fun rebuilt => (CodeUnit.decode rebuilt.bytes).toOption.isSome) = some false := by
    decide +kernel
  cases hr : (localUnit 0x20000000).rebuild {} with
  | error fault =>
    rw [hr] at hfails
    cases hfails
  | ok rebuilt =>
    refine ⟨_, _, encode_localUnit (by decide) (by decide) hr, ?_⟩
    rintro ⟨decoded, hd⟩
    rw [hr] at hfails
    have hsome : (CodeUnit.decode rebuilt.bytes).toOption.isSome = false := Option.some.inj hfails
    rw [hd] at hsome
    cases hsome

end ActionBytecode
