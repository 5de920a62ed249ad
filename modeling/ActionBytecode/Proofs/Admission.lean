/-
  ActionBytecode — a unit that was read can be written, and read again.

  A unit that is read has its code examined, so all of it can be disassembled, whichever
  identities were handed out before (`sound_of_decode`).  What is then known of the unit
XX-/
import ActionBytecode.Proofs.Containment
import ActionBytecode.Proofs.Legibility
import ActionBytecode.Proofs.Scanning

namespace ActionBytecode

/-! ## The source file -/

theorem Instruction.debugFile?_eq_some {instruction : Instruction} {file : String} :
    instruction.debugFile? = some file ↔
      instruction.opcode = .debugFile ∧ instruction.operands.head? = some (.string file) := by
  obtain ⟨id, opcode, operands⟩ := instruction
  unfold debugFile?
  split
  · next h₁ h₂ =>
    simp_all
  · next h =>
    simp only [reduceCtorEq, false_iff]
    rintro ⟨rfl, hhead⟩
    obtain ⟨rest, rfl⟩ := List.head?_eq_some_iff.1 hhead
    exact h file rest rfl rfl

theorem Instruction.debugFile?_map (instruction : Instruction) (id : InstructionId)
    {g : Operand → Operand} (hg : ∀ operand s, g operand = .string s ↔ operand = .string s) :
    debugFile? ⟨id, instruction.opcode, instruction.operands.map g⟩ = instruction.debugFile? := by
  refine Option.ext fun file => ?_
  simp only [debugFile?_eq_some, List.head?_map, Option.map_eq_some_iff, hg, exists_eq_right]

theorem Operand.renumber_eq_string (f : InstructionId → InstructionId) (operand : Operand)
    (s : String) :
    operand.renumber f = .string s ↔ operand = .string s := by
  cases operand <;> simp [renumber]

theorem Operand.rename_eq_string (r : Renaming) (operand : Operand) (s : String) :
    operand.rename r = .string s ↔ operand = .string s := by
  cases operand <;> simp [rename]

namespace Code

theorem sourceFile?_byPosition (code : Code) : code.byPosition.sourceFile? = code.sourceFile? := by
  cases code with
  | raw => rfl
  | symbolic instructions handlers =>
    rw [byPosition, sourceFile?, List.findSome?_map]
    exact congrArg (List.findSome? · instructions) (funext fun instruction =>
      instruction.debugFile?_map _ (Operand.renumber_eq_string _))

theorem sourceFile?_rename (r : Renaming) (code : Code) :
    (code.rename r).sourceFile? = code.sourceFile? := by
  cases code with
  | raw => rfl
  | symbolic instructions handlers =>
    rw [rename, sourceFile?, List.findSome?_map]
    exact congrArg (List.findSome? · instructions) (funext fun instruction =>
      instruction.debugFile?_map _ (Operand.rename_eq_string r))

/-- Code that was found is found again once it is written. -/
theorem Found.disassemble_again {tables tables' : Tables} {size : Nat}
    {instructions : List Instruction} {handlers : List (Handler CodePosition)}
    (hf : Found tables size instructions handlers) {a : Indexing} {r : Renaming}
    (h : tables'.Holds a r) {code : Bytes} {places : List (Handler UInt32)}
    (hw : assemble a (instructions.map Emission.ofInstruction) handlers = .ok (code, places))
    (hlength : code.length < countLimit) (n : Nat) : ∃ again m,
      disassemble tables' (.ofWire code (places.map (·.rename r))) n = .ok again m ∧
      again.byPosition = ((symbolic instructions handlers).rename r).byPosition :=
  disassemble_resolved h hw (hlength.trans (by decide)) hf.resolved
    (fun instruction hi operand ho => (hf.operands instruction hi operand ho).legible) n

/-- Code that was found in at most `limit` bytes. -/
def IsFound (tables : Tables) (limit : Nat) (code : Code) : Prop :=
  ∃ instructions handlers, code = .symbolic instructions handlers ∧
    Found tables limit instructions handlers

end Code

/-! ## Methods -/

/-- **A method that was examined can be disassembled, and its code is then as it was found.** -/
theorem Method.Examined.disassemble {tables : Tables} {limit : Nat} {method examined : Method}
    (h : method.Examined tables examined) (hs : method.Sound tables (Code.IsRaw limit)) (n : Nat) :
    ∃ converted m, examined.disassemble tables n = .ok converted m ∧
      converted.Sound tables (Code.IsFound tables limit) := by
  rcases h with ⟨hb, rfl⟩ | ⟨body, code, k, l, hb, hc, rfl⟩
  · obtain ⟨signature, body⟩ := method
    cases hb
    exact ⟨_, n, rfl, hs.signature, hs.sourceFile, by simp⟩
  · have hbody := hs.body body hb
    obtain ⟨signature, _⟩ := method
    cases hb
    obtain ⟨frame, _⟩ := body
    obtain ⟨bytes, handlers, rfl, hlength⟩ := hbody.code
    -- it was examined from other identities than those that are handed out now
    obtain ⟨code', m, hc', hposition⟩ := Code.disassemble_at hc n
    obtain ⟨instructions, placed, rfl, hfound, hcount, huses⟩ := Code.disassemble_spec hc'
    refine ⟨_, m, run_bind_of_ok hc', ⟨hs.signature.uses, ?_, ?_⟩, ?_, ?_⟩
    · exact ⟨hs.signature.legible.parameters, hs.signature.legible.optional⟩
    · exact hs.signature.parameterNames
    · show code.sourceFile? = Code.sourceFile? (.symbolic instructions placed)
      rw [← Code.sourceFile?_byPosition, ← hposition, Code.sourceFile?_byPosition]
    · rintro _ ⟨⟩
      refine ⟨hbody.frame, hbody.traits, ?_, ?_, instructions, placed, rfl, hfound.mono hlength⟩
      · exact hcount.trans_lt hbody.handlerCount
      · rw [Code.handlers, huses]
        exact hbody.handlers

/-! ## Units that were read -/

theorem SoundTraits.counts {tables : Tables} {traits : List Trait} (h : SoundTraits tables traits) :
    ∀ n ∈ traitCounts traits, n < countLimit := by
  simp only [traitCounts, List.forall_mem_cons, List.forall_mem_map]
  exact ⟨h.length, fun t ht => (h.all t ht).legible.metadata⟩

namespace CodeUnit

/-- The code of a unit that was read is raw. -/
theorem isRaw_of_decode {bytes : Bytes} (hl : bytes.length < countLimit) {unit : CodeUnit}
    (h : decode bytes = .ok unit) : ∀ method ∈ unit.methods, ∀ body, method.body = some body →
      body.code.IsRaw bytes.length := by
  obtain ⟨parsed, cursor, examined, hp, hexamined, rfl⟩ := examined_of_decode h
  have hs := Reader.sound_of_unit hl hp
  intro method hm body hb
  obtain ⟨original, ho, he⟩ := exists_mem_left hexamined (List.mem_toArray.1 hm)
  have hbody : original.body = method.body := by
    obtain ⟨-, rfl⟩ | ⟨_, _, _, _, -, -, rfl⟩ := he <;> rfl
  exact ((hs.methods original (Array.mem_toList_iff.1 ho)).body body (hbody.trans hb)).code

/-- **A unit that was read can be marked, and all that reading ensures holds of it then.** -/
theorem sound_of_decode {bytes : Bytes} (hl : bytes.length < countLimit) {unit : CodeUnit}
    (h : decode bytes = .ok unit) : ∃ marked, Edit.markTampered unit = .ok () marked ∧
      marked.Sound (Code.IsFound marked.tables bytes.length) bytes.length := by
  obtain ⟨parsed, cursor, examined, hp, hexamined, rfl⟩ := examined_of_decode h
  have hs := Reader.sound_of_unit hl hp
  have hdisassemble : List.Forall₂ (fun examined method => ∀ n, ∃ converted m,
      Method.disassemble parsed.tables examined n = .ok converted m ∧
        converted.Sound parsed.tables (Code.IsFound parsed.tables bytes.length))
      examined parsed.methods.toList :=
    (forall₂_of_mem hexamined fun method hm _ he =>
      he.disassemble (hs.methods method (Array.mem_toList_iff.1 hm))).flip
  obtain ⟨methods, next, hmethods, hsound⟩ := run_mapM_exists hdisassemble parsed.nextInstruction
  refine ⟨_, Edit.markTampered_eq_ok.2
    ⟨_, Edit.disassemble_eq_ok.2 ⟨methods, next, hmethods, rfl⟩, rfl⟩, ?_⟩
  exact { hs with
    methodCount := by
      show methods.toArray.size < countLimit
      rw [List.size_toArray, hsound.length_eq]
      exact hs.methodCount
    methods := fun converted hm => by
      obtain ⟨_, -, h⟩ := exists_mem_left hsound.flip (List.mem_toArray.1 hm)
      exact h }

/-! ## Units that can be written -/

section
variable {unit : CodeUnit} {limit : Nat} (hs : unit.Sound (Code.IsFound unit.tables limit) limit)
include hs

theorem plain_of_sound : unit.Plain := by
  intro method hm
  cases hb : method.body with
  | none => rw [Method.isRaw, hb]
  | some body =>
    obtain ⟨instructions, handlers, hcode, -⟩ := ((hs.methods method hm).body body hb).code
    rw [Method.isRaw, hb]
    simp only [hcode]
    rfl

/-- All that a method refers to is in the tables. -/
theorem uses_method_of_sound {method : Method} (hm : method ∈ unit.methods) :
    ∃ uses, method.uses false = .ok uses ∧ ∀ use ∈ uses, unit.tables.Has use := by
  have hmethod := hs.methods method hm
  obtain ⟨signature, body⟩ := method
  cases body with
  | none => exact ⟨_, rfl, hmethod.signature.uses⟩
  | some body =>
    obtain ⟨frame, _⟩ := body
    have hbody := hmethod.body _ rfl
    obtain ⟨instructions, handlers, rfl, hfound⟩ := hbody.code
    refine ⟨_, rfl, ?_⟩
    simp only [List.forall_mem_append]
    refine ⟨⟨⟨hmethod.signature.uses, ?_⟩, hbody.handlers⟩, hbody.traits.uses⟩
    simp only [List.forall_mem_flatMap, List.forall_mem_map]
    exact fun instruction hi operand ho => (hfound.operands instruction hi operand ho).uses

/-- All that the unit refers to is in the tables. -/
theorem uses_of_sound (order : List ClassHandle) :
    ∀ use ∈ unit.uses order, unit.tables.Has use := by
  simp only [uses, List.forall_mem_append, List.forall_mem_flatMap, List.forall_mem_map]
  refine ⟨⟨⟨fun cls hc => ?_, fun script hscript => ?_⟩, fun handle hh => ?_⟩,
    fun entry he => (hs.metadata entry he).uses⟩
  · obtain ⟨handle, -, hcls⟩ := List.mem_filterMap.1 hc
    exact (hs.classes cls (mem_classes_iff.2 ⟨handle, hcls⟩)).uses
  · have hscript := hs.scripts script hscript
    exact List.forall_mem_cons.2 ⟨hscript.init, hscript.traits.uses⟩
  · exact List.mem_iff_getElem?.1 hh

theorem traits_of_sound (ho : unit.Ordered) : ∀ t ∈ unit.allTraits, t.Sound unit.tables := by
  refine (forall_allTraits ho).2 ⟨fun cls hc => ?_, fun script hscript => ?_,
    fun method hm body hb => ((hs.methods method hm).body body hb).traits.all⟩
  · have hcls := hs.classes cls hc
    exact List.forall_mem_append.2 ⟨hcls.instanceTraits.all, hcls.staticTraits.all⟩
  · exact (hs.scripts script hscript).traits.all

/-- **Nothing is wrong in a unit that was read.** -/
theorem encodable_of_sound (ho : unit.Ordered) : unit.Encodable {} := by
  have hvalid {use : Use} (h : unit.tables.Has use) :
      unit.ValidUse (.ofList unit.classOrder) use := by
    cases use with
    | method handle =>
      obtain ⟨i, hi⟩ := h
      exact isSome_method?.2 ((ho.methods handle).1 (List.mem_of_getElem? hi))
    | instructionClass handle | traitClass handle =>
      obtain ⟨i, hi⟩ := h
      exact Numbering.mem_ofList.2 (List.mem_of_getElem? hi)
    | value | name | multiname => trivial
  obtain ⟨hmethods, hclasses⟩ := (valid_iff ho (plain_of_sound hs) false fun _ => Iff.rfl).1
    ⟨fun use hu => hvalid (uses_of_sound hs _ use hu), fun handle method hm => by
      obtain ⟨uses, hu, hall⟩ := uses_method_of_sound hs (mem_methods_iff.2 ⟨handle, hm⟩)
      exact ⟨uses, hu, fun use h => hvalid (hall use h)⟩⟩
  refine ⟨by simp, hmethods, hclasses, fun method hm => (hs.methods method hm).signature.3,
    fun t ht => (traits_of_sound hs ho t ht).metadata, fun method hm _ _ _ hb => ?_⟩
  obtain ⟨_, _, hcode, hfound⟩ := ((hs.methods method hm).body _ hb).code
  cases hcode
  exact hfound.assemblable

/-- What the unit is written with stands in its pool. -/
theorem within_of_sound {order : List ClassHandle} {a : Indexing}
    (ha : unit.index false order = .ok a) : a.Within unit.pool := by
  have hp : unit.tables.pool.Sound limit := hs.pool
  exact within_index hp (fun _ hm => uses_method_of_sound hs hm) (uses_of_sound hs order) ha

/-- The code of the unit is written in at most five times as many bytes as it was read from. -/
theorem stop_le_of_sound {method : Method} (hm : method ∈ unit.methods) {body : Body}
    (hb : method.body = some body) {emissions : List Emission}
    (he : method.emissions body.code false = .ok emissions) {a : Indexing}
    {layout : List Placement} (hl : layOut a 0 [] emissions = .ok layout) :
    ∀ p ∈ layout, p.stop ≤ 5 * limit := by
  obtain ⟨instructions, handlers, hcode, hfound⟩ := ((hs.methods method hm).body body hb).code
  rw [hcode] at he
  cases he
  exact hfound.stop_le hl

variable (hl : 5 * limit < 0x800000)
include hl

/-- **The counts of a unit that was read are in range, and so is its code.** -/
theorem inRange_of_sound : unit.InRange {} where
  counts := by
    refine forall_counts.2 ⟨⟨hs.methodCount, hs.metadataCount, hs.classCount, hs.scriptCount⟩,
      fun method hm => ?_, fun entry h => (hs.metadata entry h).items, fun cls hc => ?_,
      fun script h => (hs.scripts script h).traits.counts⟩
    · have hmethod := hs.methods method hm
      have hlegible := hmethod.signature.legible
      refine ⟨?_, fun body hb => ?_⟩
      · simp only [Signature.counts, List.forall_mem_cons]
        exact ⟨hlegible.parameters, hlegible.optional.trans_lt hlegible.parameters, by simp⟩
      · have hbody := hmethod.body body hb
        exact ⟨hbody.handlerCount, hbody.traits.counts⟩
    · have hcls := hs.classes cls hc
      simp only [ClassDefinition.counts, List.forall_mem_cons, List.forall_mem_append]
      exact ⟨hcls.interfaces, hcls.instanceTraits.counts, hcls.staticTraits.counts⟩
  constants order a _ ha :=
    (within_of_sound hs ha).legible hs.pool (by simp only [countLimit]; omega)
  code order a _ _ method hm body emissions layout hb he hlayout p hp := by
    have := stop_le_of_sound hs hm hb he hlayout p hp
    omega

/-- **A unit that was read can be read again.** -/
theorem legible_of_sound : unit.Legible {} where
  methodCount := hs.methodCount
  classCount := hs.classCount
  scriptCount := hs.scriptCount
  metadataCount := hs.metadataCount
  signatures method hm := (hs.methods method hm).signature.legible
  classes cls hc := by
    have hcls := hs.classes cls hc
    exact ⟨hcls.interfaces, hcls.instanceTraits.legible, hcls.staticTraits.legible⟩
  scripts script h := (hs.scripts script h).traits.legible
  metadata entry h := (hs.metadata entry h).items
  bodies method hm body hb := by
    have hbody := (hs.methods method hm).body body hb
    exact ⟨hbody.frame, hbody.handlerCount⟩
  constants order a _ ha :=
    (within_of_sound hs ha).legible hs.pool (by simp only [countLimit]; omega)
  code order a _ ha method hm := by
    refine ⟨fun body hb emissions he layout hlayout => ?_,
      fun body hb emissions he layout hlayout p hp => ?_⟩
    · obtain ⟨instructions, handlers, hcode, hfound⟩ := ((hs.methods method hm).body body hb).code
      rw [hcode] at he
      cases he
      obtain ⟨stop, hout⟩ := laidOut_of_layOut hlayout
      exact hout.legible
        (List.forall_mem_map.2 fun i hi => Instruction.resolved_iff.1 (hfound.resolved i hi))
        (List.forall_mem_map.2 fun i hi operand ho => (hfound.operands i hi operand ho).legible)
    · have := stop_le_of_sound hs hm hb he hlayout p hp
      simp only [countLimit]
      omega

/-- **A unit that was read can be written and read again.** -/
theorem succeeds_of_sound (ho : unit.Ordered)
    (hg : ∀ t ∈ unit.allTraits, t.defaultsToGlobal = false) : ∃ rebuilt,
      unit.rebuild {} = .ok rebuilt ∧ Succeeds (decode rebuilt.bytes) := by
  obtain ⟨rebuilt, hrebuild⟩ :=
    (succeeds_rebuild ho (plain_of_sound hs) (inRange_of_sound hs hl)).2 (encodable_of_sound hs ho)
  obtain ⟨order, s, hr⟩ := rebuild_eq_ok.1 hrebuild
  exact ⟨rebuilt, hrebuild,
    (succeeds_decode hr ho hg).2 ((legible_iff hr ho).2 (legible_of_sound hs hl))⟩

end

end CodeUnit

end ActionBytecode
