/-
  ActionBytecode — code recovered from what was written.

  When a unit is written its methods take on the bytes of their code (`commit_of_assembled`).  The
  tables of the unit are then those that the bytes refer to (`holds_commit`), so the code can be
  disassembled, and it is what was emitted (`recovers_commit`).  Without markers it is what it was
  before but for the identities of instructions (`disassemble_encode`).

  A unit that was written is left with raw code and with the pool that stands in the bytes
  (`Edit.isSymbolic_encode`, `Edit.pool_of_encode`).
-/
import ActionBytecode.Proofs.Disassembly
import ActionBytecode.Proofs.Reachability

namespace ActionBytecode

/-! ## Entries changed one by one -/

section
variable {α ω : Type} {key : ω → Nat} {g : ω → α → α} {i : Nat}

theorem foldl_modify_of_not_mem : ∀ (ws : List ω) (entries : Array α), (∀ w ∈ ws, key w ≠ i) →
    (ws.foldl (fun entries w => entries.modify (key w) (g w)) entries)[i]? = entries[i]? := by
  intro ws
  induction ws with
  | nil => exact fun _ _ => rfl
  | cons w ws ih =>
    intro entries h
    rw [List.forall_mem_cons] at h
    rw [List.foldl_cons, ih _ h.2, Array.getElem?_modify, if_neg h.1]

theorem foldl_modify_of_mem {w : ω} : ∀ (ws : List ω) (entries : Array α),
    (ws.map key).Nodup → w ∈ ws →
    (ws.foldl (fun entries w => entries.modify (key w) (g w)) entries)[key w]? =
      entries[key w]?.map (g w) := by
  intro ws
  induction ws with
  | nil => exact fun _ _ hm => absurd hm List.not_mem_nil
  | cons first ws ih =>
    intro entries hn hm
    rw [List.map_cons, List.nodup_cons] at hn
    rw [List.foldl_cons]
    rcases List.mem_cons.1 hm with rfl | hm
    · rw [foldl_modify_of_not_mem, Array.getElem?_modify, if_pos rfl]
      intro other ho he
      exact hn.1 (he ▸ List.mem_map_of_mem ho)
    · have hne : key first ≠ key w := fun he => hn.1 (he ▸ List.mem_map_of_mem hm)
      rw [ih _ hn.2 hm, Array.getElem?_modify, if_neg hne]

end

namespace CodeUnit

/-! ## The methods of a unit that was written -/

/-- The method with its code replaced by what was written of it. -/
def withWritten (written : AssembledBody) (method : Method) : Method :=
  { method with
    body := method.body.map fun body =>
      { body with code := .ofWire written.code written.handlers } }

section
variable {unit : CodeUnit} {a : Indexing} {debug : Bool} {bodies : List AssembledBody}

theorem sublist_assembled {entries : List (MethodHandle × Method)}
    {found : List (Option AssembledBody)}
    (h : List.Forall₂ (fun entry body => assembleBody a debug entry.1 entry.2 = .ok body)
      entries found) :
    ((found.filterMap fun body => body).map AssembledBody.method).Sublist
      (entries.map Prod.fst) := by
  induction h with
  | nil => exact .slnil
  | @cons entry body entries found hb _ ih =>
    cases body with
    | none => exact ih.cons _
    | some assembled =>
      obtain ⟨_, _, _, _, -, -, -, rfl⟩ := assembleBody_eq_some.1 hb
      exact ih.cons_cons _

theorem nodup_indexedMethods : ((unit.indexedMethods a).map Prod.fst).Nodup := by
  rw [indexedMethods, List.map_filterMap]
  refine a.methods.nodup.filterMap fun handle other found h h' => ?_
  simp only [Option.map_map, Option.mem_def, Option.map_eq_some_iff, Function.comp_apply] at h h'
  obtain ⟨_, -, rfl⟩ := h
  obtain ⟨_, -, h'⟩ := h'
  exact h'.symm

/-- Each method has at most one assembled body. -/
theorem nodup_assembled (h : unit.assembleBodies a debug = .ok bodies) :
    (bodies.map AssembledBody.method).Nodup := by
  obtain ⟨found, hf, h⟩ := bind_eq_ok.1 h
  rw [← pure_eq_ok.1 h]
  exact (sublist_assembled (mapM_eq_ok.1 hf)).nodup nodup_indexedMethods

end

section
variable {unit : CodeUnit} {options : EncodeOptions} {rebuilt : Rebuilt}
  {handle : MethodHandle} {method : Method}

/-- A method whose code was assembled takes on the bytes. -/
theorem commit_of_assembled (hr : unit.rebuild options = .ok rebuilt) {written : AssembledBody}
    (hw : written ∈ rebuilt.bodies) :
    (unit.commit rebuilt).method? written.method =
      (unit.method? written.method).map (withWritten written) := by
  obtain ⟨order, s, hr⟩ := rebuild_eq_ok.1 hr
  refine foldl_modify_of_mem _ _ ?_ hw
  have hn := (nodup_assembled hr.assembled).map MethodHandle.index_injective
  rwa [List.map_map] at hn

/-- Any other method stays as it was. -/
theorem commit_of_not_assembled (h : ∀ written ∈ rebuilt.bodies, written.method ≠ handle) :
    (unit.commit rebuilt).method? handle = unit.method? handle :=
  foldl_modify_of_not_mem _ _ fun written hw he =>
    h written hw (MethodHandle.index_injective he)

/-- How many entries the tables of a unit have. -/
def tableSizes (unit : CodeUnit) : List Nat :=
  unit.pool.sizes ++ [unit.methodOrder.length, unit.classOrder.length]

/-- The tables of a unit that was written hold what has an index. -/
theorem holds_commit (hsizes : ∀ n ∈ (unit.commit rebuilt).tableSizes, n < countLimit) :
    (unit.commit rebuilt).tables.Holds rebuilt.indexing .refl := by
  simp only [tableSizes, List.forall_mem_append, List.forall_mem_cons] at hsizes
  obtain ⟨hpool, hmethods, hclasses, -⟩ := hsizes
  refine ⟨⟨(Pool.rename_id _).symm, hpool⟩, fun h => h, fun h => h, hmethods, hclasses⟩

/-! ## What writing leaves -/

theorem exists_assembleBody {order : List ClassHandle} {s : Sections}
    (hr : unit.Rebuilds options order s rebuilt) {entry : MethodHandle × Method}
    (h : entry ∈ unit.indexedMethods rebuilt.indexing) :
    ∃ written, assembleBody rebuilt.indexing options.debugInstrumentation entry.1 entry.2 =
      .ok written := by
  obtain ⟨found, hf, -⟩ := bind_eq_ok.1 hr.assembled
  obtain ⟨written, -, hw⟩ := exists_mem_left (mapM_eq_ok.1 hf).flip h
  exact ⟨written, hw⟩

/-- The body of every method is written. -/
theorem exists_assembled (ho : unit.Ordered) (hr : unit.rebuild options = .ok rebuilt)
    {body : Body} (hm : unit.method? handle = some method) (hb : method.body = some body) :
    ∃ written ∈ rebuilt.bodies, written.method = handle := by
  obtain ⟨order, s, hr⟩ := rebuild_eq_ok.1 hr
  have hindex := (mem_methods_of_index ho hr.index_eq).2 (lt_size_of_method? hm)
  have hmem := mem_indexedMethods.2 ⟨hindex, hm⟩
  obtain ⟨written, hw⟩ := exists_assembleBody hr hmem
  have hbody := hw
  rw [assembleBody, hb] at hbody
  obtain ⟨emissions, -, hbody⟩ := bind_eq_ok.1 hbody
  obtain ⟨⟨code, handlers⟩, -, hbody⟩ := bind_eq_ok.1 hbody
  cases pure_eq_ok.1 hbody
  exact ⟨_, (mem_assembleBodies hr.assembled).2 ⟨handle, method, hmem, hw⟩, rfl⟩

/-- All code is raw after a unit is written. -/
theorem isSymbolic_commit (ho : unit.Ordered) (hr : unit.rebuild options = .ok rebuilt)
    {method : Method} (hm : method ∈ (unit.commit rebuilt).methods) :
    method.isSymbolic = false := by
  obtain ⟨handle, hm⟩ := mem_methods_iff.1 hm
  by_cases hw : ∃ written ∈ rebuilt.bodies, written.method = handle
  · obtain ⟨written, hw, rfl⟩ := hw
    rw [commit_of_assembled hr hw] at hm
    obtain ⟨⟨signature, body⟩, -, rfl⟩ := Option.map_eq_some_iff.1 hm
    cases body <;> rfl
  · -- a method without an assembled body has none
    rw [commit_of_not_assembled fun written hmem he => hw ⟨written, hmem, he⟩] at hm
    cases hb : method.body with
    | none => rw [Method.isSymbolic, hb]
    | some body => exact absurd (exists_assembled ho hr hm hb) hw

theorem isTampered_eq_false {unit : CodeUnit} : unit.isTampered = false ↔
    (∃ bytes, unit.written = some bytes) ∧ ∀ method ∈ unit.methods, method.isSymbolic = false := by
  rw [isTampered, Bool.or_eq_false_iff, List.any_eq_false]
  simp [Option.isSome_iff_exists]

theorem current?_eq_none {unit : CodeUnit} : unit.current? = none ↔ unit.isTampered = true := by
  rw [current?]
  split
  · next h => simp [h]
  · next h =>
    obtain ⟨⟨bytes, hw⟩, -⟩ := isTampered_eq_false.1 (eq_false_of_ne_true h)
    simp [h, hw]

end

end CodeUnit

namespace Edit

/-- A unit that is tampered with is written anew. -/
theorem rebuilds_of_encode {options : EncodeOptions} {unit later : CodeUnit} {bytes : Bytes}
    (ht : unit.isTampered = true) (he : encode options unit = .ok bytes later) :
    ∃ plain order s rebuilt, disassemble unit = .ok () plain ∧
      plain.Rebuilds options order s rebuilt ∧ rebuilt.bytes = bytes ∧
      plain.commit rebuilt = later := by
  rcases encode_eq_ok.1 he with ⟨hcurrent, -⟩ | ⟨-, plain, rebuilt, hd, hr, hb, hc⟩
  · rw [CodeUnit.current?_eq_none.2 ht] at hcurrent
    cases hcurrent
  · obtain ⟨order, s, hr⟩ := CodeUnit.rebuild_eq_ok.1 hr
    exact ⟨plain, order, s, rebuilt, hd, hr, hb, hc⟩

/-- **A unit that was written is not tampered with.** -/
theorem isTampered_encode {unit later : CodeUnit} (ho : unit.Ordered) {options : EncodeOptions}
    {bytes : Bytes} (h : encode options unit = .ok bytes later) : later.isTampered = false := by
  rcases encode_eq_ok.1 h with ⟨hc, rfl⟩ | ⟨-, plain, rebuilt, hd, hr, -, rfl⟩
  · by_contra ht
    rw [CodeUnit.current?_eq_none.2 (eq_true_of_ne_false ht)] at hc
    cases hc
  · have hk := keeps_disassemble.of_ok hd
    exact CodeUnit.isTampered_eq_false.2
      ⟨⟨_, rfl⟩, fun _ => CodeUnit.isSymbolic_commit (ho.kept hk) hr⟩

/-- The code of a unit that was written is raw. -/
theorem isSymbolic_encode {unit later : CodeUnit} (ho : unit.Ordered) {options : EncodeOptions}
    {bytes : Bytes} (h : encode options unit = .ok bytes later) :
    ∀ method ∈ later.methods, method.isSymbolic = false :=
  (CodeUnit.isTampered_eq_false.1 (isTampered_encode ho h)).2

/-- The pool of a unit that was written anew is the one that stands in the bytes. -/
theorem pool_of_encode {options : EncodeOptions} {unit later : CodeUnit} {bytes : Bytes}
    (ht : unit.isTampered = true) (he : encode options unit = .ok bytes later) :
    ∃ plain order s rebuilt, disassemble unit = .ok () plain ∧
      plain.Rebuilds options order s rebuilt ∧ s.bytes = bytes ∧
      rebuilt.indexing.toPool = later.pool := by
  obtain ⟨plain, order, s, rebuilt, hd, hr, hb, rfl⟩ := rebuilds_of_encode ht he
  exact ⟨plain, order, s, rebuilt, hd, hr, hr.bytes_eq.trans hb, rfl⟩

end Edit

/-! ## Code -/

theorem Code.rename_refl (code : Code) : code.rename .refl = code := by
  have ho : (fun operand : Operand => operand.rename .refl) = id := funext Operand.rename_refl
  have hi : (fun instruction : Instruction => instruction.rename .refl) = id := by
    funext instruction
    simp [Instruction.rename, ho]
  have hh {π : Type} : (fun handler : Handler π => handler.rename .refl) = id :=
    funext Handler.rename_refl
  cases code <;> simp [Code.rename, hi, hh]

/-- Code whose jumps name instructions can be read where its operands can. -/
theorem LaidOut.legible {a : Indexing} {start stop : Nat} {used : List InstructionId}
    {emissions : List Emission} {layout : List Placement}
    (h : LaidOut a start used emissions layout stop)
    (hresolved : ∀ emission ∈ emissions, ∀ operand ∈ emission.operands, operand.isResolved = true)
    (hlegible : ∀ emission ∈ emissions, ∀ operand ∈ emission.operands, operand.Legible) :
    LegibleLayout layout := by
  intro p hp operand ho
  have hmem : p.emission ∈ emissions := h.map_emission ▸ List.mem_map_of_mem hp
  refine ⟨hlegible _ hmem operand ho, ?_⟩
  -- without raw distances there is nothing that could lead astray
  cases operand with
  | target place =>
    cases place with
    | offset distance => cases hresolved _ hmem _ ho
    | instruction id => trivial
  | _ => trivial

/-- **Code that is assembled can be disassembled, and is what was emitted, by position.** -/
theorem disassemble_emissions {tables : Tables} {a : Indexing} {r : Renaming}
    (h : tables.Holds a r) {emissions : List Emission} {handlers : List (Handler CodePosition)}
    {code : Bytes} {places : List (Handler UInt32)}
    (hw : assemble a emissions handlers = .ok (code, places)) (hlength : code.length < 0x100000000)
    (hresolved : ∀ emission ∈ emissions, ∀ operand ∈ emission.operands, operand.isResolved = true)
    (hlegible : ∀ emission ∈ emissions, ∀ operand ∈ emission.operands, operand.Legible)
    (n : Nat) : ∃ symbolic m,
      Code.disassemble tables (.ofWire code (places.map (·.rename r))) n = .ok symbolic m ∧
      symbolic.byPosition = .ofEmissions r emissions handlers := by
  obtain ⟨layout, stop, hout, -, hd⟩ := disassemble_assembled h hw hlength
  exact ⟨_, _, (hd n).1 (hout.legible hresolved hlegible),
    byPosition_ofEmissions hout hresolved handlers⟩

/-- Without markers, only the identities differ. -/
theorem disassemble_resolved {tables : Tables} {a : Indexing} {r : Renaming}
    (h : tables.Holds a r) {instructions : List Instruction}
    {handlers : List (Handler CodePosition)} {code : Bytes} {places : List (Handler UInt32)}
    (hw : assemble a (instructions.map Emission.ofInstruction) handlers = .ok (code, places))
    (hlength : code.length < 0x100000000)
    (hresolved : ∀ instruction ∈ instructions, instruction.Resolved)
    (hlegible : ∀ instruction ∈ instructions, ∀ operand ∈ instruction.operands, operand.Legible)
    (n : Nat) : ∃ symbolic m,
      Code.disassemble tables (.ofWire code (places.map (·.rename r))) n = .ok symbolic m ∧
      symbolic.byPosition = ((Code.symbolic instructions handlers).rename r).byPosition := by
  obtain ⟨symbolic, m, hd, hsame⟩ := disassemble_emissions h hw hlength
    (List.forall_mem_map.2 fun instruction hi => Instruction.resolved_iff.1 (hresolved _ hi))
    (List.forall_mem_map.2 hlegible) n
  exact ⟨symbolic, m, hd, hsame.trans
    (Code.ofEmissions_map ((renders_map instructions).assemblable hw).distinct handlers)⟩

/-- The methods that a unit has once it is written. -/
theorem CodeUnit.forall₂_commit {unit : CodeUnit} {rebuilt : Rebuilt} {R : Method → Method → Prop}
    (h : ∀ handle method, unit.method? handle = some method →
      ∃ later, (unit.commit rebuilt).method? handle = some later ∧ R later method) :
    List.Forall₂ R (unit.commit rebuilt).methods.toList unit.methods.toList := by
  rw [List.forall₂_iff_get]
  refine ⟨by simp [commit, size_foldl_replaceCode], fun i hi hi' => ?_⟩
  have hmethod : unit.method? ⟨i⟩ = some (unit.methods.toList.get ⟨i, hi'⟩) := by
    simp [method?, Array.getElem?_eq_getElem (Array.length_toList ▸ hi')]
  obtain ⟨later, hl, hR⟩ := h ⟨i⟩ _ hmethod
  have hlater := (Array.getElem?_eq_some_iff.1 hl).2
  rw [List.get_eq_getElem, Array.getElem_toList, hlater]
  exact hR

section
variable {unit : CodeUnit} {options : EncodeOptions} {rebuilt : Rebuilt}

/-- The code that is written of a method is not too long. -/
theorem CodeUnit.length_assembled (hr : unit.rebuild options = .ok rebuilt)
    {written : AssembledBody} (hw : written ∈ rebuilt.bodies) :
    written.code.length < 0x40000000 := by
  obtain ⟨order, s, hr⟩ := rebuild_eq_ok.1 hr
  obtain ⟨count, -, h⟩ := bind_eq_ok.1 hr.bodies
  obtain ⟨sections, hs, -⟩ := bind_eq_ok.1 h
  obtain ⟨bytes, -, hb⟩ := exists_mem_left (mapM_eq_ok.1 hs).flip hw
  obtain ⟨_, -, hb⟩ := bind_eq_ok.1 hb
  obtain ⟨_, hlength, -⟩ := bind_eq_ok.1 hb
  exact (Reader.index_eq_ok.1 hlength).1

/-- What was written of a method is its code assembled. -/
theorem CodeUnit.assembled_of_mem (hr : unit.rebuild options = .ok rebuilt)
    {written : AssembledBody} (hw : written ∈ rebuilt.bodies) {method : Method}
    (hm : unit.method? written.method = some method) :
    ∃ body emissions, method.body = some body ∧
      method.emissions body.code options.debugInstrumentation = .ok emissions ∧
      assemble rebuilt.indexing emissions body.code.handlers =
        .ok (written.code, written.handlers) := by
  obtain ⟨order, s, hr⟩ := rebuild_eq_ok.1 hr
  obtain ⟨handle, method', hmem, ha⟩ := (mem_assembleBodies hr.assembled).1 hw
  obtain ⟨body, emissions, code, handlers, hb, he, hassemble, rfl⟩ := assembleBody_eq_some.1 ha
  cases hm.symm.trans (mem_indexedMethods.1 hmem).2
  exact ⟨body, emissions, hb, he, hassemble⟩

/-! ## Methods -/

theorem Emission.length_instrument (file : String) (instructions : List Instruction) :
    (instrument file instructions).length = 2 * instructions.length + 1 := by
  simp [instrument, List.length_flatMap, Nat.mul_comm]

theorem Emission.mem_instrument {file : String} {instructions : List Instruction}
    {emission : Emission} (h : emission ∈ instrument file instructions) :
    emission = debugFile file ∨ (∃ line ≤ instructions.length, emission = debugLine line) ∨
      ∃ instruction ∈ instructions, emission = ofInstruction instruction := by
  rcases List.mem_cons.1 h with rfl | h
  · exact .inl rfl
  · obtain ⟨⟨instruction, line⟩, hentry, h⟩ := List.mem_flatMap.1 h
    obtain ⟨-, hline, hinstruction⟩ := List.mem_zipIdx hentry
    rcases List.mem_cons.1 h with rfl | h
    · exact .inr (.inl ⟨line, by omega, rfl⟩)
    · exact .inr (.inr ⟨instruction, hinstruction ▸ List.getElem_mem _, List.mem_singleton.1 h⟩)

/-- Code can be read when its instructions can; with markers it is too long to have a line whose
    number could not be read. -/
theorem Signature.legible_emissions {signature : Signature} {instructions : List Instruction}
    {handlers : List (Handler CodePosition)} {debug : Bool} {emissions : List Emission}
    (he : signature.emissions (.symbolic instructions handlers) debug = .ok emissions)
    (hcount : emissions.length < 0x40000000)
    (hlegible : ∀ instruction ∈ instructions, ∀ operand ∈ instruction.operands,
      operand.Legible) :
    ∀ emission ∈ emissions, ∀ operand ∈ emission.operands, operand.Legible := by
  rw [Signature.emissions, Code.instructions] at he
  by_cases hd : (debug && !(Code.symbolic instructions handlers).hasDebugMarkers) = true
  · obtain rfl : Emission.instrument signature.markerFile instructions = emissions := by
      simpa [hd] using he
    rw [Emission.length_instrument] at hcount
    intro emission hm operand ho
    rcases Emission.mem_instrument hm with rfl | ⟨line, hline, rfl⟩ | ⟨instruction, hi, rfl⟩
    · rw [List.mem_singleton.1 ho]
      trivial
    · rw [List.mem_singleton.1 ho]
      exact (isU30_ofNat (by omega)).2 (by simp only [countLimit]; omega)
    · exact hlegible instruction hi operand ho
  · obtain rfl : instructions.map Emission.ofInstruction = emissions := by
      simpa [hd] using he
    exact List.forall_mem_map.2 hlegible

/-- The second method is what becomes of the first when its code is written and disassembled. -/
def Method.Recovers (debug : Bool) (method recovered : Method) : Prop :=
  ∃ frame instructions handlers emissions code,
    method.body = some ⟨frame, .symbolic instructions handlers⟩ ∧
    method.emissions (.symbolic instructions handlers) debug = .ok emissions ∧
    Assemblable instructions handlers ∧ emissions.length < 0x40000000 ∧
    { method with body := some ⟨frame, code⟩ } = recovered ∧
    code.byPosition = .ofEmissions .refl emissions handlers

/-- Without markers, a method is what it was but for identities. -/
theorem Method.Recovers.byPosition {method recovered : Method} (h : method.Recovers false recovered) :
    recovered.byPosition = method.byPosition := by
  obtain ⟨frame, instructions, handlers, emissions, code, hb, he, ha, -, rfl, hsame⟩ := h
  cases he
  rw [Code.ofEmissions_map ha.distinct, Code.rename_refl] at hsame
  simp only [Method.byPosition, hb, Option.map_some, hsame]

/-- A method that has the bytes of its code can be disassembled again. -/
theorem exists_recovered {tables : Tables} {a : Indexing} (h : tables.Holds a .refl)
    {signature : Signature} {frame : Frame} {instructions : List Instruction}
    {handlers : List (Handler CodePosition)} {debug : Bool} {emissions : List Emission}
    {code : Bytes} {places : List (Handler UInt32)}
    (he : signature.emissions (.symbolic instructions handlers) debug = .ok emissions)
    (ha : assemble a emissions handlers = .ok (code, places)) (hlength : code.length < 0x40000000)
    (hresolved : ∀ instruction ∈ instructions, instruction.Resolved)
    (hlegible : ∀ instruction ∈ instructions, ∀ operand ∈ instruction.operands, operand.Legible)
    (n : Nat) : ∃ recovered m,
      Method.disassemble tables { signature with body := some ⟨frame, .ofWire code places⟩ } n =
        .ok recovered m ∧
      Method.Recovers debug ⟨signature, some ⟨frame, .symbolic instructions handlers⟩⟩ recovered := by
  have hrenders := Signature.renders_of_emissions he
  have hcount : emissions.length < 0x40000000 := (length_le_of_assemble ha).trans_lt hlength
  have hjumps : ∀ emission ∈ emissions, ∀ operand ∈ emission.operands,
      operand.isResolved = true := by
    refine (hrenders.forall_iff ?_).2 fun instruction hi =>
      Instruction.resolved_iff.1 (hresolved instruction hi)
    rintro marker (⟨file, rfl⟩ | ⟨line, rfl⟩) operand ho
    · rw [List.mem_singleton.1 ho]
      rfl
    · rw [List.mem_singleton.1 ho]
      rfl
  obtain ⟨symbolic, m, hd, hsame⟩ := disassemble_emissions h ha (by omega) hjumps
    (Signature.legible_emissions he hcount hlegible) n
  rw [funext Handler.rename_refl, List.map_id'] at hd
  exact ⟨{ signature with body := some ⟨frame, symbolic⟩ }, m, run_bind_of_ok hd, frame,
    instructions, handlers, emissions, symbolic, rfl, he, hrenders.assemblable ha, hcount, rfl,
    hsame⟩

/-- **Every method of a unit that was written can be disassembled again.** -/
theorem recovers_commit (hplain : unit.Plain)
    (hresolved : ∀ method ∈ unit.methods, ∀ instruction ∈ method.instructions,
      instruction.Resolved)
    (hlegible : ∀ operand ∈ unit.operands, operand.Legible)
    (hr : unit.rebuild options = .ok rebuilt)
    (hsizes : ∀ n ∈ (unit.commit rebuilt).tableSizes, n < countLimit)
    {handle : MethodHandle} {method : Method} (hm : unit.method? handle = some method) :
    ∃ later, (unit.commit rebuilt).method? handle = some later ∧
      ∀ n, ∃ recovered m, later.disassemble (unit.commit rebuilt).tables n = .ok recovered m ∧
        (method.Recovers options.debugInstrumentation recovered ∨
          recovered = method ∧ ∀ written ∈ rebuilt.bodies, written.method ≠ handle) := by
  have hmem : method ∈ unit.methods := CodeUnit.mem_methods_iff.2 ⟨handle, hm⟩
  by_cases hw : ∃ written ∈ rebuilt.bodies, written.method = handle
  · obtain ⟨written, hw, rfl⟩ := hw
    refine ⟨CodeUnit.withWritten written method, ?_, fun n => ?_⟩
    · rw [CodeUnit.commit_of_assembled hr hw, hm]
      rfl
    · obtain ⟨⟨frame, code⟩, emissions, hb, he, ha⟩ := CodeUnit.assembled_of_mem hr hw hm
      obtain ⟨signature, body⟩ := method
      cases hb
      cases code with
      | raw bytes handlers => cases hplain _ hmem
      | symbolic instructions handlers =>
        have hoperands : ∀ instruction ∈ instructions, ∀ operand ∈ instruction.operands,
            operand.Legible := by
          intro instruction hi operand ho
          refine hlegible operand (List.mem_flatMap.2 ⟨_, Array.mem_toList_iff.2 hmem, ?_⟩)
          exact List.mem_flatMap.2 ⟨instruction, hi, ho⟩
        obtain ⟨recovered, m, hd, hrecovers⟩ := exists_recovered (CodeUnit.holds_commit hsizes)
          he ha (CodeUnit.length_assembled hr hw) (hresolved _ hmem) hoperands n
        exact ⟨recovered, m, hd, .inl hrecovers⟩
  · have hw : ∀ written ∈ rebuilt.bodies, written.method ≠ handle := fun written hmem he =>
      hw ⟨written, hmem, he⟩
    refine ⟨method, (CodeUnit.commit_of_not_assembled hw).trans hm, fun n => ?_⟩
    exact ⟨method, n, Method.disassemble_of_plain (hplain method hmem) _ n, .inr ⟨rfl, hw⟩⟩

/-- Written without markers, every method is what it was but for identities. -/
theorem disassemble_commit (hplain : unit.Plain)
    (hresolved : ∀ method ∈ unit.methods, ∀ instruction ∈ method.instructions,
      instruction.Resolved)
    (hlegible : ∀ operand ∈ unit.operands, operand.Legible)
    (hdebug : options.debugInstrumentation = false) (hr : unit.rebuild options = .ok rebuilt)
    (hsizes : ∀ n ∈ (unit.commit rebuilt).tableSizes, n < countLimit)
    {handle : MethodHandle} {method : Method} (hm : unit.method? handle = some method) :
    ∃ later, (unit.commit rebuilt).method? handle = some later ∧
      ∀ n, ∃ symbolic m, later.disassemble (unit.commit rebuilt).tables n = .ok symbolic m ∧
        symbolic.byPosition = method.byPosition := by
  obtain ⟨later, hlater, hall⟩ := recovers_commit hplain hresolved hlegible hr hsizes hm
  refine ⟨later, hlater, fun n => ?_⟩
  obtain ⟨recovered, m, hd, hrecovers | ⟨rfl, -⟩⟩ := hall n
  · rw [hdebug] at hrecovers
    exact ⟨recovered, m, hd, hrecovers.byPosition⟩
  · exact ⟨recovered, m, hd, rfl⟩

end

/-- **Code that is written and disassembled again differs in the identities of its instructions
    alone.**  In between it is raw, and the pool that it refers to is the one that was written. -/
theorem disassemble_encode {unit later : CodeUnit} {options : EncodeOptions} {bytes : Bytes}
    (hplain : unit.Plain)
    (hresolved : ∀ method ∈ unit.methods, ∀ instruction ∈ method.instructions,
      instruction.Resolved)
    (hlegible : ∀ operand ∈ unit.operands, operand.Legible)
    (hdebug : options.debugInstrumentation = false)
    (he : Edit.encode options unit = .ok bytes later)
    (hsizes : ∀ n ∈ later.tableSizes, n < countLimit) :
    (∃ final, Edit.disassemble later = .ok () final ∧
      final.methods.map Method.byPosition = unit.methods.map Method.byPosition) ∧
    (Reachable unit → ∀ method ∈ later.methods, method.isSymbolic = false) ∧
    (unit.isTampered = true → ∃ order s rebuilt, unit.Rebuilds options order s rebuilt ∧
      s.bytes = bytes ∧ rebuilt.indexing.toPool = later.pool) := by
  refine ⟨?_, fun hreachable => Edit.isSymbolic_encode hreachable.ordered he, fun ht => ?_⟩
  · rcases Edit.encode_eq_ok.1 he with ⟨-, rfl⟩ | ⟨-, plain, rebuilt, hd, hr, -, rfl⟩
    · exact ⟨unit, Edit.disassemble_of_plain hplain, rfl⟩
    · cases (Edit.disassemble_of_plain hplain).symm.trans hd
      have hmethods := CodeUnit.forall₂_commit fun handle method hm =>
        disassemble_commit hplain hresolved hlegible hdebug hr hsizes hm
      obtain ⟨methods, n, hm, hsame⟩ := run_mapM_exists hmethods _
      refine ⟨_, Edit.disassemble_eq_ok.2 ⟨methods, n, hm, rfl⟩, ?_⟩
      have hsame : methods.map Method.byPosition = unit.methods.toList.map Method.byPosition := by
        rwa [← List.forall₂_eq_eq_eq, List.forall₂_map_left_iff, List.forall₂_map_right_iff]
      apply Array.toList_inj.1
      rw [Array.toList_map, Array.toList_map, ← hsame]
  · obtain ⟨plain, order, s, rebuilt, hd, hr, hbytes, hpool⟩ := Edit.pool_of_encode ht he
    cases (Edit.disassemble_of_plain hplain).symm.trans hd
    exact ⟨order, s, rebuilt, hr, hbytes, hpool⟩

/-! Jumps forward and backward, and a switch, under an exception handler. -/

def switchCode : Code :=
  .symbolic
    [⟨⟨7⟩, .jump, [.target (.instruction ⟨3⟩)]⟩,
      ⟨⟨5⟩, .pushString, [.string "a"]⟩,
      ⟨⟨3⟩, .lookupSwitch, [.target (.instruction ⟨7⟩), .u30 1, .target (.instruction ⟨5⟩),
        .target (.instruction ⟨4⟩)]⟩,
      ⟨⟨4⟩, .jump, [.target (.instruction ⟨5⟩)]⟩]
    [⟨.instruction ⟨5⟩, .finish, .instruction ⟨4⟩, .any, .any⟩]

/-- The unit with the code in a method. -/
def switchUnit : CodeUnit :=
  (Operation.createMethod { body := some { code := switchCode } }).run .empty

/-- The code is recovered after the unit is written. -/
theorem disassemble_switchUnit : ∃ bytes later final,
    Edit.encode {} switchUnit = .ok bytes later ∧ Edit.disassemble later = .ok () final ∧
      final.methods.map Method.byPosition = switchUnit.methods.map Method.byPosition ∧
      (∀ method ∈ later.methods, method.isSymbolic = false) ∧
      ∃ order s rebuilt, switchUnit.Rebuilds {} order s rebuilt ∧ s.bytes = bytes ∧
        rebuilt.indexing.toPool = later.pool := by
  cases he : Edit.encode {} switchUnit with
  | error fault later =>
    have hok : (match Edit.encode {} switchUnit with
      | .ok .. => true
      | .error .. => false) = true := by decide
    rw [he] at hok
    cases hok
  | ok bytes later =>
    have hlater : (Edit.encode {}).after switchUnit = later := by rw [Edit.after, he]
    have hsizes : ∀ n ∈ ((Edit.encode {}).after switchUnit).tableSizes, n < countLimit := by decide
    rw [hlater] at hsizes
    obtain ⟨⟨final, hd, hsame⟩, hraw, hpool⟩ :=
      disassemble_encode (by decide) (by decide) (by decide) rfl he hsizes
    exact ⟨bytes, later, final, rfl, hd, hsame, hraw (ReachableBy.step .empty trivial), hpool rfl⟩

end ActionBytecode
