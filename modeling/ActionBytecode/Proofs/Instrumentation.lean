/-
  ActionBytecode — code with markers for a debugger.

  Markers stand between the instructions of a method, so they move every place in its code.  They
  do not change what the code does: the instruction at position `k` stands at position `2 * k + 2`
  once it has its markers (`InstructionId.marked`), and jumps and handlers follow it there
  (`Instruments`).

  `instruments_byPosition` shows this for the code that is emitted, and
  `Edit.recovers_disassemble` says what becomes of it when a unit is written and disassembled.
-/
import ActionBytecode.Proofs.Recovery
import ActionBytecode.Proofs.Restoration
import ActionBytecode.Proofs.Scanning

namespace ActionBytecode

/-- Code has markers when there is one among its instructions. -/
theorem Code.hasDebugMarkers_iff {instructions : List Instruction}
    {handlers : List (Handler CodePosition)} :
    (Code.symbolic instructions handlers).hasDebugMarkers = true ↔
      ∃ instruction ∈ instructions, instruction.opcode = .debug ∨
        instruction.opcode = .debugLine ∨ instruction.opcode = .debugFile := by
  simp only [hasDebugMarkers, List.any_eq_true, Opcode.isDebugMarker_iff]

/-! ## Markers by position -/

/-- Where the instruction at a position stands once there are markers. -/
def InstructionId.marked (id : InstructionId) : InstructionId := ⟨2 * id.index + 2⟩

/-- The instruction at position `k` does not stand before the place. -/
def CodePosition.Reached (k : Nat) : CodePosition → Prop
  | .instruction id => id.index ≤ k
  | .finish | .offset _ => False

/-- The handler protects the instruction at position `k`. -/
def Handler.Protects (handler : Handler CodePosition) (k : Nat) : Prop :=
  handler.start.Reached k ∧ ¬ handler.stop.Reached k

/-- The later code is the earlier one with a marker for the file, and one for the line before each
    instruction.  Both name instructions by their positions. -/
structure Instruments (file : String) (instructions : List Instruction)
    (handlers : List (Handler CodePosition)) (later : List Instruction)
    (laterHandlers : List (Handler CodePosition)) : Prop where
  /-- The number of a line is not too large for its marker. -/
  count : instructions.length < countLimit
  sequence : later = ⟨⟨0⟩, .debugFile, [.string file]⟩ ::
    instructions.zipIdx.flatMap fun (instruction, k) =>
      [⟨⟨2 * k + 1⟩, .debugLine, [.u30 (UInt32.ofNat (k + 1))]⟩, instruction.renumber .marked]
  image : ∀ k : Nat, later[2 * k + 2]? = instructions[k]?.map (·.renumber .marked)
  targets : ∀ instruction ∈ instructions, ∀ target ∈ instruction.targets,
    ∃ k < instructions.length, target = .instruction ⟨k⟩
  handlers_eq : laterHandlers = handlers.map (·.map (·.renumber .marked))
  places : ∀ handler ∈ handlers, ∀ place ∈ handler.places,
    place = .finish ∨ ∃ k < instructions.length, place = .instruction ⟨k⟩
  protects : List.Forall₂ (fun handler laterHandler : Handler CodePosition =>
    ∀ k : Nat, laterHandler.Protects (2 * k + 2) ↔ handler.Protects k) handlers laterHandlers

theorem CodePosition.reached_marked {place : CodePosition} {k : Nat} :
    (place.renumber .marked).Reached (2 * k + 2) ↔ place.Reached k := by
  cases place with
  | instruction id =>
    simp only [renumber, Reached, InstructionId.marked]
    omega
  | finish => rfl
  | offset bytes => rfl

theorem Handler.protects_marked {handler : Handler CodePosition} {k : Nat} :
    (handler.map (·.renumber .marked)).Protects (2 * k + 2) ↔ handler.Protects k :=
  and_congr CodePosition.reached_marked (not_congr CodePosition.reached_marked)

/-! ## What is emitted -/

section
variable {α β : Type}

/-- Every second entry of a list of pairs. -/
theorem getElem?_flatMap_pair (f g : α → β) (xs : List α) (k : Nat) :
    (xs.flatMap fun x => [f x, g x])[2 * k + 1]? = xs[k]?.map g := by
  induction xs generalizing k with
  | nil => rfl
  | cons x xs ih =>
    rw [List.flatMap_cons]
    cases k with
    | zero => rfl
    | succ k =>
      rw [List.getElem?_cons_succ, ← ih k]
      rfl

end

namespace Emission

theorem zipIdx_instrument_from (instructions : List Instruction) (m : Nat) :
    ((instructions.zipIdx (m + 1)).flatMap fun (instruction, line) =>
      [debugLine line, ofInstruction instruction]).zipIdx (2 * m + 1) =
    (instructions.zipIdx m).flatMap fun (instruction, k) =>
      [(debugLine (k + 1), 2 * k + 1), (ofInstruction instruction, 2 * k + 2)] := by
  induction instructions generalizing m with
  | nil => rfl
  | cons instruction instructions ih =>
    rw [List.zipIdx_cons, List.zipIdx_cons, List.flatMap_cons, List.flatMap_cons, ← ih (m + 1),
      List.zipIdx_append]
    rfl

/-- The places of markers and instructions. -/
theorem zipIdx_instrument (file : String) (instructions : List Instruction) :
    (instrument file instructions).zipIdx =
      (debugFile file, 0) :: instructions.zipIdx.flatMap fun (instruction, k) =>
        [(debugLine (k + 1), 2 * k + 1), (ofInstruction instruction, 2 * k + 2)] := by
  rw [instrument, List.zipIdx_cons]
  exact congrArg _ (zipIdx_instrument_from instructions 0)

theorem findIdx_instrument_from {instructions : List Instruction} {id : InstructionId} (n : Nat)
    (h : id ∈ instructions.map Instruction.id) :
    position ((instructions.zipIdx n).flatMap fun (instruction, line) =>
      [debugLine line, ofInstruction instruction]) id =
      2 * (instructions.map Instruction.id).idxOf id + 1 := by
  induction instructions generalizing n with
  | nil => cases h
  | cons instruction instructions ih =>
    rw [position, List.zipIdx_cons, List.flatMap_cons, List.map_cons]
    by_cases he : instruction.id = id
    · subst he
      simp [List.findIdx_cons, debugLine, ofInstruction]
    · have hrest : id ∈ instructions.map Instruction.id := by
        rcases List.mem_cons.1 h with rfl | h
        · exact absurd rfl he
        · exact h
      have hmarker : ((debugLine n).id? == some id) = false := rfl
      have hother : ((ofInstruction instruction).id? == some id) = false := by
        simp [ofInstruction, he]
      have ih := ih (n + 1) hrest
      rw [position] at ih
      rw [List.idxOf_cons_ne _ he, List.cons_append, List.findIdx_cons, hmarker, List.cons_append,
        List.findIdx_cons, hother, List.nil_append, ih]
      simp only [cond_false]
      omega

/-- An instruction is found behind its markers. -/
theorem position_instrument (file : String) {instructions : List Instruction} {id : InstructionId}
    (h : id ∈ instructions.map Instruction.id) :
    position (instrument file instructions) id =
      2 * (instructions.map Instruction.id).idxOf id + 2 := by
  have hrest := findIdx_instrument_from 1 h
  rw [position] at hrest ⊢
  rw [instrument, List.findIdx_cons, hrest]
  rfl

end Emission

section
variable {instructions : List Instruction} {handlers : List (Handler CodePosition)}

/-- The position of an instruction, as an identity. -/
def Instruction.place (instructions : List Instruction) (id : InstructionId) : InstructionId :=
  ⟨(instructions.map Instruction.id).idxOf id⟩

/-- A jump finds its target behind the markers. -/
theorem Operand.renumber_instrument (file : String) {operand : Operand}
    (h : ∀ target, operand.target? = some target →
      target.Within (instructions.map Instruction.id)) :
    (operand.rename .refl).renumber
        (fun id => ⟨Emission.position (Emission.instrument file instructions) id⟩) =
      (operand.renumber (Instruction.place instructions)).renumber .marked := by
  rw [Operand.rename_refl]
  cases operand with
  | target place =>
    cases place with
    | offset distance => rfl
    | instruction id =>
      simp only [renumber, JumpTarget.renumber, Emission.position_instrument file (h _ rfl)]
      rfl
  | _ => rfl

theorem CodePosition.renumber_instrument (file : String) {place : CodePosition}
    (h : place.Within (instructions.map Instruction.id)) :
    place.renumber (fun id => ⟨Emission.position (Emission.instrument file instructions) id⟩) =
      (place.renumber (Instruction.place instructions)).renumber .marked := by
  cases place with
  | instruction id =>
    simp only [renumber, Emission.position_instrument file h]
    rfl
  | finish => rfl
  | offset bytes => cases h

theorem sequence_instrument (file : String) (ha : Assemblable instructions handlers) :
    ((Emission.instrument file instructions).zipIdx.map fun (emission, k) =>
      (⟨⟨k⟩, emission.opcode, emission.operands.map fun operand => (operand.rename .refl).renumber
        fun id => ⟨Emission.position (Emission.instrument file instructions) id⟩⟩ : Instruction)) =
    ⟨⟨0⟩, .debugFile, [.string file]⟩ ::
      (instructions.map (·.renumber (Instruction.place instructions))).zipIdx.flatMap
        fun (instruction, k) =>
          [⟨⟨2 * k + 1⟩, .debugLine, [.u30 (UInt32.ofNat (k + 1))]⟩,
            instruction.renumber .marked] := by
  rw [Emission.zipIdx_instrument, List.map_cons, List.map_flatMap, List.zipIdx_map,
    List.flatMap_map]
  congr 1
  refine List.flatMap_congr fun entry hentry => ?_
  obtain ⟨instruction, k⟩ := entry
  have hk : instructions[k]? = some instruction := List.mem_zipIdx_iff_getElem?.1 hentry
  obtain ⟨hlt, rfl⟩ := List.getElem?_eq_some_iff.1 hk
  have hid : (instructions.map Instruction.id).idxOf instructions[k].id = k := by
    have := ha.distinct.idxOf_getElem k (by simpa using hlt)
    rwa [List.getElem_map] at this
  have hoperands : instructions[k].operands.map (fun operand => (operand.rename .refl).renumber
      fun id => ⟨Emission.position (Emission.instrument file instructions) id⟩) =
      (instructions[k].operands.map (·.renumber (Instruction.place instructions))).map
        (·.renumber .marked) := by
    rw [List.map_map]
    refine List.map_congr_left fun operand ho => Operand.renumber_instrument file ?_
    intro target ht
    exact ha.targets _ (List.getElem_mem hlt) target (List.mem_filterMap.2 ⟨operand, ho, ht⟩)
  simp only [List.map_cons, List.map_nil, Emission.ofInstruction, hoperands, Prod.map,
    Instruction.renumber, Instruction.place, InstructionId.marked, hid]
  rfl

theorem Instruction.targets_renumber (f : InstructionId → InstructionId)
    (instruction : Instruction) :
    (instruction.renumber f).targets = instruction.targets.map (·.renumber f) := by
  rw [targets, targets, renumber, List.filterMap_map, List.map_filterMap]
  refine List.filterMap_congr fun operand _ => ?_
  cases operand <;> rfl

/-- **Emitted with markers, code is the same but for the markers.** -/
theorem instruments_byPosition (file : String) (ha : Assemblable instructions handlers)
    (hresolved : ∀ instruction ∈ instructions, instruction.Resolved)
    (hcount : instructions.length < countLimit) : ∃ positioned placed later laterHandlers,
      (Code.symbolic instructions handlers).byPosition = .symbolic positioned placed ∧
      Code.ofEmissions .refl (Emission.instrument file instructions) handlers =
        .symbolic later laterHandlers ∧
      Instruments file positioned placed later laterHandlers := by
  refine ⟨_, _, _, _, rfl, rfl, ?_⟩
  have hsequence := sequence_instrument file ha
  have hindex {id : InstructionId} (hid : id ∈ instructions.map Instruction.id) :
      (instructions.map Instruction.id).idxOf id < instructions.length := by
    simpa using List.idxOf_lt_length_of_mem hid
  have hhandlers : (handlers.map fun handler => (handler.rename .refl).map (·.renumber
      fun id => ⟨Emission.position (Emission.instrument file instructions) id⟩)) =
      (handlers.map (·.map (·.renumber (Instruction.place instructions)))).map
        (·.map (·.renumber .marked)) := by
    rw [List.map_map]
    refine List.map_congr_left fun handler hh => ?_
    have hplaces := ha.places handler hh
    simp only [Handler.places, List.forall_mem_cons] at hplaces
    obtain ⟨hstart, hstop, hentry, -⟩ := hplaces
    simp only [Function.comp_apply, Handler.rename_refl, Handler.map,
      CodePosition.renumber_instrument file hstart, CodePosition.renumber_instrument file hstop,
      CodePosition.renumber_instrument file hentry]
  constructor
  · rwa [List.length_map]
  · exact hsequence
  · intro k
    rw [hsequence, List.getElem?_cons_succ, getElem?_flatMap_pair, List.getElem?_zipIdx,
      Option.map_map]
    rfl
  · rw [List.forall_mem_map]
    intro instruction hi
    rw [Instruction.targets_renumber, List.forall_mem_map]
    intro target ht
    rw [List.length_map]
    have hwithin := ha.targets instruction hi target ht
    cases target with
    | offset distance =>
      obtain ⟨operand, ho, he⟩ := List.mem_filterMap.1 ht
      cases operand with
      | target place =>
        cases he
        exact absurd ho (hresolved instruction hi distance)
      | _ => cases he
    | instruction id => exact ⟨_, hindex hwithin, rfl⟩
  · exact hhandlers
  · rw [List.forall_mem_map]
    intro handler hh place hp
    rw [List.length_map]
    have hplaces : (handler.map (·.renumber (Instruction.place instructions))).places =
        handler.places.map (·.renumber (Instruction.place instructions)) := rfl
    obtain ⟨original, ho, rfl⟩ := List.mem_map.1 (hplaces ▸ hp)
    have hwithin := ha.places handler hh original ho
    cases original with
    | instruction id => exact .inr ⟨_, hindex hwithin, rfl⟩
    | finish => exact .inl rfl
    | offset bytes => cases hwithin
  · rw [hhandlers, List.forall₂_map_right_iff]
    exact List.forall₂_same.2 fun handler _ k => Handler.protects_marked

end

/-! ## Units -/

/-- The code of a method's body, by position. -/
def CodeUnit.codeAt? (unit : CodeUnit) (handle : MethodHandle) : Option Code :=
  ((unit.method? handle).bind fun method => method.byPosition.body).map Body.code

namespace Edit

variable {unit later later' : CodeUnit} {options options' : EncodeOptions} {bytes bytes' : Bytes}

/-- **What becomes of the methods of a unit that is written and disassembled.** -/
theorem recovers_disassemble (ho : unit.Ordered) (hplain : unit.Plain)
    (hresolved : ∀ method ∈ unit.methods, ∀ instruction ∈ method.instructions,
      instruction.Resolved)
    (hlegible : ∀ operand ∈ unit.operands, operand.Legible)
    (he : encode options unit = .ok bytes later) (hsizes : ∀ n ∈ later.tableSizes, n < countLimit) :
    ∃ final, disassemble later = .ok () final ∧ ∀ handle method body,
      unit.method? handle = some method → method.body = some body →
      ∃ recovered, final.method? handle = some recovered ∧
        method.Recovers options.debugInstrumentation recovered := by
  rcases encode_eq_ok.1 he with ⟨hc, rfl⟩ | ⟨-, plain, rebuilt, hd, hr, -, rfl⟩
  · -- a unit that is not written anew has no symbolic code, and this one has no other
    have ht : unit.isTampered = false := by
      by_contra ht
      rw [CodeUnit.current?_eq_none.2 (eq_true_of_ne_false ht)] at hc
      cases hc
    refine ⟨unit, disassemble_of_plain hplain, fun handle method body hm hb => ?_⟩
    have hmem : method ∈ unit.methods := CodeUnit.mem_methods_iff.2 ⟨handle, hm⟩
    have hraw := hplain method hmem
    have hsymbolic := (CodeUnit.isTampered_eq_false.1 ht).2 method hmem
    obtain ⟨signature, _⟩ := method
    cases hb
    obtain ⟨frame, code⟩ := body
    cases code with
    | raw => cases hraw
    | symbolic => cases hsymbolic
  · rw [disassemble_of_plain hplain] at hd
    cases hd
    have hmethods : List.Forall₂ (fun later method => ∀ n, ∃ recovered m,
        Method.disassemble (unit.commit rebuilt).tables later n = .ok recovered m ∧
          (method.Recovers options.debugInstrumentation recovered ∨ method.body = none))
        (unit.commit rebuilt).methods.toList unit.methods.toList := by
      refine CodeUnit.forall₂_commit fun handle method hm => ?_
      obtain ⟨later, hlater, hall⟩ := recovers_commit hplain hresolved hlegible hr hsizes hm
      refine ⟨later, hlater, fun n => ?_⟩
      obtain ⟨recovered, m, hd, hrecovers | ⟨-, hnone⟩⟩ := hall n
      · exact ⟨recovered, m, hd, .inl hrecovers⟩
      · refine ⟨recovered, m, hd, .inr ?_⟩
        cases hb : method.body with
        | none => rfl
        | some body =>
          obtain ⟨written, hw, hhandle⟩ := CodeUnit.exists_assembled ho hr hm hb
          exact absurd hhandle (hnone written hw)
    obtain ⟨methods, n, hm, hall⟩ := run_mapM_exists hmethods _
    refine ⟨_, disassemble_eq_ok.2 ⟨methods, n, hm, rfl⟩, fun handle method body hm hb => ?_⟩
    rw [CodeUnit.method?, ← Array.getElem?_toList] at hm
    obtain ⟨recovered, hrecovered, hrecovers | hnone⟩ := exists_getElem? hall.flip hm
    · refine ⟨recovered, ?_, hrecovers⟩
      rw [CodeUnit.method?, List.getElem?_toArray]
      exact hrecovered
    · cases hb.symm.trans hnone

/-- **Markers do not change the program.**  Written with markers and without, a method has the same
    code, but for the markers that are put into code that has none. -/
theorem encode_instrumented (h : Reachable unit) (hplain : unit.Plain)
    (hresolved : ∀ method ∈ unit.methods, ∀ instruction ∈ method.instructions,
      instruction.Resolved)
    (hlegible : ∀ operand ∈ unit.operands, operand.Legible)
    (hon : options.debugInstrumentation = true) (hoff : options'.debugInstrumentation = false)
    (he : encode options unit = .ok bytes later) (hsizes : ∀ n ∈ later.tableSizes, n < countLimit)
    (he' : encode options' unit = .ok bytes' later')
    (hsizes' : ∀ n ∈ later'.tableSizes, n < countLimit) :
    ∃ instrumented plain, disassemble later = .ok () instrumented ∧
      disassemble later' = .ok () plain ∧ ∀ handle method body,
      unit.method? handle = some method → method.body = some body →
      ∃ instructions handlers marked markedHandlers,
        plain.codeAt? handle = some (.symbolic instructions handlers) ∧
        instrumented.codeAt? handle = some (.symbolic marked markedHandlers) ∧
        body.code.byPosition = .symbolic instructions handlers ∧
        (body.code.hasDebugMarkers = true →
          marked = instructions ∧ markedHandlers = handlers) ∧
        (body.code.hasDebugMarkers = false →
          Instruments ((method.sourceFile <|> method.name).getD "<anonymous>")
            instructions handlers marked markedHandlers) := by
  obtain ⟨instrumented, hd, hmarked⟩ :=
    recovers_disassemble h.ordered hplain hresolved hlegible he hsizes
  obtain ⟨plain, hd', hunmarked⟩ :=
    recovers_disassemble h.ordered hplain hresolved hlegible he' hsizes'
  refine ⟨instrumented, plain, hd, hd', fun handle method body hm hb => ?_⟩
  obtain ⟨recovered, hr, frame, instructions, handlers, emissions, code, hb', hemit, ha, hcount,
    rfl, hsame⟩ := hmarked handle method body hm hb
  obtain ⟨recovered', hr', hrecovers⟩ := hunmarked handle method body hm hb
  rw [hoff] at hrecovers
  cases hb.symm.trans hb'
  have hcode : plain.codeAt? handle = some (Code.symbolic instructions handlers).byPosition := by
    rw [CodeUnit.codeAt?, hr', Option.bind_some, hrecovers.byPosition, Method.byPosition, hb]
    rfl
  have hcode' : instrumented.codeAt? handle = some (.ofEmissions .refl emissions handlers) := by
    rw [CodeUnit.codeAt?, hr, ← hsame]
    rfl
  rw [hcode, hcode']
  rw [hon, Signature.emissions, Code.instructions] at hemit
  cases hdebug : (Code.symbolic instructions handlers).hasDebugMarkers with
  | true =>
    obtain rfl : instructions.map Emission.ofInstruction = emissions := by
      simpa [hdebug] using hemit
    rw [Code.ofEmissions_map ha.distinct, Code.rename_refl]
    exact ⟨_, _, _, _, rfl, rfl, rfl, fun _ => ⟨rfl, rfl⟩,
      fun hf => absurd hf.symm Bool.false_ne_true⟩
  | false =>
    obtain rfl : Emission.instrument method.markerFile instructions = emissions := by
      simpa [hdebug] using hemit
    rw [Emission.length_instrument] at hcount
    have hinstructions : ∀ instruction ∈ instructions, instruction.Resolved := by
      have hall := hresolved method (CodeUnit.mem_methods_iff.2 ⟨handle, hm⟩)
      rwa [Method.instructions, hb] at hall
    obtain ⟨positioned, placed, marked, markedHandlers, hpositioned, hemitted, hinstruments⟩ :=
      instruments_byPosition method.markerFile ha hinstructions (by simp only [countLimit]; omega)
    rw [hpositioned, hemitted]
    exact ⟨_, _, _, _, rfl, rfl, rfl, fun hf => absurd hf Bool.false_ne_true,
      fun _ => hinstruments⟩

end Edit

/-! Jumps, a switch and a handler in a method that has a name, beside a method with markers. -/

/-- Code with a marker. -/
def markedCode : Code :=
  .symbolic [⟨⟨0⟩, .debugLine, [.u30 9]⟩, ⟨⟨1⟩, .returnVoid, []⟩] []

/-- The unit of the two methods. -/
def tracedUnit : CodeUnit :=
  [.createMethod { signature := { name := some "loop" }, body := some { code := switchCode } },
    .createMethod { body := some { code := markedCode } }].foldl
      (fun unit (operation : Operation) => operation.run unit) .empty

/-- The first method is given markers, under its name. -/
theorem encode_tracedUnit : ∃ bytes later bytes' later' instrumented plain,
    Edit.encode ⟨true, none⟩ tracedUnit = .ok bytes later ∧
    Edit.encode {} tracedUnit = .ok bytes' later' ∧
    Edit.disassemble later = .ok () instrumented ∧ Edit.disassemble later' = .ok () plain ∧
    (∃ instructions handlers marked markedHandlers,
      plain.codeAt? ⟨0⟩ = some (.symbolic instructions handlers) ∧
      instrumented.codeAt? ⟨0⟩ = some (.symbolic marked markedHandlers) ∧
      Instruments "loop" instructions handlers marked markedHandlers) ∧
    instrumented.codeAt? ⟨1⟩ = plain.codeAt? ⟨1⟩ := by
  have hreachable : Reachable tracedUnit := ReachableBy.foldl (fun _ _ _ => trivial) .empty
  have hok : ((Edit.encode ⟨true, none⟩).outcome tracedUnit).toOption.isSome := by decide +kernel
  have hok' : ((Edit.encode {}).outcome tracedUnit).toOption.isSome := by decide +kernel
  have hsizes : ∀ n ∈ ((Edit.encode ⟨true, none⟩).after tracedUnit).tableSizes,
      n < countLimit := by decide +kernel
  have hsizes' : ∀ n ∈ ((Edit.encode {}).after tracedUnit).tableSizes, n < countLimit := by
    decide +kernel
  rw [Edit.outcome] at hok hok'
  rw [Edit.after] at hsizes hsizes'
  cases he : Edit.encode ⟨true, none⟩ tracedUnit with
  | error fault later => rw [he] at hok; cases hok
  | ok bytes later =>
    cases he' : Edit.encode {} tracedUnit with
    | error fault later' => rw [he'] at hok'; cases hok'
    | ok bytes' later' =>
      rw [he] at hsizes
      rw [he'] at hsizes'
      obtain ⟨instrumented, plain, hd, hd', hall⟩ := Edit.encode_instrumented hreachable
        (by decide) (by decide) (by decide) rfl rfl he hsizes he' hsizes'
      refine ⟨bytes, later, bytes', later', instrumented, plain, rfl, rfl, hd, hd', ?_, ?_⟩
      · obtain ⟨instructions, handlers, marked, markedHandlers, hcode, hcode', -, -, hmarked⟩ :=
          hall ⟨0⟩ _ _ rfl rfl
        exact ⟨_, _, _, _, hcode, hcode', hmarked (by decide)⟩
      · obtain ⟨instructions, handlers, marked, markedHandlers, hcode, hcode', -, hsame, -⟩ :=
          hall ⟨1⟩ _ _ rfl rfl
        obtain ⟨rfl, rfl⟩ := hsame (by decide)
        rw [hcode, hcode']

end ActionBytecode
