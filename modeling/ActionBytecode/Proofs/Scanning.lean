/-
  ActionBytecode — the code that is read from any bytes.

  Whatever the bytes, the instructions that are found in them have the operands that their opcodes
  take, and each takes up a byte for itself and one for each operand (`yields_instruction`,
  `scan_spec`).  Once the jumps are resolved, all of them lead to instructions of the same code
  (`disassemble_spec`), so the code can be assembled again, and is then at most five times as long
  (`Tiles.stop_le`).
-/
import ActionBytecode.Proofs.Soundness
import ActionBytecode.Proofs.Writing

namespace ActionBytecode

/-! ## Operands -/

/-- The operand can be read, and the tables have what it refers to. -/
structure Operand.Sound (tables : Tables) (operand : Operand) : Prop where
  legible : operand.Legible
  uses : ∀ use ∈ operand.uses, tables.Has use

/-- The operand names no instruction. -/
def Operand.Unresolved (operand : Operand) : Prop :=
  ∀ id, operand ≠ .target (.instruction id)

theorem Operand.Sound.of_use {tables : Tables} {operand : Operand} {use : Use}
    (hl : operand.Legible) (hu : operand.uses = [use]) (h : tables.Has use) :
    operand.Sound tables :=
  ⟨hl, hu ▸ List.forall_mem_singleton.2 h⟩

theorem Operand.Sound.of_no_use {tables : Tables} {operand : Operand} (hl : operand.Legible)
    (hu : operand.uses = []) : operand.Sound tables :=
  ⟨hl, hu ▸ List.forall_mem_nil _⟩

namespace Reader

variable {limit : Nat} {tables : Tables}

theorem yields_operand (kind : OperandKind) : Yields limit (operand tables kind) fun n operand =>
    1 ≤ n ∧ operand.kind = kind ∧ operand.Sound tables ∧ operand.Unresolved := by
  cases kind with
  | u8 =>
    exact yields_u8.bind fun _ _ h => yields_pure
      ⟨h.ge, rfl, .of_no_use trivial rfl, by simp [Operand.Unresolved]⟩
  | s8 =>
    exact yields_s8.bind fun _ _ h => yields_pure
      ⟨h, rfl, .of_no_use trivial rfl, by simp [Operand.Unresolved]⟩
  | u30 =>
    exact yields_u30.bind fun _ _ h => yields_pure
      ⟨h.1, rfl, .of_no_use h.2 rfl, by simp [Operand.Unresolved]⟩
  | offset =>
    exact yields_s24.bind fun _ _ h => yields_pure
      ⟨h, rfl, .of_no_use trivial rfl, by simp [Operand.Unresolved]⟩
  | int | uint | double =>
    exact yields_member.bind fun _ _ h => yields_pure
      ⟨h.1, rfl, .of_use trivial rfl h.2, by simp [Operand.Unresolved]⟩
  | string =>
    exact yields_string.bind fun _ _ h => yields_pure
      ⟨h.1, rfl, .of_use trivial rfl h.2, by simp [Operand.Unresolved]⟩
  | nspace =>
    exact yields_nspace.bind fun _ _ h => yields_pure
      ⟨h.1, rfl, .of_use trivial rfl h.2, by simp [Operand.Unresolved]⟩
  | multiname =>
    exact yields_multiname.bind fun _ _ h => yields_pure
      ⟨h.1, rfl, .of_use trivial rfl h.2, by simp [Operand.Unresolved]⟩
  | method =>
    exact yields_method.bind fun _ _ h => yields_pure
      ⟨h.1, rfl, .of_use trivial rfl h.2, by simp [Operand.Unresolved]⟩
  | classRef =>
    exact yields_classRef.bind fun _ _ h => yields_pure
      ⟨h.1, rfl, .of_use trivial rfl h.2, by simp [Operand.Unresolved]⟩

/-- The case targets that are read are as many as they should be. -/
theorem yields_caseTargets {start : Nat} {count : UInt32} :
    Yields limit (caseTargets tables start count) fun n operands => operands.length ≤ n ∧
      operands.length = count.toNat + 1 ∧
      ∀ operand ∈ operands, operand.kind = .offset ∧ operand.Sound tables ∧ operand.Unresolved := by
  refine yields_get_bind fun cursor => yields_refuse fun _ => ?_
  refine ((yields_operand .offset).times _).mono ?_
  rintro n operands - ⟨hl, hn, hall⟩
  exact ⟨hl ▸ hn, hl, hall⟩

end Reader

namespace Opcode

/-- Operands of the kinds that an opcode takes, which is not a `lookupswitch`, pass the check. -/
theorem check_of_kinds {opcode : Opcode} {operands : List Operand} (hne : opcode ≠ .lookupSwitch)
    (h : operands.map Operand.kind = opcode.operandKinds) : opcode.check operands = .ok () := by
  refine check_eq_ok.2 ⟨?_, fun i operand hi => ?_⟩
  · rw [arity.eq_2 _ _ (fun h => hne h), ← h, List.length_map]
  · rw [operandKind, ← h, List.getElem?_map, hi]
    rfl

/-- A `lookupswitch` with as many targets as its count says passes the check. -/
theorem check_lookupSwitch {place : Operand} {count : UInt32} {cases : List Operand}
    (hp : place.kind = .offset) (hl : cases.length = count.toNat + 1)
    (hc : ∀ operand ∈ cases, operand.kind = .offset) :
    Opcode.lookupSwitch.check (place :: .u30 count :: cases) = .ok () := by
  refine check_eq_ok.2 ⟨?_, fun i operand hi => ?_⟩
  · show Except.ok (2 + count.toNat + 1) = Except.ok (cases.length + 1 + 1)
    rw [hl]
    congr 1
    omega
  · match i with
    | 0 =>
      cases hi
      exact hp
    | 1 =>
      cases hi
      rfl
    | i + 2 => exact hc operand (List.mem_of_getElem? hi)

end Opcode

namespace Reader

variable {limit : Nat} {tables : Tables}

/-- **An instruction that is read has the operands that its opcode takes.** -/
theorem yields_instruction : Yields limit (instruction tables) fun n found =>
    1 + found.2.length ≤ n ∧ found.1.check found.2 = .ok () ∧
      ∀ operand ∈ found.2, operand.Sound tables ∧ operand.Unresolved := by
  refine yields_offset_bind fun start => yields_u8.bind fun _ byte hbyte => ?_
  subst hbyte
  refine (yields_ofExcept (p := fun n _ => n = 0) fun _ _ => rfl).bind fun _ opcode hn => ?_
  subst hn
  refine (Yields.mapM fun kind _ => yields_operand kind).bind ?_
  rintro n operands ⟨hn, hall⟩
  have hread : ∀ operand ∈ operands, operand.Sound tables ∧ operand.Unresolved := by
    intro operand ho
    obtain ⟨_, _, -, h⟩ := exists_mem_left hall ho
    exact h
  refine .ite (fun hswitch => ?_) fun hne => ?_
  · subst hswitch
    obtain ⟨place, _, hplace, hrest, rfl⟩ := List.forall₂_cons_left_iff.1 hall
    obtain ⟨number, _, hnumber, hnil, rfl⟩ := List.forall₂_cons_left_iff.1 hrest
    cases List.forall₂_nil_left_iff.1 hnil
    cases number with
    | u30 count =>
      refine yields_caseTargets.bind ?_
      rintro m cases ⟨hm, hl, hcases⟩
      refine yields_pure ⟨?_, Opcode.check_lookupSwitch hplace.1 hl fun operand ho =>
        (hcases operand ho).1, fun operand ho => ?_⟩
      · simp only [List.length_append]
        omega
      · rcases List.mem_append.1 ho with ho | ho
        · exact hread operand ho
        · exact (hcases operand ho).2
    | _ => cases hnumber.1
  · have hkinds : operands.map Operand.kind = opcode.operandKinds :=
      map_eq_iff.2 (hall.flip.imp fun _ _ h => h.1)
    refine yields_pure ⟨?_, Opcode.check_of_kinds hne hkinds, hread⟩
    simp only
    omega

end Reader

/-! ## Code -/

/-- How many bytes an instruction takes up at least, for its opcode and each operand. -/
def Instruction.weight (instruction : Instruction) : Nat := 1 + instruction.operands.length

/-- The identities of instructions that were found. -/
def Placed.ids (code : List Placed) : List InstructionId := code.map (·.instruction.id)

/-- **The instructions that are found have the operands that they should, and fit into the
    bytes.** -/
theorem scan_spec {tables : Tables} : ∀ {limit : Nat} {cursor : Cursor} {n m : Nat}
    {code : List Placed}, scan tables limit cursor n = .ok code m →
    Placed.ids code = (List.range' n code.length).map InstructionId.mk ∧
      (code.map (·.instruction.weight)).sum ≤ cursor.remaining ∧
      ∀ placed ∈ code, placed.instruction.opcode.check placed.instruction.operands = .ok () ∧
        ∀ operand ∈ placed.instruction.operands, operand.Sound tables ∧ operand.Unresolved := by
  intro limit
  induction limit with
  | zero =>
    intro cursor n m code h
    cases h
    exact ⟨rfl, Nat.zero_le _, by simp⟩
  | succ limit ih =>
    intro cursor n m code h
    rw [scan] at h
    split at h
    · cases h
      exact ⟨rfl, Nat.zero_le _, by simp⟩
    · cases hread : Reader.instruction tables cursor with
      | error fault later =>
        rw [hread] at h
        cases h
      | ok found next =>
        rw [hread] at h
        obtain ⟨id, _, hfresh, h⟩ := run_bind_eq_ok.1 h
        cases hfresh
        obtain ⟨rest, k, hrest, h⟩ := run_bind_eq_ok.1 h
        cases h
        obtain ⟨taken, htaken, hweight, hfound⟩ :=
          Reader.yields_instruction cursor found next (Nat.le_refl _) hread
        -- the rest goes on from the next identity, with the bytes that this instruction left
        obtain ⟨hids, hsum, hall⟩ := ih hrest
        refine ⟨?_, ?_, List.forall_mem_cons.2 ⟨hfound, hall⟩⟩
        · rw [Placed.ids, List.map_cons, List.length_cons, List.range'_succ, List.map_cons]
          exact congrArg _ hids
        · simp only [List.map_cons, List.sum_cons, Instruction.weight] at hsum ⊢
          omega

theorem mem_of_startingAt? {code : List Placed} {place : Int} {id : InstructionId}
    (h : startingAt? code place = some id) : id ∈ Placed.ids code := by
  obtain ⟨placed, hp, rfl⟩ := Option.map_eq_some_iff.1 h
  exact List.mem_map_of_mem (List.mem_of_find?_eq_some hp)

/-- The second operand is the first one, with an instruction in the place of a distance. -/
inductive Operand.Resolves (ids : List InstructionId) : Operand → Operand → Prop
  | same {operand : Operand} (h : operand.target? = none) : Resolves ids operand operand
  | jump {distance : Int} {id : InstructionId} (h : id ∈ ids) :
    Resolves ids (.target (.offset distance)) (.target (.instruction id))

theorem resolves_of_resolveOperand {code : List Placed} {placed : Placed}
    {operand resolved : Operand} (h : resolveOperand code placed operand = .ok resolved)
    (hu : operand.Unresolved) : operand.Resolves (Placed.ids code) resolved := by
  cases operand with
  | target place =>
    cases place with
    | instruction id => exact absurd rfl (hu id)
    | offset distance =>
      rw [resolveOperand_offset] at h
      cases hid : startingAt? code (placed.base + distance) with
      | none =>
        rw [hid] at h
        cases h
      | some id =>
        rw [hid] at h
        cases h
        exact .jump (mem_of_startingAt? hid)
  | _ =>
    cases h
    exact .same rfl

namespace Operand.Resolves

variable {ids : List InstructionId} {operand resolved : Operand}
  (h : operand.Resolves ids resolved)
include h

theorem shape : operand.kind = resolved.kind ∧ operand.number? = resolved.number? := by
  cases h <;> exact ⟨rfl, rfl⟩

theorem sound {tables : Tables} (hs : operand.Sound tables) : resolved.Sound tables := by
  cases h with
  | same => exact hs
  | jump => exact .of_no_use trivial rfl

theorem target {place : JumpTarget} (hp : resolved.target? = some place) :
    ∃ id ∈ ids, place = .instruction id := by
  cases h with
  | same hn => cases hn.symm.trans hp
  | jump hid =>
    cases hp
    exact ⟨_, hid, rfl⟩

end Operand.Resolves

/-- The place of a handler is an instruction of the code or its end. -/
theorem within_of_resolvePosition {code : List Placed} {length : Nat} {place : CodePosition}
    {position : CodePosition} (h : resolvePosition code length place = .ok position) :
    position.Within (Placed.ids code) := by
  cases place with
  | instruction | finish => cases h
  | offset offset =>
    rw [resolvePosition_offset] at h
    split at h
    · cases h
      trivial
    · cases hid : startingAt? code offset.toNat with
      | none =>
        rw [hid] at h
        cases h
      | some id =>
        rw [hid] at h
        cases h
        exact mem_of_startingAt? hid

theorem resolveInstruction_eq_ok {code : List Placed} {placed : Placed}
    (h : placed.instruction.opcode.check placed.instruction.operands = .ok ())
    {instruction : Instruction} : resolveInstruction code placed = .ok instruction ↔
      ∃ operands, List.Forall₂ (fun operand resolved =>
        resolveOperand code placed operand = .ok resolved) placed.instruction.operands operands ∧
      { placed.instruction with operands } = instruction := by
  simp only [resolveInstruction_of_check h, bind_eq_ok, mapM_eq_ok, pure_eq_ok]

/-- What holds of instructions that were found in some bytes, and of the handlers with them. -/
structure Code.Found (tables : Tables) (size : Nat) (instructions : List Instruction)
    (handlers : List (Handler CodePosition)) : Prop where
  assemblable : Assemblable instructions handlers
  resolved : ∀ instruction ∈ instructions, instruction.Resolved
  operands : ∀ instruction ∈ instructions, ∀ operand ∈ instruction.operands, operand.Sound tables
  weight : (instructions.map Instruction.weight).sum ≤ size

theorem Code.Found.mono {tables : Tables} {size limit : Nat} {instructions : List Instruction}
    {handlers : List (Handler CodePosition)} (h : Code.Found tables size instructions handlers)
    (hl : size ≤ limit) : Code.Found tables limit instructions handlers :=
  { h with weight := h.weight.trans hl }

/-- **The code that is found in bytes can be assembled again.** -/
theorem Code.found_of_scan {tables : Tables} {bytes : Bytes} {n m : Nat} {code : List Placed}
    {instructions : List Instruction} {handlers placed : List (Handler CodePosition)}
    (hs : scan tables bytes.length (.start bytes) n = .ok code m)
    (hi : List.Forall₂ (fun placed instruction =>
      resolveInstruction code placed = .ok instruction) code instructions)
    (hh : List.Forall₂ (fun handler placed =>
      Handler.mapM (resolvePosition code bytes.length) handler = .ok placed) handlers placed) :
    Code.Found tables bytes.length instructions placed := by
  obtain ⟨hids, hweight, hall⟩ := scan_spec hs
  -- only targets are looked up: identity, opcode and number of operands stay
  have hresolves : List.Forall₂ (fun placed instruction =>
      placed.instruction.id = instruction.id ∧ placed.instruction.opcode = instruction.opcode ∧
      List.Forall₂ (Operand.Resolves (Placed.ids code)) placed.instruction.operands
        instruction.operands) code instructions := by
    refine forall₂_of_mem hi fun placed hp instruction h => ?_
    obtain ⟨operands, ho, rfl⟩ := (resolveInstruction_eq_ok (hall placed hp).1).1 h
    exact ⟨rfl, rfl, forall₂_of_mem ho fun operand hm resolved hr =>
      resolves_of_resolveOperand hr ((hall placed hp).2 operand hm).2⟩
  have hsame : Placed.ids code = instructions.map Instruction.id :=
    map_eq_map_iff.2 (hresolves.imp fun _ _ h => h.1)
  have htargets : ∀ instruction ∈ instructions, ∀ operand ∈ instruction.operands,
      operand.Sound tables ∧ ∀ place, operand.target? = some place →
        ∃ id ∈ instructions.map Instruction.id, place = .instruction id := by
    intro instruction hm operand ho
    obtain ⟨placed, hp, -, -, h⟩ := exists_mem_left hresolves hm
    obtain ⟨original, horiginal, h⟩ := exists_mem_left h ho
    exact ⟨h.sound ((hall placed hp).2 original horiginal).1, fun place => hsame ▸ h.target⟩
  refine ⟨⟨fun instruction hm => ?_, ?_, fun instruction hm place hp => ?_,
    fun handler hm place hp => ?_⟩, fun instruction hm distance ho => ?_,
    fun instruction hm operand ho => (htargets instruction hm operand ho).1, ?_⟩
  · obtain ⟨placed, hp, -, hopcode, h⟩ := exists_mem_left hresolves hm
    exact hopcode ▸ Opcode.check_congr (h.imp fun _ _ h => h.shape) (hall placed hp).1
  · rw [← hsame, hids]
    exact (List.nodup_range' 1).map fun i j h => congrArg InstructionId.index h
  · obtain ⟨operand, ho, hp⟩ := List.mem_filterMap.1 hp
    obtain ⟨id, hid, rfl⟩ := (htargets instruction hm operand ho).2 place hp
    exact hid
  · obtain ⟨handler, -, h⟩ := exists_mem_left hh hm
    obtain ⟨offset, -, h⟩ := exists_mem_left (Handler.places_of_mapM h) hp
    exact hsame ▸ within_of_resolvePosition h
  · obtain ⟨id, -, h⟩ := (htargets instruction hm _ ho).2 _ rfl
    cases h
  · have hweights : code.map (·.instruction.weight) = instructions.map Instruction.weight :=
      map_eq_map_iff.2 (hresolves.imp fun _ _ h => congrArg (1 + ·) h.2.2.length_eq)
    exact hweights ▸ hweight

/-- The instructions that were found, with their jumps and the handlers resolved. -/
def resolveAll (length : Nat) (handlers : List (Handler CodePosition)) (code : List Placed) :
    Except Fault Code := do
  let instructions ← code.mapM (resolveInstruction code)
  let handlers ← handlers.mapM (·.mapM (resolvePosition code length))
  return .symbolic instructions handlers

theorem Code.run_disassemble (tables : Tables) (bytes : Bytes)
    (handlers : List (Handler CodePosition)) (n : Nat) : disassemble tables (.raw bytes handlers) n =
      (scan tables bytes.length (.start bytes) >>= fun code =>
        match resolveAll bytes.length handlers code with
        | .ok code => pure code
        | .error fault => throw fault) n := rfl

/-- Code that is disassembled was found in its bytes, and refers to what its handlers did. -/
theorem Code.disassemble_spec {tables : Tables} {bytes : Bytes}
    {handlers : List (Handler CodePosition)} {n m : Nat} {code : Code}
    (h : disassemble tables (.raw bytes handlers) n = .ok code m) :
    ∃ instructions placed, code = .symbolic instructions placed ∧
      Found tables bytes.length instructions placed ∧ placed.length = handlers.length ∧
      placed.flatMap Handler.uses = handlers.flatMap Handler.uses := by
  obtain ⟨found, instructions, placed, hs, hi, hh, rfl⟩ := of_disassemble h
  have huses : handlers.map Handler.uses = placed.map Handler.uses :=
    map_eq_map_iff.2 (hh.imp fun _ _ h => (Handler.uses_of_mapM h).symm)
  refine ⟨instructions, placed, rfl, found_of_scan hs hi hh, hh.length_eq.symm, ?_⟩
  rw [List.flatMap_def, List.flatMap_def, huses]

/-! ## The size of code -/

theorem length_packedGroups_le : ∀ groups n, (packedGroups groups n).length ≤ groups + 1
  | 0, n => Nat.le_refl 1
  | groups + 1, n => by
    rw [packedGroups]
    split
    · exact Nat.le_add_left 1 _
    · exact Nat.succ_le_succ (length_packedGroups_le groups (n / 128))

theorem length_reference_le (index : Nat) : (Bytes.reference index).length ≤ 5 :=
  length_packedGroups_le 4 _

section
variable {a : Indexing} {distance : InstructionId → Except Fault Int} {bytes : Bytes}

theorem Operand.length_bytes_le {operand : Operand}
    (h : operand.bytes a distance = .ok bytes) : bytes.length ≤ 5 := by
  cases operand with
  | target place => exact (length_target h).trans_le (by decide)
  | u8 | s8 =>
    cases h
    exact Nat.le_add_left 1 4
  | u30 value =>
    cases h
    exact length_packedGroups_le 4 _
  | _ =>
    obtain ⟨index, -, rfl⟩ := map_eq_ok.1 h
    exact length_reference_le index

theorem Emission.length_bytes_le {emission : Emission} (h : emission.bytes a distance = .ok bytes) :
    bytes.length ≤ 5 * (1 + emission.operands.length) := by
  obtain ⟨pieces, hp, h⟩ := bind_eq_ok.1 h
  rw [← pure_eq_ok.1 h, List.length_cons, List.length_flatten]
  have hsum : (pieces.map List.length).sum ≤ (pieces.map List.length).length • 5 :=
    List.sum_le_card_nsmul _ 5 fun n hn => by
      obtain ⟨piece, hpiece, rfl⟩ := List.mem_map.1 hn
      obtain ⟨operand, -, hw⟩ := exists_mem_left (mapM_eq_ok.1 hp) hpiece
      exact operand.length_bytes_le hw
  rw [List.length_map, ← (mapM_eq_ok.1 hp).length_eq, smul_eq_mul] at hsum
  omega

end

/-- **Code is at most five times as long as what it takes up at least.** -/
theorem Tiles.stop_le {a : Indexing} {start stop : Nat} {layout : List Placement}
    (ht : Tiles start layout stop) (hf : ∀ p ∈ layout, p.Fits a) :
    stop ≤ start + 5 * (layout.map fun p => 1 + p.emission.operands.length).sum := by
  induction ht with
  | nil => exact Nat.le_add_right _ _
  | @cons start p layout stop hp _ _ ih =>
    obtain ⟨⟨-, bytes, hw, hstop⟩, hf⟩ := List.forall_mem_cons.1 hf
    have hlength := Emission.length_bytes_le hw
    have hrest := ih hf
    rw [List.map_cons, List.sum_cons]
    omega

/-- Code that was found in bytes is laid out in at most five times as many. -/
theorem Code.Found.stop_le {tables : Tables} {size : Nat} {instructions : List Instruction}
    {handlers : List (Handler CodePosition)} (h : Code.Found tables size instructions handlers)
    {a : Indexing} {layout : List Placement}
    (hl : layOut a 0 [] (instructions.map Emission.ofInstruction) = .ok layout) :
    ∀ p ∈ layout, p.stop ≤ 5 * size := by
  intro p hp
  obtain ⟨stop, hout⟩ := laidOut_of_layOut hl
  have hweight : (layout.map fun p => 1 + p.emission.operands.length) =
      instructions.map Instruction.weight := by
    rw [← Function.comp_def (fun emission : Emission => 1 + emission.operands.length),
      ← List.map_map, hout.map_emission, List.map_map]
    rfl
  have hstop := hout.tiles.stop_le hout.fits
  have hle := hout.tiles.start_le_of_mem hp
  have hsize := h.weight
  rw [hweight] at hstop
  omega

/-! ## Identities -/

/-- The instruction under another identity, with all jumps to it. -/
def Placed.renumber (f : InstructionId → InstructionId) (placed : Placed) : Placed :=
  { placed with instruction := placed.instruction.renumber f }

/-- The code under other identities. -/
def Code.renumber (f : InstructionId → InstructionId) : Code → Code
  | .raw bytes handlers => .raw bytes handlers
  | .symbolic instructions handlers =>
    .symbolic (instructions.map (·.renumber f)) (handlers.map (·.map (·.renumber f)))

/-- The identities that are handed out when `k` more were handed out before. -/
def InstructionId.shift (k : Nat) (id : InstructionId) : InstructionId := ⟨id.index + k⟩

theorem InstructionId.shift_injective (k : Nat) : Function.Injective (shift k) :=
  fun _ _ h => congrArg InstructionId.mk (Nat.add_right_cancel (congrArg index h))

theorem Operand.Unresolved.renumber {operand : Operand} (h : operand.Unresolved)
    (f : InstructionId → InstructionId) : operand.renumber f = operand := by
  cases operand with
  | target place =>
    cases place with
    | instruction id => exact absurd rfl (h id)
    | offset => rfl
  | _ => rfl

/-- What is found does not hang on the identities that are handed out. -/
theorem scan_add {tables : Tables} (k : Nat) : ∀ (limit : Nat) (cursor : Cursor) (n : Nat),
    scan tables limit cursor (n + k) =
      match scan tables limit cursor n with
      | .ok code m => .ok (code.map (·.renumber (.shift k))) (m + k)
      | .error fault m => .error fault (m + k)
  | 0, _, _ => rfl
  | limit + 1, cursor, n => by
    by_cases hend : cursor.atEnd
    · simp only [scan, if_pos hend]
      rfl
    · cases hread : Reader.instruction tables cursor with
      | error fault later =>
        simp only [scan, if_neg hend, hread]
        rfl
      | ok found next =>
        obtain ⟨-, -, -, -, hunresolved⟩ :=
          Reader.yields_instruction cursor found next (Nat.le_refl _) hread
        obtain ⟨opcode, operands⟩ := found
        have hoperands : operands.map (·.renumber (.shift k)) = operands :=
          (List.map_congr_left fun operand ho => (hunresolved operand ho).2.renumber _).trans
            (List.map_id _)
        -- what is read hangs on the cursor alone, so one step is the same from `n` and from `n + k`
        have hstep (n : Nat) : scan tables (limit + 1) cursor n =
            match scan tables limit next (n + 1) with
            | .ok rest m =>
              .ok (⟨cursor.offset, next.offset, ⟨⟨n⟩, opcode, operands⟩⟩ :: rest) m
            | .error fault m => .error fault m := by
          simp only [scan, if_neg hend, hread]
          have hfresh : Identifying.fresh n = .ok ⟨n⟩ (n + 1) := rfl
          refine (run_bind_of_ok hfresh).trans ?_
          cases hrest : scan tables limit next (n + 1) with
          | error => exact run_bind_of_error hrest
          | ok => exact run_bind_of_ok hrest
        rw [hstep, hstep, Nat.add_right_comm, scan_add k limit next (n + 1)]
        cases scan tables limit next (n + 1) with
        | error => rfl
        | ok rest m =>
          simp only [List.map_cons, Placed.renumber, Instruction.renumber, hoperands]
          rfl

theorem mapM_map_of_map {ε α β γ δ : Type} {f : β → Except ε δ} {g : α → Except ε γ}
    {before : α → β} {after : γ → δ} {xs : List α}
    (h : ∀ x ∈ xs, f (before x) = after <$> g x) :
    (xs.map before).mapM f = List.map after <$> xs.mapM g := by
  induction xs with
  | nil => rfl
  | cons x xs ih =>
    obtain ⟨hx, hxs⟩ := List.forall_mem_cons.1 h
    rw [List.map_cons, List.mapM_cons, List.mapM_cons, hx, ih hxs]
    cases g x with
    | error => rfl
    | ok y => cases xs.mapM g <;> rfl

theorem startingAt?_renumber (f : InstructionId → InstructionId) (code : List Placed)
    (place : Int) :
    startingAt? (code.map (·.renumber f)) place = (startingAt? code place).map f := by
  rw [startingAt?, startingAt?, List.find?_map, Option.map_map, Option.map_map]
  rfl

section
variable (f : InstructionId → InstructionId) (code : List Placed)

theorem resolveOperand_renumber (placed : Placed) {operand : Operand} (h : operand.Unresolved) :
    resolveOperand (code.map (·.renumber f)) (placed.renumber f) (operand.renumber f) =
      (·.renumber f) <$> resolveOperand code placed operand := by
  cases operand with
  | target place =>
    cases place with
    | instruction id => exact absurd rfl (h id)
    | offset distance =>
      have hbase : (placed.renumber f).base = placed.base := rfl
      simp only [Operand.renumber, JumpTarget.renumber, resolveOperand_offset,
        startingAt?_renumber, hbase]
      cases startingAt? code (placed.base + distance) <;> rfl
  | _ => rfl

theorem resolveInstruction_renumber {placed : Placed}
    (h : ∀ operand ∈ placed.instruction.operands, operand.Unresolved) :
    resolveInstruction (code.map (·.renumber f)) (placed.renumber f) =
      (·.renumber f) <$> resolveInstruction code placed := by
  have hopcode : (placed.renumber f).instruction.opcode = placed.instruction.opcode := rfl
  have hoperands : (placed.renumber f).instruction.operands.mapM
      (resolveOperand (code.map (·.renumber f)) (placed.renumber f)) = _ :=
    mapM_map_of_map fun operand ho => resolveOperand_renumber f code placed (h operand ho)
  rw [resolveInstruction, resolveInstruction, hopcode, hoperands]
  cases placed.instruction.opcode.isJump with
  | false => rfl
  | true => cases placed.instruction.operands.mapM (resolveOperand code placed) <;> rfl

theorem resolvePosition_renumber (length : Nat) (place : CodePosition) :
    resolvePosition (code.map (·.renumber f)) length place =
      (·.renumber f) <$> resolvePosition code length place := by
  cases place with
  | instruction | finish => rfl
  | offset offset =>
    rw [resolvePosition_offset, resolvePosition_offset, startingAt?_renumber]
    split
    · rfl
    · cases startingAt? code offset.toNat <;> rfl

theorem resolveHandler_renumber (length : Nat) (handler : Handler CodePosition) :
    handler.mapM (resolvePosition (code.map (·.renumber f)) length) =
      (·.map (·.renumber f)) <$> handler.mapM (resolvePosition code length) := by
  simp only [Handler.mapM, resolvePosition_renumber]
  cases resolvePosition code length handler.start with
  | error => rfl
  | ok =>
    cases resolvePosition code length handler.stop with
    | error => rfl
    | ok => cases resolvePosition code length handler.entry <;> rfl

end

theorem resolveAll_renumber (f : InstructionId → InstructionId) (length : Nat)
    (handlers : List (Handler CodePosition)) {code : List Placed}
    (h : ∀ placed ∈ code, ∀ operand ∈ placed.instruction.operands, operand.Unresolved) :
    resolveAll length handlers (code.map (·.renumber f)) =
      Code.renumber f <$> resolveAll length handlers code := by
  have hhandlers : (handlers.map id).mapM _ = _ :=
    mapM_map_of_map fun handler _ => resolveHandler_renumber f code length handler
  rw [List.map_id] at hhandlers
  rw [resolveAll, mapM_map_of_map fun placed hp => resolveInstruction_renumber f code (h placed hp),
    hhandlers, resolveAll]
  cases code.mapM (resolveInstruction code) with
  | error => rfl
  | ok =>
    cases handlers.mapM (·.mapM (resolvePosition code length)) <;> rfl

/-- **Code is disassembled to the same up to identities, whichever were handed out before.** -/
theorem Code.disassemble_add {tables : Tables} {bytes : Bytes}
    {handlers : List (Handler CodePosition)} (n k : Nat) : disassemble tables (.raw bytes handlers) (n + k) =
      match disassemble tables (.raw bytes handlers) n with
      | .ok code m => .ok (code.renumber (.shift k)) (m + k)
      | .error fault m => .error fault (m + k) := by
  rw [run_disassemble, run_disassemble]
  cases hscan : scan tables bytes.length (.start bytes) n with
  | error fault m =>
    rw [run_bind_of_error hscan]
    refine run_bind_of_error ?_
    rw [scan_add, hscan]
  | ok code m =>
    have hscan' := @scan_add tables k bytes.length (.start bytes) n
    rw [hscan] at hscan'
    have hunresolved (placed) (hp : placed ∈ code) (operand) (ho : operand ∈ _) :=
      (((scan_spec hscan).2.2 placed hp).2 operand ho).2
    rw [run_bind_of_ok hscan, run_bind_of_ok hscan', resolveAll_renumber _ _ _ hunresolved]
    cases resolveAll bytes.length handlers code <;> rfl

theorem idxOf_map_of_injective {α β : Type} [DecidableEq α] [DecidableEq β] {f : α → β}
    (hf : Function.Injective f) (xs : List α) (x : α) : (xs.map f).idxOf (f x) = xs.idxOf x := by
  rw [List.idxOf, List.findIdx_map, List.idxOf]
  congr 1
  funext y
  simp [hf.eq_iff]

section
variable (f g : InstructionId → InstructionId)

theorem CodePosition.renumber_renumber (position : CodePosition) :
    (position.renumber f).renumber g = position.renumber (g ∘ f) := by
  cases position <;> rfl

theorem Operand.renumber_renumber (operand : Operand) :
    (operand.renumber f).renumber g = operand.renumber (g ∘ f) := by
  cases operand with
  | target place => cases place <;> rfl
  | _ => rfl

theorem Instruction.renumber_renumber (instruction : Instruction) :
    (instruction.renumber f).renumber g = instruction.renumber (g ∘ f) := by
  simp only [renumber, List.map_map, Function.comp_def, Operand.renumber_renumber]

end

/-- Code by position does not show its identities. -/
theorem Code.byPosition_renumber {f : InstructionId → InstructionId} (hf : Function.Injective f)
    (code : Code) : (code.renumber f).byPosition = code.byPosition := by
  cases code with
  | raw => rfl
  | symbolic instructions handlers =>
    have hplace (id : InstructionId) : (instructions.map fun i => f i.id).idxOf (f id) =
        (instructions.map fun i => i.id).idxOf id := by
      rw [← idxOf_map_of_injective hf (instructions.map fun i => i.id), List.map_map]
      rfl
    have hid (i : Instruction) : (i.renumber f).id = f i.id := rfl
    simp only [renumber, byPosition, List.map_map, Function.comp_def, Handler.map, hid, hplace,
      Instruction.renumber_renumber, CodePosition.renumber_renumber]

theorem Code.disassemble_from_zero {tables : Tables} {bytes : Bytes}
    {handlers : List (Handler CodePosition)} (n : Nat) :
    disassemble tables (.raw bytes handlers) n =
      match disassemble tables (.raw bytes handlers) 0 with
      | .ok code m => .ok (code.renumber (.shift n)) (m + n)
      | .error fault m => .error fault (m + n) := by
  have hn := @disassemble_add tables bytes handlers 0 n
  rwa [Nat.zero_add] at hn

/-- **Code that can be disassembled can be so at any time, and is then the same by position.** -/
theorem Code.disassemble_at {tables : Tables} {bytes : Bytes}
    {handlers : List (Handler CodePosition)} {n m : Nat} {code : Code}
    (h : disassemble tables (.raw bytes handlers) n = .ok code m)
    (n' : Nat) : ∃ code' m', disassemble tables (.raw bytes handlers) n' = .ok code' m' ∧
      code'.byPosition = code.byPosition := by
  have hn := @disassemble_from_zero tables bytes handlers n
  have hn' := @disassemble_from_zero tables bytes handlers n'
  cases hzero : disassemble tables (.raw bytes handlers) 0 with
  | error fault k =>
    rw [hzero] at hn
    cases h.symm.trans hn
  | ok first k =>
    rw [hzero] at hn hn'
    cases h.symm.trans hn
    refine ⟨_, _, hn', ?_⟩
    rw [byPosition_renumber (InstructionId.shift_injective _),
      byPosition_renumber (InstructionId.shift_injective _)]

end ActionBytecode
