/-
  ActionBytecode — what is to blame when bytes cannot be read.

  A reader is orderly when it only blames the bytes and only goes forward over them
  (`Reader.Orderly`).  The sections of a unit are read in an orderly way, and so are the operands of
  an instruction.  What is left is the byte that says which instruction it is: it can be reserved
  for one that is not modelled (`Reader.instruction_error`).  It is met where the instruction
  starts, as the code is gone through from its first byte (`Boundary`).

  Asking a target for its distance, or a place for its offset, is a misuse when it names an
  instruction.  That is never met here: a target that was just read is a distance
  (`kind_of_resolveOperand`), and the places of raw code are offsets (`kind_of_resolvePosition`).

  `CodeUnit.kind_of_decode_error`: bytes that cannot be read are malformed, or else they are a unit
  with a reserved instruction in its code.
-/
import ActionBytecode.Proofs.Composition
import ActionBytecode.Proofs.Scanning

namespace ActionBytecode

namespace Reader

/-! ## Orderly readers -/

/-- The reader blames the bytes when it fails, and takes some of them when it does not. -/
structure Orderly {α : Type} (read : Reader α) : Prop where
  kind : ∀ {cursor later fault}, read cursor = .error fault later → fault.kind = .parse
  advances : ∀ {cursor later a}, read cursor = .ok a later →
    ∃ n ≤ cursor.remaining, later = ⟨cursor.offset + n, cursor.rest.drop n⟩

section
variable {α β : Type} {read : Reader α}

theorem orderly_pure (a : α) : Orderly (pure a) where
  kind h := by cases h
  advances h := by
    cases h
    exact ⟨0, Nat.zero_le _, rfl⟩

theorem orderly_throw {fault : Fault} (hk : fault.kind = .parse) :
    Orderly (throw fault : Reader α) where
  kind h := by
    cases h
    exact hk
  advances h := by cases h

theorem orderly_offset : Orderly offset where
  kind h := by cases h
  advances h := by
    cases h
    exact ⟨0, Nat.zero_le _, rfl⟩

theorem orderly_u8 : Orderly u8 where
  kind {cursor _ _} h := by
    obtain ⟨start, bytes⟩ := cursor
    cases bytes <;> cases h
    rfl
  advances {cursor _ _} h := by
    obtain ⟨start, bytes⟩ := cursor
    cases bytes <;> cases h
    exact ⟨1, Nat.le_add_left 1 _, rfl⟩

theorem orderly_bytes (n : Nat) : Orderly (bytes n) where
  kind h := by
    rw [bytes] at h
    split at h <;> cases h
    rfl
  advances h := by
    rw [bytes] at h
    split at h
    · next hn =>
      cases h
      refine ⟨n, ?_, rfl⟩
      rw [List.length_take] at hn
      exact min_eq_left_iff.1 hn
    · cases h

theorem Orderly.bind {next : α → Reader β} (h : Orderly read) (h' : ∀ a, Orderly (next a)) :
    Orderly (read >>= next) where
  kind he := by
    rcases run_bind_eq_error.1 he with hr | ⟨a, _, -, hn⟩
    · exact h.kind hr
    · exact (h' a).kind hn
  advances hr := by
    obtain ⟨a, middle, ha, hb⟩ := run_bind_eq_ok.1 hr
    obtain ⟨n, hn, rfl⟩ := h.advances ha
    obtain ⟨m, hm, rfl⟩ := (h' a).advances hb
    simp only [Cursor.remaining, List.length_drop] at hn hm
    refine ⟨n + m, ?_, ?_⟩
    · rw [Cursor.remaining]
      omega
    · rw [Nat.add_assoc, List.drop_drop]

/-- **What is made of orderly readers is orderly.** -/
theorem Composed.orderly (h : Composed read) : Orderly read := by
  induction h with
  | pure a => exact orderly_pure a
  | throw hk => exact orderly_throw hk
  | offset => exact orderly_offset
  | u8 => exact orderly_u8
  | bytes n => exact orderly_bytes n
  | bind _ _ ih ih' => exact ih.bind ih'

end

/-! ## Instructions -/

variable {tables : Tables}

theorem composed_operand (tables : Tables) (kind : OperandKind) :
    Composed (operand tables kind) := by
  cases kind with
  | u8 => exact Composed.u8.bind fun _ => .pure _
  | s8 => exact (Composed.u8.bind fun _ => .pure _).bind fun _ => .pure _
  | u30 => exact composed_u30.bind fun _ => .pure _
  | offset => exact ((Composed.bytes 3).bind fun _ => .pure _).bind fun _ => .pure _
  | int | uint | double | string | nspace | multiname | method | classRef =>
    exact (composed_entry _).bind fun _ => .pure _

/-- The targets of a `lookupswitch` are read in an orderly way, though it is asked how many bytes
    are left. -/
theorem orderly_caseTargets (start : Nat) (count : UInt32) :
    Orderly (caseTargets tables start count) := by
  have htargets := ((composed_operand tables .offset).times (count.toNat + 1)).orderly
  have hrun (cursor : Cursor) : caseTargets tables start count cursor =
      if count.toNat > cursor.remaining / 3 then
        .error (.malformed start (.caseCount count)) cursor
      else times (count.toNat + 1) (operand tables .offset) cursor := by
    rw [caseTargets, run_get_bind]
    split <;> rfl
  constructor
  · intro cursor later fault h
    rw [hrun] at h
    split at h
    · cases h
      rfl
    · exact htargets.kind h
  · intro cursor later targets h
    rw [hrun] at h
    split at h
    · cases h
    · exact htargets.advances h

/-- The operands of an instruction that starts at `start`. -/
def operandsOf (tables : Tables) (start : Nat) (opcode : Opcode) :
    Reader (Opcode × List Operand) := do
  let operands ← opcode.operandKinds.mapM (operand tables)
  if opcode = .lookupSwitch then
    let count := (operands[1]?.bind Operand.number?).getD 0
    return (opcode, operands ++ (← caseTargets tables start count))
  return (opcode, operands)

theorem instruction_eq : instruction tables = (do
    let start ← offset
    let opcode ← ofExcept (Opcode.ofWire (← u8) start)
    operandsOf tables start opcode) := rfl

theorem orderly_operandsOf (start : Nat) (opcode : Opcode) :
    Orderly (operandsOf tables start opcode) := by
  refine (Composed.mapM (composed_operand tables) _).orderly.bind fun operands => ?_
  by_cases hswitch : opcode = .lookupSwitch
  · rw [if_pos hswitch]
    exact (orderly_caseTargets start _).bind fun _ => orderly_pure _
  · rw [if_neg hswitch]
    exact orderly_pure _

theorem instruction_advances {cursor later : Cursor} {found : Opcode × List Operand}
    (h : instruction tables cursor = .ok found later) :
    ∃ n ≤ cursor.remaining, later = ⟨cursor.offset + n, cursor.rest.drop n⟩ := by
  rw [instruction_eq] at h
  obtain ⟨start, _, hs, h⟩ := run_bind_eq_ok.1 h
  cases hs
  obtain ⟨byte, middle, hb, h⟩ := run_bind_eq_ok.1 h
  obtain ⟨opcode, _, ho, h⟩ := run_bind_eq_ok.1 h
  cases hw : Opcode.ofWire byte cursor.offset with
  | error fault =>
    rw [hw] at ho
    cases ho
  | ok opcode =>
    rw [hw] at ho
    cases ho
    exact (orderly_u8.bind fun _ => orderly_operandsOf cursor.offset opcode).advances
      (run_bind_eq_ok.2 ⟨byte, middle, hb, h⟩)

/-- **An instruction that cannot be read is malformed or reserved.** -/
theorem instruction_error {cursor later : Cursor} {fault : Fault}
    (h : instruction tables cursor = .error fault later) :
    fault.kind = .parse ∨ ∃ byte mnemonic, cursor.rest[0]? = some byte ∧
      Opcode.reserved? byte = some mnemonic ∧
      fault = .reservedOpcode mnemonic byte cursor.offset := by
  rw [instruction_eq] at h
  rcases run_bind_eq_error.1 h with hs | ⟨start, _, hs, h⟩
  · cases hs
  cases hs
  rcases run_bind_eq_error.1 h with hb | ⟨byte, middle, hb, h⟩
  · exact .inl (orderly_u8.kind hb)
  have hbyte : cursor.rest[0]? = some byte := by
    obtain ⟨start, bytes⟩ := cursor
    cases bytes <;> cases hb
    rfl
  rcases run_bind_eq_error.1 h with ho | ⟨opcode, _, -, h⟩
  · rw [Opcode.ofWire] at ho
    cases hk : Opcode.ofByte? byte with
    | some opcode =>
      rw [hk] at ho
      cases ho
    | none =>
      cases hm : Opcode.reserved? byte with
      | some mnemonic =>
        rw [hk, hm] at ho
        cases ho
        exact .inr ⟨byte, mnemonic, hbyte, hm, rfl⟩
      | none =>
        rw [hk, hm] at ho
        cases ho
        exact .inl rfl
  · exact .inl ((orderly_operandsOf cursor.offset opcode).kind h)

end Reader

/-! ## Code -/

/-- The places where instructions start and end when code is gone through from its first byte. -/
inductive Boundary (tables : Tables) (code : Bytes) : Nat → Prop
  | start : Boundary tables code 0
  | next {place : Nat} {later : Cursor} {found : Opcode × List Operand}
    (h : Boundary tables code place)
    (hr : Reader.instruction tables ⟨place, code.drop place⟩ = .ok found later) :
    Boundary tables code later.offset

/-- The fault is a reserved byte of the code, where an instruction starts. -/
def Fault.Reserves (tables : Tables) (code : Bytes) (fault : Fault) : Prop :=
  ∃ place byte mnemonic, Boundary tables code place ∧ code[place]? = some byte ∧
    Opcode.reserved? byte = some mnemonic ∧ fault = .reservedOpcode mnemonic byte place

/-- **Code that cannot be gone through is malformed, or a reserved instruction is met.** -/
theorem scan_error {tables : Tables} {code : Bytes} : ∀ {limit place n m : Nat} {fault : Fault},
    Boundary tables code place → scan tables limit ⟨place, code.drop place⟩ n = .error fault m →
    fault.kind = .parse ∨ fault.Reserves tables code := by
  intro limit
  induction limit with
  | zero =>
    intro place n m fault _ h
    cases h
  | succ limit ih =>
    intro place n m fault hb h
    rw [scan] at h
    split at h
    · cases h
    · cases hread : Reader.instruction tables ⟨place, code.drop place⟩ with
      | error cause later =>
        rw [hread] at h
        cases h
        refine (Reader.instruction_error hread).imp_right ?_
        rintro ⟨byte, mnemonic, hbyte, hm, rfl⟩
        rw [List.getElem?_drop] at hbyte
        exact ⟨place, byte, mnemonic, hb, hbyte, hm, rfl⟩
      | ok found later =>
        rw [hread] at h
        rcases run_bind_eq_error.1 h with hf | ⟨id, k, -, h⟩
        · cases hf
        rcases run_bind_eq_error.1 h with hrest | ⟨rest, _, -, h⟩
        · -- the rest starts at a boundary, with the bytes of the code from there on
          obtain ⟨taken, -, hlater⟩ := Reader.instruction_advances hread
          have hb' := hb.next hread
          rw [List.drop_drop] at hlater
          subst hlater
          exact ih hb' hrest
        · cases h

/-- A target that was read is a distance, so only what it leads to can be missing. -/
theorem kind_of_resolveOperand {code : List Placed} {placed : Placed} {operand : Operand}
    (hu : operand.Unresolved) {fault : Fault}
    (h : resolveOperand code placed operand = .error fault) : fault.kind = .parse := by
  cases operand with
  | target place =>
    cases place with
    | instruction id => exact absurd rfl (hu id)
    | offset distance =>
      rw [resolveOperand_offset] at h
      split at h
      · cases h
      · cases h
        rfl
  | _ => cases h

theorem kind_of_resolveInstruction {code : List Placed} {placed : Placed}
    (hu : ∀ operand ∈ placed.instruction.operands, operand.Unresolved) {fault : Fault}
    (h : resolveInstruction code placed = .error fault) : fault.kind = .parse := by
  rw [resolveInstruction] at h
  split at h
  · cases h
  · rcases bind_eq_error.1 h with ho | ⟨operands, -, h⟩
    · obtain ⟨operand, hm, ho⟩ := exists_of_mapM_error ho
      exact kind_of_resolveOperand (hu operand hm) ho
    · cases h

/-- A place that was read is an offset, so only the instruction there can be missing. -/
theorem kind_of_resolvePosition {code : List Placed} {length : Nat} {place : CodePosition}
    (ho : place.isOffset = true) {fault : Fault}
    (h : resolvePosition code length place = .error fault) : fault.kind = .parse := by
  cases place with
  | instruction | finish => cases ho
  | offset offset =>
    rw [resolvePosition_offset] at h
    split at h
    · cases h
    · split at h
      · cases h
      · cases h
        rfl

theorem kind_of_resolveHandler {code : List Placed} {length : Nat} {handler : Handler CodePosition}
    (ho : ∀ place ∈ handler.places, place.isOffset = true) {fault : Fault}
    (h : handler.mapM (resolvePosition code length) = .error fault) : fault.kind = .parse := by
  simp only [Handler.places, List.forall_mem_cons] at ho
  obtain ⟨hstart, hstop, hentry, -⟩ := ho
  rcases bind_eq_error.1 h with hp | ⟨start, -, h⟩
  · exact kind_of_resolvePosition hstart hp
  rcases bind_eq_error.1 h with hp | ⟨stop, -, h⟩
  · exact kind_of_resolvePosition hstop hp
  rcases bind_eq_error.1 h with hp | ⟨entry, -, h⟩
  · exact kind_of_resolvePosition hentry hp
  · cases h

/-- Jumps and handlers that lead nowhere are the fault of the bytes. -/
theorem kind_of_resolveAll {length : Nat} {handlers : List (Handler CodePosition)}
    {code : List Placed}
    (hu : ∀ placed ∈ code, ∀ operand ∈ placed.instruction.operands, operand.Unresolved)
    (ho : ∀ handler ∈ handlers, ∀ place ∈ handler.places, place.isOffset = true) {fault : Fault}
    (h : resolveAll length handlers code = .error fault) : fault.kind = .parse := by
  rcases bind_eq_error.1 h with hi | ⟨instructions, -, h⟩
  · obtain ⟨placed, hm, hi⟩ := exists_of_mapM_error hi
    exact kind_of_resolveInstruction (hu placed hm) hi
  rcases bind_eq_error.1 h with hh | ⟨placed, -, h⟩
  · obtain ⟨handler, hm, hh⟩ := exists_of_mapM_error hh
    exact kind_of_resolveHandler (ho handler hm) hh
  · cases h

/-- **Code that cannot be disassembled is malformed, or raw with a reserved instruction.** -/
theorem Code.kind_of_disassemble_error {tables : Tables} {code : Code} (hu : code.Uniform)
    {fault : Fault} {n m : Nat} (h : code.disassemble tables n = .error fault m) :
    fault.kind = .parse ∨
      ∃ bytes handlers, code = .raw bytes handlers ∧ fault.Reserves tables bytes := by
  cases code with
  | symbolic instructions handlers => cases h
  | raw bytes handlers =>
    rw [run_disassemble] at h
    rcases run_bind_eq_error.1 h with hs | ⟨found, _, hs, h⟩
    · exact (scan_error .start hs).imp_right fun hr => ⟨bytes, handlers, rfl, hr⟩
    · cases hr : resolveAll bytes.length handlers found with
      | ok code =>
        rw [hr] at h
        cases h
      | error cause =>
        rw [hr] at h
        cases h
        have hscanned (placed) (hp : placed ∈ found) (operand) (ho : operand ∈ _) :=
          (((scan_spec hs).2.2 placed hp).2 operand ho).2
        exact .inl (kind_of_resolveAll hscanned (hu rfl) hr)

/-! ## Units -/

namespace Reader

theorem finish_eq_ok {cursor later : Cursor} {a : Unit} (h : finish cursor = .ok a later) :
    cursor.rest = [] ∧ cursor = later := by
  rw [finish, run_get_bind] at h
  split at h <;> cases h
  next hend => exact ⟨List.isEmpty_iff.1 hend, rfl⟩

theorem orderly_finish : Orderly finish where
  kind h := by
    rw [finish, run_get_bind] at h
    split at h <;> cases h
    rfl
  advances h := ⟨0, Nat.zero_le _, (finish_eq_ok h).2.symm⟩

theorem orderly_unit : Orderly unit :=
  composed_sections.orderly.bind fun _ => orderly_finish.bind fun _ => orderly_pure _

/-- A unit is read up to the last of the bytes. -/
theorem cursor_of_unit {bytes : Bytes} {parsed : CodeUnit} {cursor : Cursor}
    (h : unit (.start bytes) = .ok parsed cursor) : cursor = ⟨bytes.length, []⟩ := by
  obtain ⟨n, hn, rfl⟩ := orderly_unit.advances h
  have hend : bytes.drop n = [] := by
    obtain ⟨_, middle, -, h⟩ := run_bind_eq_ok.1 h
    obtain ⟨_, _, hf, h⟩ := run_bind_eq_ok.1 h
    obtain ⟨hrest, rfl⟩ := finish_eq_ok hf
    cases h
    exact hrest
  obtain rfl : n = bytes.length := Nat.le_antisymm hn (List.drop_eq_nil_iff.1 hend)
  simp [Cursor.start]

end Reader

namespace CodeUnit

/-- A unit whose code cannot be examined has a method whose code cannot be. -/
theorem examine_error {unit : CodeUnit} {fault : Fault} (h : unit.examine = .error fault) :
    ∃ method ∈ unit.methods, ∃ body, method.body = some body ∧
      ∃ n m, body.code.disassemble unit.tables n = .error fault m := by
  rw [examine] at h
  split at h
  · cases h
  · next m he =>
    cases h
    obtain ⟨method, hm, n, he⟩ := exists_of_run_mapM_error he
    refine ⟨method, Array.mem_toList_iff.1 hm, ?_⟩
    rw [Method.examine] at he
    cases hbody : method.body with
    | none =>
      rw [hbody] at he
      cases he
    | some body =>
      rw [hbody] at he
      rcases run_bind_eq_error.1 he with hd | ⟨code, _, -, he⟩
      · exact ⟨body, rfl, n, m, hd⟩
      · cases he

/-- **Bytes that cannot be read are malformed, or they are a unit with a reserved instruction.** -/
theorem kind_of_decode_error {bytes : Bytes} {fault : Fault} (h : decode bytes = .error fault) :
    (fault.kind = .parse ∨ fault.kind = .unimplemented) ∧
    (fault.kind = .unimplemented →
      ∃ parsed, Reader.unit (.start bytes) = .ok parsed ⟨bytes.length, []⟩ ∧
        ∃ method ∈ parsed.methods, ∃ body code handlers, method.body = some body ∧
          body.code = .raw code handlers ∧ fault.Reserves parsed.tables code) := by
  rw [decode] at h
  cases hp : Reader.unit (.start bytes) with
  | error cause cursor =>
    rw [hp] at h
    cases h
    have hkind := Reader.orderly_unit.kind hp
    exact ⟨.inl hkind, fun hu => by cases hkind.symm.trans hu⟩
  | ok parsed cursor =>
    rw [hp] at h
    rcases bind_eq_error.1 h with he | ⟨examined, -, h⟩
    · obtain ⟨method, hm, body, hbody, n, m, hd⟩ := examine_error he
      have huniform : body.code.Uniform :=
        ((Reader.resolved_of_unit hp).1.methods method hm).uniform body hbody
      rcases Code.kind_of_disassemble_error huniform hd with hkind | ⟨code, handlers, hcode, hr⟩
      · exact ⟨.inl hkind, fun hu => by cases hkind.symm.trans hu⟩
      · refine ⟨.inr ?_, fun _ => ⟨parsed, ?_, method, hm, body, code, handlers, hbody, hcode, hr⟩⟩
        · obtain ⟨_, _, _, -, -, -, rfl⟩ := hr
          rfl
        · rw [Reader.cursor_of_unit hp]
    · cases h

/-- The version, no constants, and one method that pushes a constant in the reserved way once it
    has pushed `null`. -/
def reservedBytes : Bytes :=
  [16, 0, 46, 0] ++ [0, 0, 0, 0, 0, 0, 0] ++ [1, 0, 0, 0, 0] ++ [0, 0, 0] ++
    [1, 0, 1, 0, 0, 0, 2, 0x20, 0x22, 0, 0]

theorem decode_reservedBytes :
    decode reservedBytes = .error (.reservedOpcode "pushconstant" 0x22 1) ∧
      ∃ parsed, Reader.unit (.start reservedBytes) = .ok parsed ⟨30, []⟩ ∧
        ∃ method ∈ parsed.methods, ∃ body code handlers, method.body = some body ∧
          body.code = .raw code handlers ∧
          (Fault.reservedOpcode "pushconstant" 0x22 1).Reserves parsed.tables code := by
  have h : decode reservedBytes = .error (.reservedOpcode "pushconstant" 0x22 1) := by
    decide +kernel
  exact ⟨h, (kind_of_decode_error h).2 rfl⟩

end CodeUnit

end ActionBytecode
