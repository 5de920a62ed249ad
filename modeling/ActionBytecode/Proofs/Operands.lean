/-
  ActionBytecode — instructions and their operands.

  Instructions come from two sources: they are found in bytes, or created.  Afterwards their
  operands can be changed, one at a time or all at once (`OperandCall`).  `Opcode.Takes` says which
  operands go with an opcode.  A `lookupswitch` has the number of its cases among its operands, so
  the number and the cases can only be changed together.

  * `Opcode.check_eq_ok_iff`: operands pass the check exactly when the opcode takes them;
  * `OperandCall.run_eq_ok`: a call succeeds exactly when the opcode takes what is asked for;
  * `Instruction.takes_after_calls`: so whatever calls are made, an instruction has operands that
    its opcode takes.
-/
import ActionBytecode.CodeUnit.Creation
import ActionBytecode.Proofs.Scanning

namespace ActionBytecode

namespace Opcode

/-- The operands that an opcode takes: those of its descriptor, and in a `lookupswitch` a default
    target, a count, and one target more than the count. -/
inductive Takes : Opcode → List Operand → Prop
  | fixed {opcode : Opcode} {operands : List Operand} (hne : opcode ≠ .lookupSwitch)
    (hk : operands.map Operand.kind = opcode.operandKinds) : Takes opcode operands
  | switch (place : JumpTarget) {count : UInt32} {cases : List JumpTarget}
    (hl : cases.length = count.toNat + 1) :
    Takes .lookupSwitch (.target place :: .u30 count :: cases.map .target)

/-- **Operands pass the check exactly when the opcode takes them.** -/
theorem check_eq_ok_iff {opcode : Opcode} {operands : List Operand} :
    opcode.check operands = .ok () ↔ opcode.Takes operands := by
  constructor
  · intro h
    by_cases hs : opcode = .lookupSwitch
    · subst hs
      obtain ⟨place, count, cases, rfl, hl⟩ := lookupSwitch_of_check h
      exact .switch place hl
    · exact .fixed hs (kinds_of_check h hs)
  · intro h
    cases h with
    | fixed hne hk => exact check_of_kinds hne hk
    | switch place hl =>
      refine check_lookupSwitch rfl (by rwa [List.length_map]) fun operand ho => ?_
      obtain ⟨target, -, rfl⟩ := List.mem_map.1 ho
      rfl

end Opcode

/-! ## Changes -/

/-- A call that changes the operands of an instruction. -/
inductive OperandCall where
  | set (index : Nat) (operand : Operand)
  | setAll (operands : List Operand)

namespace OperandCall

/-- The operands that a call asks for, in place of those that are there.  There are none when it
    asks to change one that is missing. -/
def wanted : OperandCall → List Operand → Option (List Operand)
  | set index operand, operands =>
    if index < operands.length then some (operands.set index operand) else none
  | setAll operands, _ => some operands

/-- The changed instruction. -/
def attempt : OperandCall → Instruction → Except Fault Instruction
  | set index operand, instruction => instruction.setOperand index operand
  | setAll operands, instruction => instruction.setOperands operands

/-- Change an instruction in place. -/
def run (call : OperandCall) : EStateM Fault Instruction Unit := fun instruction =>
  match call.attempt instruction with
  | .ok changed => .ok () changed
  | .error fault => .error fault instruction

/-- The instruction after a call, also when the call fails. -/
def after (call : OperandCall) (instruction : Instruction) : Instruction :=
  match call.run instruction with
  | .ok _ later | .error _ later => later

variable {call : OperandCall} {instruction later : Instruction}

theorem setOperands_eq_ok {operands : List Operand} {changed : Instruction} :
    instruction.setOperands operands = .ok changed ↔
      instruction.opcode.Takes operands ∧ { instruction with operands } = changed := by
  rw [Instruction.setOperands, bind_eq_ok, ← Opcode.check_eq_ok_iff]
  constructor
  · rintro ⟨_, hc, h⟩
    exact ⟨hc, pure_eq_ok.1 h⟩
  · rintro ⟨hc, h⟩
    exact ⟨(), hc, pure_eq_ok.2 h⟩

theorem attempt_eq_ok {changed : Instruction} : call.attempt instruction = .ok changed ↔
    ∃ operands, call.wanted instruction.operands = some operands ∧
      instruction.opcode.Takes operands ∧ { instruction with operands } = changed := by
  cases call with
  | setAll operands => simp [attempt, wanted, setOperands_eq_ok]
  | set index operand =>
    rw [attempt, wanted, Instruction.setOperand]
    split
    · simp [setOperands_eq_ok]
    · simp

/-- **A call succeeds exactly when the opcode takes what is asked for.** -/
theorem run_eq_ok : call.run instruction = .ok () later ↔
    ∃ operands, call.wanted instruction.operands = some operands ∧
      instruction.opcode.Takes operands ∧ { instruction with operands } = later := by
  rw [← attempt_eq_ok, run]
  cases call.attempt instruction <;> simp

/-- An instruction that cannot be changed stays as it is. -/
theorem eq_of_run_error {fault : Fault} (h : call.run instruction = .error fault later) :
    later = instruction := by
  rw [run] at h
  split at h <;> cases h
  rfl

/-- What a call keeps. -/
theorem takes_step (call : OperandCall) (h : instruction.opcode.Takes instruction.operands) :
    (call.after instruction).opcode.Takes (call.after instruction).operands ∧
      (call.after instruction).id = instruction.id ∧
      (call.after instruction).opcode = instruction.opcode := by
  rw [after]
  cases hr : call.run instruction with
  | error fault later =>
    rw [eq_of_run_error hr]
    exact ⟨h, rfl, rfl⟩
  | ok _ later =>
    obtain ⟨operands, -, ht, rfl⟩ := run_eq_ok.1 hr
    exact ⟨ht, rfl, rfl⟩

end OperandCall

/-! ## Instructions -/

/-- The sources of instructions. -/
inductive Instruction.Made : Instruction → Prop
  | found {tables : Tables} {bytes : Bytes} {handlers placed : List (Handler CodePosition)}
    {n m : Nat} {instructions : List Instruction}
    {instruction : Instruction}
    (h : (Code.raw bytes handlers).disassemble tables n = .ok (.symbolic instructions placed) m)
    (hi : instruction ∈ instructions) : Made instruction
  | created {opcode : Opcode} {operands : List Operand} {unit later : CodeUnit}
    {instruction : Instruction}
    (h : Edit.createInstruction opcode operands unit = .ok instruction later) : Made instruction

namespace Instruction

variable {instruction : Instruction}

theorem Made.takes (h : Made instruction) : instruction.opcode.Takes instruction.operands := by
  cases h with
  | found h hi =>
    obtain ⟨_, _, hc, hfound, -⟩ := Code.disassemble_spec h
    cases hc
    exact Opcode.check_eq_ok_iff.1 (hfound.assemblable.checked instruction hi)
  | @created opcode operands unit _ _ h =>
    cases hcheck : opcode.check operands with
    | error fault =>
      rw [Edit.createInstruction, hcheck] at h
      cases h
    | ok =>
      rw [Edit.createInstruction, hcheck] at h
      obtain ⟨_, _, -, h⟩ := run_bind_eq_ok.1 h
      obtain ⟨_, _, -, h⟩ := run_bind_eq_ok.1 h
      obtain ⟨_, _, -, h⟩ := run_bind_eq_ok.1 h
      obtain ⟨_, _, -, h⟩ := run_bind_eq_ok.1 h
      cases h
      exact Opcode.check_eq_ok_iff.1 hcheck

theorem takes_foldl (h : instruction.opcode.Takes instruction.operands) (calls : List OperandCall) :
    let changed := calls.foldl (fun instruction call => call.after instruction) instruction
    changed.opcode.Takes changed.operands ∧ changed.id = instruction.id ∧
      changed.opcode = instruction.opcode := by
  induction calls generalizing instruction with
  | nil => exact ⟨h, rfl, rfl⟩
  | cons call calls ih =>
    obtain ⟨ht, hid, hopcode⟩ := call.takes_step h
    obtain ⟨ht', hid', hopcode'⟩ := ih ht
    exact ⟨ht', hid'.trans hid, hopcode'.trans hopcode⟩

/-- **An instruction has operands that its opcode takes, whatever is done to them.**  A call that
    succeeds puts what was asked for in their place, and one that fails leaves them. -/
theorem takes_after_calls (h : Made instruction) (calls : List OperandCall) :
    let changed := calls.foldl (fun instruction call => call.after instruction) instruction
    changed.opcode.check changed.operands = .ok () ∧ changed.opcode.Takes changed.operands ∧
    changed.id = instruction.id ∧ changed.opcode = instruction.opcode ∧
    ∀ call : OperandCall,
      (∀ later, call.run changed = .ok () later ↔
        ∃ operands, call.wanted changed.operands = some operands ∧
          changed.opcode.Takes operands ∧ { changed with operands } = later) ∧
      ∀ fault later, call.run changed = .error fault later → later = changed := by
  obtain ⟨ht, hid, hopcode⟩ := takes_foldl h.takes calls
  exact ⟨Opcode.check_eq_ok_iff.2 ht, ht, hid, hopcode, fun call =>
    ⟨fun later => OperandCall.run_eq_ok, fun fault later => OperandCall.eq_of_run_error⟩⟩

/-- A switch with two cases that is asked, in turn, for a third case by its count alone, by its
    operands as a whole, and for another count. -/
def switchCalls : List OperandCall :=
  [.set 1 (.u30 2),
    .setAll [.target (.offset 0), .u30 2, .target (.offset 4), .target (.offset 8),
      .target (.offset 12)],
    .set 1 (.u8 2)]

theorem takes_after_switchCalls : ∃ instruction later,
    Edit.createInstruction .lookupSwitch
        [.target (.offset 0), .u30 1, .target (.offset 4), .target (.offset 8)] .empty =
      .ok instruction later ∧
    let changed := switchCalls.foldl (fun instruction call => call.after instruction) instruction
    changed.operands = [.target (.offset 0), .u30 2, .target (.offset 4), .target (.offset 8),
        .target (.offset 12)] ∧
      Opcode.lookupSwitch.Takes changed.operands ∧
      ∀ fault later, (OperandCall.set 1 (.u30 1)).run changed = .error fault later →
        later = changed := by
  have h : Edit.createInstruction .lookupSwitch
      [.target (.offset 0), .u30 1, .target (.offset 4), .target (.offset 8)] .empty =
      .ok ⟨⟨0⟩, .lookupSwitch, [.target (.offset 0), .u30 1, .target (.offset 4),
        .target (.offset 8)]⟩ { CodeUnit.empty with nextInstruction := 1 } := by rfl
  obtain ⟨-, ht, -, hopcode, hcall⟩ := takes_after_calls (.created h) switchCalls
  rw [hopcode] at ht
  exact ⟨_, _, h, by decide +kernel, ht, (hcall (.set 1 (.u30 1))).2⟩

end Instruction

end ActionBytecode
