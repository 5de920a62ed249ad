/-
  ActionBytecode — where jumps and handlers lead.

  Code is gone through once from its first byte, and what is found divides it: each instruction
  starts where the one before it ends, and the last one ends where the code does (`Divided`).  So
  no two of them start at the same place, and a distance leads to one instruction or to none.

  * `divided_of_scan`: what is found divides the code;
  * `Divided.of_boundary`: an instruction is found wherever one starts;
  * `resolveOperand_eq_ok_iff`, `resolvePosition_eq_ok_iff`: the places that can be resolved, and
    what becomes of them.

  `Code.disassemble_exact`: each jump becomes the one instruction at its destination, each place of
  a handler the one that starts there or the end of the code, and a jump that leads anywhere else
  cannot be disassembled.
-/
import ActionBytecode.Proofs.Diagnosis

namespace ActionBytecode

/-! ## The division of code -/

/-- The instruction is what is read where it starts, and reading it stops where it ends. -/
structure Placed.Stands (tables : Tables) (code : Bytes) (placed : Placed) : Prop where
  read : Reader.instruction tables ⟨placed.start, code.drop placed.start⟩ =
    .ok (placed.instruction.opcode, placed.instruction.operands)
      ⟨placed.stop, code.drop placed.stop⟩
  lt : placed.start < placed.stop

/-- There is no instruction after the last byte. -/
theorem Reader.instruction_at_end {tables : Tables} {code : Bytes} {place : Nat}
    (h : place = code.length) {found : Opcode × List Operand} {later : Cursor} :
    instruction tables ⟨place, code.drop place⟩ ≠ .ok found later := by
  intro hr
  obtain ⟨taken, htaken, hweight, -⟩ := yields_instruction _ _ _ (Nat.le_refl _) hr
  have hnone : (code.drop place).length = 0 := by
    rw [h, List.drop_length, List.length_nil]
  simp only [Cursor.remaining, hnone] at htaken
  omega

/-- Instructions that stand in the code one after another, from `start` up to `stop`. -/
inductive Divided (tables : Tables) (code : Bytes) :
    (start : Nat) → List Placed → (stop : Nat) → Prop
  | nil (start : Nat) : Divided tables code start [] start
  | cons {start : Nat} {placed : Placed} {rest : List Placed} {stop : Nat}
    (hstart : placed.start = start) (hp : placed.Stands tables code)
    (ht : Divided tables code placed.stop rest stop) :
    Divided tables code start (placed :: rest) stop

namespace Divided

variable {tables : Tables} {code : Bytes} {start stop : Nat} {found : List Placed}

theorem le (h : Divided tables code start found stop) : start ≤ stop := by
  induction h with
  | nil => exact Nat.le_refl _
  | cons hstart hp _ ih => exact hstart ▸ hp.lt.le.trans ih

theorem stands_of_mem (h : Divided tables code start found stop) {placed : Placed}
    (hp : placed ∈ found) :
    placed.Stands tables code ∧ start ≤ placed.start ∧ placed.stop ≤ stop := by
  induction h with
  | nil => cases hp
  | cons hstart hs ht ih =>
    rcases List.mem_cons.1 hp with rfl | hp
    · exact ⟨hs, hstart.ge, ht.le⟩
    · obtain ⟨hstands, hle, hstop⟩ := ih hp
      exact ⟨hstands, hstart ▸ hs.lt.le.trans hle, hstop⟩

/-- No instruction starts inside another. -/
theorem eq_of_start_lt (h : Divided tables code start found stop) {p q : Placed} (hp : p ∈ found)
    (hq : q ∈ found) (hle : p.start ≤ q.start) (hlt : q.start < p.stop) : q = p := by
  induction h with
  | nil => cases hp
  | cons hstart hs ht ih =>
    rcases List.mem_cons.1 hp with rfl | hp' <;> rcases List.mem_cons.1 hq with rfl | hq'
    · rfl
    · have := (ht.stands_of_mem hq').2.1
      omega
    · have := (ht.stands_of_mem hp').2.1
      have := hs.lt
      omega
    · exact ih hp' hq'

theorem eq_of_start_eq (h : Divided tables code start found stop) {p q : Placed} (hp : p ∈ found)
    (hq : q ∈ found) (he : q.start = p.start) : q = p :=
  h.eq_of_start_lt hp hq he.ge (he ▸ (h.stands_of_mem hp).1.lt)

/-- Where an instruction ends, the next one starts or the code ends. -/
theorem exists_next (h : Divided tables code start found stop) {placed : Placed}
    (hp : placed ∈ found) : placed.stop = stop ∨ ∃ q ∈ found, q.start = placed.stop := by
  induction h with
  | nil => cases hp
  | cons _ _ ht ih =>
    rcases List.mem_cons.1 hp with rfl | hp
    · cases ht with
      | nil => exact .inl rfl
      | cons hstart => exact .inr ⟨_, by simp, hstart⟩
    · exact (ih hp).imp_right fun ⟨q, hq, he⟩ => ⟨q, List.mem_cons_of_mem _ hq, he⟩

/-- Every boundary of the code is the start of an instruction or the end. -/
theorem of_boundary (h : Divided tables code 0 found stop) (hstop : stop = code.length)
    {place : Nat} (hb : Boundary tables code place) :
    place = stop ∨ ∃ placed ∈ found, placed.start = place := by
  induction hb with
  | start =>
    cases h with
    | nil => exact .inl rfl
    | cons hstart => exact .inr ⟨_, by simp, hstart⟩
  | next _ hr ih =>
    rcases ih with rfl | ⟨placed, hp, rfl⟩
    · exact absurd hr (Reader.instruction_at_end hstop)
    · -- what is read there is this instruction, so reading stops where it ends
      cases hr.symm.trans (h.stands_of_mem hp).1.read
      exact h.exists_next hp

/-- **Wherever an instruction can be read as the code is gone through, it is found.** -/
theorem exists_of_read (h : Divided tables code 0 found code.length) {place : Nat}
    (hb : Boundary tables code place) {opcode : Opcode} {operands : List Operand} {later : Cursor}
    (hr : Reader.instruction tables ⟨place, code.drop place⟩ = .ok (opcode, operands) later) :
    ∃ placed ∈ found, placed.start = place ∧ placed.stop = later.offset ∧
      placed.instruction.opcode = opcode ∧ placed.instruction.operands = operands := by
  rcases h.of_boundary rfl hb with rfl | ⟨placed, hp, rfl⟩
  · exact absurd hr (Reader.instruction_at_end rfl)
  · cases hr.symm.trans (h.stands_of_mem hp).1.read
    exact ⟨placed, hp, rfl, rfl, rfl, rfl⟩

end Divided

section
variable {tables : Tables} {code : Bytes}

/-- **What is found divides the code.** -/
theorem divided_of_scan : ∀ {limit start n m : Nat} {found : List Placed}, start ≤ code.length →
    code.length ≤ start + limit →
    scan tables limit ⟨start, code.drop start⟩ n = .ok found m →
    Divided tables code start found code.length := by
  intro limit
  induction limit with
  | zero =>
    intro start n m found hle hlimit h
    cases h
    obtain rfl : start = code.length := Nat.le_antisymm hle hlimit
    exact .nil _
  | succ limit ih =>
    intro start n m found hle hlimit h
    rw [scan] at h
    split at h
    · next hend =>
      cases h
      have hnil : code.drop start = [] := List.isEmpty_iff.1 hend
      obtain rfl : start = code.length := Nat.le_antisymm hle (List.drop_eq_nil_iff.1 hnil)
      exact .nil _
    · cases hread : Reader.instruction tables ⟨start, code.drop start⟩ with
      | error fault later =>
        rw [hread] at h
        cases h
      | ok read later =>
        rw [hread] at h
        obtain ⟨id, _, -, h⟩ := run_bind_eq_ok.1 h
        obtain ⟨rest, _, hrest, h⟩ := run_bind_eq_ok.1 h
        cases h
        obtain ⟨taken, htaken, hlater⟩ := Reader.instruction_advances hread
        obtain ⟨weight, hweight, hpositive, -⟩ :=
          Reader.yields_instruction _ _ _ (Nat.le_refl _) hread
        rw [List.drop_drop] at hlater
        subst hlater
        -- an instruction takes at least the byte of its opcode, so the limit is enough for the rest
        simp only [Cursor.remaining, List.length_drop] at htaken hweight
        refine .cons rfl ⟨hread, ?_⟩ (ih ?_ ?_ hrest)
        · show start < start + taken
          omega
        · show start + taken ≤ code.length
          omega
        · show code.length ≤ start + taken + limit
          omega

/-- Code that is divided can be gone through. -/
theorem scan_of_divided {start stop : Nat} {found : List Placed}
    (h : Divided tables code start found stop) (hstop : stop = code.length) :
    ∀ limit n, ∃ found m, scan tables limit ⟨start, code.drop start⟩ n = .ok found m := by
  induction h with
  | nil start =>
    intro limit n
    refine ⟨[], n, ?_⟩
    have hend : (⟨start, code.drop start⟩ : Cursor).atEnd = true := by
      rw [hstop]
      simp [Cursor.atEnd]
    cases limit with
    | zero => rfl
    | succ limit =>
      rw [scan, if_pos hend]
      rfl
  | cons hstart hp _ ih =>
    subst hstart
    intro limit n
    cases limit with
    | zero => exact ⟨[], n, rfl⟩
    | succ limit =>
      rw [scan]
      split
      · exact ⟨[], n, rfl⟩
      · obtain ⟨rest, m, hrest⟩ := ih hstop limit (n + 1)
        rw [hp.read]
        exact ⟨_, m, run_bind_eq_ok.2 ⟨⟨n⟩, n + 1, rfl, run_bind_eq_ok.2 ⟨rest, m, hrest, rfl⟩⟩⟩

/-! ## Places that are resolved -/

/-- The instruction is the only one found that starts at the place. -/
def StartsAt (found : List Placed) (place : Int) (id : InstructionId) : Prop :=
  ∃ placed ∈ found, (placed.start : Int) = place ∧ placed.instruction.id = id ∧
    ∀ other ∈ found, (other.start : Int) = place → other = placed

/-- The operand with the instruction that it leads to in the place of a distance from `base`. -/
inductive Operand.LeadsTo (found : List Placed) (base : Int) : Operand → Operand → Prop
  | same {operand : Operand} (h : operand.target? = none) : LeadsTo found base operand operand
  | jump {distance : Int} {id : InstructionId} (h : StartsAt found (base + distance) id) :
    LeadsTo found base (.target (.offset distance)) (.target (.instruction id))

/-- The instruction with its jumps resolved. -/
structure Instruction.ResolvedIn (found : List Placed) (placed : Placed)
    (instruction : Instruction) : Prop where
  id : instruction.id = placed.instruction.id
  opcode : instruction.opcode = placed.instruction.opcode
  operands : List.Forall₂ (Operand.LeadsTo found placed.base) placed.instruction.operands
    instruction.operands

/-- What an offset into code of a given length stands for. -/
inductive CodePosition.At (found : List Placed) (length : Nat) : UInt32 → CodePosition → Prop
  | finish {offset : UInt32} (h : offset.toNat = length) : At found length offset .finish
  | instruction {offset : UInt32} {id : InstructionId} (h : StartsAt found offset.toNat id) :
    At found length offset (.instruction id)

/-- The handler with its places resolved. -/
structure Handler.ResolvedIn (found : List Placed) (length : Nat) (handler : Handler UInt32)
    (resolved : Handler CodePosition) : Prop where
  caught : resolved.caught = handler.caught
  places : List.Forall₂ (CodePosition.At found length) handler.places resolved.places

variable {start stop : Nat} {found : List Placed} (h : Divided tables code start found stop)
include h

theorem startingAt?_eq_some_iff {place : Int} {id : InstructionId} :
    startingAt? found place = some id ↔ StartsAt found place id := by
  rw [startingAt?, Option.map_eq_some_iff]
  have honly {p q : Placed} (hp : p ∈ found) (hq : q ∈ found) (hpp : (p.start : Int) = place)
      (hqp : (q.start : Int) = place) : q = p := h.eq_of_start_eq hp hq (by omega)
  constructor
  · rintro ⟨p, hfind, rfl⟩
    have hp := List.mem_of_find?_eq_some hfind
    have hplace : (p.start : Int) = place := by simpa using List.find?_some hfind
    exact ⟨p, hp, hplace, rfl, fun q hq hqp => honly hp hq hplace hqp⟩
  · rintro ⟨p, hp, hplace, rfl, -⟩
    have hsome : (found.find? fun q => (q.start : Int) == place).isSome :=
      List.find?_isSome.2 ⟨p, hp, by simpa using hplace⟩
    obtain ⟨q, hq⟩ := Option.isSome_iff_exists.1 hsome
    have hqp : (q.start : Int) = place := by simpa using List.find?_some hq
    exact ⟨q, hq, by rw [honly hp (List.mem_of_find?_eq_some hq) hplace hqp]⟩

theorem exists_startsAt_iff {place : Int} :
    (∃ id, StartsAt found place id) ↔ ∃ placed ∈ found, (placed.start : Int) = place := by
  constructor
  · rintro ⟨_, placed, hp, hplace, -⟩
    exact ⟨placed, hp, hplace⟩
  · rintro ⟨placed, hp, hplace⟩
    exact ⟨_, placed, hp, hplace, rfl, fun other ho he => h.eq_of_start_eq hp ho (by omega)⟩

/-- **A distance becomes the instruction that starts at its destination.** -/
theorem resolveOperand_eq_ok_iff {placed : Placed} {operand resolved : Operand}
    (hu : operand.Unresolved) : resolveOperand found placed operand = .ok resolved ↔
      operand.LeadsTo found placed.base resolved := by
  cases operand with
  | target place =>
    cases place with
    | instruction id => exact absurd rfl (hu id)
    | offset distance =>
      rw [resolveOperand_offset]
      cases hid : startingAt? found (placed.base + distance) with
      | none =>
        refine iff_of_false (by simp) fun hl => ?_
        cases hl with
        | same hn => cases hn
        | jump hs =>
          cases hid.symm.trans ((startingAt?_eq_some_iff h).2 hs)
      | some id =>
        have hs := (startingAt?_eq_some_iff h).1 hid
        constructor
        · intro he
          cases he
          exact .jump hs
        · intro hl
          cases hl with
          | same hn => cases hn
          | jump hs' =>
            cases hid.symm.trans ((startingAt?_eq_some_iff h).2 hs')
            rfl
  | _ =>
    constructor
    · intro he
      cases he
      exact .same rfl
    · intro hl
      cases hl
      rfl

/-- **A place of a handler is the end of the code or becomes the instruction that starts there.** -/
theorem resolvePosition_eq_ok_iff {offset : UInt32} {position : CodePosition} :
    resolvePosition found stop (.offset offset) = .ok position ↔
      CodePosition.At found stop offset position := by
  rw [resolvePosition_offset]
  by_cases hend : offset.toNat = stop
  · rw [if_pos hend]
    constructor
    · intro he
      cases he
      exact .finish hend
    · intro ha
      cases ha with
      | finish => rfl
      | instruction hs =>
        -- no instruction starts at the end
        obtain ⟨placed, hp, hstart, -⟩ := hs
        obtain ⟨hstands, -, hle⟩ := h.stands_of_mem hp
        have := hstands.lt
        omega
  · rw [if_neg hend]
    cases hid : startingAt? found offset.toNat with
    | none =>
      refine iff_of_false (by simp) fun ha => ?_
      cases ha with
      | finish he => exact hend he
      | instruction hs => cases hid.symm.trans ((startingAt?_eq_some_iff h).2 hs)
    | some id =>
      constructor
      · intro he
        cases he
        exact .instruction ((startingAt?_eq_some_iff h).1 hid)
      · intro ha
        cases ha with
        | finish he => exact absurd he hend
        | instruction hs =>
          cases hid.symm.trans ((startingAt?_eq_some_iff h).2 hs)
          rfl

theorem succeeds_resolvePosition {offset : UInt32} :
    Succeeds (resolvePosition found stop (.offset offset)) ↔
      offset.toNat = stop ∨ ∃ placed ∈ found, placed.start = offset.toNat := by
  constructor
  · rintro ⟨position, hp⟩
    cases (resolvePosition_eq_ok_iff h).1 hp with
    | finish hend => exact .inl hend
    | instruction hs =>
      obtain ⟨placed, hp, hstart, -⟩ := hs
      exact .inr ⟨placed, hp, by omega⟩
  · rintro (hend | ⟨placed, hp, hstart⟩)
    · exact ⟨.finish, (resolvePosition_eq_ok_iff h).2 (.finish hend)⟩
    · obtain ⟨id, hs⟩ := (exists_startsAt_iff h).2 ⟨placed, hp, congrArg Int.ofNat hstart⟩
      exact ⟨.instruction id, (resolvePosition_eq_ok_iff h).2 (.instruction hs)⟩

theorem Instruction.resolvedIn_of_eq_ok {placed : Placed} {instruction : Instruction}
    (hc : placed.instruction.opcode.check placed.instruction.operands = .ok ())
    (hu : ∀ operand ∈ placed.instruction.operands, operand.Unresolved)
    (hr : resolveInstruction found placed = .ok instruction) :
    instruction.ResolvedIn found placed := by
  obtain ⟨operands, ho, rfl⟩ := (resolveInstruction_eq_ok hc).1 hr
  exact ⟨rfl, rfl, forall₂_of_mem ho fun operand hm _ hr =>
    (resolveOperand_eq_ok_iff h (hu operand hm)).1 hr⟩

theorem Handler.resolvedIn_of_mapM {handler : Handler UInt32} {resolved : Handler CodePosition}
    (hr : (handler.mapM fun offset => resolvePosition found stop (.offset offset)) = .ok resolved) :
    handler.ResolvedIn found stop resolved :=
  ⟨caught_of_mapM hr, (places_of_mapM hr).imp fun _ _ hp => (resolvePosition_eq_ok_iff h).1 hp⟩

end

/-! ## Jumps that lead nowhere -/

section
variable {tables : Tables} {code : Bytes}

/-- As the code is gone through, a jump to the destination is met. -/
def JumpsTo (tables : Tables) (code : Bytes) (destination : Int) : Prop :=
  ∃ start opcode operands later distance, Boundary tables code start ∧
    Reader.instruction tables ⟨start, code.drop start⟩ = .ok (opcode, operands) later ∧
    .target (.offset distance) ∈ operands ∧
    destination = (if opcode = .lookupSwitch then start else later.offset : Nat) + distance

/-- The destination is before the code, not before its end, or inside an instruction. -/
def Strays (tables : Tables) (code : Bytes) (destination : Int) : Prop :=
  destination < 0 ∨ code.length ≤ destination ∨
    ∃ start read later, Boundary tables code start ∧
      Reader.instruction tables ⟨start, code.drop start⟩ = .ok read later ∧
      start < destination ∧ destination < later.offset

/-- The jump of an instruction that was found leads to no instruction. -/
def Fault.Misleads (found : List Placed) (fault : Fault) : Prop :=
  ∃ placed ∈ found, ∃ distance, .target (.offset distance) ∈ placed.instruction.operands ∧
    (∀ other ∈ found, (other.start : Int) ≠ placed.base + distance) ∧
    fault = .malformed placed.start (.jumpTarget (placed.base + distance))

theorem Divided.start_ne_of_strays {found : List Placed}
    (h : Divided tables code 0 found code.length) {destination : Int}
    (hs : Strays tables code destination) :
    ∀ placed ∈ found, (placed.start : Int) ≠ destination := by
  rintro placed hp rfl
  obtain ⟨hstands, -, hstop⟩ := h.stands_of_mem hp
  have hlt := hstands.lt
  rcases hs with hneg | hend | ⟨start, ⟨opcode, operands⟩, later, hb, hread, hstart, hlater⟩
  · omega
  · omega
  · obtain ⟨outer, ho, rfl, hout, -⟩ := h.exists_of_read hb hread
    have hsame : placed = outer := h.eq_of_start_lt ho hp (by omega) (by omega)
    subst hsame
    omega

theorem resolveOperand_eq_error {found : List Placed} {placed : Placed} {operand : Operand}
    (hu : operand.Unresolved) {fault : Fault}
    (hr : resolveOperand found placed operand = .error fault) :
    ∃ distance, operand = .target (.offset distance) ∧
      (∀ other ∈ found, (other.start : Int) ≠ placed.base + distance) ∧
      fault = .malformed placed.start (.jumpTarget (placed.base + distance)) := by
  cases operand with
  | target place =>
    cases place with
    | instruction id => exact absurd rfl (hu id)
    | offset distance =>
      rw [resolveOperand_offset] at hr
      split at hr
      · cases hr
      · next hnone =>
        rw [startingAt?, Option.map_eq_none_iff, List.find?_eq_none] at hnone
        cases hr
        exact ⟨distance, rfl, fun other ho => by simpa using hnone other ho, rfl⟩
  | _ => cases hr

/-- **A jump that strays makes resolving fail, at a jump that leads to no instruction.** -/
theorem misleads_of_strays {found : List Placed} (h : Divided tables code 0 found code.length)
    (hall : ∀ placed ∈ found,
      placed.instruction.opcode.check placed.instruction.operands = .ok () ∧
        ∀ operand ∈ placed.instruction.operands, operand.Unresolved)
    {destination : Int} (hj : JumpsTo tables code destination)
    (hs : Strays tables code destination) (handlers : List (Handler CodePosition)) :
    ∃ fault : Fault, resolveAll code.length handlers found = .error fault ∧
      fault.Misleads found := by
  cases hmap : found.mapM (resolveInstruction found) with
  | error fault =>
    refine ⟨fault, bind_eq_error.2 (.inl hmap), ?_⟩
    obtain ⟨placed, hp, hi⟩ := exists_of_mapM_error hmap
    rw [resolveInstruction_of_check (hall placed hp).1] at hi
    rcases bind_eq_error.1 hi with ho | ⟨operands, -, hi⟩
    · obtain ⟨operand, hm, ho⟩ := exists_of_mapM_error ho
      obtain ⟨distance, rfl, hnone, rfl⟩ :=
        resolveOperand_eq_error ((hall placed hp).2 operand hm) ho
      exact ⟨placed, hp, distance, hm, hnone, rfl⟩
    · cases hi
  | ok instructions =>
    obtain ⟨start, opcode, operands, later, distance, hb, hread, hm, rfl⟩ := hj
    obtain ⟨placed, hp, rfl, hstop, rfl, rfl⟩ := h.exists_of_read hb hread
    -- the jump was resolved, so an instruction starts where it leads
    obtain ⟨instruction, hi⟩ := mapM_isOk.1 ⟨instructions, hmap⟩ placed hp
    obtain ⟨resolved, ho, -⟩ := (resolveInstruction_eq_ok (hall placed hp).1).1 hi
    obtain ⟨operand, hr⟩ := mapM_isOk.1 ⟨resolved, mapM_eq_ok.2 ho⟩ _ hm
    have hu : (Operand.target (.offset distance)).Unresolved := fun id he => by cases he
    cases (resolveOperand_eq_ok_iff h hu).1 hr with
    | same hn => cases hn
    | jump hstarts =>
      obtain ⟨other, ho, hstart, -⟩ := hstarts
      refine absurd ?_ (h.start_ne_of_strays hs other ho)
      rw [hstart, Placed.base, hstop]

end

namespace Code

variable {tables : Tables} {code : Bytes} {found : List Placed} {n m : Nat}

section
variable {handlers : List (Handler CodePosition)}

/-- Once the code is gone through, its disassembly hangs on what can be resolved. -/
theorem disassemble_of_scan (hs : scan tables code.length (.start code) n = .ok found m) :
    disassemble tables (.raw code handlers) n =
      match resolveAll code.length handlers found with
      | .ok converted => .ok converted m
      | .error fault => .error fault m := by
  rw [run_disassemble, run_bind_of_ok hs]
  cases resolveAll code.length handlers found <;> rfl

theorem exists_disassemble_iff (hs : scan tables code.length (.start code) n = .ok found m) :
    (∃ whole k, disassemble tables (.raw code handlers) n = .ok whole k) ↔
      Succeeds (resolveAll code.length handlers found) := by
  rw [disassemble_of_scan hs]
  cases resolveAll code.length handlers found <;> simp [Succeeds]

end

theorem divided_of_scan_start (hs : scan tables code.length (.start code) n = .ok found m) :
    Divided tables code 0 found code.length :=
  divided_of_scan (Nat.zero_le _) (Nat.zero_add _).ge hs

theorem resolveHandlers_ofWire (handlers : List (Handler UInt32)) :
    (handlers.map (·.map .offset)).mapM (·.mapM (resolvePosition found code.length)) =
      handlers.mapM (·.mapM fun offset => resolvePosition found code.length (.offset offset)) := by
  rw [List.mapM_map]
  rfl

/-- What is resolved once the code is gone through: each jump and each place of a handler. -/
theorem resolved_of_resolveAll (handlers : List (Handler UInt32))
    (hs : scan tables code.length (.start code) n = .ok found m) {whole : Code}
    (hr : resolveAll code.length (handlers.map (·.map .offset)) found = .ok whole) :
    ∃ instructions resolved, whole = .symbolic instructions resolved ∧
      found.mapM (resolveInstruction found) = .ok instructions ∧
      List.Forall₂ (Instruction.ResolvedIn found) found instructions ∧
      List.Forall₂ (Handler.ResolvedIn found code.length) handlers resolved := by
  have h := divided_of_scan_start hs
  obtain ⟨-, -, hall⟩ := scan_spec hs
  obtain ⟨instructions, hi, hr⟩ := bind_eq_ok.1 hr
  rw [resolveHandlers_ofWire] at hr
  obtain ⟨resolved, hh, hr⟩ := bind_eq_ok.1 hr
  refine ⟨instructions, resolved, (pure_eq_ok.1 hr).symm, hi, ?_, ?_⟩
  · exact forall₂_of_mem (mapM_eq_ok.1 hi) fun placed hp instruction hi =>
      Instruction.resolvedIn_of_eq_ok h (hall placed hp).1
        (fun operand ho => ((hall placed hp).2 operand ho).2) hi
  · exact (mapM_eq_ok.1 hh).imp fun _ _ hh => Handler.resolvedIn_of_mapM h hh

/-- Where the jumps can be resolved, the rest hangs on the places of the handlers. -/
theorem succeeds_resolveAll (handlers : List (Handler UInt32))
    (h : Divided tables code 0 found code.length) {instructions : List Instruction}
    (hi : found.mapM (resolveInstruction found) = .ok instructions) :
    Succeeds (resolveAll code.length (handlers.map (·.map .offset)) found) ↔
      ∀ handler ∈ handlers, ∀ offset ∈ handler.places,
        offset.toNat = code.length ∨ ∃ placed ∈ found, placed.start = offset.toNat := by
  rw [resolveAll, resolveHandlers_ofWire]
  refine (Succeeds.bind_iff ⟨instructions, hi⟩ fun _ _ =>
    succeeds_bind_pure.trans mapM_isOk).trans ?_
  refine forall₂_congr fun handler _ => succeeds_handler.trans ?_
  exact forall₂_congr fun offset _ => succeeds_resolvePosition h

/-- **Where jumps and handlers lead.**  Code that can be disassembled is divided into its
    instructions, each jump becomes the one instruction that starts at its destination, and the
    handlers can be resolved if and only if each of their places is the end of the code or the
    start of an instruction.  Code with a jump to anywhere else cannot be disassembled: it is
    malformed, if no reserved byte is met before the jumps are looked at. -/
theorem disassemble_exact (tables : Tables) (code : Bytes) (n : Nat) :
    (∀ converted m, disassemble tables (.raw code []) n = .ok converted m →
      ∃ found instructions, converted = .symbolic instructions [] ∧
        Divided tables code 0 found code.length ∧ (Placed.ids found).Nodup ∧
        List.Forall₂ (Instruction.ResolvedIn found) found instructions ∧
        ∀ handlers : List (Handler UInt32),
          ((∃ whole k, disassemble tables (.ofWire code handlers) n = .ok whole k) ↔
            ∀ handler ∈ handlers, ∀ offset ∈ handler.places,
              offset.toNat = code.length ∨ ∃ placed ∈ found, placed.start = offset.toNat) ∧
          ∀ whole k, disassemble tables (.ofWire code handlers) n = .ok whole k →
            ∃ resolved, whole = .symbolic instructions resolved ∧
              List.Forall₂ (Handler.ResolvedIn found code.length) handlers resolved) ∧
    ∀ destination, JumpsTo tables code destination → Strays tables code destination →
      ∀ handlers, ∃ fault m, disassemble tables (.ofWire code handlers) n = .error fault m ∧
        (fault.kind = .parse ∨ fault.Reserves tables code) ∧
        ((∃ found, Divided tables code 0 found code.length) →
          ∃ found, Divided tables code 0 found code.length ∧ fault.Misleads found) := by
  constructor
  · intro converted m hconverted
    obtain ⟨found, _, _, hs, -, -, -⟩ := of_disassemble hconverted
    have h := divided_of_scan_start hs
    obtain ⟨plain, hplain⟩ := (exists_disassemble_iff hs).1 ⟨converted, m, hconverted⟩
    obtain ⟨instructions, resolved, rfl, hi, hinstructions, hnone⟩ :=
      resolved_of_resolveAll [] hs hplain
    cases hnone
    have hids : (Placed.ids found).Nodup := by
      rw [(scan_spec hs).1]
      exact (List.nodup_range' 1).map fun i j h => congrArg InstructionId.index h
    rw [disassemble_of_scan hs, hplain] at hconverted
    cases hconverted
    refine ⟨found, instructions, rfl, h, hids, hinstructions, fun handlers =>
      ⟨(exists_disassemble_iff hs).trans (succeeds_resolveAll handlers h hi),
        fun whole k hwhole => ?_⟩⟩
    obtain ⟨again, hagain⟩ := (exists_disassemble_iff hs).1 ⟨whole, k, hwhole⟩
    rw [disassemble_of_scan hs, hagain] at hwhole
    cases hwhole
    -- the instructions are resolved before the handlers are looked at
    obtain ⟨same, resolved, rfl, hsame, -, hresolved⟩ := resolved_of_resolveAll handlers hs hagain
    cases hi.symm.trans hsame
    exact ⟨resolved, rfl, hresolved⟩
  · intro destination hj hstrays handlers
    cases hs : scan tables code.length (.start code) n with
    | ok found m =>
      have h := divided_of_scan_start hs
      have hall (placed) (hp : placed ∈ found) :=
        ((scan_spec hs).2.2 placed hp).imp_right fun h operand ho => (h operand ho).2
      obtain ⟨fault, hr, hm⟩ := misleads_of_strays h hall hj hstrays _
      refine ⟨fault, m, ?_, .inl ?_, fun _ => ⟨found, h, hm⟩⟩
      · rw [disassemble_of_scan hs, hr]
      · exact kind_of_resolveAll (fun placed hp => (hall placed hp).2)
          (uniform_ofWire code handlers rfl) hr
    | error fault m =>
      refine ⟨fault, m, run_bind_of_error hs, scan_error .start hs, ?_⟩
      rintro ⟨found, h⟩
      obtain ⟨_, _, hok⟩ := scan_of_divided h rfl code.length n
      cases hs.symm.trans hok

/-- A label, a jump over nothing, a `lookupswitch` back to the label or on to the last instruction,
    and that instruction, which returns. -/
def switchingCode : Bytes :=
  [0x09, 0x10, 0, 0, 0, 0x1b, 0xfb, 0xff, 0xff, 0, 8, 0, 0, 0x47]

/-- A jump to the operand of the next instruction, that instruction, and one that returns. -/
def strayingCode : Bytes := [0x10, 1, 0, 0, 0x24, 5, 0x47]

/-- `switchingCode` is resolved, with a handler for all of it; `strayingCode` is not. -/
theorem disassemble_exact_switchingCode :
    (∃ found instructions,
      Divided CodeUnit.empty.tables switchingCode 0 found 14 ∧
      List.Forall₂ (Instruction.ResolvedIn found) found instructions ∧
      ∃ resolved k, disassemble CodeUnit.empty.tables
          (.ofWire switchingCode [⟨0, 14, 13, .any, .any⟩]) 0 =
        .ok (.symbolic instructions resolved) k) ∧
    ∃ fault m found, disassemble CodeUnit.empty.tables (.raw strayingCode []) 0 = .error fault m ∧
      Divided CodeUnit.empty.tables strayingCode 0 found 7 ∧ fault.Misleads found := by
  constructor
  · have hplain : disassemble CodeUnit.empty.tables (.raw switchingCode []) 0 =
        .ok (.symbolic [⟨⟨0⟩, .label, []⟩, ⟨⟨1⟩, .jump, [.target (.instruction ⟨2⟩)]⟩,
          ⟨⟨2⟩, .lookupSwitch,
            [.target (.instruction ⟨0⟩), .u30 0, .target (.instruction ⟨3⟩)]⟩,
          ⟨⟨3⟩, .returnVoid, []⟩] []) 4 := rfl
    have hwhole : ∃ whole k, disassemble CodeUnit.empty.tables
        (.ofWire switchingCode [⟨0, 14, 13, .any, .any⟩]) 0 = .ok whole k := ⟨_, _, rfl⟩
    obtain ⟨found, instructions, -, hd, -, hi, hhandlers⟩ :=
      (disassemble_exact CodeUnit.empty.tables switchingCode 0).1 _ _ hplain
    obtain ⟨whole, k, hwhole⟩ := hwhole
    obtain ⟨resolved, rfl, -⟩ := (hhandlers _).2 whole k hwhole
    exact ⟨found, instructions, hd, hi, resolved, k, hwhole⟩
  · obtain ⟨distance, hread, rfl⟩ : ∃ distance,
        Reader.instruction CodeUnit.empty.tables ⟨0, strayingCode.drop 0⟩ =
          .ok (.jump, [.target (.offset distance)]) ⟨4, [0x24, 5, 0x47]⟩ ∧ distance = 1 :=
      ⟨_, rfl, by decide⟩
    have hjump : JumpsTo CodeUnit.empty.tables strayingCode 5 :=
      ⟨0, .jump, _, _, 1, .start, hread, by simp, rfl⟩
    have hstrays : Strays CodeUnit.empty.tables strayingCode 5 :=
      .inr (.inr ⟨4, _, ⟨6, [0x47]⟩, .next .start hread, rfl, by decide, by decide⟩)
    have hs : ∃ found m, scan CodeUnit.empty.tables strayingCode.length (.start strayingCode) 0 =
        .ok found m := ⟨_, _, rfl⟩
    obtain ⟨found, m, hs⟩ := hs
    obtain ⟨fault, m, hf, -, hm⟩ :=
      (disassemble_exact CodeUnit.empty.tables strayingCode 0).2 5 hjump hstrays []
    obtain ⟨found, hd, hm⟩ := hm ⟨found, divided_of_scan_start hs⟩
    exact ⟨fault, m, found, hf, hd, hm⟩

/-- A jump to after the code, and a reserved byte. -/
def reservedJumpCode : Bytes := [0x10, 100, 0, 0, 0x22]

/-- The jump strays, and the code is not malformed: the reserved byte is met first. -/
theorem disassemble_reservedJumpCode :
    JumpsTo CodeUnit.empty.tables reservedJumpCode 104 ∧
      Strays CodeUnit.empty.tables reservedJumpCode 104 ∧
      ∃ fault m, disassemble CodeUnit.empty.tables (.raw reservedJumpCode []) 0 = .error fault m ∧
        fault = .reservedOpcode "pushconstant" 0x22 4 ∧ fault.kind ≠ .parse := by
  obtain ⟨distance, hread, rfl⟩ : ∃ distance,
      Reader.instruction CodeUnit.empty.tables ⟨0, reservedJumpCode.drop 0⟩ =
        .ok (.jump, [.target (.offset distance)]) ⟨4, [0x22]⟩ ∧ distance = 100 :=
    ⟨_, rfl, by decide⟩
  have hjump : JumpsTo CodeUnit.empty.tables reservedJumpCode 104 :=
    ⟨0, .jump, _, _, 100, .start, hread, by simp, rfl⟩
  exact ⟨hjump, .inr (.inl (by decide)), _, 1, rfl, rfl, by decide⟩

end Code

end ActionBytecode
