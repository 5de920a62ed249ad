/-
  ActionBytecode — instructions read back.

  * `Opcode.check_eq_ok` says which operands an opcode takes: those of its descriptor, and behind
    those of a `lookupswitch` as many targets as it says itself, and one more;
  * `Reader.reads_instruction`: what is written of an instruction is read back, with its constants
    renamed and its jumps as distances, exactly when its numbers can be read (`Operand.Legible`);
  * `Emission.length_bytes`: how many bytes an instruction takes does not hang on how far its
    jumps lead.
-/
import ActionBytecode.Code.Assembly
import ActionBytecode.Code.Disassembly
import ActionBytecode.Proofs.References

namespace ActionBytecode

/-! ## Which operands an opcode takes -/

namespace Opcode

theorem misplaced?_eq_none {opcode : Opcode} {operands : List Operand} : ∀ {index : Nat},
    opcode.misplaced? index operands = none ↔
      ∀ i operand, operands[i]? = some operand → operand.kind = opcode.operandKind (index + i) := by
  induction operands with
  | nil => simp [misplaced?]
  | cons operand operands ih =>
    intro index
    rw [misplaced?]
    split
    · next hk =>
      rw [ih]
      constructor
      · intro h i other hi
        cases i with
        | zero => cases hi; exact hk
        | succ i =>
          rw [h i other hi]
          congr 1
          omega
      · intro h i other hi
        rw [h (i + 1) other hi]
        congr 1
        omega
    · next hk =>
      constructor
      · rintro ⟨⟩
      · intro h
        exact absurd (h 0 operand rfl) hk

theorem check_eq_ok {opcode : Opcode} {operands : List Operand} :
    opcode.check operands = .ok () ↔ opcode.arity operands = .ok operands.length ∧
      ∀ i operand, operands[i]? = some operand → operand.kind = opcode.operandKind i := by
  unfold check
  rw [bind_eq_ok]
  constructor
  · rintro ⟨expected, he, h⟩
    split at h
    · next hl =>
      split at h
      · next hm =>
        refine ⟨hl ▸ he, fun i operand hi => ?_⟩
        simpa using misplaced?_eq_none.1 hm i operand hi
      · cases h
    · cases h
  · rintro ⟨ha, hk⟩
    have hm : opcode.misplaced? 0 operands = none :=
      misplaced?_eq_none.2 fun i operand hi => by simpa using hk i operand hi
    refine ⟨_, ha, ?_⟩
    rw [if_pos rfl, hm]

/-- An opcode takes operands of the same kinds and numbers. -/
theorem check_congr {opcode : Opcode} {operands operands' : List Operand}
    (hs : List.Forall₂ (fun operand operand' : Operand =>
      operand.kind = operand'.kind ∧ operand.number? = operand'.number?) operands operands')
    (h : opcode.check operands = .ok ()) : opcode.check operands' = .ok () := by
  obtain ⟨harity, hkinds⟩ := check_eq_ok.1 h
  have hkind := map_eq_map_iff.2 (hs.imp fun _ _ h => h.1)
  have hnumber := map_eq_map_iff.2 (hs.imp fun _ _ h => h.2)
  refine check_eq_ok.2 ⟨?_, fun i operand hi => ?_⟩
  · have hsecond (operands : List Operand) : operands[1]?.bind Operand.number? =
        (operands.map Operand.number?)[1]?.bind id := by
      rw [List.getElem?_map, Option.bind_map]
      rfl
    rw [← hs.length_eq, ← harity, arity.eq_def, arity.eq_def, hsecond, hsecond, hnumber]
  · have hk : (operands.map Operand.kind)[i]? = some operand.kind := by
      rw [hkind, List.getElem?_map, hi]
      rfl
    rw [List.getElem?_map, Option.map_eq_some_iff] at hk
    obtain ⟨original, ho, hk⟩ := hk
    exact hk ▸ hkinds i original ho

/-- An opcode other than `lookupswitch` takes the operands of its descriptor. -/
theorem kinds_of_check {opcode : Opcode} {operands : List Operand}
    (h : opcode.check operands = .ok ()) (hne : opcode ≠ .lookupSwitch) :
    operands.map Operand.kind = opcode.operandKinds := by
  obtain ⟨ha, hk⟩ := check_eq_ok.1 h
  have hl : operands.length = opcode.operandKinds.length := by
    unfold arity at ha
    split at ha
    · exact absurd rfl hne
    · exact (Except.ok.inj ha).symm
  refine List.ext_getElem (by simpa using hl) fun i hi hi' => ?_
  rw [List.length_map] at hi
  rw [List.getElem_map, hk i _ (List.getElem?_eq_getElem hi), operandKind,
    List.getElem?_eq_getElem hi', Option.getD_some]

theorem exists_target_of_kind {operand : Operand} (h : operand.kind = .offset) :
    ∃ place, operand = .target place := by
  cases operand <;> first | exact ⟨_, rfl⟩ | cases h

theorem exists_map_target {operands : List Operand}
    (h : ∀ operand ∈ operands, operand.kind = .offset) :
    ∃ places : List JumpTarget, operands = places.map .target := by
  induction operands with
  | nil => exact ⟨[], rfl⟩
  | cons operand operands ih =>
    rw [List.forall_mem_cons] at h
    obtain ⟨place, rfl⟩ := exists_target_of_kind h.1
    obtain ⟨places, rfl⟩ := ih h.2
    exact ⟨place :: places, rfl⟩

/-- A `lookupswitch` takes a default target, a count, and one target more than the count. -/
theorem lookupSwitch_of_check {operands : List Operand}
    (h : Opcode.lookupSwitch.check operands = .ok ()) :
    ∃ (place : JumpTarget) (count : UInt32) (cases : List JumpTarget),
      operands = .target place :: .u30 count :: cases.map .target ∧
        cases.length = count.toNat + 1 := by
  obtain ⟨ha, hk⟩ := check_eq_ok.1 h
  match operands, hk, ha with
  | [], _, ha => cases ha
  | [_], _, ha => cases ha
  | first :: second :: others, hk, ha =>
    obtain ⟨place, rfl⟩ := exists_target_of_kind (hk 0 first rfl)
    have h₁ : second.kind = .u30 := hk 1 second rfl
    have hothers : ∀ operand ∈ others, operand.kind = .offset := fun operand hm => by
      obtain ⟨i, hi⟩ := List.mem_iff_getElem?.1 hm
      exact hk (i + 2) operand hi
    obtain ⟨cases, rfl⟩ := exists_map_target hothers
    cases second with
    | u30 count =>
      refine ⟨place, count, cases, rfl, ?_⟩
      have hl : Opcode.lookupSwitch.operandKinds.length + count.toNat + 1 =
          (Operand.target place :: .u30 count :: cases.map .target).length := by
        simpa [arity, Operand.number?] using ha
      simp only [List.length_cons, List.length_map] at hl
      have h₂ : Opcode.lookupSwitch.operandKinds.length = 2 := rfl
      omega
    | _ => cases h₁

/-- Only a jump takes targets. -/
theorem target?_of_check {opcode : Opcode} {operands : List Operand}
    (h : opcode.check operands = .ok ()) (hj : opcode.isJump = false) {operand : Operand}
    (hm : operand ∈ operands) : operand.target? = none := by
  have hne : opcode ≠ .lookupSwitch := by
    rintro rfl
    cases hj
  have hkind : operand.kind ∈ opcode.operandKinds :=
    kinds_of_check h hne ▸ List.mem_map_of_mem hm
  cases operand with
  | target place => cases hj.symm.trans (List.any_eq_true.2 ⟨_, hkind, rfl⟩)
  | _ => rfl

end Opcode

/-! ## Resolving -/

theorem resolveOperand_offset (code : List Placed) (placed : Placed) (distance : Int) :
    resolveOperand code placed (.target (.offset distance)) =
      match startingAt? code (placed.base + distance) with
      | some id => .ok (.target (.instruction id))
      | none => .error (.malformed placed.start (.jumpTarget (placed.base + distance))) := rfl

theorem resolveOperand_of_no_target {code : List Placed} {placed : Placed} {operand : Operand}
    (h : operand.target? = none) : resolveOperand code placed operand = .ok operand := by
  cases operand with
  | target place => cases h
  | _ => rfl

/-- An instruction with the operands that it takes is resolved operand by operand. -/
theorem resolveInstruction_of_check {code : List Placed} {placed : Placed}
    (h : placed.instruction.opcode.check placed.instruction.operands = .ok ()) :
    resolveInstruction code placed = (do
      let operands ← placed.instruction.operands.mapM (resolveOperand code placed)
      return { placed.instruction with operands }) := by
  rw [resolveInstruction]
  cases hj : placed.instruction.opcode.isJump with
  | true => rfl
  | false =>
    have hsame : placed.instruction.operands.mapM (resolveOperand code placed) =
        .ok placed.instruction.operands :=
      mapM_eq_ok.2 (List.forall₂_same.2 fun _ hm =>
        resolveOperand_of_no_target (Opcode.target?_of_check h hj hm))
    rw [hsame]
    rfl

theorem resolvePosition_offset (code : List Placed) (length : Nat) (offset : UInt32) :
    resolvePosition code length (.offset offset) =
      if offset.toNat = length then .ok .finish
      else
        match startingAt? code offset.toNat with
        | some id => .ok (.instruction id)
        | none => .error (.malformed offset.toNat .handlerBoundary) := rfl

/-! ## Operands -/

namespace Operand

/-- The operand can be read: a packed number has upper bits that agree. -/
def Legible : Operand → Prop
  | .u30 value => IsU30 value
  | _ => True

instance : DecidablePred Operand.Legible
  | .u30 value => inferInstanceAs (Decidable (IsU30 value))
  | .u8 _ | .s8 _ | .int _ | .uint _ | .double _ | .string _ | .nspace _ | .multiname _
  | .method _ | .classRef _ | .target _ => .isTrue trivial

/-- The operand as it is read: renamed, and a jump by its distance. -/
def onWire (r : Renaming) (distance : InstructionId → Except Fault Int) : Operand → Operand
  | .target (.instruction id) =>
    match distance id with
    | .ok distance => .target (.offset distance)
    | .error _ => .target (.instruction id)
  | operand => operand.rename r

/-- An operand is read as one of the same kind and number. -/
theorem shape_onWire (r : Renaming) (distance : InstructionId → Except Fault Int)
    (operand : Operand) : operand.kind = (operand.onWire r distance).kind ∧
      operand.number? = (operand.onWire r distance).number? := by
  cases operand with
  | target place =>
    cases place with
    | offset => exact ⟨rfl, rfl⟩
    | instruction id =>
      rw [onWire]
      cases distance id <;> exact ⟨rfl, rfl⟩
  | _ => exact ⟨rfl, rfl⟩

section
variable {indexing : Indexing} {distance : InstructionId → Except Fault Int} {bytes : Bytes}

theorem length_target {place : JumpTarget}
    (hw : (Operand.target place).bytes indexing distance = .ok bytes) : bytes.length = 3 := by
  cases place with
  | offset d =>
    rw [← (Reader.s24_eq_ok.1 hw).2, Reader.length_toLittleEndian]
  | instruction id =>
    obtain ⟨d, -, hw⟩ := bind_eq_ok.1 hw
    rw [← (Reader.s24_eq_ok.1 hw).2, Reader.length_toLittleEndian]

/-- An operand takes the same number of bytes whatever the distances. -/
theorem length_bytes {operand : Operand} {distance' : InstructionId → Except Fault Int}
    {bytes' : Bytes} (hw : operand.bytes indexing distance = .ok bytes)
    (hw' : operand.bytes indexing distance' = .ok bytes') : bytes.length = bytes'.length := by
  cases operand with
  | target place => rw [length_target hw, length_target hw']
  | _ => rw [Except.ok.inj (hw.symm.trans hw')]

end

end Operand

theorem length_flatten_of_forall₂ {α : Type} {xs : List α} {written : List Bytes} {n : Nat}
    {R : α → Bytes → Prop} (h : List.Forall₂ R xs written) (hR : ∀ x bs, R x bs → bs.length = n) :
    written.flatten.length = n * xs.length := by
  induction h with
  | nil => rfl
  | cons hx _ ih =>
    rw [List.flatten_cons, List.length_append, ih, hR _ _ hx, List.length_cons]
    ring

/-- **An instruction takes the same number of bytes whatever the distances.** -/
theorem Emission.length_bytes {indexing : Indexing}
    {distance distance' : InstructionId → Except Fault Int} {emission : Emission}
    {bytes bytes' : Bytes} (hw : emission.bytes indexing distance = .ok bytes)
    (hw' : emission.bytes indexing distance' = .ok bytes') : bytes.length = bytes'.length := by
  obtain ⟨written, hws, hw⟩ := bind_eq_ok.1 hw
  obtain ⟨written', hws', hw'⟩ := bind_eq_ok.1 hw'
  rw [← pure_eq_ok.1 hw, ← pure_eq_ok.1 hw', List.length_cons, List.length_cons]
  have key : ∀ (operands : List Operand) (written written' : List Bytes),
      List.Forall₂ (fun operand bs => operand.bytes indexing distance = .ok bs) operands written →
      List.Forall₂ (fun operand bs => operand.bytes indexing distance' = .ok bs) operands written' →
      written.flatten.length = written'.flatten.length := by
    intro operands written written' h
    induction h generalizing written' with
    | nil => rintro ⟨⟩; rfl
    | cons hx _ ih =>
      rintro ⟨⟩
      rename_i hx' hxs'
      rw [List.flatten_cons, List.flatten_cons, List.length_append, List.length_append,
        Operand.length_bytes hx hx', ih _ hxs']
  rw [key _ _ _ (mapM_eq_ok.1 hws) (mapM_eq_ok.1 hws')]

theorem toOption_eq_some {ε α : Type} {x : Except ε α} {a : α} :
    x.toOption = some a ↔ x = .ok a := by
  cases x <;> simp [Except.toOption]

/-- The index that is written in place of an operand. -/
def Operand.index? (a : Indexing) : Operand → Option Nat
  | .int value => (a.intIndex value).toOption
  | .uint value => (a.uintIndex value).toOption
  | .double value => (a.doubleIndex value).toOption
  | .string value => (a.literalIndex value).toOption
  | .nspace ns => (a.namespaceIndex ns).toOption
  | .multiname name => (a.multinameIndex name).toOption
  | .method handle => (a.methodIndex handle).toOption
  | .classRef handle => (a.classIndex handle).toOption
  | .u8 _ | .s8 _ | .u30 _ | .target _ => none

/-- The operand can be read where it has its index. -/
structure Operand.LegibleIn (a : Indexing) (operand : Operand) : Prop where
  legible : operand.Legible
  index : ∀ i, operand.index? a = some i → i < countLimit

theorem Operand.legibleIn_of_index {a : Indexing} (operand : Operand) {i : Nat}
    (hl : operand.Legible) (hi : operand.index? a = some i) :
    i < countLimit ↔ operand.LegibleIn a := by
  refine ⟨fun h => ⟨hl, fun j hj => ?_⟩, fun h => h.index i hi⟩
  cases hi.symm.trans hj
  exact h

theorem Operand.legibleIn_of_none {a : Indexing} (operand : Operand)
    (hi : operand.index? a = none) : operand.Legible ↔ operand.LegibleIn a := by
  refine ⟨fun h => ⟨h, fun j hj => ?_⟩, LegibleIn.legible⟩
  cases hi.symm.trans hj

theorem Operand.legibleIn_target (a : Indexing) (place : JumpTarget) :
    (Operand.target place).LegibleIn a :=
  ((Operand.target place).legibleIn_of_none rfl).1 trivial

/-- The tables have what has an index at it, renamed, and are no larger than can be written. -/
structure Tables.Shows (tables : Tables) (a : Indexing) (r : Renaming) : Prop where
  pool : tables.pool = a.toPool.rename r.namespaces
  method : ∀ {i handle}, a.methods.values[i]? = some handle →
    tables.method? i = some (r.methods handle)
  classRef : ∀ {i handle}, a.classes.values[i]? = some handle →
    tables.class? i = some (r.classes handle)
  constants_small : ∀ n ∈ a.toPool.sizes, n < 0x40000000
  methods_small : a.methods.size < 0x40000000
  classes_small : a.classes.size < 0x40000000

section
variable {tables : Tables} {a : Indexing} {r : Renaming} (h : tables.Holds a r)
include h

theorem Tables.Holds.shows : tables.Shows a r := by
  have hlimit : countLimit < 0x40000000 := by decide
  exact ⟨h.constants.eq_rename, h.method, h.classRef,
    fun n hn => (h.constants.small n hn).trans hlimit, h.methods_small.trans hlimit,
    h.classes_small.trans hlimit⟩

/-- In tables whose indices can be read every index can. -/
theorem Operand.legibleIn_of_holds (operand : Operand) :
    operand.LegibleIn a ↔ operand.Legible := by
  refine ⟨LegibleIn.legible, fun hl => ⟨hl, fun i hi => ?_⟩⟩
  cases operand with
  | int value => exact (h.constants.int (toOption_eq_some.1 hi)).1
  | uint value => exact (h.constants.uint (toOption_eq_some.1 hi)).1
  | double value => exact (h.constants.double (toOption_eq_some.1 hi)).1
  | string value => exact (h.constants.literal (toOption_eq_some.1 hi)).1
  | nspace ns => exact (h.constants.nspace (toOption_eq_some.1 hi)).1
  | multiname name => exact (h.constants.multiname (toOption_eq_some.1 hi)).1
  | method handle =>
    exact (Numbering.lt_size_of_id (toOption_eq_some.1 hi)).trans h.methods_small
  | classRef handle =>
    exact (Numbering.lt_size_of_id (toOption_eq_some.1 hi)).trans h.classes_small
  | u8 _ | s8 _ | u30 _ | target _ => cases hi

end

namespace Reader

/-- An entry that is written can be read when its index is below the limit. -/
theorem reads_entry_iff {α : Type} {table : Table} {find : Nat → Option α} {i : Nat} {a : α}
    (hi : i < 0x40000000) (ha : find i = some a) (start : Nat) :
    Reads (entry table find) start (Bytes.reference i) (i < countLimit) a := by
  have hw : Bytes.index i = .ok (Bytes.reference i) := index_eq_ok.2 ⟨hi, rfl⟩
  exact reads_offset.bind_free ((reads_index hw start).bind_last fun _ => reads_require ha _ _)

section
variable {tables : Tables} {a : Indexing} {r : Renaming} (h : tables.Shows a r)
include h

/-- An operand that stands for a constant. -/
theorem reads_constant {α : Type} {table : Table} {find : Nat → Option α} {entries : Array α}
    (operand : Operand) {wrap : α → Operand} {i : Nat} {x y : α} (hl : operand.Legible)
    (hi : operand.index? a = some i) (hx : entries[i]? = some x)
    (hs : entries.size ∈ a.toPool.sizes) (hy : find i = some y) (start : Nat) :
    Reads (entry table find >>= fun x => pure (wrap x)) start
      (Bytes.reference i) (operand.LegibleIn a) (wrap y) := by
  have hlt := (Array.getElem?_eq_some_iff.1 hx).1.trans (h.constants_small _ hs)
  exact ((reads_entry_iff hlt hy start).bind_pure wrap).of_eq rfl
    (operand.legibleIn_of_index hl hi) rfl

theorem reads_operand {operand : Operand} {distance : InstructionId → Except Fault Int}
    {bytes : Bytes} (hw : operand.bytes a distance = .ok bytes) (start : Nat) :
    Reads (Reader.operand tables operand.kind) start bytes (operand.LegibleIn a)
      (operand.onWire r distance) := by
  cases operand with
  | u8 value =>
    cases hw
    exact ((reads_u8 start value).bind_pure _).of_eq rfl
      (Operand.legibleIn_of_none (.u8 value) rfl) rfl
  | s8 value =>
    cases hw
    exact ((reads_s8 start value).bind_pure _).of_eq rfl
      (Operand.legibleIn_of_none (.s8 value) rfl) rfl
  | u30 value =>
    cases hw
    exact ((reads_u30 start value).bind_pure _).of_eq rfl
      (Operand.legibleIn_of_none (.u30 value) rfl) rfl
  | int value =>
    obtain ⟨i, hi, rfl⟩ := map_eq_ok.1 hw
    have hv := Indexing.getElem?_of_intIndex hi
    exact reads_constant h (.int value) trivial (congrArg Except.toOption hi) hv
      (by simp [Pool.sizes]) (by simpa [h.pool, Pool.rename] using hv) start
  | uint value =>
    obtain ⟨i, hi, rfl⟩ := map_eq_ok.1 hw
    have hv := Indexing.getElem?_of_uintIndex hi
    exact reads_constant h (.uint value) trivial (congrArg Except.toOption hi) hv
      (by simp [Pool.sizes]) (by simpa [h.pool, Pool.rename] using hv) start
  | double value =>
    obtain ⟨i, hi, rfl⟩ := map_eq_ok.1 hw
    have hv := Indexing.getElem?_of_doubleIndex hi
    exact reads_constant h (.double value) trivial (congrArg Except.toOption hi) hv
      (by simp [Pool.sizes]) (by simpa [h.pool, Pool.rename] using hv) start
  | string value =>
    obtain ⟨i, hi, rfl⟩ := map_eq_ok.1 hw
    have hv := (Indexing.getElem?_of_literalIndex hi).1
    exact reads_constant h (.string value) trivial (congrArg Except.toOption hi) hv
      (by simp [Pool.sizes]) (by simpa [h.pool, Pool.rename] using hv) start
  | nspace ns =>
    obtain ⟨i, hi, rfl⟩ := map_eq_ok.1 hw
    have hv := Indexing.getElem?_of_namespaceIndex hi
    exact reads_constant h (.nspace ns) trivial (congrArg Except.toOption hi) hv
      (by simp [Pool.sizes]) (by simp [h.pool, Pool.rename, hv]) start
  | multiname name =>
    obtain ⟨i, hi, rfl⟩ := map_eq_ok.1 hw
    have hv := Indexing.getElem?_of_multinameIndex hi
    exact reads_constant h (.multiname name) trivial (congrArg Except.toOption hi) hv
      (by simp [Pool.sizes]) (by simp [h.pool, Pool.rename, hv]) start
  | method handle =>
    obtain ⟨i, hi, rfl⟩ := map_eq_ok.1 hw
    have hlt := (Numbering.lt_size_of_id hi).trans h.methods_small
    have hfind := h.method (Numbering.id_eq_ok.1 hi)
    exact ((reads_entry_iff hlt hfind start).bind_pure _).of_eq rfl
      (Operand.legibleIn_of_index (.method handle) trivial (congrArg Except.toOption hi)) rfl
  | classRef handle =>
    obtain ⟨i, hi, rfl⟩ := map_eq_ok.1 hw
    have hlt := (Numbering.lt_size_of_id hi).trans h.classes_small
    have hfind := h.classRef (Numbering.id_eq_ok.1 hi)
    exact ((reads_entry_iff hlt hfind start).bind_pure _).of_eq rfl
      (Operand.legibleIn_of_index (.classRef handle) trivial (congrArg Except.toOption hi)) rfl
  | target place =>
    cases place with
    | offset d =>
      exact ((reads_s24 hw start).bind_pure _).of_eq rfl
        (Operand.legibleIn_of_none (.target (.offset d)) rfl) rfl
    | instruction id =>
      obtain ⟨d, hd, hw⟩ := bind_eq_ok.1 hw
      simp only [Operand.onWire, hd]
      exact ((reads_s24 hw start).bind_pure _).of_eq rfl
        (Operand.legibleIn_of_none (.target (.instruction id)) rfl) rfl

variable {bytes : Bytes} {distance : InstructionId → Except Fault Int}

theorem reads_caseTargets {cases : List JumpTarget} {written : List Bytes} {count : UInt32}
    (hw : List.Forall₂ (fun place bs =>
      (Operand.target place).bytes a distance = .ok bs) cases written)
    (hl : cases.length = count.toNat + 1) (source start : Nat) :
    Reads (caseTargets tables source count) start written.flatten True
      (cases.map fun place => (Operand.target place).onWire r distance) := by
  have hlength : written.flatten.length = 3 * cases.length :=
    length_flatten_of_forall₂ hw fun _ _ hbs => Operand.length_target hbs
  have hr : Reads (times cases.length (operand tables .offset)) start written.flatten
      (∀ place ∈ cases, (Operand.target place).LegibleIn a)
      (cases.map fun place => (Operand.target place).onWire r distance) :=
    Reads.times (hw.imp fun place bs hbs start => reads_operand h hbs start) start
  refine reads_of_ok fun rest => ?_
  have hcount : ¬ count.toNat > (written.flatten ++ rest).length / 3 := by
    rw [List.length_append, hlength]
    omega
  unfold caseTargets
  rw [run_get_bind]
  show (if count.toNat > (written.flatten ++ rest).length / 3 then _ else _ :
    Reader (List Operand)) _ = _
  rw [if_neg hcount, ← hl]
  exact hr.ok (fun place _ => Operand.legibleIn_target a place) rest

omit h in
/-- The opcode of an instruction is read before its operands. -/
theorem Reads.opcode {opcode : Opcode} {β : Type} {next : Nat → Opcode → Reader β} {start : Nat}
    {p : Prop} {b : β} (hn : Reads (next start opcode) (start + 1) bytes p b) :
    Reads (offset >>= fun start => u8 >>= fun byte => ofExcept (Opcode.ofWire byte start) >>=
      next start) start (opcode.byte :: bytes) p b := by
  have hb : Opcode.ofWire opcode.byte start = .ok opcode := by
    rw [Opcode.ofWire, Opcode.ofByte?_byte]
  rw [← List.singleton_append]
  refine reads_offset.bind_free ((reads_u8 start opcode.byte).bind_sure ?_)
  rw [hb]
  exact reads_pure.bind_free hn

/-- **An instruction is read back.** -/
theorem reads_instruction {emission : Emission}
    (hcheck : emission.opcode.check emission.operands = .ok ())
    (hw : emission.bytes a distance = .ok bytes) (start : Nat) :
    Reads (instruction tables) start bytes (∀ operand ∈ emission.operands, operand.LegibleIn a)
      (emission.opcode, emission.operands.map (·.onWire r distance)) := by
  obtain ⟨id, opcode, operands⟩ := emission
  obtain ⟨written, hws, hw⟩ := bind_eq_ok.1 hw
  rw [← pure_eq_ok.1 hw]
  have hws := mapM_eq_ok.1 hws
  refine Reads.opcode ?_
  by_cases hs : opcode = .lookupSwitch
  · subst hs
    obtain ⟨place, count, cases, rfl, hl⟩ := Opcode.lookupSwitch_of_check hcheck
    obtain ⟨bs₁, others, h₁, hws₁, rfl⟩ := List.forall₂_cons_left_iff.1 hws
    obtain ⟨bs₂, targets, h₂, hws₂, rfl⟩ := List.forall₂_cons_left_iff.1 hws₁
    have hfixed : Reads (Opcode.lookupSwitch.operandKinds.mapM (operand tables)) (start + 1)
        [bs₁, bs₂].flatten (∀ operand ∈ [Operand.target place, .u30 count], operand.LegibleIn a)
        ([Operand.target place, .u30 count].map (·.onWire r distance)) :=
      Reads.mapM (.cons (fun start => reads_operand h h₁ start)
        (.cons (fun start => reads_operand h h₂ start) .nil)) (start + 1)
    have hcases := reads_caseTargets h (List.forall₂_map_left_iff.1 hws₂) hl start
    refine Reads.of_eq (Reads.bind hfixed fun _ => (hcases _).bind_pure _) (by simp) ?_ ?_
    · simp [Operand.legibleIn_target]
    · simp
  · rw [← Opcode.kinds_of_check hcheck hs]
    refine Reads.bind_last (Reads.mapM (hws.imp fun operand bs hbs start =>
      reads_operand h hbs start) _) fun _ => ?_
    rw [if_neg hs]
    exact reads_pure

end

end Reader

end ActionBytecode
