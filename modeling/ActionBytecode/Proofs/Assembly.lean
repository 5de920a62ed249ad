/-
  ActionBytecode — assembled code disassembled.

  Instructions are laid out one after another (`LaidOut`), and what is written of them tiles the
  code.  So a scan finds the same instructions in the same places, and a distance leads back to
  the instruction that it was measured to.

  * `layOut_isOk`, `assemble_eq_ok`: what has to hold for code to be assembled;
  * `disassemble_assembled`: assembled code can be disassembled exactly when its packed numbers
    can be read and its raw distances lead to instructions (`LegibleLayout`), and each jump and
    each place of a handler then names the instruction at the same position;
  * `byPosition_ofEmissions`: what was disassembled is what was emitted, by position.
-/
import ActionBytecode.Proofs.Instructions

namespace ActionBytecode

/-! ## Layouts -/

/-- The instructions stand one after another from `start` up to `stop`. -/
inductive Tiles : (start : Nat) → List Placement → (stop : Nat) → Prop
  | nil (start : Nat) : Tiles start [] start
  | cons {start : Nat} {p : Placement} {layout : List Placement} {stop : Nat}
    (hp : p.start = start) (hlt : p.start < p.stop) (ht : Tiles p.stop layout stop) :
    Tiles start (p :: layout) stop

namespace Tiles

variable {start stop : Nat} {layout : List Placement}

theorem le (h : Tiles start layout stop) : start ≤ stop := by
  induction h with
  | nil => exact Nat.le_refl _
  | cons hp hlt _ ih => omega

theorem length_le (h : Tiles start layout stop) : start + layout.length ≤ stop := by
  induction h with
  | nil => exact Nat.le_refl _
  | cons hp hlt _ ih =>
    rw [List.length_cons]
    omega

theorem start_le_of_mem (h : Tiles start layout stop) {p : Placement} (hp : p ∈ layout) :
    start ≤ p.start ∧ p.start < p.stop ∧ p.stop ≤ stop := by
  induction h with
  | nil => cases hp
  | cons hp' hlt ht ih =>
    rcases List.mem_cons.1 hp with rfl | hp
    · exact ⟨by omega, hlt, ht.le⟩
    · obtain ⟨h₁, h₂, h₃⟩ := ih hp
      exact ⟨by omega, h₂, h₃⟩

theorem stop_lt {limit : Nat} (h : Tiles start layout stop) (hstart : start < limit)
    (hl : ∀ p ∈ layout, p.stop < limit) : stop < limit := by
  induction h with
  | nil => exact hstart
  | cons _ _ _ ih =>
    rw [List.forall_mem_cons] at hl
    exact ih hl.1 hl.2

/-- No two instructions start at the same place. -/
theorem pairwise_start (h : Tiles start layout stop) :
    layout.Pairwise fun p q => p.start < q.start := by
  induction h with
  | nil => exact .nil
  | cons _ hlt ht ih =>
    refine List.pairwise_cons.2 ⟨fun q hq => ?_, ih⟩
    have := (ht.start_le_of_mem hq).1
    omega

/-- The instruction at a position is the first that starts where it does. -/
theorem findIdx?_start (h : Tiles start layout stop) {k : Nat} {p : Placement}
    (hk : layout[k]? = some p) :
    layout.findIdx? (fun q => (q.start : Int) == p.start) = some k := by
  obtain ⟨hlt, hp⟩ := List.getElem?_eq_some_iff.1 hk
  rw [List.findIdx?_eq_some_iff_getElem]
  refine ⟨hlt, by simp [hp], fun j hj => ?_⟩
  have := List.pairwise_iff_getElem.1 h.pairwise_start j k (by omega) hlt hj
  rw [hp] at this
  simp
  omega

end Tiles

/-- The instruction can be written, with operands that it takes, into the bytes that it stands
    on. -/
def Placement.Fits (indexing : Indexing) (p : Placement) : Prop :=
  p.emission.opcode.check p.emission.operands = .ok () ∧
    ∃ bytes, p.emission.bytes indexing (fun _ => .ok 0) = .ok bytes ∧
      p.start + bytes.length = p.stop

/-- Instructions laid out from `start` up to `stop`, none of those in `used`. -/
structure LaidOut (indexing : Indexing) (start : Nat) (used : List InstructionId)
    (emissions : List Emission) (layout : List Placement) (stop : Nat) : Prop where
  map_emission : layout.map Placement.emission = emissions
  tiles : Tiles start layout stop
  fits : ∀ p ∈ layout, p.Fits indexing
  nodup : (emissions.filterMap Emission.id?).Nodup
  unused : ∀ id ∈ emissions.filterMap Emission.id?, id ∉ used

section
variable {indexing : Indexing}

theorem Emission.bytes_ne_nil {emission : Emission} {distance : InstructionId → Except Fault Int}
    {bytes : Bytes} (h : emission.bytes indexing distance = .ok bytes) : 0 < bytes.length := by
  obtain ⟨written, -, h⟩ := bind_eq_ok.1 h
  rw [← pure_eq_ok.1 h]
  exact Nat.succ_pos _

/-- The test that an identity is not used yet. -/
theorem guard_eq_ok {β : Type} {id? : Option InstructionId} {used : List InstructionId}
    {next : Unit → Except Fault β} {b : β} :
    (match id? with
      | some id =>
        if id ∈ used then throw (Fault.misuse (.repeatedInstruction id)) >>= next else next ()
      | _ => next ()) = .ok b ↔
    (∀ id, id? = some id → id ∉ used) ∧ next () = .ok b := by
  cases id? with
  | none => simp
  | some id =>
    by_cases hu : id ∈ used
    · simp only [hu, if_true]
      constructor
      · rintro ⟨⟩
      · rintro ⟨h, -⟩
        exact absurd hu (h id rfl)
    · simp [hu]

theorem layOut_cons {start : Nat} {used : List InstructionId} {emission : Emission}
    {emissions : List Emission} {layout : List Placement} :
    layOut indexing start used (emission :: emissions) = .ok layout ↔
      emission.opcode.check emission.operands = .ok () ∧
      (∀ id, emission.id? = some id → id ∉ used) ∧
      ∃ bytes rest, emission.bytes indexing (fun _ => .ok 0) = .ok bytes ∧
        layOut indexing (start + bytes.length) (emission.id?.toList ++ used) emissions =
          .ok rest ∧ ⟨start, start + bytes.length, emission⟩ :: rest = layout := by
  refine Iff.trans bind_eq_ok ⟨?_, ?_⟩
  · rintro ⟨⟨⟩, hcheck, h⟩
    obtain ⟨hu, h⟩ := guard_eq_ok.1 h
    obtain ⟨bytes, hb, h⟩ := bind_eq_ok.1 h
    obtain ⟨rest, hrest, h⟩ := bind_eq_ok.1 h
    exact ⟨hcheck, hu, bytes, rest, hb, hrest, pure_eq_ok.1 h⟩
  · rintro ⟨hcheck, hu, bytes, rest, hb, hrest, rfl⟩
    exact ⟨(), hcheck,
      guard_eq_ok.2 ⟨hu, bind_eq_ok.2 ⟨bytes, hb, bind_eq_ok.2 ⟨rest, hrest, rfl⟩⟩⟩⟩

/-- Identities that differ from each other and from those in use, head first. -/
theorem unused_cons {emission : Emission} {emissions : List Emission} {used : List InstructionId} :
    (((emission :: emissions).filterMap Emission.id?).Nodup ∧
      ∀ id ∈ (emission :: emissions).filterMap Emission.id?, id ∉ used) ↔
    (∀ id, emission.id? = some id → id ∉ used) ∧ (emissions.filterMap Emission.id?).Nodup ∧
      ∀ id ∈ emissions.filterMap Emission.id?, id ∉ emission.id?.toList ++ used := by
  cases hid : emission.id? with
  | none => simp [hid]
  | some first =>
    rw [List.filterMap_cons_some hid, List.nodup_cons, List.forall_mem_cons]
    simp only [Option.some.injEq, Option.toList_some, List.singleton_append, List.mem_cons, not_or]
    constructor
    · rintro ⟨⟨h₁, h₂⟩, h₃, h₄⟩
      exact ⟨fun id hid => hid ▸ h₃, h₂, fun id hm => ⟨fun he => h₁ (he ▸ hm), h₄ id hm⟩⟩
    · rintro ⟨h₁, h₂, h₃⟩
      exact ⟨⟨fun hm => (h₃ first hm).1 rfl, h₂⟩, h₁ first rfl, fun id hm => (h₃ id hm).2⟩

/-- **Instructions can be laid out if each of them can be written and their identities differ.** -/
theorem layOut_isOk {emissions : List Emission} : ∀ {start : Nat} {used : List InstructionId},
    (∃ layout, layOut indexing start used emissions = .ok layout) ↔
      (∀ emission ∈ emissions, emission.opcode.check emission.operands = .ok () ∧
        ∃ bytes, emission.bytes indexing (fun _ => .ok 0) = .ok bytes) ∧
      (emissions.filterMap Emission.id?).Nodup ∧
      ∀ id ∈ emissions.filterMap Emission.id?, id ∉ used := by
  induction emissions with
  | nil => simp [layOut]
  | cons emission emissions ih =>
    intro start used
    simp only [layOut_cons]
    rw [unused_cons, List.forall_mem_cons]
    constructor
    · rintro ⟨layout, hcheck, hu, bytes, rest, hb, hrest, -⟩
      obtain ⟨h₁, h₂⟩ := ih.1 ⟨rest, hrest⟩
      exact ⟨⟨⟨hcheck, bytes, hb⟩, h₁⟩, hu, h₂⟩
    · rintro ⟨⟨⟨hcheck, bytes, hb⟩, h₁⟩, hu, h₂⟩
      obtain ⟨rest, hrest⟩ := ih.2 ⟨h₁, h₂⟩
      exact ⟨_, hcheck, hu, bytes, rest, hb, hrest, rfl⟩

theorem laidOut_of_layOut {emissions : List Emission} :
    ∀ {start : Nat} {used : List InstructionId} {layout : List Placement},
    layOut indexing start used emissions = .ok layout →
      ∃ stop, LaidOut indexing start used emissions layout stop := by
  induction emissions with
  | nil =>
    intro start used layout h
    cases h
    exact ⟨start, rfl, .nil start, by simp, by simp, by simp⟩
  | cons emission emissions ih =>
    intro start used layout h
    obtain ⟨hcheck, hid, bytes, rest, hb, hrest, rfl⟩ := layOut_cons.1 h
    obtain ⟨stop, hout⟩ := ih hrest
    have hlt := Emission.bytes_ne_nil hb
    obtain ⟨hnodup, hunused⟩ := unused_cons.2 ⟨hid, hout.nodup, hout.unused⟩
    refine ⟨stop, ?_, .cons rfl (by simp; omega) hout.tiles, ?_, hnodup, hunused⟩
    · rw [List.map_cons, hout.map_emission]
    · exact List.forall_mem_cons.2 ⟨⟨hcheck, bytes, hb, rfl⟩, hout.fits⟩

/-- The parts of assembled code. -/
theorem assemble_eq_ok {emissions : List Emission} {handlers : List (Handler CodePosition)}
    {code : Bytes} {places : List (Handler UInt32)} :
    assemble indexing emissions handlers = .ok (code, places) ↔
      ∃ layout pieces, layOut indexing 0 [] emissions = .ok layout ∧
        List.Forall₂ (fun p bs => p.emission.bytes indexing (distanceTo layout p) = .ok bs)
          layout pieces ∧
        pieces.flatten = code ∧
        List.Forall₂ (fun handler placed =>
          handler.mapM (offsetOf layout code.length) = .ok placed) handlers places := by
  unfold assemble
  simp only [bind_eq_ok, pure_eq_ok, mapM_eq_ok, Prod.mk.injEq]
  constructor
  · rintro ⟨layout, hl, pieces, hp, _, hh, rfl, rfl⟩
    exact ⟨layout, pieces, hl, hp, rfl, hh⟩
  · rintro ⟨layout, pieces, hl, hp, rfl, hh⟩
    exact ⟨layout, hl, pieces, hp, _, hh, rfl, rfl⟩

/-- What is written of an instruction fills its place. -/
theorem Placement.Fits.length_eq {p : Placement} (h : p.Fits indexing)
    {distance : InstructionId → Except Fault Int} {bytes : Bytes}
    (hw : p.emission.bytes indexing distance = .ok bytes) : p.start + bytes.length = p.stop := by
  obtain ⟨-, bytes', hw', hstop⟩ := h
  rw [Emission.length_bytes hw hw', hstop]

/-- The code is as long as its layout. -/
theorem Tiles.length_flatten {start stop : Nat} {layout : List Placement} {pieces : List Bytes}
    (h : Tiles start layout stop)
    (hp : List.Forall₂ (fun p bs => p.start + bs.length = p.stop) layout pieces) :
    start + pieces.flatten.length = stop := by
  induction h generalizing pieces with
  | nil => cases hp; rfl
  | cons hstart _ _ ih =>
    obtain ⟨bs, rest, hbs, hrest, rfl⟩ := List.forall₂_cons_left_iff.1 hp
    rw [List.flatten_cons, List.length_append, ← ih hrest]
    omega

/-- What is written of a layout ends where the layout does. -/
theorem LaidOut.length_flatten {start stop : Nat} {used : List InstructionId}
    {emissions : List Emission} {layout all : List Placement} {pieces : List Bytes}
    (h : LaidOut indexing start used emissions layout stop)
    (hp : List.Forall₂ (fun p bs => p.emission.bytes indexing (distanceTo all p) = .ok bs)
      layout pieces) : start + pieces.flatten.length = stop :=
  h.tiles.length_flatten (forall₂_of_mem hp fun p hp _ hbs => (h.fits p hp).length_eq hbs)

/-- Each instruction takes up at least one byte. -/
theorem length_le_of_assemble {emissions : List Emission} {handlers : List (Handler CodePosition)}
    {code : Bytes} {places : List (Handler UInt32)}
    (h : assemble indexing emissions handlers = .ok (code, places)) :
    emissions.length ≤ code.length := by
  obtain ⟨layout, pieces, hl, hp, rfl, -⟩ := assemble_eq_ok.1 h
  obtain ⟨stop, hout⟩ := laidOut_of_layOut hl
  have hstop := hout.length_flatten hp
  have hle := hout.tiles.length_le
  rw [← hout.map_emission, List.length_map]
  omega

/-! ## Scanning -/

/-- The instructions of a layout as they are scanned, their identities counted from `n` on. -/
def scanned (r : Renaming) (all : List Placement) (n : Nat) (layout : List Placement) :
    List Placed :=
  (layout.zipIdx n).map fun (p, k) => ⟨p.start, p.stop, ⟨⟨k⟩, p.emission.opcode,
    p.emission.operands.map (·.onWire r (distanceTo all p))⟩⟩

variable {tables : Tables} {r : Renaming} {all : List Placement}

/-- **A scan finds the instructions where they were written.** -/
theorem scan_pieces (h : tables.Shows indexing r) {start stop : Nat}
    {layout : List Placement}
    (ht : Tiles start layout stop) (hf : ∀ p ∈ layout, p.Fits indexing) :
    ∀ {pieces : List Bytes}, List.Forall₂ (fun p bs =>
        p.emission.bytes indexing (distanceTo all p) = .ok bs) layout pieces →
    ∀ {limit : Nat} (n : Nat), layout.length ≤ limit →
      ((∀ p ∈ layout, ∀ operand ∈ p.emission.operands, operand.LegibleIn indexing) →
        scan tables limit ⟨start, pieces.flatten⟩ n =
          .ok (scanned r all n layout) (n + layout.length)) ∧
      ((¬ ∀ p ∈ layout, ∀ operand ∈ p.emission.operands, operand.LegibleIn indexing) →
        ∃ fault m, scan tables limit ⟨start, pieces.flatten⟩ n = .error fault m) := by
  induction ht with
  | nil start =>
    intro pieces hp limit n _
    cases hp
    refine ⟨fun _ => ?_, fun hn => absurd (by simp) hn⟩
    cases limit <;> rfl
  | @cons start p layout stop hstart hlt ht ih =>
    intro pieces hp limit n hlimit
    obtain ⟨bs, rest, hbs, hrest, rfl⟩ := List.forall₂_cons_left_iff.1 hp
    obtain ⟨hfp, hf⟩ := List.forall_mem_cons.1 hf
    have hr := Reader.reads_instruction h hfp.1 hbs start rest.flatten
    have hend : start + bs.length = p.stop := by rw [← hstart, hfp.length_eq hbs]
    have hbs := Emission.bytes_ne_nil hbs
    rw [List.length_cons] at hlimit
    obtain ⟨limit, rfl⟩ := Nat.exists_eq_succ_of_ne_zero (n := limit) (by omega)
    have hatEnd : (⟨start, (bs :: rest).flatten⟩ : Cursor).atEnd = false := by
      cases bs with
      | nil => cases hbs
      | cons => rfl
    have ih := ih hf hrest (n + 1) (by omega : layout.length ≤ limit)
    rw [List.forall_mem_cons, scan, hatEnd, List.flatten_cons]
    by_cases hp : ∀ operand ∈ p.emission.operands, operand.LegibleIn indexing
    · rw [hr.1 hp, hend]
      have hfresh : Identifying.fresh n = .ok ⟨n⟩ (n + 1) := rfl
      constructor
      · rintro ⟨-, hl⟩
        refine (run_bind_of_ok hfresh).trans ((run_bind_of_ok (ih.1 hl)).trans ?_)
        rw [run_pure_eq, List.length_cons, ← hstart, Nat.add_right_comm, Nat.add_assoc]
        rfl
      · intro hl
        obtain ⟨fault, m, hfault⟩ := ih.2 fun hl' => hl ⟨hp, hl'⟩
        exact ⟨fault, m, (run_bind_of_ok hfresh).trans (run_bind_of_error hfault)⟩
    · obtain ⟨fault, cursor, hfault⟩ := hr.2 hp
      rw [hfault]
      exact ⟨fun hl => absurd hl.1 hp, fun _ => ⟨fault, n, rfl⟩⟩

/-! ## Resolving -/

/-- The position of an instruction. -/
def positionOf (layout : List Placement) (id : InstructionId) : Nat :=
  layout.findIdx (·.emission.id? == some id)

/-- The position of the instruction that starts at a place. -/
def positionAt (layout : List Placement) (place : Int) : Nat :=
  layout.findIdx fun p => (p.start : Int) == place

/-- The operand of an instruction as it is resolved: a jump names the instruction at the position
    that it led to, counted from `n` on. -/
def Placement.resolved (r : Renaming) (layout : List Placement) (n : Nat) (p : Placement) :
    Operand → Operand
  | .target (.instruction id) => .target (.instruction ⟨n + positionOf layout id⟩)
  | .target (.offset distance) =>
    .target (.instruction ⟨n + positionAt layout (p.base + distance)⟩)
  | operand => operand.rename r

/-- A raw distance leads to where an instruction starts. -/
def Placement.Lands (layout : List Placement) (p : Placement) : Operand → Prop
  | .target (.offset distance) => ∃ q ∈ layout, (q.start : Int) = p.base + distance
  | _ => True

instance (layout : List Placement) (p : Placement) : DecidablePred (p.Lands layout)
  | .target (.offset distance) =>
    inferInstanceAs (Decidable (∃ q ∈ layout, (q.start : Int) = p.base + distance))
  | .target (.instruction _) | .u8 _ | .s8 _ | .u30 _ | .int _ | .uint _ | .double _ | .string _
  | .nspace _ | .multiname _ | .method _ | .classRef _ => .isTrue trivial

theorem startingAt?_scanned (place : Int) (layout : List Placement) : ∀ n,
    startingAt? (scanned r all n layout) place =
      (layout.findIdx? fun p => (p.start : Int) == place).map fun k => ⟨n + k⟩ := by
  induction layout with
  | nil => intro n; rfl
  | cons p layout ih =>
    intro n
    have ih := ih (n + 1)
    unfold startingAt? scanned at ih ⊢
    rw [List.zipIdx_cons, List.map_cons, List.find?_cons, List.findIdx?_cons]
    cases hp : ((p.start : Int) == place) with
    | true => simp
    | false =>
      simp only [Bool.false_eq_true, if_false]
      rw [ih, Option.map_map]
      congr 1
      funext k
      simp only [Function.comp_apply]
      congr 1
      omega

/-- The instruction found at a place where one starts. -/
theorem findIdx?_positionAt {layout : List Placement} {place : Int}
    (h : ∃ q ∈ layout, (q.start : Int) = place) :
    (layout.findIdx? fun p => (p.start : Int) == place) = some (positionAt layout place) := by
  obtain ⟨q, hq, hplace⟩ := h
  have hlt : positionAt layout place < layout.length :=
    List.findIdx_lt_length_of_exists ⟨q, hq, by simpa using hplace⟩
  rw [List.findIdx?_eq_some_iff_findIdx_eq]
  exact ⟨hlt, rfl⟩

/-- Where an instruction starts, that instruction is found. -/
theorem findIdx?_positionOf {start stop : Nat} {layout : List Placement}
    (ht : Tiles start layout stop) {id : InstructionId} {s : Nat}
    (h : startOf? layout id = some s) :
    (layout.findIdx? fun p => (p.start : Int) == s) = some (positionOf layout id) := by
  obtain ⟨p, hp, rfl⟩ := Option.map_eq_some_iff.1 h
  rw [List.find?_eq_getElem?_findIdx] at hp
  exact ht.findIdx?_start hp

section
variable {stop : Nat} {layout : List Placement} (ht : Tiles 0 layout stop) (n : Nat)
include ht

theorem resolveOperand_onWire {p : Placement} {placed : Placed} (hbase : placed.base = p.base)
    {operand : Operand} {bytes : Bytes}
    (hw : operand.bytes indexing (distanceTo layout p) = .ok bytes) :
    GivesIf
      (resolveOperand (scanned r all n layout) placed (operand.onWire r (distanceTo layout p)))
      (p.Lands layout operand) (p.resolved r layout n operand) := by
  have found (distance : Int) : startingAt? (scanned r all n layout) (placed.base + distance) =
      (layout.findIdx? fun q => (q.start : Int) == p.base + distance).map fun k => ⟨n + k⟩ := by
    rw [hbase, startingAt?_scanned]
  cases operand with
  | target place =>
    cases place with
    | offset distance =>
      have hwire : (Operand.target (.offset distance)).onWire r (distanceTo layout p) =
          .target (.offset distance) := rfl
      rw [hwire, resolveOperand_offset, found]
      constructor
      · intro hl
        rw [findIdx?_positionAt hl]
        rfl
      · intro hl
        have hnone : (layout.findIdx? fun q => (q.start : Int) == p.base + distance) = none := by
          rw [List.findIdx?_eq_none_iff]
          intro q hq
          simpa using fun he => hl ⟨q, hq, he⟩
        rw [hnone]
        exact ⟨_, rfl⟩
    | instruction id =>
      obtain ⟨distance, hd, -⟩ := bind_eq_ok.1 hw
      refine ⟨fun _ => ?_, fun hl => absurd trivial hl⟩
      have hwire : (Operand.target (.instruction id)).onWire r (distanceTo layout p) =
          .target (.offset distance) := by rw [Operand.onWire, hd]
      obtain ⟨s, hs, rfl⟩ : ∃ s : Nat, startOf? layout id = some s ∧
          (s - p.base : Int) = distance := by
        unfold distanceTo at hd
        split at hd
        · next s hs => exact ⟨s, hs, by simpa using hd⟩
        · cases hd
      have hs' : (p.base : Int) + (s - p.base) = s := by ring
      rw [hwire, resolveOperand_offset, found, hs', findIdx?_positionOf ht hs]
      rfl
  | _ => exact ⟨fun _ => rfl, fun hl => absurd trivial hl⟩

/-- The instructions of a layout as they are disassembled. -/
def disassembled (r : Renaming) (n : Nat) (layout : List Placement) : List Instruction :=
  (layout.zipIdx n).map fun (p, k) => ⟨⟨k⟩, p.emission.opcode,
    p.emission.operands.map (p.resolved r layout n)⟩

theorem resolveInstructions_scanned (hf : ∀ p ∈ layout, p.Fits indexing) {pieces : List Bytes}
    (hp : List.Forall₂ (fun p bs => p.emission.bytes indexing (distanceTo layout p) = .ok bs)
      layout pieces) :
    GivesIf ((scanned r layout n layout).mapM (resolveInstruction (scanned r layout n layout)))
      (∀ p ∈ layout, ∀ operand ∈ p.emission.operands, p.Lands layout operand)
      (disassembled r n layout) := by
  have hpieces : ∀ p ∈ layout, ∃ bs, p.emission.bytes indexing (distanceTo layout p) = .ok bs :=
    mapM_isOk.1 ⟨pieces, mapM_eq_ok.2 hp⟩
  refine GivesIf.of_eq (GivesIf.mapM fun x hx => ?_) (p := ∀ x ∈ layout.zipIdx n,
    ∀ operand ∈ x.1.emission.operands, x.1.Lands layout operand) ?_ rfl
  · have hmem := List.fst_mem_of_mem_zipIdx hx
    obtain ⟨bs, hbs⟩ := hpieces x.1 hmem
    obtain ⟨written, hws, -⟩ := bind_eq_ok.1 hbs
    have hoperands := mapM_isOk.1 ⟨written, hws⟩
    rw [resolveInstruction_of_check (Opcode.check_congr (List.forall₂_map_right_iff.2
      (List.forall₂_same.2 fun operand _ => operand.shape_onWire r _)) (hf x.1 hmem).1)]
    exact GivesIf.bind_pure (GivesIf.mapM fun operand ho =>
      (hoperands operand ho).elim fun _ hw => resolveOperand_onWire ht n rfl hw) _
  · nth_rewrite 3 [← List.zipIdx_map_fst n layout]
    rw [List.forall_mem_map]

theorem resolvePosition_offsetOf (hstop : stop < 0x100000000) {position : CodePosition}
    {place : UInt32} (hw : offsetOf layout stop position = .ok place) :
    resolvePosition (scanned r all n layout) stop (.offset place) =
      .ok (position.renumber fun id => ⟨n + positionOf layout id⟩) := by
  have hnat {k : Nat} (hk : k ≤ stop) : (UInt32.ofNat k).toNat = k :=
    UInt32.toNat_ofNat_of_lt' (by show k < 4294967296; omega)
  rw [resolvePosition_offset]
  cases position with
  | offset => cases hw
  | finish =>
    cases hw
    rw [hnat (Nat.le_refl _), if_pos rfl]
    rfl
  | instruction id =>
    rw [offsetOf] at hw
    cases hs : startOf? layout id with
    | none =>
      rw [hs] at hw
      cases hw
    | some s =>
      rw [hs] at hw
      cases hw
      obtain ⟨p, hp, rfl⟩ := Option.map_eq_some_iff.1 hs
      have hlt := (ht.start_le_of_mem (List.mem_of_find?_eq_some hp)).2
      rw [hnat (by omega), if_neg (by omega), startingAt?_scanned, findIdx?_positionOf ht hs]
      rfl

theorem resolveHandler_offsetOf (hstop : stop < 0x100000000) {handler : Handler CodePosition}
    {placed : Handler UInt32} (hw : handler.mapM (offsetOf layout stop) = .ok placed) :
    ((placed.rename r).map .offset).mapM (resolvePosition (scanned r all n layout) stop) =
      .ok ((handler.rename r).map (·.renumber fun id => ⟨n + positionOf layout id⟩)) := by
  obtain ⟨start, h₁, hw⟩ := bind_eq_ok.1 hw
  obtain ⟨stop', h₂, hw⟩ := bind_eq_ok.1 hw
  obtain ⟨entry, h₃, hw⟩ := bind_eq_ok.1 hw
  rw [← pure_eq_ok.1 hw]
  refine bind_eq_ok.2 ⟨_, resolvePosition_offsetOf ht n hstop h₁, ?_⟩
  refine bind_eq_ok.2 ⟨_, resolvePosition_offsetOf ht n hstop h₂, ?_⟩
  exact bind_eq_ok.2 ⟨_, resolvePosition_offsetOf ht n hstop h₃, rfl⟩

end

/-! ## Disassembling -/

/-- The packed numbers of the code can be read, and its raw distances lead to instructions. -/
def LegibleLayout (layout : List Placement) : Prop :=
  ∀ p ∈ layout, ∀ operand ∈ p.emission.operands, operand.Legible ∧ p.Lands layout operand

instance : DecidablePred LegibleLayout := fun layout =>
  inferInstanceAs (Decidable (∀ p ∈ layout, ∀ operand ∈ p.emission.operands,
    operand.Legible ∧ p.Lands layout operand))

theorem handlers_resolved {stop : Nat} {layout : List Placement} (ht : Tiles 0 layout stop)
    (n : Nat) (hstop : stop < 0x100000000) {handlers : List (Handler CodePosition)}
    {places : List (Handler UInt32)} (hw : List.Forall₂ (fun handler placed =>
      handler.mapM (offsetOf layout stop) = .ok placed) handlers places) :
    ((places.map (·.rename r)).map (·.map .offset)).mapM
        (·.mapM (resolvePosition (scanned r all n layout) stop)) =
      .ok (handlers.map fun handler =>
        (handler.rename r).map (·.renumber fun id => ⟨n + positionOf layout id⟩)) := by
  rw [mapM_eq_ok, List.map_map, List.forall₂_map_left_iff, List.forall₂_map_right_iff]
  exact (hw.imp fun handler placed hp => resolveHandler_offsetOf ht n hstop hp).flip

/-- Assembled code can be disassembled exactly when its operands are legible and its raw distances
    lead to instructions, and then each jump names the instruction at the position where it led. -/
theorem disassemble_readable (h : tables.Shows indexing r)
    {emissions : List Emission} {handlers : List (Handler CodePosition)} {code : Bytes}
    {places : List (Handler UInt32)}
    (hw : assemble indexing emissions handlers = .ok (code, places))
    (hlength : code.length < 0x100000000) :
    ∃ layout stop, LaidOut indexing 0 [] emissions layout stop ∧
      layOut indexing 0 [] emissions = .ok layout ∧ ∀ n,
      ((∀ p ∈ layout, ∀ operand ∈ p.emission.operands,
          operand.LegibleIn indexing ∧ p.Lands layout operand) →
        Code.disassemble tables (.ofWire code (places.map (·.rename r))) n =
        .ok (.symbolic (disassembled r n layout) (handlers.map fun handler =>
          (handler.rename r).map (·.renumber fun id => ⟨n + positionOf layout id⟩)))
          (n + layout.length)) ∧
      ((¬ ∀ p ∈ layout, ∀ operand ∈ p.emission.operands,
          operand.LegibleIn indexing ∧ p.Lands layout operand) → ∃ fault m,
        Code.disassemble tables (.ofWire code (places.map (·.rename r))) n = .error fault m) := by
  obtain ⟨layout, pieces, hlayout, hpieces, rfl, hhandlers⟩ := assemble_eq_ok.1 hw
  obtain ⟨stop, hout⟩ := laidOut_of_layOut hlayout
  refine ⟨layout, stop, hout, hlayout, fun n => ?_⟩
  have hstop : pieces.flatten.length = stop := by
    have := hout.length_flatten hpieces
    omega
  have hlimit : layout.length ≤ pieces.flatten.length := by
    have := hout.tiles.length_le
    omega
  rw [hstop] at hhandlers hlength
  have hscan := scan_pieces h hout.tiles hout.fits hpieces n hlimit
  have hplaces : ((places.map (·.rename r)).map (·.map .offset)).mapM
      (·.mapM (resolvePosition (scanned r layout n layout) stop)) = _ :=
    handlers_resolved hout.tiles n hlength hhandlers
  have hresolve := (resolveInstructions_scanned (r := r) hout.tiles n hout.fits hpieces).bind
    (f := fun instructions => ((places.map (·.rename r)).map (·.map .offset)).mapM
      (·.mapM (resolvePosition (scanned r layout n layout) stop)) >>= fun handlers =>
      pure (Code.symbolic instructions handlers)) fun _ => (givesIf_of_eq hplaces).bind_pure _
  rw [← hstop] at hresolve
  simp only [forall_and]
  by_cases hread : ∀ p ∈ layout, ∀ operand ∈ p.emission.operands, operand.LegibleIn indexing
  · have hstart := hscan.1 hread
    constructor
    · rintro ⟨-, hlands⟩
      refine (run_bind_of_ok hstart).trans ?_
      simp only [hresolve.1 ⟨hlands, trivial⟩]
      rfl
    · intro hn
      obtain ⟨fault, hfault⟩ := hresolve.2 fun hlands => hn ⟨hread, hlands.1⟩
      refine ⟨fault, n + layout.length, (run_bind_of_ok hstart).trans ?_⟩
      simp only [hfault]
      rfl
  · obtain ⟨fault, m, hfault⟩ := hscan.2 hread
    exact ⟨fun hl => absurd hl.1 hread, fun _ => ⟨fault, m, run_bind_of_error hfault⟩⟩

/-- **Assembled code can be disassembled exactly when its layout is legible, and then each jump
    names the instruction at the position where it led.** -/
theorem disassemble_assembled (h : tables.Holds indexing r) {emissions : List Emission}
    {handlers : List (Handler CodePosition)} {code : Bytes} {places : List (Handler UInt32)}
    (hw : assemble indexing emissions handlers = .ok (code, places))
    (hlength : code.length < 0x100000000) :
    ∃ layout stop, LaidOut indexing 0 [] emissions layout stop ∧
      layOut indexing 0 [] emissions = .ok layout ∧ ∀ n,
      (LegibleLayout layout → Code.disassemble tables (.ofWire code (places.map (·.rename r))) n =
        .ok (.symbolic (disassembled r n layout) (handlers.map fun handler =>
          (handler.rename r).map (·.renumber fun id => ⟨n + positionOf layout id⟩)))
          (n + layout.length)) ∧
      (¬ LegibleLayout layout → ∃ fault m,
        Code.disassemble tables (.ofWire code (places.map (·.rename r))) n = .error fault m) := by
  simpa only [LegibleLayout, Operand.legibleIn_of_holds h] using
    disassemble_readable h.shows hw hlength

/-! ## Positions -/

theorem ids_disassembled (n : Nat) (layout : List Placement) :
    (disassembled r n layout).map Instruction.id =
      (List.range' n layout.length).map InstructionId.mk := by
  rw [disassembled, List.map_map, ← List.zipIdx_map_snd n layout, List.map_map]
  rfl

/-- Identities handed out in order are found at their positions. -/
theorem idxOf_range' (n length : Nat) {k : Nat} (hk : k ≤ length) :
    ((List.range' n length).map InstructionId.mk).idxOf ⟨n + k⟩ = k := by
  induction length generalizing n k with
  | zero =>
    obtain rfl : k = 0 := by omega
    rfl
  | succ length ih =>
    rw [List.range'_succ, List.map_cons]
    cases k with
    | zero => rw [Nat.add_zero, List.idxOf_cons_self]
    | succ k =>
      have hne : (⟨n⟩ : InstructionId) ≠ ⟨n + (k + 1)⟩ := fun he => by
        have := congrArg InstructionId.index he
        simp only at this
        omega
      rw [List.idxOf_cons_ne _ hne, show n + (k + 1) = n + 1 + k by omega, ih (n + 1) (by omega)]

/-- Whether an operand is no raw distance. -/
def Operand.isResolved : Operand → Bool
  | .target (.offset _) => false
  | _ => true

/-- No operand is a raw distance. -/
def Instruction.Resolved (instruction : Instruction) : Prop :=
  ∀ distance, Operand.target (.offset distance) ∉ instruction.operands

theorem Instruction.resolved_iff {instruction : Instruction} :
    instruction.Resolved ↔ ∀ operand ∈ instruction.operands, operand.isResolved = true := by
  constructor
  · intro h operand hm
    cases operand with
    | target place =>
      cases place with
      | offset distance => exact absurd hm (h distance)
      | instruction id => rfl
    | _ => rfl
  · intro h distance hm
    exact absurd (h _ hm) Bool.false_ne_true

instance (instruction : Instruction) : Decidable instruction.Resolved :=
  decidable_of_iff _ Instruction.resolved_iff.symm

/-- The position of an instruction among emissions. -/
def Emission.position (emissions : List Emission) (id : InstructionId) : Nat :=
  emissions.findIdx (·.id? == some id)

/-- Emissions as code in which the place of each of them is its identity. -/
def Code.ofEmissions (r : Renaming) (emissions : List Emission)
    (handlers : List (Handler CodePosition)) : Code :=
  let place (id : InstructionId) : InstructionId := ⟨Emission.position emissions id⟩
  .symbolic
    (emissions.zipIdx.map fun (emission, k) =>
      ⟨⟨k⟩, emission.opcode, emission.operands.map fun operand =>
        (operand.rename r).renumber place⟩)
    (handlers.map fun handler => (handler.rename r).map (·.renumber place))

/-- **Code that is assembled and disassembled is what was emitted, by position.** -/
theorem byPosition_ofEmissions {start stop n : Nat} {used : List InstructionId}
    {emissions : List Emission} {layout : List Placement}
    (hout : LaidOut indexing start used emissions layout stop)
    (hresolved : ∀ emission ∈ emissions, ∀ operand ∈ emission.operands, operand.isResolved = true)
    (handlers : List (Handler CodePosition)) :
    (Code.symbolic (disassembled r n layout) (handlers.map fun handler =>
      (handler.rename r).map (·.renumber fun id => ⟨n + positionOf layout id⟩))).byPosition =
      .ofEmissions r emissions handlers := by
  have hplace (id : InstructionId) : Emission.position emissions id = positionOf layout id := by
    rw [Emission.position, ← hout.map_emission, List.findIdx_map]
    rfl
  have hindex (k : Nat) (hk : k ≤ layout.length) :
      ((disassembled r n layout).map Instruction.id).idxOf ⟨n + k⟩ = k := by
    rw [ids_disassembled, idxOf_range' n layout.length hk]
  have hposition (id : InstructionId) : ((disassembled r n layout).map Instruction.id).idxOf
      ⟨n + positionOf layout id⟩ = positionOf layout id :=
    hindex _ List.findIdx_le_length
  simp only [Code.ofEmissions, Code.byPosition, hplace]
  generalize (disassembled r n layout).map Instruction.id = ids at hindex hposition ⊢
  congr 1
  · apply List.ext_getElem?
    intro k
    rw [List.getElem?_map, List.getElem?_map, disassembled, List.getElem?_map,
      List.getElem?_zipIdx, List.getElem?_zipIdx, ← hout.map_emission, List.getElem?_map]
    cases hl : layout[k]? with
    | none => rfl
    | some p =>
      have hmem : p.emission ∈ emissions :=
        hout.map_emission ▸ List.mem_map_of_mem (List.mem_of_getElem? hl)
      have hk : k ≤ layout.length := (List.getElem?_eq_some_iff.1 hl).1.le
      simp only [Option.map_some, Instruction.renumber, List.map_map, Nat.zero_add,
        Option.some.injEq, Instruction.mk.injEq, true_and]
      refine ⟨by rw [hindex k hk], List.map_congr_left fun operand ho => ?_⟩
      cases operand with
      | target place =>
        cases place with
        | offset distance => cases hresolved _ hmem _ ho
        | instruction id =>
          simp only [Function.comp_apply, Placement.resolved, Operand.rename, Operand.renumber,
            JumpTarget.renumber, hposition]
      | _ => rfl
  · rw [List.map_map]
    refine List.map_congr_left fun handler _ => ?_
    have hcode (position : CodePosition) : (position.renumber fun id =>
        ⟨n + positionOf layout id⟩).renumber (fun id => ⟨ids.idxOf id⟩) =
        position.renumber fun id => ⟨positionOf layout id⟩ := by
      cases position with
      | instruction id => simp only [CodePosition.renumber, hposition]
      | _ => rfl
    simp only [Function.comp_apply, Handler.map, hcode]

/-- Instructions that are emitted as they are. -/
theorem Code.ofEmissions_map {instructions : List Instruction}
    (hn : (instructions.map Instruction.id).Nodup) (handlers : List (Handler CodePosition)) :
    .ofEmissions r (instructions.map Emission.ofInstruction) handlers =
      ((Code.symbolic instructions handlers).rename r).byPosition := by
  have hplace (id : InstructionId) :
      Emission.position (instructions.map Emission.ofInstruction) id =
        ((instructions.map (·.rename r)).map Instruction.id).idxOf id := by
    rw [Emission.position, List.findIdx_map, List.map_map, List.idxOf, List.findIdx_map]
    congr 1
  simp only [Code.ofEmissions, Code.rename, Code.byPosition, hplace, List.map_map]
  congr 1
  apply List.ext_getElem?
  intro k
  rw [List.getElem?_map, List.getElem?_map, List.getElem?_zipIdx, List.getElem?_map]
  cases hi : instructions[k]? with
  | none => rfl
  | some instruction =>
    obtain ⟨hlt, rfl⟩ := List.getElem?_eq_some_iff.1 hi
    have hid := hn.idxOf_getElem k (by simpa using hlt)
    rw [List.getElem_map] at hid
    simp only [Option.map_some, Function.comp_apply, Instruction.renumber, Instruction.rename,
      Emission.ofInstruction, List.map_map, Nat.zero_add, Option.some.injEq, Instruction.mk.injEq,
      true_and]
    exact ⟨congrArg InstructionId.mk hid.symm, rfl⟩

end

end ActionBytecode
