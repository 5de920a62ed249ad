/-
  ActionBytecode — assembling code that was disassembled.

  Disassembled code has new identities and names each target by its instruction, but every
  instruction takes up the bytes that it took up before, so all jumps lead as far as they did.

  `assemble_disassembled`: the code and the handlers come out as they were, up to the renaming.
-/
import ActionBytecode.Proofs.Assembly
import ActionBytecode.Proofs.Rewriting

namespace ActionBytecode

/-! ## Operands -/

section
variable {r : Renaming} {layout : List Placement} {n : Nat} {p : Placement}

theorem Placement.kind_resolved (operand : Operand) :
    (p.resolved r layout n operand).kind = operand.kind := by
  cases operand with
  | target place => cases place <;> rfl
  | _ => rfl

theorem Placement.number?_resolved (operand : Operand) :
    (p.resolved r layout n operand).number? = operand.number? := by
  cases operand with
  | target place => cases place <;> rfl
  | _ => rfl

theorem Placement.uses_resolved (operand : Operand) :
    (p.resolved r layout n operand).uses = operand.uses.map (Use.rename r) := by
  cases operand with
  | target place => cases place <;> rfl
  | _ => rfl

/-- An opcode takes operands that are resolved. -/
theorem Placement.check_resolved {opcode : Opcode} {operands : List Operand}
    (h : opcode.check operands = .ok ()) :
    opcode.check (operands.map (p.resolved r layout n)) = .ok () := by
  refine Opcode.check_congr (List.forall₂_map_right_iff.2 (List.forall₂_same.2 ?_)) h
  exact fun operand _ => ⟨(kind_resolved operand).symm, (number?_resolved operand).symm⟩

end

section
variable {r : Renaming} {a b : Indexing} (h : a.Mirrors r b)
include h

/-- An operand that is not a target is written as before. -/
theorem Operand.bytes_rename {operand : Operand} (ht : operand.target? = none)
    {distance distance' : InstructionId → Except Fault Int} :
    Follows (operand.bytes a distance) ((operand.rename r).bytes b distance') := by
  cases operand with
  | u8 | s8 | u30 => exact .refl _
  | int value => exact (Follows.of_eq (h.intIndex value).symm).map _
  | uint value => exact (Follows.of_eq (h.uintIndex value).symm).map _
  | double value => exact (Follows.of_eq (h.doubleIndex value).symm).map _
  | string value => exact (Follows.of_eq (h.literalIndex value).symm).map _
  | nspace ns => exact (Indexing.follows_namespaceIndex h ns).map _
  | multiname name => exact (Indexing.follows_multinameIndex h name).map _
  | method handle => exact (Indexing.follows_methodIndex h handle).map _
  | classRef handle => exact (Indexing.follows_classIndex h handle).map _
  | target place => cases ht

end

/-! ## The layout -/

/-- The place of an instruction that was disassembled: its identity and its operands are new. -/
def Placement.relaid (r : Renaming) (all : List Placement) (first : Nat) (p : Placement) (k : Nat) :
    Placement where
  start := p.start
  stop := p.stop
  emission := ⟨some ⟨k⟩, p.emission.opcode, p.emission.operands.map (p.resolved r all first)⟩

def relaid (r : Renaming) (all : List Placement) (first n : Nat) (layout : List Placement) :
    List Placement :=
  (layout.zipIdx n).map fun (p, k) => p.relaid r all first k

section
variable {r : Renaming} {all layout : List Placement} {first n : Nat}

theorem relaid_cons (p : Placement) (layout : List Placement) :
    relaid r all first n (p :: layout) =
      p.relaid r all first n :: relaid r all first (n + 1) layout := rfl

theorem map_emission_relaid : (relaid r layout n n layout).map Placement.emission =
    (disassembled r n layout).map Emission.ofInstruction := by
  simp [relaid, disassembled, Emission.ofInstruction, Placement.relaid]

theorem startOf?_relaid (layout : List Placement) : ∀ (n k : Nat) {p : Placement},
    layout[k]? = some p → startOf? (relaid r all first n layout) ⟨n + k⟩ = some p.start := by
  induction layout with
  | nil =>
    intro n k p hk
    cases hk
  | cons q layout ih =>
    intro n k p hk
    rw [relaid_cons, startOf?, List.find?_cons]
    cases k with
    | zero =>
      cases hk
      simp [Placement.relaid]
    | succ k =>
      have hne : ((q.relaid r all first n).emission.id? == some ⟨n + (k + 1)⟩) = false := by
        simp [Placement.relaid]
      rw [hne, show n + (k + 1) = n + 1 + k by omega]
      exact ih (n + 1) k hk

/-- The distance to an instruction, from where its place in the layout is known. -/
theorem distanceTo_relaid {p q : Placement} {k : Nat} (hk : layout[k]? = some q)
    {p' : Placement} (hbase : p'.base = p.base) :
    distanceTo (relaid r all first n layout) p' ⟨n + k⟩ = .ok (q.start - p.base) := by
  rw [distanceTo, startOf?_relaid layout n k hk, hbase]

theorem exists_positionOf {id : InstructionId} {s : Nat} (h : startOf? layout id = some s) :
    ∃ q, layout[positionOf layout id]? = some q ∧ q.start = s := by
  obtain ⟨q, hq, hs⟩ := Option.map_eq_some_iff.1 h
  rw [List.find?_eq_getElem?_findIdx] at hq
  exact ⟨q, hq, hs⟩

theorem exists_positionAt {place : Int} (h : ∃ q ∈ layout, (q.start : Int) = place) :
    ∃ q, layout[positionAt layout place]? = some q ∧ (q.start : Int) = place := by
  obtain ⟨hlt, hplace, -⟩ := List.findIdx?_eq_some_iff_getElem.1 (findIdx?_positionAt h)
  exact ⟨_, List.getElem?_eq_getElem hlt, by simpa using hplace⟩

end

section
variable {r : Renaming} {a b : Indexing} (h : a.Mirrors r b) {layout : List Placement}
  {n : Nat}
include h

/-- **An operand is written as before.**  Its distance is the same, since the instruction that it
    names starts where it started. -/
theorem bytes_resolved {p p' : Placement} (hbase : p'.base = p.base) {operand : Operand}
    (hl : p.Lands layout operand) :
    Follows (operand.bytes a (distanceTo layout p))
      ((p.resolved r layout n operand).bytes b (distanceTo (relaid r layout n n layout) p')) := by
  cases operand with
  | target place =>
    cases place with
    | offset distance =>
      intro bytes hw
      obtain ⟨q, hq, hplace⟩ := exists_positionAt hl
      refine bind_eq_ok.2 ⟨distance, ?_, hw⟩
      rw [distanceTo_relaid hq hbase, hplace]
      congr 1
      omega
    | instruction id =>
      refine Follows.bind (fun distance hd => ?_) fun _ => .refl _
      rw [distanceTo] at hd
      cases hs : startOf? layout id with
      | none =>
        rw [hs] at hd
        cases hd
      | some s =>
        obtain ⟨q, hq, rfl⟩ := exists_positionOf hs
        rw [hs] at hd
        rw [distanceTo_relaid hq hbase]
        exact hd
  | _ => exact Operand.bytes_rename h rfl

theorem length_resolved {all : List Placement} {first : Nat} {p : Placement} {operand : Operand}
    {distance : InstructionId → Except Fault Int} {bytes : Bytes}
    (hw : operand.bytes a distance = .ok bytes) :
    ∃ bytes', (p.resolved r all first operand).bytes b (fun _ => .ok 0) = .ok bytes' ∧
      bytes'.length = bytes.length := by
  cases operand with
  | target place =>
    obtain ⟨id, hid⟩ : ∃ id, p.resolved r all first (.target place) =
        .target (.instruction id) := by
      cases place <;> exact ⟨_, rfl⟩
    obtain ⟨zero, hzero⟩ : ∃ zero, Bytes.s24 0 = .ok zero := ⟨_, Reader.s24_eq_ok.2 ⟨by omega, rfl⟩⟩
    have hw' : (Operand.target (.instruction id)).bytes b (fun _ => .ok 0) = .ok zero :=
      bind_eq_ok.2 ⟨0, rfl, hzero⟩
    rw [hid]
    exact ⟨zero, hw', (Operand.length_target hw').trans (Operand.length_target hw).symm⟩
  | _ => exact ⟨bytes, Operand.bytes_rename h rfl bytes hw, rfl⟩

/-! ## Instructions -/

theorem length_relaid {all : List Placement} {first : Nat} {p : Placement} {bytes : Bytes}
    {distance : InstructionId → Except Fault Int}
    (hw : p.emission.bytes a distance = .ok bytes) (k : Nat) :
    ∃ bytes', (p.relaid r all first k).emission.bytes b (fun _ => .ok 0) = .ok bytes' ∧
      bytes'.length = bytes.length := by
  have key {operands : List Operand} {pieces : List Bytes}
      (hp : List.Forall₂ (fun operand bs => operand.bytes a distance = .ok bs) operands pieces) :
      ∃ pieces', List.Forall₂ (fun operand bs => operand.bytes b (fun _ => .ok 0) = .ok bs)
        (operands.map (p.resolved r all first)) pieces' ∧
        pieces'.flatten.length = pieces.flatten.length := by
    induction hp with
    | nil => exact ⟨[], .nil, rfl⟩
    | cons ho _ ih =>
      obtain ⟨bs, hbs, hlength⟩ := length_resolved h ho
      obtain ⟨rest, hrest, hlengths⟩ := ih
      refine ⟨bs :: rest, .cons hbs hrest, ?_⟩
      rw [List.flatten_cons, List.flatten_cons, List.length_append, List.length_append, hlength,
        hlengths]
  obtain ⟨pieces, hpieces, hbytes⟩ := bind_eq_ok.1 hw
  obtain ⟨pieces', hpieces', hlength⟩ := key (mapM_eq_ok.1 hpieces)
  rw [← pure_eq_ok.1 hbytes]
  exact ⟨_, bind_eq_ok.2 ⟨pieces', mapM_eq_ok.2 hpieces', rfl⟩, congrArg (· + 1) hlength⟩

/-- The instructions stand where they stood. -/
theorem layOut_relaid {all : List Placement} {first start stop : Nat} {layout : List Placement}
    (ht : Tiles start layout stop) : ∀ {n : Nat} {used : List InstructionId},
    (∀ p ∈ layout, p.Fits a) → (∀ id ∈ used, id.index < n) →
    layOut b start used ((relaid r all first n layout).map Placement.emission) =
      .ok (relaid r all first n layout) := by
  induction ht with
  | nil => exact fun _ _ => rfl
  | @cons start p layout stop hp hlt _ ih =>
    intro n used hf hused
    obtain ⟨⟨hcheck, bytes, hw, hstop⟩, hf⟩ := List.forall_mem_cons.1 hf
    obtain ⟨bytes', hw', hlength⟩ := length_relaid h hw n
    have hstart : start + bytes'.length = p.stop := by rw [hlength, ← hp, hstop]
    rw [relaid_cons, List.map_cons]
    refine layOut_cons.2 ⟨Placement.check_resolved hcheck,
      fun id hid hm => ?_, bytes', relaid r all first (n + 1) layout, hw', ?_, ?_⟩
    · cases hid
      exact absurd (hused _ hm) (Nat.lt_irrefl n)
    · rw [hstart]
      refine ih hf fun id hid => ?_
      rcases List.mem_cons.1 hid with rfl | hid
      · exact Nat.lt_succ_self n
      · exact Nat.lt_succ_of_lt (hused id hid)
    · rw [hstart, ← hp]
      rfl

/-- An instruction is written as before. -/
theorem bytes_relaid {layout : List Placement} {n : Nat} {p : Placement}
    (hl : ∀ operand ∈ p.emission.operands, p.Lands layout operand) (k : Nat) :
    Follows (p.emission.bytes a (distanceTo layout p))
      ((p.relaid r layout n k).emission.bytes b
        (distanceTo (relaid r layout n n layout) (p.relaid r layout n k))) :=
  (Follows.mapM_of_mem fun operand ho => bytes_resolved h rfl (hl operand ho)).bind_pure _

end

/-! ## Handlers -/

section
variable {r : Renaming} {layout : List Placement}

theorem follows_offsetOf (n length : Nat) (position : CodePosition) :
    Follows (offsetOf layout length position) (offsetOf (relaid r layout n n layout) length
      (position.renumber fun id => ⟨n + positionOf layout id⟩)) := by
  cases position with
  | instruction id =>
    intro place hw
    rw [offsetOf] at hw
    cases hs : startOf? layout id with
    | none =>
      rw [hs] at hw
      cases hw
    | some s =>
      obtain ⟨q, hq, rfl⟩ := exists_positionOf hs
      rw [hs] at hw
      rw [CodePosition.renumber, offsetOf, startOf?_relaid layout n _ hq]
      exact hw
  | finish | offset => exact .refl _

theorem handler_relaid {n length : Nat} {handler : Handler CodePosition} {placed : Handler UInt32}
    (hw : handler.mapM (offsetOf layout length) = .ok placed) :
    ((handler.rename r).map (·.renumber fun id => ⟨n + positionOf layout id⟩)).mapM
      (offsetOf (relaid r layout n n layout) length) = .ok (placed.rename r) := by
  obtain ⟨start, h₁, hw⟩ := bind_eq_ok.1 hw
  obtain ⟨stop, h₂, hw⟩ := bind_eq_ok.1 hw
  obtain ⟨entry, h₃, hw⟩ := bind_eq_ok.1 hw
  rw [← pure_eq_ok.1 hw]
  refine bind_eq_ok.2 ⟨start, follows_offsetOf n length _ start h₁, ?_⟩
  refine bind_eq_ok.2 ⟨stop, follows_offsetOf n length _ stop h₂, ?_⟩
  exact bind_eq_ok.2 ⟨entry, follows_offsetOf n length _ entry h₃, rfl⟩

end

theorem forall₂_zipIdx {α β : Type} {R : α → β → Prop} {xs : List α} {ys : List β}
    (h : List.Forall₂ R xs ys) (n : Nat) :
    List.Forall₂ (fun x y => R x.1 y) (xs.zipIdx n) ys := by
  rw [← List.zipIdx_map_fst n xs] at h
  exact List.forall₂_map_left_iff.1 h

/-- **Disassembled code is assembled to what it was.** -/
theorem assemble_disassembled {r : Renaming} {a b : Indexing} (h : a.Mirrors r b)
    {emissions : List Emission} {handlers : List (Handler CodePosition)} {code : Bytes}
    {places : List (Handler UInt32)} {layout : List Placement}
    (hw : assemble a emissions handlers = .ok (code, places))
    (hlayout : layOut a 0 [] emissions = .ok layout)
    (hl : ∀ p ∈ layout, ∀ operand ∈ p.emission.operands, p.Lands layout operand) (n : Nat) :
    assemble b ((disassembled r n layout).map Emission.ofInstruction)
      (handlers.map fun handler =>
        (handler.rename r).map (·.renumber fun id => ⟨n + positionOf layout id⟩)) =
      .ok (code, places.map (·.rename r)) := by
  obtain ⟨layout', pieces, hlayout', hpieces, hcode, hhandlers⟩ := assemble_eq_ok.1 hw
  cases hlayout.symm.trans hlayout'
  obtain ⟨stop, hout⟩ := laidOut_of_layOut hlayout
  refine assemble_eq_ok.2 ⟨relaid r layout n n layout, pieces, ?_, ?_, hcode, ?_⟩
  · rw [← map_emission_relaid]
    exact layOut_relaid h hout.tiles hout.fits (by simp)
  · have hzip : List.Forall₂ (fun x bs =>
        x.1.emission.bytes a (distanceTo layout x.1) = .ok bs) (layout.zipIdx n) pieces :=
      forall₂_zipIdx hpieces n
    rw [relaid, List.forall₂_map_left_iff]
    exact forall₂_of_mem hzip fun x hx bs hbs =>
      bytes_relaid h (hl x.1 (List.fst_mem_of_mem_zipIdx hx)) x.2 bs hbs
  · rw [List.forall₂_map_left_iff, List.forall₂_map_right_iff]
    exact hhandlers.imp fun _ _ hp => handler_relaid hp

end ActionBytecode
