/-
  ActionBytecode — the labels of a listing.

  An identity is a target (`IsTarget`) when a jump of the code leads to it or when it is a place of
  a handler.  No instruction need have that identity, and several can have the same one.

  * `Numbering.pairwise_ofList_filter`: values are numbered in the order in which they first occur;
  * `Listing.isLabelling_ofMethod`: so the targets among the instructions are numbered in the order
    of the code, from zero on and without gaps (`IsLabelling`);
  * `CodeUnit.assemblable_of_disassemble`: once a unit that was read is disassembled, its code leads
    to instructions that it has, or to its end.

  `Listing.labels_name_targets`: so all that the code leads to has a label, and is shown by it in
  the text of the listing (`ShowsMethod`, `ShowsTargets`).
-/
import ActionBytecode.CodeUnit.Listing
import ActionBytecode.Proofs.Persistence
import ActionBytecode.Proofs.Provenance

namespace ActionBytecode

/-! ## Numbers in the order of first occurrence -/

namespace Numbering

variable {α : Type}

/-- Some value has the number `n` just when it is less than their count. -/
theorem exists_id?_eq_some {numbering : Numbering α} {n : Nat} :
    (∃ a, numbering.id? a = some n) ↔ n < numbering.size := by
  simp only [id?_eq_some, size, List.getElem?_eq_some_iff]
  constructor
  · rintro ⟨a, h, -⟩
    exact h
  · exact fun h => ⟨_, h, rfl⟩

theorem exists_eq_id? {numbering : Numbering α} {a : α} :
    (∃ n, numbering.id? a = some n) ↔ a ∈ numbering := by
  simp only [id?_eq_some, mem_def, List.mem_iff_getElem?]

theorem lt_iff_of_pairwise {numbering : Numbering α} {f : α → Nat}
    (h : numbering.values.Pairwise fun a b => f a < f b) {a b : α} {m n : Nat}
    (ha : numbering.id? a = some m) (hb : numbering.id? b = some n) : m < n ↔ f a < f b := by
  obtain ⟨hm, rfl⟩ := List.getElem?_eq_some_iff.1 (id?_eq_some.1 ha)
  obtain ⟨hn, rfl⟩ := List.getElem?_eq_some_iff.1 (id?_eq_some.1 hb)
  rw [List.pairwise_iff_getElem] at h
  refine ⟨h m n hm hn, fun hlt => ?_⟩
  rcases Nat.lt_trichotomy m n with hmn | rfl | hnm
  · exact hmn
  · exact absurd hlt (Nat.lt_irrefl _)
  · exact absurd hlt (Nat.lt_asymm (h n m hn hm hnm))

variable [DecidableEq α]

/-- **What is kept of a list is numbered in the order in which it first occurs there.** -/
theorem pairwise_ofList_filter (p : α → Bool) (seeds : List α) :
    (ofList (seeds.filter p)).values.Pairwise fun a b => seeds.idxOf a < seeds.idxOf b := by
  induction seeds using List.reverseRecOn with
  | nil => exact List.Pairwise.nil
  | append_singleton seeds x ih =>
    have hmem {a : α} (ha : a ∈ (ofList (seeds.filter p)).values) : a ∈ seeds :=
      List.mem_of_mem_filter (mem_ofList.1 ha)
    -- what has a number keeps its first occurrence
    have hkept : (ofList (seeds.filter p)).values.Pairwise fun a b =>
        (seeds ++ [x]).idxOf a < (seeds ++ [x]).idxOf b := by
      refine ih.imp_of_mem fun ha hb h => ?_
      rwa [List.idxOf_append_of_mem (hmem ha), List.idxOf_append_of_mem (hmem hb)]
    rw [List.filter_append]
    cases hp : p x with
    | false => simpa [hp] using hkept
    | true =>
      rw [List.filter_cons_of_pos hp, List.filter_nil, ofList_append_singleton, values_register]
      split
      · exact hkept
      · next hx =>
        refine List.pairwise_append.2 ⟨hkept, List.pairwise_singleton _ _, fun a ha b hb => ?_⟩
        cases List.mem_singleton.1 hb
        have hnew : x ∉ seeds := fun h => hx (mem_ofList.2 (List.mem_filter.2 ⟨h, hp⟩))
        rw [List.idxOf_append_of_mem (hmem ha), List.idxOf_append_of_notMem hnew]
        have := List.idxOf_lt_length_of_mem (hmem ha)
        omega

end Numbering

/-! ## Targets and their labels -/

theorem Instruction.mem_targets {instruction : Instruction} {place : JumpTarget} :
    place ∈ instruction.targets ↔ Operand.target place ∈ instruction.operands := by
  rw [Instruction.targets, List.mem_filterMap]
  constructor
  · rintro ⟨operand, ho, hp⟩
    cases operand <;> cases hp
    exact ho
  · exact fun ho => ⟨_, ho, rfl⟩

theorem JumpTarget.id?_eq_some {place : JumpTarget} {id : InstructionId} :
    place.id? = some id ↔ place = .instruction id := by
  cases place <;> simp [JumpTarget.id?]

theorem CodePosition.id?_eq_some {place : CodePosition} {id : InstructionId} :
    place.id? = some id ↔ place = .instruction id := by
  cases place <;> simp [CodePosition.id?]

/-- The handlers of the method's code. -/
def Method.handlers (method : Method) : List (Handler CodePosition) :=
  (method.body.map (·.code.handlers)).getD []

namespace Listing

/-- A jump of the code leads to the identity, or it is a place of a handler. -/
inductive IsTarget (instructions : List Instruction) (handlers : List (Handler CodePosition))
    (id : InstructionId) : Prop
  | jump {instruction : Instruction} (hi : instruction ∈ instructions)
    (ho : Operand.target (.instruction id) ∈ instruction.operands)
  | start {handler : Handler CodePosition} (hh : handler ∈ handlers)
    (hp : handler.start = .instruction id)
  | stop {handler : Handler CodePosition} (hh : handler ∈ handlers)
    (hp : handler.stop = .instruction id)
  | entry {handler : Handler CodePosition} (hh : handler ∈ handlers)
    (hp : handler.entry = .instruction id)

/-- The targets among the identities are numbered from zero on, in the order in which they first
    occur. -/
structure IsLabelling (label? : InstructionId → Option Nat) (ids : List InstructionId)
    (target : InstructionId → Prop) : Prop where
  labelled : ∀ id, (∃ n, label? id = some n) ↔ id ∈ ids ∧ target id
  numbers : ∃ count, ∀ n, (∃ id, label? id = some n) ↔ n < count
  injective : ∀ a b n, label? a = some n → label? b = some n → a = b
  ascending : ∀ a b m n, label? a = some m → label? b = some n →
    (m < n ↔ ids.idxOf a < ids.idxOf b)

section
variable {instructions : List Instruction} {handlers : List (Handler CodePosition)}

theorem isTarget_of_mem_places {handler : Handler CodePosition} (hh : handler ∈ handlers)
    {id : InstructionId} (hp : .instruction id ∈ handler.places) :
    IsTarget instructions handlers id := by
  simp only [Handler.places, List.mem_cons, List.not_mem_nil, or_false] at hp
  rcases hp with hp | hp | hp
  · exact .start hh hp.symm
  · exact .stop hh hp.symm
  · exact .entry hh hp.symm

theorem mem_targeted {id : InstructionId} :
    id ∈ targeted instructions handlers ↔ IsTarget instructions handlers id := by
  simp only [targeted, List.mem_append, List.mem_filterMap, List.mem_flatMap,
    JumpTarget.id?_eq_some, CodePosition.id?_eq_some, Instruction.mem_targets, exists_eq_right]
  constructor
  · rintro (⟨instruction, hi, ho⟩ | ⟨handler, hh, hp⟩)
    · exact .jump hi ho
    · exact isTarget_of_mem_places hh hp
  · rintro (⟨hi, ho⟩ | ⟨hh, hp⟩ | ⟨hh, hp⟩ | ⟨hh, hp⟩)
    · exact .inl ⟨_, hi, ho⟩
    all_goals exact .inr ⟨_, hh, by simp [Handler.places, hp]⟩

end

/-- A method that is not raw has a listing, and its labels are the targets in the code. -/
theorem exists_ofMethod {method : Method} (h : method.isRaw = false) :
    ∃ listing, ofMethod method = .ok listing ∧ listing.labels = .ofList
      ((method.instructions.map Instruction.id).filter
        (· ∈ targeted method.instructions method.handlers)) := by
  obtain ⟨signature, _ | ⟨frame, ⟨_ | instructions, handlers⟩⟩⟩ := method
  · exact ⟨_, rfl, rfl⟩
  · cases h
  · exact ⟨_, rfl, rfl⟩

theorem isLabelling_ofList (ids targeted : List InstructionId) :
    IsLabelling (Numbering.ofList (ids.filter (· ∈ targeted))).id? ids (· ∈ targeted) where
  labelled id := by
    rw [Numbering.exists_eq_id?, Numbering.mem_ofList, List.mem_filter, decide_eq_true_iff]
  numbers := ⟨_, fun _ => Numbering.exists_id?_eq_some⟩
  injective a b n ha hb :=
    Option.some.inj ((Numbering.id?_eq_some.1 ha).symm.trans (Numbering.id?_eq_some.1 hb))
  ascending a b m n := Numbering.lt_iff_of_pairwise (Numbering.pairwise_ofList_filter _ ids)

/-- The text names the instruction with the identity: there is one in the listing, and the text is
    the label that stands before it. -/
def Names (labels : Numbering InstructionId) (instructions : List Instruction) (id : InstructionId)
    (text : String) : Prop :=
  ∃ n, labels.id? id = some n ∧ text = s!"L{n}" ∧ ∃ instruction ∈ instructions,
    instruction.id = id ∧ ∃ line, instructionText labels instruction = s!"L{n}:\n" ++ line

/-- All that the code of the method leads to is shown by its label, or as the end of the code. -/
structure ShowsTargets (listing : Listing) (method : Method) : Prop where
  jumps : ∀ instruction ∈ method.instructions, ∀ place,
    Operand.target place ∈ instruction.operands → ∃ id, place = .instruction id ∧
      Names listing.labels method.instructions id (operandText listing.labels (.target place))
  places : ∀ handler ∈ method.handlers, ∀ place ∈ handler.places,
    (place = .finish ∧ positionText listing.labels place = "end") ∨
    ∃ id, place = .instruction id ∧
      Names listing.labels method.instructions id (positionText listing.labels place)

/-- The text of the listing, piece by piece: the signature of the method, the frame of its body, the
    instructions, each after its label, and the handlers, by their places. -/
def ShowsMethod (listing : Listing) (method : Method) : Prop :=
  let place := positionText listing.labels
  listing.text = String.join (signatureText method.toSignature ::
    match method.body with
    | none => ["  ; no body\n"]
    | some body => frameText body.toFrame ::
        method.instructions.map (instructionText listing.labels) ++
        method.handlers.map fun handler =>
          "  try " ++ place handler.start ++ ".." ++ place handler.stop ++ " -> " ++
            place handler.entry ++ " catch " ++ handler.catchType.text ++ " as " ++
            handler.variableName.text ++ "\n")

/-- **The targets among the instructions of a method are labelled in the order of the code.** -/
theorem isLabelling_ofMethod {method : Method} (h : method.isRaw = false) :
    ∃ listing, ofMethod method = .ok listing ∧ IsLabelling listing.label?
      (method.instructions.map Instruction.id) (IsTarget method.instructions method.handlers) := by
  obtain ⟨listing, hl, hlabels⟩ := exists_ofMethod h
  have hlabelling := isLabelling_ofList (method.instructions.map Instruction.id)
    (targeted method.instructions method.handlers)
  rw [← hlabels] at hlabelling
  simp only [mem_targeted] at hlabelling
  exact ⟨listing, hl, hlabelling⟩

/-- **A listing shows the method that it is made of.** -/
theorem showsMethod_ofMethod {listing : Listing} {method : Method}
    (h : ofMethod method = .ok listing) : listing.ShowsMethod method := by
  obtain ⟨signature, _ | ⟨frame, ⟨_ | instructions, handlers⟩⟩⟩ := method
  · cases h
    simp [ShowsMethod, text]
  · cases h
  · cases h
    rw [ShowsMethod, text, String.join_cons, String.join_append, String.join_cons]
    rfl

/-- The label of an instruction stands before its line. -/
theorem exists_instructionText {labels : Numbering InstructionId} {instruction : Instruction}
    {n : Nat} (hn : labels.id? instruction.id = some n) :
    ∃ line, instructionText labels instruction = s!"L{n}:\n" ++ line := by
  have hassoc (a b c d e f : String) :
      a ++ b ++ c ++ d ++ e ++ f = a ++ (b ++ c ++ d ++ e ++ f) := by
    simp only [String.append_assoc]
  rw [instructionText, hn]
  exact ⟨_, hassoc ..⟩

theorem names_referenceText {labels : Numbering InstructionId} {instructions : List Instruction}
    {id : InstructionId} (hid : id ∈ instructions.map Instruction.id) {n : Nat}
    (hn : labels.id? id = some n) : Names labels instructions id (referenceText labels id) := by
  obtain ⟨instruction, hi, rfl⟩ := List.mem_map.1 hid
  refine ⟨n, hn, ?_, instruction, hi, rfl, exists_instructionText hn⟩
  rw [referenceText, hn]

end Listing

/-! ## Code that was read -/

/-- **Once a unit that was read is disassembled, its code leads nowhere but to itself.** -/
theorem CodeUnit.assemblable_of_disassemble {bytes : Bytes} {unit later : CodeUnit}
    (h : decode bytes = .ok unit) (hd : Edit.disassemble unit = .ok () later) :
    ∀ method ∈ later.methods, method.isRaw = false ∧
      Assemblable method.instructions method.handlers ∧
      ∀ instruction ∈ method.instructions, instruction.Resolved := by
  obtain ⟨methods, next, hm, rfl⟩ := Edit.disassemble_eq_ok.1 hd
  have hall : List.Forall₂ (fun method later => ∃ n m,
      Method.disassemble unit.tables method n = .ok later m) unit.methods.toList methods :=
    forall₂_of_run_mapM hm fun _ _ n _ m h => ⟨n, m, h⟩
  intro later hl
  obtain ⟨method, hmethod, n, m, hd⟩ := exists_mem_left hall (List.mem_toArray.1 hl)
  have hsymbolic := isSymbolic_of_decode h method (Array.mem_toList_iff.1 hmethod)
  have hraw := Method.isRaw_of_disassemble hd
  refine ⟨hraw, ?_⟩
  rcases Method.stays_of_disassemble hd with rfl | hconverted
  · -- only a method without a body is neither raw nor symbolic
    obtain ⟨signature, _ | ⟨frame, ⟨_ | _, _⟩⟩⟩ := later
    · exact ⟨⟨by simp [Method.instructions], List.nodup_nil, by simp [Method.instructions],
        by simp [Method.handlers]⟩, by simp [Method.instructions]⟩
    · cases hraw
    · cases hsymbolic
  · cases hconverted with
    | intro _ hcode hconvert =>
      rw [hcode] at hconvert
      obtain ⟨_, _, hfound, found, -⟩ := Code.disassemble_spec hconvert
      cases hfound
      exact ⟨found.assemblable, found.resolved⟩

namespace Listing

/-- Code that leads nowhere but to itself is shown with a label for each place. -/
theorem showsTargets_of_assemblable {listing : Listing} {method : Method}
    (hlabelling : IsLabelling listing.label? (method.instructions.map Instruction.id)
      (IsTarget method.instructions method.handlers))
    (hassemblable : Assemblable method.instructions method.handlers)
    (hresolved : ∀ instruction ∈ method.instructions, instruction.Resolved) :
    listing.ShowsTargets method := by
  have hnames {id : InstructionId} (hid : id ∈ method.instructions.map Instruction.id)
      (ht : IsTarget method.instructions method.handlers id) :
      Names listing.labels method.instructions id (referenceText listing.labels id) := by
    obtain ⟨n, hn⟩ := (hlabelling.labelled id).2 ⟨hid, ht⟩
    exact names_referenceText hid hn
  constructor
  · intro instruction hi place ho
    cases place with
    | offset distance => exact absurd ho (hresolved instruction hi distance)
    | instruction id =>
      have hwithin := hassemblable.targets instruction hi _ (Instruction.mem_targets.2 ho)
      exact ⟨id, rfl, hnames hwithin (.jump hi ho)⟩
  · intro handler hh place hp
    have hwithin := hassemblable.places handler hh place hp
    cases place with
    | offset bytes => exact absurd hwithin id
    | finish => exact .inl ⟨rfl, rfl⟩
    | instruction id => exact .inr ⟨id, rfl, hnames hwithin (isTarget_of_mem_places hh hp)⟩

/-- **The targets in the code of a method are labelled in its order**, also when identities are
    repeated or lead nowhere, and its text is made with these labels.  In a unit that was read and
    disassembled all of them are shown by the label of an instruction or as the end of the code. -/
theorem labels_name_targets :
    (∀ method : Method, method.isRaw = false → ∃ listing, ofMethod method = .ok listing ∧
      IsLabelling listing.label? (method.instructions.map Instruction.id)
        (IsTarget method.instructions method.handlers) ∧ listing.ShowsMethod method) ∧
    ∀ bytes unit, CodeUnit.decode bytes = .ok unit → ∃ later,
      Edit.disassemble unit = .ok () later ∧ ∀ method ∈ later.methods, ∃ listing,
        ofMethod method = .ok listing ∧ listing.ShowsTargets method ∧
          listing.ShowsMethod method := by
  refine ⟨fun method hraw => ?_, fun bytes unit h => ?_⟩
  · obtain ⟨listing, hl, hlabelling⟩ := isLabelling_ofMethod hraw
    exact ⟨listing, hl, hlabelling, showsMethod_ofMethod hl⟩
  · obtain ⟨later, hd⟩ : ∃ later, Edit.disassemble unit = .ok () later :=
      Edit.exists_disassemble fun _ _ => CodeUnit.exists_disassemble_of_decode h
    refine ⟨later, hd, fun method hm => ?_⟩
    obtain ⟨hraw, hassemblable, hresolved⟩ := CodeUnit.assemblable_of_disassemble h hd method hm
    obtain ⟨listing, hl, hlabelling⟩ := isLabelling_ofMethod hraw
    exact ⟨listing, hl, showsTargets_of_assemblable hlabelling hassemblable hresolved,
      showsMethod_ofMethod hl⟩

/-- Two instructions have the identity `7`, and a jump and a handler lead to identities that no
    instruction has. -/
def repeatingMethod : Method where
  body := some
    { code := .symbolic
        [⟨⟨4⟩, .nop, []⟩, ⟨⟨7⟩, .jump, [.target (.instruction ⟨5⟩)]⟩,
          ⟨⟨5⟩, .jump, [.target (.instruction ⟨9⟩)]⟩, ⟨⟨7⟩, .returnVoid, []⟩]
        [⟨.instruction ⟨7⟩, .finish, .instruction ⟨8⟩, .any, .any⟩] }

/-- A loop that is guarded up to the end of the code. -/
def guardedBytes : Bytes :=
  [16, 0, 46, 0] ++ [0, 0, 0, 0, 0, 0, 0] ++ [1, 0, 0, 0, 0] ++ [0, 0, 0] ++
    [1, 0, 1, 1, 0, 1, 6, 2, 0x10, 0xFB, 0xFF, 0xFF, 0x47, 1, 0, 6, 5, 0, 0, 0]

theorem labels_name_targets_guardedBytes :
    (∃ listing, ofMethod repeatingMethod = .ok listing ∧ listing.labels.values = [⟨7⟩, ⟨5⟩] ∧
      IsLabelling listing.label? [⟨4⟩, ⟨7⟩, ⟨5⟩, ⟨7⟩]
        (IsTarget repeatingMethod.instructions repeatingMethod.handlers) ∧
      listing.ShowsMethod repeatingMethod) ∧
    ∃ unit later, CodeUnit.decode guardedBytes = .ok unit ∧
      Edit.disassemble unit = .ok () later ∧
      later.methods.toList.map (·.handlers.map Handler.places) =
        [[[.instruction ⟨0⟩, .finish, .instruction ⟨2⟩]]] ∧
      ∀ method ∈ later.methods, ∃ listing,
        ofMethod method = .ok listing ∧ listing.ShowsTargets method ∧
          listing.ShowsMethod method := by
  constructor
  · obtain ⟨listing, hl, hlabelling⟩ := labels_name_targets.1 repeatingMethod rfl
    cases hl
    exact ⟨_, rfl, by decide, hlabelling⟩
  · have hok : (CodeUnit.decode guardedBytes).toOption.map (fun unit =>
        (Edit.disassemble.after unit).methods.toList.map (·.handlers.map Handler.places)) =
        some [[[.instruction ⟨0⟩, .finish, .instruction ⟨2⟩]]] := by decide +kernel
    obtain ⟨unit, hd, hplaces⟩ := Option.map_eq_some_iff.1 hok
    rw [toOption_eq_some] at hd
    obtain ⟨later, hlater, hshows⟩ := labels_name_targets.2 guardedBytes unit hd
    rw [Edit.after_of_ok hlater] at hplaces
    exact ⟨unit, later, hd, hlater, hplaces, hshows⟩

end Listing

end ActionBytecode
