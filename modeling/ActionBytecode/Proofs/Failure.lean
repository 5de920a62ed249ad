/-
  ActionBytecode — writing a unit in vain.

  A unit is disassembled before it is written, and that can fail in the middle, when some methods
  are symbolic already.  Nothing else is changed before the bytes are complete.  So a unit that
  could not be written is the unit that disassembling it leaves (`encode_eq_error`), and since code
  is disassembled in the same way whichever identities were handed out before
  (`Code.disassemble_error`), trying again gives what the first unit gives
  (`Edit.outcome_encode_after_disassemble`).
-/
import ActionBytecode.Proofs.Recovery
import ActionBytecode.Proofs.Scanning

namespace ActionBytecode

/-! ## Disassembling again -/

/-- **Code that cannot be disassembled cannot be at any time, for the same reason.** -/
theorem Code.disassemble_error {tables : Tables} {code : Code} {fault : Fault} {n m : Nat}
    (h : code.disassemble tables n = .error fault m) (n' : Nat) :
    ∃ m', code.disassemble tables n' = .error fault m' := by
  cases code with
  | symbolic instructions handlers => cases h
  | raw bytes handlers =>
    have hn := @disassemble_from_zero tables bytes handlers n
    have hn' := @disassemble_from_zero tables bytes handlers n'
    cases hzero : disassemble tables (.raw bytes handlers) 0 with
    | ok first k =>
      rw [hzero] at hn
      cases h.symm.trans hn
    | error fault' k =>
      rw [hzero] at hn hn'
      cases h.symm.trans hn
      exact ⟨_, hn'⟩

theorem Method.disassemble_error {tables : Tables} {method : Method} {fault : Fault} {n m : Nat}
    (h : method.disassemble tables n = .error fault m) (n' : Nat) :
    ∃ m', method.disassemble tables n' = .error fault m' := by
  obtain ⟨signature, body⟩ := method
  cases body with
  | none => cases h
  | some body =>
    rcases run_bind_eq_error.1 h with hc | ⟨code, k, -, h⟩
    · obtain ⟨m', hc'⟩ := Code.disassemble_error hc n'
      exact ⟨m', run_bind_of_error hc'⟩
    · cases h

namespace Edit

/-- Where disassembling a unit stopped, it stops again. -/
theorem disassemble_of_error {unit left : CodeUnit} {fault : Fault}
    (h : disassemble unit = .error fault left) :
    ∃ again, disassemble left = .error fault again := by
  obtain ⟨before, failed, after, converted, m, next, -, hc, hf, rfl⟩ := disassemble_eq_error.1 h
  -- the methods before the one that fails are symbolic by now, so it is reached again
  have hagain := Method.mapM_disassemble_of_plain (Method.plain_of_mapM_disassemble hc)
    unit.tables next
  obtain ⟨next', hf'⟩ := Method.disassemble_error hf next
  exact ⟨_, disassemble_eq_error.2
    ⟨converted, failed, after, converted, next, next', rfl, hagain, hf', rfl⟩⟩

end Edit

/-! ## Writing again -/

/-- What is kept of a unit that has to be written anew has to be written anew. -/
theorem Kept.isTampered {unit later : CodeUnit} (h : Kept unit later) (ht : unit.isTampered) :
    later.isTampered := by
  by_contra hf
  obtain ⟨⟨bytes, hw⟩, hraw⟩ := CodeUnit.isTampered_eq_false.1 (eq_false_of_ne_true hf)
  rcases h.bytes with hnone | hu
  · cases hw.symm.trans hnone
  · have hclean : unit.isTampered = false := by
      refine CodeUnit.isTampered_eq_false.2 ⟨⟨bytes, hu.written ▸ hw⟩, fun method hm => ?_⟩
      obtain ⟨i, hi⟩ := Array.mem_iff_getElem?.1 hm
      rcases hu.methods i with he | ⟨symbolic, hs, hsymbolic⟩
      · exact hraw method (Array.mem_of_getElem? (he.trans hi))
      · cases (hraw symbolic (Array.mem_of_getElem? hs)).symm.trans hsymbolic
    rw [hclean] at ht
    cases ht

namespace Edit

/-- **A unit cannot be written when it cannot be disassembled, or cannot be built then.** -/
theorem encode_eq_error {options : EncodeOptions} {unit later : CodeUnit} {fault : Fault} :
    encode options unit = .error fault later ↔ unit.isTampered ∧
      (disassemble unit = .error fault later ∨
        disassemble unit = .ok () later ∧ later.rebuild options = .error fault) := by
  by_cases ht : unit.isTampered
  · rw [encode_of_tampered (CodeUnit.current?_eq_none.2 ht)]
    cases disassemble unit with
    | error fault plain => simp [ht]
    | ok _ plain =>
      dsimp only
      cases hr : plain.rebuild options with
      | ok rebuilt =>
        constructor
        · intro h
          cases h
        · rintro ⟨-, h | ⟨h, hf⟩⟩
          · cases h
          · cases h
            cases hr.symm.trans hf
      | error fault' =>
        constructor
        · intro h
          cases h
          exact ⟨ht, .inr ⟨rfl, hr⟩⟩
        · rintro ⟨-, h | ⟨h, hf⟩⟩
          · cases h
          · cases h
            cases hr.symm.trans hf
            rfl
  · obtain ⟨bytes, hc⟩ := Option.ne_none_iff_exists'.1 fun hc => ht (CodeUnit.current?_eq_none.1 hc)
    simp [encode_of_current hc, ht]

/-- **Writing a unit and writing what disassembling it leaves have one answer.** -/
theorem outcome_encode_after_disassemble (options : EncodeOptions) {unit : CodeUnit}
    (ht : unit.isTampered) :
    (encode options).outcome (disassemble.after unit) = (encode options).outcome unit := by
  have hlater := (keeps_disassemble unit).isTampered ht
  rw [outcome, outcome, encode_of_tampered (CodeUnit.current?_eq_none.2 hlater),
    encode_of_tampered (CodeUnit.current?_eq_none.2 ht)]
  cases hd : disassemble unit with
  | error fault left =>
    obtain ⟨again, ha⟩ := disassemble_of_error hd
    rw [after_of_error hd, ha]
  | ok _ plain =>
    rw [after_of_ok hd, disassemble_of_plain (plain_of_disassemble hd)]

/-- **A unit that cannot be written is left as disassembling it leaves it, and what is tried next
    has the answer that it has on the unit itself.** -/
theorem encode_in_vain {options : EncodeOptions} {unit later : CodeUnit} {fault : Fault}
    (h : encode options unit = .error fault later) :
    later = disassemble.after unit ∧
      ∀ options', (encode options').outcome later = (encode options').outcome unit := by
  obtain ⟨ht, hd⟩ := encode_eq_error.1 h
  have hlater : later = disassemble.after unit := by
    rcases hd with hd | ⟨hd, -⟩
    · exact (after_of_error hd).symm
    · exact (after_of_ok hd).symm
  refine ⟨hlater, fun options' => ?_⟩
  rw [hlater]
  exact outcome_encode_after_disassemble options' ht

end Edit

/-! Two methods were written, of which only the first can be read back. -/

/-- The unit of the two methods. -/
def staleUnit : CodeUnit :=
  [.createMethod { body := some { code := switchCode } },
    .createMethod { body := some { code := .symbolic [⟨⟨0⟩, .getLocal, [.u30 0x20000000]⟩] [] } },
    .encode {}, .editScripts id].foldl
      (fun unit (operation : Operation) => operation.run unit) .empty

/-- The first method is symbolic when the second one fails. -/
theorem encode_staleUnit : ∃ fault later, Edit.encode {} staleUnit = .error fault later ∧
    later.methods.map Method.isSymbolic = #[true, false] ∧ later = Edit.disassemble.after staleUnit ∧
    (Edit.encode ⟨true, none⟩).outcome later = (Edit.encode ⟨true, none⟩).outcome staleUnit := by
  have hfails : ((Edit.encode {}).outcome staleUnit).toOption.isSome = false := by decide +kernel
  cases he : Edit.encode {} staleUnit with
  | ok bytes later =>
    rw [Edit.outcome, he] at hfails
    cases hfails
  | error fault later =>
    obtain ⟨hlater, houtcome⟩ := Edit.encode_in_vain he
    refine ⟨fault, later, rfl, ?_, hlater, houtcome _⟩
    rw [hlater]
    decide +kernel

end ActionBytecode
