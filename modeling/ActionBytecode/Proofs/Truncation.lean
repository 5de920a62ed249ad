/-
  ActionBytecode — units that are cut short or go on too long.

  A reader goes forward when it looks at no byte but those that it takes: with other bytes behind
  them it gives the same, and with some of them missing it runs into the end (`Reader.Forward`).
  All readers of a unit's sections go forward, since they are made of readers that do
  (`Composed.forward`).

  `CodeUnit.decode_prefix_free`: no unit is the start of another, and what is wrong with bytes that
  stop too early or too late is said as such.
-/
import ActionBytecode.Proofs.Composition
import ActionBytecode.Proofs.Reachability

namespace ActionBytecode

namespace Reader

section
variable {α β : Type}

/-- Where the reader succeeds, what it gives hangs on the bytes that it takes and no others. -/
def Forward (read : Reader α) : Prop :=
  ∀ start bytes a later, read ⟨start, bytes⟩ = .ok a later → ∃ taken rest,
    bytes = taken ++ rest ∧ later = ⟨start + taken.length, rest⟩ ∧
    (∀ more, read ⟨start, taken ++ more⟩ = .ok a ⟨start + taken.length, more⟩) ∧
    ∀ short, short <+: taken → short ≠ taken →
      ∃ offset cursor, read ⟨start, short⟩ = .error (.unexpectedEnd offset) cursor

variable {read : Reader α}

theorem forward_pure (a : α) : Forward (pure a) := by
  intro start bytes b later h
  cases h
  refine ⟨[], bytes, rfl, rfl, fun _ => rfl, fun short hp hne => ?_⟩
  exact absurd (List.prefix_nil.1 hp) hne

theorem forward_throw (fault : Fault) : Forward (throw fault : Reader α) :=
  fun _ _ _ _ h => by cases h

theorem forward_offset : Forward offset := by
  intro start bytes n later h
  exact forward_pure start start bytes n later h

theorem Forward.bind {next : α → Reader β} (h : Forward read) (h' : ∀ a, Forward (next a)) :
    Forward (read >>= next) := by
  intro start bytes b later hr
  obtain ⟨a, middle, ha, hb⟩ := run_bind_eq_ok.1 hr
  obtain ⟨first, rest, rfl, rfl, hmore, hshort⟩ := h _ _ _ _ ha
  obtain ⟨second, rest, rfl, rfl, hmore', hshort'⟩ := h' a _ _ _ _ hb
  have hlength : start + (first ++ second).length = start + first.length + second.length := by
    rw [List.length_append, Nat.add_assoc]
  refine ⟨first ++ second, rest, (List.append_assoc ..).symm, by rw [hlength], fun more => ?_,
    fun short hp hne => ?_⟩
  · rw [List.append_assoc, run_bind_of_ok (hmore _), hmore', hlength]
  -- the bytes end before the second reader starts, or else within what it takes
  by_cases hlt : short <+: first ∧ short ≠ first
  · obtain ⟨offset, cursor, he⟩ := hshort short hlt.1 hlt.2
    exact ⟨offset, cursor, run_bind_of_error he⟩
  · obtain ⟨tail, rfl⟩ : first <+: short := by
      rcases List.prefix_or_prefix_of_prefix hp (List.prefix_append first second) with hf | hf
      · rw [not_and_not_right] at hlt
        exact hlt hf ▸ List.prefix_refl short
      · exact hf
    obtain ⟨offset, cursor, he⟩ := hshort' tail ((List.prefix_append_right_inj first).1 hp)
      fun he => hne (he ▸ rfl)
    exact ⟨offset, cursor, (run_bind_of_ok (hmore tail)).trans he⟩

end

theorem forward_u8 : Forward u8 := by
  intro start bytes b later h
  cases bytes with
  | nil => cases h
  | cons b rest =>
    cases h
    refine ⟨[b], rest, rfl, rfl, fun _ => rfl, fun short hp hne => ?_⟩
    obtain rfl : short = [] := by
      rcases List.prefix_cons_iff.1 hp with rfl | ⟨tail, rfl, htail⟩
      · rfl
      · exact absurd (List.prefix_nil.1 htail ▸ rfl) hne
    exact ⟨_, _, rfl⟩

theorem bytes_of_length (n start : Nat) {taken : Bytes} (h : taken.length = n) (more : Bytes) :
    bytes n ⟨start, taken ++ more⟩ = .ok taken ⟨start + n, more⟩ := by
  subst h
  simp [bytes]

theorem bytes_of_short (n start : Nat) {rest : Bytes} (h : rest.length < n) :
    bytes n ⟨start, rest⟩ = .error (.unexpectedEnd start) ⟨start, rest⟩ := by
  simp [bytes, h]

theorem forward_bytes (n : Nat) : Forward (bytes n) := by
  intro start rest taken later h
  by_cases hlt : rest.length < n
  · rw [bytes_of_short n start hlt] at h
    cases h
  obtain ⟨first, more, rfl, hn⟩ : ∃ first more, rest = first ++ more ∧ first.length = n :=
    ⟨rest.take n, rest.drop n, (List.take_append_drop n rest).symm, by simp; omega⟩
  rw [bytes_of_length n start hn] at h
  cases h
  refine ⟨taken, more, rfl, by rw [hn], fun more => ?_, fun short hp hne => ?_⟩
  · rw [bytes_of_length n start hn, hn]
  · have hshort : short.length < n := hn ▸ lt_of_le_of_ne hp.length_le fun he =>
      hne (hp.eq_of_length he)
    exact ⟨_, _, bytes_of_short n start hshort⟩

/-- **What is made of readers that go forward goes forward.** -/
theorem Composed.forward {α : Type} {read : Reader α} (h : Composed read) : Forward read := by
  induction h with
  | pure a => exact forward_pure a
  | throw => exact forward_throw _
  | offset => exact forward_offset
  | u8 => exact forward_u8
  | bytes n => exact forward_bytes n
  | bind _ _ ih ih' => exact ih.bind ih'

theorem forward_sections : Forward sections := composed_sections.forward

end Reader

namespace CodeUnit

theorem decode_of_error {bytes : Bytes} {fault : Fault} {cursor : Cursor}
    (h : Reader.unit (.start bytes) = .error fault cursor) : decode bytes = .error fault := by
  rw [decode, h]
  rfl

/-- **No unit is the start of another.**  Bytes that stop before the unit does end unexpectedly, and
    of bytes that go on after it all that follow are reported. -/
theorem decode_prefix_free {bytes : Bytes} {unit : CodeUnit} (h : decode bytes = .ok unit) :
    (∀ short, short <+: bytes → short ≠ bytes →
      ∃ offset, decode short = .error (.unexpectedEnd offset)) ∧
    ∀ more, more ≠ [] →
      decode (bytes ++ more) = .error (.malformed bytes.length (.trailing more.length)) := by
  obtain ⟨parsed, cursor, -, hp, -⟩ := decode_eq_ok.1 h
  obtain ⟨parsed, middle, hsections, hp⟩ := run_bind_eq_ok.1 hp
  obtain ⟨taken, rest, rfl, rfl, hmore, hshort⟩ :=
    Reader.forward_sections _ _ _ _ hsections
  obtain rfl : rest = [] := by
    cases rest with
    | nil => rfl
    | cons => cases hp
  rw [List.append_nil] at h ⊢
  constructor
  · intro short hprefix hne
    obtain ⟨offset, cursor, he⟩ := hshort short hprefix hne
    exact ⟨offset, decode_of_error (run_bind_of_error he)⟩
  · intro more hne
    obtain ⟨b, more, rfl⟩ := List.exists_cons_of_ne_nil hne
    have he := run_bind_of_ok (f := fun unit => Reader.finish >>= fun _ => pure unit)
      (hmore (b :: more))
    rw [Nat.zero_add] at he
    exact decode_of_error he

/-- Version 46.16, no constants, and one method that returns at once. -/
def returningBytes : Bytes :=
  [16, 0, 46, 0] ++ [0, 0, 0, 0, 0, 0, 0] ++ [1, 0, 0, 0, 0] ++ [0, 0, 0] ++
    [1, 0, 0, 0, 0, 0, 1, 0x47, 0, 0]

theorem decode_returningBytes : (decode returningBytes).isOk = true ∧
    (∃ offset, decode (returningBytes.take 20) = .error (.unexpectedEnd offset)) ∧
    decode (returningBytes ++ [7]) = .error (.malformed 29 (.trailing 1)) := by
  have hok : (decode returningBytes).isOk = true := by decide +kernel
  obtain ⟨unit, hunit⟩ : ∃ unit, decode returningBytes = .ok unit := by
    cases hunit : decode returningBytes with
    | error fault => simp [hunit, Except.isOk, Except.toBool] at hok
    | ok unit => exact ⟨unit, rfl⟩
  obtain ⟨hshort, hmore⟩ := decode_prefix_free hunit
  exact ⟨hok, hshort _ (List.take_prefix 20 _) (by decide), hmore [7] (by decide)⟩

end CodeUnit

end ActionBytecode
