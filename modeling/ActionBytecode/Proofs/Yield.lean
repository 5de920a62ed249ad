/-
  ActionBytecode — what is read from any bytes.

  `Yields limit read post` says what is known when `read` succeeds on at most `limit` bytes,
  whatever they are: it takes some number of them, and the number and the result satisfy `post`.
  The condition is passed on from step to step (`Yields.bind`), so the number of bytes that a list
  takes is at least that of its members together (`Yields.sum_times`), and bounds its length
  (`Yields.times`, `Yields.list`).
-/
import ActionBytecode.Layout.Tables
import ActionBytecode.Proofs.Wire

namespace ActionBytecode

namespace Reader

section
variable {α β : Type} {limit : Nat}

/-- What is known when `read` succeeds on at most `limit` bytes: the number of bytes that it takes
    and what it gives satisfy `post`. -/
def Yields (limit : Nat) (read : Reader α) (post : Nat → α → Prop) : Prop :=
  ∀ cursor a later, cursor.remaining ≤ limit → read cursor = .ok a later →
    ∃ taken, later.remaining + taken = cursor.remaining ∧ post taken a

variable {read read' : Reader α} {p p' : Nat → α → Prop} {q : Nat → β → Prop}

theorem Yields.mono (h : Yields limit read p) (hp : ∀ n a, n ≤ limit → p n a → p' n a) :
    Yields limit read p' := by
  intro cursor a later hc hr
  obtain ⟨n, hn, ha⟩ := h cursor a later hc hr
  exact ⟨n, hn, hp n a (by omega) ha⟩

theorem yields_pure {a : α} (h : p 0 a) : Yields limit (pure a) p := by
  intro cursor b later _ hr
  cases hr
  exact ⟨0, rfl, h⟩

theorem yields_malformed {offset : Nat} {cause : Malformation} :
    Yields limit (malformed offset cause : Reader α) p :=
  fun _ _ _ _ hr => by cases hr

theorem yields_require {value : Option α} {offset : Nat} {cause : Malformation}
    (h : ∀ a, value = some a → p 0 a) : Yields limit (require value offset cause) p := by
  cases value with
  | none => exact yields_malformed
  | some a => exact yields_pure (h a rfl)

theorem yields_offset_bind {next : Nat → Reader α} (h : ∀ start, Yields limit (next start) p) :
    Yields limit (offset >>= next) p :=
  fun cursor a later hc hr => h cursor.offset cursor a later hc hr

theorem yields_get_bind {next : Cursor → Reader α} (h : ∀ cursor, Yields limit (next cursor) p) :
    Yields limit (get >>= next) p :=
  fun cursor a later hc hr => h cursor cursor a later hc hr

theorem yields_require_bind {value : Option β} {offset : Nat} {cause : Malformation}
    {next : β → Reader α} (h : ∀ b, value = some b → Yields limit (next b) p) :
    Yields limit (require value offset cause >>= next) p := by
  cases value with
  | none => exact fun _ _ _ _ hr => by cases hr
  | some b => exact h b rfl

theorem yields_ofExcept {x : Except Fault α} (h : ∀ a, x = .ok a → p 0 a) :
    Yields limit (ofExcept x) p := by
  cases x with
  | error fault => exact fun _ _ _ _ hr => by cases hr
  | ok a => exact yields_pure (h a rfl)

theorem Yields.bind {next : α → Reader β} (h : Yields limit read p)
    (h' : ∀ m a, p m a → Yields limit (next a) fun n b => q (m + n) b) :
    Yields limit (read >>= next) q := by
  intro cursor b later hc hr
  obtain ⟨a, middle, ha, hb⟩ := run_bind_eq_ok.1 hr
  obtain ⟨m, hm, hp⟩ := h cursor a middle hc ha
  obtain ⟨n, hn, hq⟩ := h' m a hp middle b later (by omega) hb
  exact ⟨m + n, by omega, hq⟩

/-- A step that is one of two. -/
theorem Yields.bind_ite {c : Prop} [Decidable c] {next : α → Reader β}
    (h : Yields limit (if c then read else read') p)
    (h' : ∀ m a, p m a → Yields limit (next a) fun n b => q (m + n) b) :
    Yields limit (if c then read >>= next else read' >>= next) q := by
  by_cases hc : c
  · rw [if_pos hc] at h ⊢
    exact h.bind h'
  · rw [if_neg hc] at h ⊢
    exact h.bind h'

theorem Yields.ite {c : Prop} [Decidable c] (h : c → Yields limit read p)
    (h' : ¬ c → Yields limit read' p) : Yields limit (if c then read else read') p := by
  by_cases hc : c
  · rw [if_pos hc]
    exact h hc
  · rw [if_neg hc]
    exact h' hc

/-- A test that has to fail for reading to go on. -/
theorem yields_refuse {c : Prop} [Decidable c] {next : Unit → Reader α} {offset : Nat}
    {cause : Malformation} (h : ¬ c → Yields limit (next ()) p) :
    Yields limit (if c then malformed offset cause >>= next else next ()) p := by
  by_cases hc : c
  · rw [if_pos hc]
    exact fun _ _ _ _ hr => by cases hr
  · rw [if_neg hc]
    exact h hc

/-! ## Repetition -/

theorem yields_timesOnto {w : α → Nat} {known : α → Prop}
    (h : Yields limit read fun n a => w a ≤ n ∧ known a) :
    ∀ k (done : List α), Yields limit (timesOnto read k done) fun n as =>
      ∃ more, as = done.reverse ++ more ∧ more.length = k ∧ (more.map w).sum ≤ n ∧
        ∀ a ∈ more, known a
  | 0, done => yields_pure ⟨[], by simp, rfl, Nat.le_refl 0, by simp⟩
  | k + 1, done => by
    refine h.bind ?_
    rintro m a ⟨hm, ha⟩
    refine (yields_timesOnto h k (a :: done)).mono ?_
    rintro n as - ⟨more, rfl, hk, hn, hmore⟩
    refine ⟨a :: more, by simp, by simp [hk], ?_, List.forall_mem_cons.2 ⟨ha, hmore⟩⟩
    rw [List.map_cons, List.sum_cons]
    omega

/-- **Values that are read one after another take the bytes that each of them takes.** -/
theorem Yields.sum_times {w : α → Nat} {known : α → Prop}
    (h : Yields limit read fun n a => w a ≤ n ∧ known a) (k : Nat) :
    Yields limit (times k read) fun n as =>
      as.length = k ∧ (as.map w).sum ≤ n ∧ ∀ a ∈ as, known a := by
  refine (yields_timesOnto h k []).mono ?_
  rintro n as - ⟨more, rfl, hk, hkn, hmore⟩
  exact ⟨hk, hkn, hmore⟩

/-- **As many values as are read take at least as many bytes.** -/
theorem Yields.times {known : α → Prop} (h : Yields limit read fun n a => 1 ≤ n ∧ known a)
    (k : Nat) : Yields limit (times k read) fun n as =>
      as.length = k ∧ k ≤ n ∧ ∀ a ∈ as, known a := by
  refine (Yields.sum_times (w := fun _ => 1) h k).mono ?_
  rintro n as - ⟨hk, hkn, has⟩
  simp only [List.map_const', List.sum_replicate_nat, hk, Nat.mul_one] at hkn
  exact ⟨hk, hkn, has⟩

/-- What is read of each member can hang on what is known of it already. -/
theorem Yields.mapM {γ : Type} {read : γ → Reader α} {R : γ → α → Prop} {xs : List γ}
    (h : ∀ x ∈ xs, Yields limit (read x) fun n a => 1 ≤ n ∧ R x a) :
    Yields limit (xs.mapM read) fun n as => as.length ≤ n ∧ List.Forall₂ R xs as := by
  induction xs with
  | nil => exact yields_pure ⟨Nat.le_refl 0, .nil⟩
  | cons x xs ih =>
    rw [List.forall_mem_cons] at h
    rw [List.mapM_cons]
    refine h.1.bind ?_
    rintro m a ⟨hm, ha⟩
    refine (ih h.2).bind ?_
    rintro n as ⟨hn, has⟩
    refine yields_pure ⟨?_, .cons ha has⟩
    rw [List.length_cons]
    omega

end

/-! ## Numbers and text -/

section
variable {limit : Nat}

theorem yields_u8 : Yields limit u8 fun n _ => n = 1 := by
  intro cursor a later _ hr
  obtain ⟨start, rest⟩ := cursor
  cases rest with
  | nil => cases hr
  | cons b rest =>
    cases hr
    exact ⟨1, rfl, rfl⟩

theorem yields_bytes (k : Nat) : Yields limit (bytes k) fun n taken =>
    n = k ∧ taken.length = k ∧ k ≤ limit := by
  intro cursor a later hc hr
  unfold bytes at hr
  dsimp only at hr
  split at hr
  · next hk =>
    cases hr
    have hle : k ≤ cursor.rest.length := by
      rw [List.length_take] at hk
      omega
    refine ⟨k, ?_, rfl, hk, hle.trans hc⟩
    show (cursor.rest.drop k).length + k = cursor.rest.length
    rw [List.length_drop]
    omega
  · cases hr

theorem yields_packedGroups : ∀ groups, Yields limit (packedGroups groups) fun n _ =>
    min groups 1 ≤ n
  | 0 => yields_pure (by simp)
  | groups + 1 => by
    refine yields_u8.bind fun m b hm => Yields.ite (fun _ => yields_pure ?_) fun _ =>
      (yields_packedGroups groups).bind fun n _ _ => yields_pure ?_
    all_goals omega

theorem yields_u32 : Yields limit u32 fun n _ => 1 ≤ n :=
  (yields_packedGroups 5).bind fun _ _ hn => yields_pure hn

theorem yields_s32 : Yields limit s32 fun n _ => 1 ≤ n :=
  yields_u32.bind fun _ _ hn => yields_pure hn

theorem yields_s8 : Yields limit s8 fun n _ => 1 ≤ n :=
  yields_u8.bind fun _ _ hn => yields_pure hn.ge

theorem yields_s24 : Yields limit s24 fun n _ => 1 ≤ n :=
  (yields_bytes 3).bind fun n _ hn => yields_pure (by omega)

theorem yields_d64 : Yields limit d64 fun n _ => 1 ≤ n :=
  (yields_bytes 8).bind fun n _ hn => yields_pure (by omega)

theorem yields_u30 : Yields limit u30 fun n value => 1 ≤ n ∧ IsU30 value :=
  yields_offset_bind fun _ => yields_u32.bind fun _ _ hn =>
    Yields.ite (fun h => yields_pure ⟨hn, h⟩) fun _ => yields_malformed

theorem yields_index : Yields limit index fun n _ => 1 ≤ n :=
  yields_u30.bind fun _ _ h => yields_pure h.1

/-- The octets of a text are those that it was read from. -/
theorem encode_of_decode {octets : Bytes} {s : String} (h : Utf8.decode octets = .ok s) :
    Utf8.encode s = octets := by
  unfold Utf8.decode String.fromUTF8? at h
  split at h
  · next s' hs =>
    cases h
    split at hs
    · cases hs
      simp [Utf8.encode, String.fromUTF8]
    · cases hs
  · cases h

theorem yields_text : Yields limit text fun n s => 1 + (Utf8.encode s).length ≤ n := by
  refine yields_offset_bind fun _ => yields_index.bind fun m length hm =>
    (yields_bytes length).bind ?_
  rintro n octets ⟨rfl, hlength, -⟩
  cases hd : Utf8.decode octets with
  | error fault => exact yields_malformed
  | ok s =>
    refine yields_pure ?_
    rw [encode_of_decode hd, hlength]
    omega

/-- **A counted list has no more members than bytes.** -/
theorem Yields.list {α : Type} {read : Reader α} {known : α → Prop}
    (h : Yields limit read fun n a => 1 ≤ n ∧ known a) :
    Yields limit (list read) fun n as => 1 ≤ n ∧ as.length ≤ limit ∧ ∀ a ∈ as, known a := by
  refine yields_index.bind fun m k hm => (h.times k).mono ?_
  rintro n as hn ⟨hk, hkn, has⟩
  exact ⟨by omega, by omega, has⟩

theorem yields_entry {α : Type} {table : Table} {find : Nat → Option α} :
    Yields limit (entry table find) fun n a => 1 ≤ n ∧ ∃ i, find i = some a :=
  yields_offset_bind fun _ => yields_index.bind fun _ i hn =>
    yields_require fun _ ha => ⟨hn, i, ha⟩

theorem yields_entryFrom {α : Type} {start : Nat} {table : Table} {find : Nat → Option α} :
    Yields limit (entryFrom start table find) fun n a => 1 ≤ n ∧ ∃ i, find i = some a :=
  yields_index.bind fun _ i hn => yields_require fun _ ha => ⟨hn, i, ha⟩

end

end Reader

end ActionBytecode
