/-
  ActionBytecode — reading back what was written.

  `Reads read start bytes legible a` says what a reader makes of bytes that stand at `start`,
  whatever follows them: if `legible` holds it gives `a` and takes exactly these bytes, and if not
  it fails.  The condition composes along with the bytes (`Reads.bind`), so what is proved of a
  section of a unit says both what is read from it and exactly when it can be read.

  * `reads_u32`, `reads_u30`, `reads_index`, `reads_text`: the primitives against their writers.
    A number is written whatever its upper bits, but read only when they agree (`IsU30`), and a
    count is written below `2^30`, but read only below `countLimit`;
  * `Reads.times`, `Reads.list`: repetition, from what is read of a member.
-/
import ActionBytecode.Proofs.Outcome
import ActionBytecode.Wire.Packed
import Mathlib.Tactic

namespace ActionBytecode

/-- The counts and indices that can be read are those below `2^29`. -/
def countLimit : Nat := 0x20000000

/-- The numbers that can be read as one of 30 bits: their upper three bits agree. -/
def IsU30 (value : UInt32) : Prop := value >>> 29 = 0 ∨ value >>> 29 = 7

instance (value : UInt32) : Decidable (IsU30 value) :=
  inferInstanceAs (Decidable (_ ∨ _))

theorem isU30_ofNat {n : Nat} (h : n < 0x40000000) : IsU30 (UInt32.ofNat n) ↔ n < countLimit := by
  have hn : (UInt32.ofNat n).toNat = n := UInt32.toNat_ofNat_of_lt' (by
    show n < 4294967296; omega)
  have hs : (UInt32.ofNat n >>> 29).toNat = n / 0x20000000 := by
    rw [UInt32.toNat_shiftRight, hn]; simp [Nat.shiftRight_eq_div_pow]
  unfold IsU30 countLimit
  rw [← UInt32.toNat_inj, ← UInt32.toNat_inj, hs]
  simp only [UInt32.reduceToNat]
  omega

namespace Reader

section
variable {α β : Type}

/-- What `read` makes of `bytes` at `start`: it gives `a` and takes them, if they are legible. -/
def Reads (read : Reader α) (start : Nat) (bytes : Bytes) (legible : Prop) (a : α) : Prop :=
  ∀ rest, (legible → read ⟨start, bytes ++ rest⟩ = .ok a ⟨start + bytes.length, rest⟩) ∧
    (¬ legible → ∃ fault cursor, read ⟨start, bytes ++ rest⟩ = .error fault cursor)

variable {read : Reader α} {start : Nat} {bytes : Bytes} {p q : Prop} {a : α} {b : β}

theorem Reads.of_eq (h : Reads read start bytes p a) {bytes' : Bytes} {a' : α}
    (hb : bytes = bytes') (hp : p ↔ q) (ha : a = a') : Reads read start bytes' q a' := by
  subst hb ha
  intro rest
  obtain ⟨ok, fail⟩ := h rest
  exact ⟨fun hq => ok (hp.2 hq), fun hq => fail fun hp' => hq (hp.1 hp')⟩

/-- Legible bytes, whatever follows them. -/
theorem reads_of_ok (h : ∀ rest, read ⟨start, bytes ++ rest⟩ = .ok a ⟨start + bytes.length, rest⟩) :
    Reads read start bytes True a :=
  fun rest => ⟨fun _ => h rest, fun hn => absurd trivial hn⟩

theorem Reads.ok (h : Reads read start bytes p a) (hp : p) (rest : Bytes) :
    read ⟨start, bytes ++ rest⟩ = .ok a ⟨start + bytes.length, rest⟩ :=
  (h rest).1 hp

/-- Bytes that are known to be legible. -/
theorem Reads.sure (h : Reads read start bytes p a) (hp : p) : Reads read start bytes True a :=
  reads_of_ok (h.ok hp)

theorem reads_pure : Reads (pure a) start [] True a :=
  reads_of_ok fun _ => rfl

theorem reads_offset : Reads offset start [] True start :=
  reads_of_ok fun _ => rfl

theorem reads_require {value : Option α} (hv : value = some a) (offset : Nat)
    (cause : Malformation) : Reads (require value offset cause) start [] True a := by
  rw [hv]
  exact reads_pure

theorem Reads.bind {next : α → Reader β} {more : Bytes} (h : Reads read start bytes p a)
    (h' : p → Reads (next a) (start + bytes.length) more q b) :
    Reads (read >>= next) start (bytes ++ more) (p ∧ q) b := by
  intro rest
  rw [List.append_assoc]
  by_cases hp : p
  · rw [run_bind_of_ok (h.ok hp _), List.length_append, ← Nat.add_assoc]
    obtain ⟨ok, fail⟩ := h' hp rest
    exact ⟨fun hq => ok hq.2, fun hq => fail fun hq' => hq ⟨hp, hq'⟩⟩
  · obtain ⟨fault, cursor, hf⟩ := (h (more ++ rest)).2 hp
    exact ⟨fun hq => absurd hq.1 hp, fun _ => ⟨fault, cursor, run_bind_of_error hf⟩⟩

/-- A step that cannot fail. -/
theorem Reads.bind_sure {next : α → Reader β} {more : Bytes} (h : Reads read start bytes True a)
    (h' : Reads (next a) (start + bytes.length) more q b) :
    Reads (read >>= next) start (bytes ++ more) q b :=
  (h.bind fun _ => h').of_eq rfl (by simp) rfl

/-- A step that takes no bytes and cannot fail. -/
theorem Reads.bind_free {next : α → Reader β} (h : Reads read start [] True a)
    (h' : Reads (next a) start bytes q b) : Reads (read >>= next) start bytes q b :=
  (h.bind fun _ => h').of_eq rfl (by simp) rfl

/-- A step that is the last to take bytes. -/
theorem Reads.bind_last {next : α → Reader β} (h : Reads read start bytes p a)
    (h' : p → Reads (next a) (start + bytes.length) [] True b) :
    Reads (read >>= next) start bytes p b :=
  Reads.of_eq (h.bind h') (List.append_nil _) (and_iff_left trivial) rfl

theorem Reads.bind_pure (h : Reads read start bytes p a) (f : α → β) :
    Reads (read >>= fun a => pure (f a)) start bytes p (f a) :=
  h.bind_last fun _ => reads_pure

theorem Reads.map (h : Reads read start bytes p a) (f : α → β) :
    Reads (f <$> read) start bytes p (f a) :=
  h.bind_pure f

/-- A step that is one of two. -/
theorem Reads.bind_ite {c : Prop} [Decidable c] {read' : Reader α} {next : α → Reader β}
    {more : Bytes} (h : Reads (if c then read else read') start bytes p a)
    (h' : p → Reads (next a) (start + bytes.length) more q b) :
    Reads (if c then read >>= next else read' >>= next) start (bytes ++ more) (p ∧ q) b := by
  by_cases hc : c
  · rw [if_pos hc] at h ⊢
    exact h.bind h'
  · rw [if_neg hc] at h ⊢
    exact h.bind h'

theorem Reads.bind_pure_ite {c : Prop} [Decidable c] {read' : Reader α}
    (h : Reads (if c then read else read') start bytes p a) (f : α → β) :
    Reads (if c then read >>= fun a => pure (f a) else read' >>= fun a => pure (f a)) start bytes p
      (f a) := by
  by_cases hc : c
  · rw [if_pos hc] at h ⊢
    exact h.bind_pure f
  · rw [if_neg hc] at h ⊢
    exact h.bind_pure f

/-- A test that has to hold for reading to go on. -/
theorem Reads.test {c : Prop} [Decidable c] {offset : Nat} {cause : Malformation}
    (h : c → Reads read start bytes p a) :
    Reads (if c then read else malformed offset cause) start bytes (c ∧ p) a := by
  by_cases hc : c
  · rw [if_pos hc]
    exact (h hc).of_eq rfl (by simp [hc]) rfl
  · rw [if_neg hc]
    exact fun rest => ⟨fun hp => absurd hp.1 hc, fun _ => ⟨_, _, rfl⟩⟩

/-- A test that has to fail for reading to go on. -/
theorem Reads.refuse {c : Prop} [Decidable c] {next : Unit → Reader α} {offset : Nat}
    {cause : Malformation} (h : ¬ c → Reads (next ()) start bytes p a) :
    Reads (if c then malformed offset cause >>= next else next ()) start bytes (¬ c ∧ p) a := by
  by_cases hc : c
  · rw [if_pos hc]
    exact fun rest => ⟨fun hp => absurd hc hp.1, fun _ => ⟨_, _, rfl⟩⟩
  · rw [if_neg hc]
    exact (h hc).of_eq rfl (by simp [hc]) rfl

/-! ## Repetition -/

/-- Members read one after another, the result of each related to what was written. -/
theorem exists_reads_timesOnto {γ : Type} {legible : γ → Prop} {R : γ → α → Prop} {xs : List γ}
    {written : List Bytes}
    (h : List.Forall₂ (fun x bs => ∀ start, ∃ a, Reads read start bs (legible x) a ∧ R x a)
      xs written) :
    ∀ start (done : List α), ∃ as,
      Reads (timesOnto read xs.length done) start written.flatten (∀ x ∈ xs, legible x)
        (done.reverse ++ as) ∧ List.Forall₂ R xs as := by
  induction h with
  | nil =>
    intro start done
    exact ⟨[], reads_pure.of_eq rfl (by simp) (by simp), .nil⟩
  | @cons x bs xs written hx _ ih =>
    intro start done
    obtain ⟨a, ha, hR⟩ := hx start
    obtain ⟨as, has, hRs⟩ := ih (start + bs.length) (a :: done)
    refine ⟨a :: as, ?_, .cons hR hRs⟩
    exact (ha.bind fun _ => has).of_eq rfl (by simp) (by simp)

theorem exists_reads_times {γ : Type} {legible : γ → Prop} {R : γ → α → Prop} {xs : List γ}
    {written : List Bytes}
    (h : List.Forall₂ (fun x bs => ∀ start, ∃ a, Reads read start bs (legible x) a ∧ R x a)
      xs written) (start : Nat) :
    ∃ as, Reads (times xs.length read) start written.flatten (∀ x ∈ xs, legible x) as ∧
      List.Forall₂ R xs as :=
  exists_reads_timesOnto h start []

/-- **Members written one after another are read one after another.** -/
theorem Reads.times {γ : Type} {legible : γ → Prop} {image : γ → α} {xs : List γ}
    {written : List Bytes}
    (h : List.Forall₂ (fun x bs => ∀ start, Reads read start bs (legible x) (image x)) xs written)
    (start : Nat) :
    Reads (times xs.length read) start written.flatten (∀ x ∈ xs, legible x) (xs.map image) := by
  obtain ⟨as, has, hR⟩ := exists_reads_times (R := fun x a => image x = a)
    (h.imp fun x bs hx start => ⟨image x, hx start, rfl⟩) start
  rwa [map_eq_iff.2 hR]

/-- What is read of each member can hang on what is known of it already. -/
theorem Reads.mapM {γ δ : Type} {read : δ → Reader α} {known : γ → δ} {legible : γ → Prop}
    {image : γ → α} {xs : List γ} {written : List Bytes}
    (h : List.Forall₂ (fun x bs => ∀ start,
      Reads (read (known x)) start bs (legible x) (image x)) xs written) :
    ∀ start, Reads ((xs.map known).mapM read) start written.flatten (∀ x ∈ xs, legible x)
      (xs.map image) := by
  induction h with
  | nil => exact fun start => reads_pure.of_eq rfl (by simp) rfl
  | @cons x bs xs written hx _ ih =>
    intro start
    rw [List.map_cons, List.mapM_cons]
    exact Reads.of_eq ((hx start).bind fun _ => (ih _).bind_pure _) rfl (by simp) rfl

end

/-! ## Bytes -/

theorem reads_u8 (start : Nat) (value : UInt8) : Reads u8 start [value] True value :=
  reads_of_ok fun _ => rfl

theorem reads_bytes (start : Nat) (taken : Bytes) :
    Reads (bytes taken.length) start taken True taken :=
  reads_of_ok fun rest => by simp [bytes]

theorem reads_s8 (start : Nat) (value : Int8) : Reads s8 start (Bytes.s8 value) True value :=
  (reads_u8 start value.toUInt8).bind_pure UInt8.toInt8

/-! ## Numbers of a fixed width -/

theorem littleEndian_toLittleEndian : ∀ (width n : Nat), n < 256 ^ width →
    littleEndian (toLittleEndian width n) = n
  | 0, n, h => by simp at h; simp [toLittleEndian, littleEndian, h]
  | width + 1, n, h => by
    have hn : n / 256 < 256 ^ width := Nat.div_lt_of_lt_mul (by rwa [Nat.pow_succ'] at h)
    rw [toLittleEndian, littleEndian, littleEndian_toLittleEndian width _ hn, UInt8.toNat_ofNat']
    omega

@[simp] theorem length_toLittleEndian : ∀ width n, (toLittleEndian width n).length = width
  | 0, _ => rfl
  | width + 1, n => by simp [toLittleEndian, length_toLittleEndian width]

theorem reads_littleEndian (start width n : Nat) (h : n < 256 ^ width) :
    Reads (littleEndian <$> bytes width) start (toLittleEndian width n) True n := by
  have := (reads_bytes start (toLittleEndian width n)).map littleEndian
  rwa [length_toLittleEndian, littleEndian_toLittleEndian width n h] at this

theorem reads_u16 (start : Nat) (value : UInt16) :
    Reads u16 start (Bytes.u16 value) True value := by
  have h := (reads_littleEndian start 2 _ value.toNat_lt).bind_pure UInt16.ofNat
  rwa [UInt16.ofNat_toNat] at h

theorem reads_d64 (start : Nat) (value : Double) :
    Reads d64 start (Bytes.d64 value) True value := by
  have h := (reads_littleEndian start 8 _ value.bits.toNat_lt).bind_pure
    fun n => (⟨UInt64.ofNat n⟩ : Double)
  rwa [UInt64.ofNat_toNat] at h

theorem fitsS24_iff {distance : Int} :
    fitsS24 distance = true ↔ -0x800000 ≤ distance ∧ distance < 0x800000 := by
  simp [fitsS24]

/-- A distance can be written when it fits in 24 bits, and then takes three bytes. -/
theorem s24_eq_ok {distance : Int} {bytes : Bytes} : Bytes.s24 distance = .ok bytes ↔
    (-0x800000 ≤ distance ∧ distance < 0x800000) ∧
      toLittleEndian 3 (distance % 0x1000000).toNat = bytes := by
  rw [Bytes.s24, ← fitsS24_iff]
  split <;> simp_all

theorem reads_s24 {distance : Int} {bytes : Bytes} (h : Bytes.s24 distance = .ok bytes)
    (start : Nat) : Reads s24 start bytes True distance := by
  obtain ⟨hd, rfl⟩ := s24_eq_ok.1 h
  have hr := (reads_littleEndian start 3 (distance % 0x1000000).toNat (by omega)).bind_pure
    fun n => (n : Int).bmod 0x1000000
  refine hr.of_eq rfl Iff.rfl ?_
  rw [Int.toNat_of_nonneg (by omega)]
  exact (Int.emod_bmod distance 0x1000000).trans (Int.bmod_eq_of_le (by omega) (by omega))

/-! ## Packed numbers -/

theorem packedGroups_eq (groups n : Nat) : ActionBytecode.packedGroups groups n =
    if groups = 0 ∨ n < 128 then [UInt8.ofNat n]
    else UInt8.ofNat (n % 128 + 128) :: ActionBytecode.packedGroups (groups - 1) (n / 128) := by
  cases groups with
  | zero => simp [ActionBytecode.packedGroups]
  | succ groups => simp [ActionBytecode.packedGroups]

/-- A last group ends the number, and another group continues it. -/
theorem reads_packedGroups : ∀ (groups n : Nat) (start : Nat), n < 128 ^ (groups + 1) →
    Reads (packedGroups (groups + 1)) start (ActionBytecode.packedGroups groups n) True n
  | groups, n, start, h => by
    by_cases hn : n < 128
    · have hb : UInt8.ofNat n < 128 := by
        rw [UInt8.lt_iff_toNat_lt, UInt8.toNat_ofNat']
        simp
        omega
      rw [packedGroups_eq, if_pos (Or.inr hn)]
      refine reads_of_ok fun rest => ?_
      rw [packedGroups, run_bind_of_ok ((reads_u8 start _).ok trivial rest), if_pos hb]
      simp [UInt8.toNat_ofNat', Nat.mod_eq_of_lt (show n < 256 by omega)]
    · cases groups with
      | zero => omega
      | succ groups =>
        have ih := reads_packedGroups groups (n / 128) (start + 1)
          (Nat.div_lt_of_lt_mul (by rwa [Nat.pow_succ'] at h))
        have hb : (UInt8.ofNat (n % 128 + 128)).toNat = n % 128 + 128 := by
          rw [UInt8.toNat_ofNat']; omega
        have hb' : ¬ UInt8.ofNat (n % 128 + 128) < 128 := by
          rw [UInt8.lt_iff_toNat_lt, hb]; simp
        rw [packedGroups_eq, if_neg (by omega), Nat.add_sub_cancel]
        refine Reads.of_eq ((reads_u8 start _).bind fun _ => ?_) List.singleton_append
          (and_iff_right trivial) rfl
        rw [if_neg hb']
        refine (ih.bind_pure fun k => _ - 128 + 128 * k).of_eq rfl Iff.rfl ?_
        rw [hb]; omega

theorem reads_u32 (start : Nat) (value : UInt32) :
    Reads u32 start (Bytes.u32 value) True value := by
  have h := (reads_packedGroups 4 value.toNat start
    (Nat.lt_trans value.toNat_lt (by norm_num))).bind_pure UInt32.ofNat
  rwa [UInt32.ofNat_toNat] at h

theorem reads_s32 (start : Nat) (value : Int32) : Reads s32 start (Bytes.s32 value) True value :=
  (reads_u32 start value.toUInt32).bind_pure UInt32.toInt32

/-- **A number that is written can be read as one of 30 bits when its upper bits agree.** -/
theorem reads_u30 (start : Nat) (value : UInt32) :
    Reads u30 start (Bytes.u32 value) (IsU30 value) value := by
  refine reads_offset.bind_free (((reads_u32 start value).bind fun _ =>
    Reads.test fun _ => reads_pure).of_eq (List.append_nil _) ?_ rfl)
  simp [IsU30]

theorem index_eq_ok {n : Nat} {bytes : Bytes} : Bytes.index n = .ok bytes ↔
    n < 0x40000000 ∧ Bytes.u32 (UInt32.ofNat n) = bytes := by
  rw [Bytes.index]
  split <;> simp_all

/-- **A count that is written can be read when it is below the limit.** -/
theorem reads_index {n : Nat} {bytes : Bytes} (h : Bytes.index n = .ok bytes) (start : Nat) :
    Reads index start bytes (n < countLimit) n := by
  obtain ⟨hn, rfl⟩ := index_eq_ok.1 h
  refine ((reads_u30 start _).bind_pure UInt32.toNat).of_eq rfl (isU30_ofNat hn) ?_
  exact UInt32.toNat_ofNat_of_lt' (by show n < 4294967296; omega)

theorem index_isOk {n : Nat} : (∃ bytes, Bytes.index n = .ok bytes) ↔ n < 0x40000000 := by
  simp [index_eq_ok]

/-! ## Text and lists -/

theorem reads_text {s : String} {bytes : Bytes} (h : Bytes.text s = .ok bytes) (start : Nat) :
    Reads text start bytes ((Utf8.encode s).length < countLimit) s := by
  obtain ⟨count, hc, h⟩ := bind_eq_ok.1 h
  rw [← pure_eq_ok.1 h]
  refine reads_offset.bind_free (Reads.of_eq ((reads_index hc start).bind fun _ =>
    (reads_bytes _ (Utf8.encode s)).bind_last fun _ => ?_) rfl (and_iff_left trivial) rfl)
  rw [Utf8.decode_encode]
  exact reads_pure

section
variable {α γ : Type} {read : Reader α} {write : γ → Except Fault Bytes} {legible : γ → Prop}
  {xs : List γ} {bytes : Bytes}

theorem exists_reads_list {R : γ → α → Prop} (hw : Bytes.list write xs = .ok bytes)
    (h : ∀ x ∈ xs, ∀ bs, write x = .ok bs →
      ∀ start, ∃ a, Reads read start bs (legible x) a ∧ R x a) (start : Nat) :
    ∃ as, Reads (list read) start bytes (xs.length < countLimit ∧ ∀ x ∈ xs, legible x) as ∧
      List.Forall₂ R xs as := by
  obtain ⟨count, hc, hw⟩ := bind_eq_ok.1 hw
  obtain ⟨written, hws, hw⟩ := bind_eq_ok.1 hw
  rw [← pure_eq_ok.1 hw]
  obtain ⟨as, has, hR⟩ := exists_reads_times (forall₂_of_mem (mapM_eq_ok.1 hws) h)
    (start + count.length)
  exact ⟨as, (reads_index hc start).bind fun _ => has, hR⟩

/-- **A counted list is read back member by member.** -/
theorem Reads.list {image : γ → α} (hw : Bytes.list write xs = .ok bytes)
    (h : ∀ x ∈ xs, ∀ bs, write x = .ok bs → ∀ start, Reads read start bs (legible x) (image x))
    (start : Nat) :
    Reads (list read) start bytes (xs.length < countLimit ∧ ∀ x ∈ xs, legible x)
      (xs.map image) := by
  obtain ⟨count, hc, hw⟩ := bind_eq_ok.1 hw
  obtain ⟨written, hws, hw⟩ := bind_eq_ok.1 hw
  rw [← pure_eq_ok.1 hw]
  exact (reads_index hc start).bind fun _ =>
    Reads.times (forall₂_of_mem (mapM_eq_ok.1 hws) h) _

end

end Reader

end ActionBytecode
