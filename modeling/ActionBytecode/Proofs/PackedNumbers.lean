/-
  ActionBytecode — packed numbers on any bytes.

  A packed number ends with the first byte that does not say that another follows, and with the
  fifth byte in any case (`packedWidth`).  Its groups are added up with the weights of their places
  (`groupSum`).

  * `Reader.u32_exact`: this is what is read from any bytes.  A number can stand there in many
    ways, but in none of them in fewer bytes than it is written with;
  * `Reader.index_of_written`: the writer of counts and indices refuses numbers from `2^30` on, and
    the reader those whose upper three bits differ.  So an index from `2^29` up to `2^30` is
    written, and then refused where it is read.  `Reader.index_unreadable` is the least of them.
-/
import ActionBytecode.Proofs.Wire

namespace ActionBytecode

/-! ## The bytes of a packed number -/

/-- The number of bytes up to and with the first that ends a packed number of at most so many
    groups.  There are not so many bytes if none of them ends it. -/
def packedWidth (groups : Nat) (bytes : Bytes) : Nat :=
  min groups (bytes.findIdx (· < 128) + 1)

theorem packedWidth_cons_of_lt {b : UInt8} (h : b < 128) (groups : Nat) (bytes : Bytes) :
    packedWidth (groups + 1) (b :: bytes) = 1 := by
  simp [packedWidth, List.findIdx_cons, h]

theorem packedWidth_cons_of_not_lt {b : UInt8} (h : ¬ b < 128) (groups : Nat) (bytes : Bytes) :
    packedWidth (groups + 1) (b :: bytes) = packedWidth groups bytes + 1 := by
  simp [packedWidth, List.findIdx_cons, h]

/-- The bytes end inside a number when they are too few and each says that another follows. -/
theorem length_lt_packedWidth {groups : Nat} {bytes : Bytes} :
    bytes.length < packedWidth groups bytes ↔ bytes.length < groups ∧ ∀ b ∈ bytes, 128 ≤ b := by
  have hle : bytes.findIdx (· < 128) ≤ bytes.length := List.findIdx_le_length
  have hall : bytes.findIdx (· < 128) = bytes.length ↔ ∀ b ∈ bytes, 128 ≤ b := by
    simp [List.findIdx_eq_length]
  rw [packedWidth, ← hall]
  omega

/-- The groups of bytes, added up with the weights of their places. -/
def groupSum (bytes : Bytes) : Nat :=
  ∑ i : Fin bytes.length, bytes[i].toNat % 128 * 2 ^ (7 * i.val)

@[simp] theorem groupSum_nil : groupSum [] = 0 := rfl

theorem groupSum_cons (b : UInt8) (bytes : Bytes) :
    groupSum (b :: bytes) = b.toNat % 128 + 128 * groupSum bytes := by
  have hplace (i : Fin bytes.length) : bytes[i].toNat % 128 * 2 ^ (7 * (i.val + 1)) =
      128 * (bytes[i].toNat % 128 * 2 ^ (7 * i.val)) := by
    ring
  calc groupSum (b :: bytes)
      = b.toNat % 128 * 2 ^ (7 * 0) +
          ∑ i : Fin bytes.length, bytes[i].toNat % 128 * 2 ^ (7 * (i.val + 1)) :=
        Fin.sum_univ_succ _
    _ = b.toNat % 128 + 128 * groupSum bytes := by
        rw [Finset.sum_congr rfl fun i _ => hplace i, ← Finset.mul_sum]
        simp [groupSum]

theorem groupSum_lt : ∀ bytes : Bytes, groupSum bytes < 128 ^ bytes.length
  | [] => by simp
  | b :: bytes => by
    have ih := groupSum_lt bytes
    have hb : b.toNat % 128 < 128 := Nat.mod_lt _ (by norm_num)
    rw [groupSum_cons, List.length_cons, Nat.pow_succ]
    omega

/-! ## The length of a packed number -/

/-- **A number needs no more bytes than groups that can hold it.** -/
theorem packedLength_le {value : UInt32} {groups : Nat} (hpos : 0 < groups)
    (h : value.toNat < 128 ^ groups) : packedLength value ≤ groups := by
  simp only [packedLength, UInt32.lt_iff_toNat_lt, UInt32.reduceToNat]
  by_cases hg : groups < 5
  · interval_cases groups <;> split_ifs <;> omega
  · split_ifs <;> omega

theorem length_u32 (value : UInt32) : (Bytes.u32 value).length = packedLength value := by
  simp only [Bytes.u32, packedGroups, packedLength, UInt32.lt_iff_toNat_lt, UInt32.reduceToNat,
    apply_ite List.length, List.length_cons, List.length_nil, Nat.div_div_eq_div_mul,
    Nat.div_lt_iff_lt_mul (show 0 < 128 by norm_num)]
  split_ifs <;> omega

namespace Reader

/-! ## Reading from any bytes -/

/-- The groups up to the one that ends the number, or so many as are wanted.  Bytes that end before
    are all taken. -/
theorem packedGroups_exact : ∀ (groups start : Nat) (bytes : Bytes),
    packedGroups groups ⟨start, bytes⟩ =
      if packedWidth groups bytes ≤ bytes.length then
        .ok (groupSum (bytes.take (packedWidth groups bytes)))
          ⟨start + packedWidth groups bytes, bytes.drop (packedWidth groups bytes)⟩
      else .error (.unexpectedEnd (start + bytes.length)) ⟨start + bytes.length, []⟩
  | 0, start, bytes => by simp [packedWidth, packedGroups]
  | groups + 1, start, [] => by
    have hwidth : packedWidth (groups + 1) [] = 1 := by simp [packedWidth]
    rw [hwidth]
    rfl
  | groups + 1, start, b :: bytes => by
    have hread : u8 ⟨start, b :: bytes⟩ = .ok b ⟨start + 1, bytes⟩ := rfl
    rw [packedGroups, run_bind_of_ok hread]
    by_cases hb : b < 128
    · have hvalue : b.toNat % 128 = b.toNat := Nat.mod_eq_of_lt hb
      rw [if_pos hb, packedWidth_cons_of_lt hb, if_pos (by simp)]
      simp [groupSum_cons, hvalue]
    · have hvalue : b.toNat - 128 = b.toNat % 128 := by
        have hlarge : 128 ≤ b.toNat := UInt8.not_lt.1 hb
        have := b.toNat_lt
        omega
      have ih := packedGroups_exact groups (start + 1) bytes
      rw [if_neg hb, packedWidth_cons_of_not_lt hb, List.length_cons, List.take_succ_cons,
        List.drop_succ_cons, groupSum_cons, hvalue]
      by_cases hw : packedWidth groups bytes ≤ bytes.length
      · rw [if_pos hw] at ih
        rw [if_pos (Nat.succ_le_succ hw), run_bind_of_ok ih, Nat.add_assoc, Nat.add_comm 1]
        rfl
      · rw [if_neg hw] at ih
        rw [if_neg (by omega), run_bind_of_error ih, Nat.add_assoc, Nat.add_comm 1]

theorem u32_eq (start : Nat) (bytes : Bytes) :
    u32 ⟨start, bytes⟩ =
      if packedWidth 5 bytes ≤ bytes.length then
        .ok (UInt32.ofNat (groupSum (bytes.take (packedWidth 5 bytes)) % 2 ^ 32))
          ⟨start + packedWidth 5 bytes, bytes.drop (packedWidth 5 bytes)⟩
      else .error (.unexpectedEnd (start + bytes.length)) ⟨start + bytes.length, []⟩ := by
  have hgroups := packedGroups_exact 5 start bytes
  by_cases hw : packedWidth 5 bytes ≤ bytes.length
  · rw [if_pos hw] at hgroups ⊢
    rw [u32, run_bind_of_ok hgroups, run_pure_eq, UInt32.ofNat_mod_size]
  · rw [if_neg hw] at hgroups ⊢
    rw [u32, run_bind_of_error hgroups]

/-- **No bytes are shorter than the written ones** among all those that a number is read from. -/
theorem packedLength_le_of_u32 {start : Nat} {bytes : Bytes} {value : UInt32} {cursor : Cursor}
    (h : u32 ⟨start, bytes⟩ = .ok value cursor) :
    packedLength value + cursor.rest.length ≤ bytes.length := by
  rw [u32_eq] at h
  split at h
  · next hw =>
    cases h
    have hpos : 0 < packedWidth 5 bytes := by simp [packedWidth]
    have hsum := groupSum_lt (bytes.take (packedWidth 5 bytes))
    rw [List.length_take_of_le hw] at hsum
    have hvalue : (UInt32.ofNat (groupSum (bytes.take (packedWidth 5 bytes)) % 2 ^ 32)).toNat ≤
        groupSum (bytes.take (packedWidth 5 bytes)) := by
      rw [UInt32.toNat_ofNat', Nat.mod_mod]
      exact Nat.mod_le _ _
    have hlength := packedLength_le hpos (Nat.lt_of_le_of_lt hvalue hsum)
    rw [List.length_drop]
    omega
  · cases h

/-- **What is read from any bytes as a packed number.**  It is the sum of the groups up to the one
    that ends it, and bytes that end before are taken and refused.  A number is never read from
    fewer bytes than it is written with. -/
theorem u32_exact (start : Nat) (bytes : Bytes) :
    (u32 ⟨start, bytes⟩ =
      if packedWidth 5 bytes ≤ bytes.length then
        .ok (UInt32.ofNat (groupSum (bytes.take (packedWidth 5 bytes)) % 2 ^ 32))
          ⟨start + packedWidth 5 bytes, bytes.drop (packedWidth 5 bytes)⟩
      else .error (.unexpectedEnd (start + bytes.length)) ⟨start + bytes.length, []⟩) ∧
    (bytes.length < packedWidth 5 bytes ↔ bytes.length < 5 ∧ ∀ b ∈ bytes, 128 ≤ b) ∧
    ∀ value : UInt32,
      (∀ cursor, u32 ⟨start, bytes⟩ = .ok value cursor →
        packedLength value + cursor.rest.length ≤ bytes.length) ∧
      u32 ⟨start, Bytes.u32 value ++ bytes⟩ = .ok value ⟨start + packedLength value, bytes⟩ ∧
      (Bytes.u32 value).length = packedLength value := by
  refine ⟨u32_eq start bytes, length_lt_packedWidth, fun value => ⟨?_, ?_, length_u32 value⟩⟩
  · exact fun cursor h => packedLength_le_of_u32 h
  · rw [← length_u32]
    exact (reads_u32 start value).ok trivial bytes

/-- Five groups whose upper bits are lost and whose last says that another follows, and a zero that
    stands in three bytes. -/
theorem u32_exact_overlong :
    (u32 ⟨7, [0xff, 0xff, 0xff, 0xff, 0xff, 0x01]⟩ = .ok 0xffffffff ⟨12, [0x01]⟩ ∧
      packedLength 0xffffffff + [(0x01 : UInt8)].length ≤ 6) ∧
    (u32 ⟨7, [0x80, 0x80, 0x00, 0x05]⟩ = .ok 0 ⟨10, [0x05]⟩ ∧
      packedLength 0 + [(0x05 : UInt8)].length ≤ 4) ∧
    u32 ⟨7, [0x80, 0x80]⟩ = .error (.unexpectedEnd 9) ⟨9, []⟩ :=
  ⟨⟨rfl, ((u32_exact 7 [0xff, 0xff, 0xff, 0xff, 0xff, 0x01]).2.2 0xffffffff).1 ⟨12, [0x01]⟩ rfl⟩,
    ⟨rfl, ((u32_exact 7 [0x80, 0x80, 0x00, 0x05]).2.2 0).1 ⟨10, [0x05]⟩ rfl⟩,
    (u32_exact 7 [0x80, 0x80]).1⟩

/-! ## Indices -/

/-- **A number that is written is taken off the bytes in either case**, and is the result exactly
    when its upper bits agree. -/
theorem u30_of_written (value : UInt32) (start : Nat) (rest : Bytes) :
    u30 ⟨start, Bytes.u32 value ++ rest⟩ =
      if IsU30 value then .ok value ⟨start + (Bytes.u32 value).length, rest⟩
      else .error (.malformed start (.packedRange value))
        ⟨start + (Bytes.u32 value).length, rest⟩ := by
  have hstart : offset ⟨start, Bytes.u32 value ++ rest⟩ =
      .ok start ⟨start, Bytes.u32 value ++ rest⟩ := rfl
  rw [u30, run_bind_of_ok hstart, run_bind_of_ok ((reads_u32 start value).ok trivial rest)]
  by_cases h : value >>> 29 = 0 ∨ value >>> 29 = 7
  · rw [if_pos h, if_pos (show IsU30 value from h)]
    rfl
  · rw [if_neg h, if_neg (show ¬ IsU30 value from h)]
    rfl

/-- **An index is written below `2^30`, and what is written is read back exactly below `2^29`.**
    From there on the reader takes the same bytes and refuses the number. -/
theorem index_of_written (n : Nat) :
    (Succeeds (Bytes.index n) ↔ n < 2 ^ 30) ∧
    ∀ bytes, Bytes.index n = .ok bytes → ∀ start rest,
      index ⟨start, bytes ++ rest⟩ =
        if n < 2 ^ 29 then .ok n ⟨start + bytes.length, rest⟩
        else .error (.malformed start (.packedRange (UInt32.ofNat n)))
          ⟨start + bytes.length, rest⟩ := by
  refine ⟨index_isOk, ?_⟩
  intro bytes hbytes start rest
  by_cases hn : n < 2 ^ 29
  · rw [if_pos hn]
    exact (reads_index hbytes start).ok hn rest
  · obtain ⟨hwritten, rfl⟩ := index_eq_ok.1 hbytes
    have hwide : ¬ IsU30 (UInt32.ofNat n) := fun h => hn ((isU30_ofNat hwritten).1 h)
    rw [if_neg hn]
    refine run_bind_of_error ?_
    rw [u30_of_written, if_neg hwide]

/-- Both sides of the reader's limit, each in the middle of other bytes. -/
theorem index_of_written_boundary :
    (Bytes.index 0x1fffffff = .ok [0xff, 0xff, 0xff, 0xff, 0x01] ∧
      index ⟨7, [0xff, 0xff, 0xff, 0xff, 0x01, 0x80]⟩ = .ok 0x1fffffff ⟨12, [0x80]⟩) ∧
    (Bytes.index 0x20000000 = .ok [0x80, 0x80, 0x80, 0x80, 0x02] ∧
      index ⟨7, [0x80, 0x80, 0x80, 0x80, 0x02, 0x80]⟩ =
        .error (.malformed 7 (.packedRange 0x20000000)) ⟨12, [0x80]⟩) :=
  ⟨⟨rfl, (index_of_written 0x1fffffff).2 _ rfl 7 [0x80]⟩,
    ⟨rfl, (index_of_written 0x20000000).2 _ rfl 7 [0x80]⟩⟩

/-- **The least index that is written and cannot be read.** -/
theorem index_unreadable : ¬ ∀ n bytes, Bytes.index n = .ok bytes →
    ∀ rest, index (.start (bytes ++ rest)) = .ok n ⟨bytes.length, rest⟩ := by
  intro h
  have hread := h 0x20000000 [0x80, 0x80, 0x80, 0x80, 0x02] rfl []
  have hfails : index (.start [0x80, 0x80, 0x80, 0x80, 0x02]) =
      .error (.malformed 0 (.packedRange 0x20000000)) ⟨5, []⟩ := rfl
  cases hfails.symm.trans hread

end Reader

end ActionBytecode
