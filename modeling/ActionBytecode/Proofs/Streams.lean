/-
  ActionBytecode — streams of primitive values.

  Values are written one after another with nothing between them, so each reader has to stop where
  the writer of its value stopped, whatever follows.

  * `Primitive.exists_written`: it does so for each kind of value, and how far is the value's width;
  * `Bytes.patchS24_eq_ok`: what becomes of bytes in which a distance is overwritten.

  `Primitive.stream_round_trip`: so every stream is read back as it was written, each value ends
  where the widths so far say, and a distance can be put in its bytes wherever there is room.
-/
import ActionBytecode.Proofs.PackedNumbers

namespace ActionBytecode

/-! ## Primitive values -/

/-- A kind of values to read.  Of raw bytes it says how many. -/
inductive PrimitiveKind where
  | bytes (length : Nat)
  | u8
  | s8
  | u16
  | s24
  | u32
  | u30
  | index
  | s32
  | d64
  | text

/-- A value of one of these kinds. -/
inductive Primitive where
  | bytes (value : Bytes)
  | u8 (value : UInt8)
  | s8 (value : Int8)
  | u16 (value : UInt16)
  | s24 (value : Int)
  | u32 (value : UInt32)
  | u30 (value : UInt32)
  | index (value : Nat)
  | s32 (value : Int32)
  | d64 (value : Double)
  | text (value : String)

/-- Read a value of the kind. -/
def PrimitiveKind.read : PrimitiveKind → Reader Primitive
  | .bytes length => return .bytes (← Reader.bytes length)
  | .u8 => return .u8 (← Reader.u8)
  | .s8 => return .s8 (← Reader.s8)
  | .u16 => return .u16 (← Reader.u16)
  | .s24 => return .s24 (← Reader.s24)
  | .u32 => return .u32 (← Reader.u32)
  | .u30 => return .u30 (← Reader.u30)
  | .index => return .index (← Reader.index)
  | .s32 => return .s32 (← Reader.s32)
  | .d64 => return .d64 (← Reader.d64)
  | .text => return .text (← Reader.text)

namespace Primitive

def kind : Primitive → PrimitiveKind
  | bytes value => .bytes value.length
  | u8 _ => .u8
  | s8 _ => .s8
  | u16 _ => .u16
  | s24 _ => .s24
  | u32 _ => .u32
  | u30 _ => .u30
  | index _ => .index
  | s32 _ => .s32
  | d64 _ => .d64
  | text _ => .text

/-- The bytes of a value. -/
def write : Primitive → Except Fault Bytes
  | bytes value => .ok value
  | u8 value => .ok (Bytes.u8 value)
  | s8 value => .ok (Bytes.s8 value)
  | u16 value => .ok (Bytes.u16 value)
  | s24 value => Bytes.s24 value
  | u32 value | u30 value => .ok (Bytes.u32 value)
  | index value => Bytes.index value
  | s32 value => .ok (Bytes.s32 value)
  | d64 value => .ok (Bytes.d64 value)
  | text value => Bytes.text value

/-- How many bytes a value takes. -/
def width : Primitive → Nat
  | bytes value => value.length
  | u8 _ | s8 _ => 1
  | u16 _ => 2
  | s24 _ => 3
  | u32 value | u30 value => packedLength value
  | index value => packedLength (UInt32.ofNat value)
  | s32 value => packedLength value.toUInt32
  | d64 _ => 8
  | text value =>
    packedLength (UInt32.ofNat (Utf8.encode value).length) + (Utf8.encode value).length

/-- The values of a kind that can be written and read. -/
def Fits : Primitive → Prop
  | s24 value => -2 ^ 23 ≤ value ∧ value < 2 ^ 23
  | u30 value => IsU30 value
  | index value => value < 2 ^ 29
  | text value => (Utf8.encode value).length < 2 ^ 29
  | bytes _ | u8 _ | s8 _ | u16 _ | u32 _ | s32 _ | d64 _ => True

instance : (value : Primitive) → Decidable value.Fits
  | s24 value => inferInstanceAs (Decidable (-2 ^ 23 ≤ value ∧ value < 2 ^ 23))
  | u30 value => inferInstanceAs (Decidable (IsU30 value))
  | index value => inferInstanceAs (Decidable (value < 2 ^ 29))
  | text value => inferInstanceAs (Decidable ((Utf8.encode value).length < 2 ^ 29))
  | bytes _ | u8 _ | s8 _ | u16 _ | u32 _ | s32 _ | d64 _ => inferInstanceAs (Decidable True)

/-- Write a value behind what is written. -/
def append (written : Bytes) (value : Primitive) : Except Fault Bytes :=
  return written ++ (← value.write)

/-- Write values one after another. -/
def writeAll (values : List Primitive) : Except Fault Bytes := values.foldlM append []

/-- Read values one after another. -/
def readAll (kinds : List PrimitiveKind) : Reader (List Primitive) := kinds.mapM PrimitiveKind.read

/-- The bytes of a value are as many as its width says, and the value is read back from them
    whatever follows. -/
structure IsWritten (value : Primitive) (bytes : Bytes) : Prop where
  length : bytes.length = value.width
  reads : ∀ start, Reader.Reads value.kind.read start bytes True value

theorem exists_written {value : Primitive} (h : value.Fits) :
    ∃ bytes, value.write = .ok bytes ∧ value.IsWritten bytes := by
  have hindex {n : Nat} (hn : n < 2 ^ 29) : Bytes.index n = .ok (Bytes.u32 (UInt32.ofNat n)) :=
    Reader.index_eq_ok.2 ⟨by omega, rfl⟩
  cases value with
  | bytes value =>
    exact ⟨_, rfl, rfl, fun start => (Reader.reads_bytes start value).bind_pure bytes⟩
  | u8 value => exact ⟨_, rfl, rfl, fun start => (Reader.reads_u8 start value).bind_pure u8⟩
  | s8 value => exact ⟨_, rfl, rfl, fun start => (Reader.reads_s8 start value).bind_pure s8⟩
  | u16 value => exact ⟨_, rfl, rfl, fun start => (Reader.reads_u16 start value).bind_pure u16⟩
  | s24 value =>
    have hwritten := Reader.s24_eq_ok.2 ⟨h, rfl⟩
    exact ⟨_, hwritten, rfl, fun start => (Reader.reads_s24 hwritten start).bind_pure s24⟩
  | u32 value =>
    exact ⟨_, rfl, length_u32 value, fun start => (Reader.reads_u32 start value).bind_pure u32⟩
  | u30 value =>
    exact ⟨_, rfl, length_u32 value,
      fun start => ((Reader.reads_u30 start value).sure h).bind_pure u30⟩
  | index value =>
    exact ⟨_, hindex h, length_u32 _,
      fun start => ((Reader.reads_index (hindex h) start).sure h).bind_pure index⟩
  | s32 value =>
    exact ⟨_, rfl, length_u32 _, fun start => (Reader.reads_s32 start value).bind_pure s32⟩
  | d64 value => exact ⟨_, rfl, rfl, fun start => (Reader.reads_d64 start value).bind_pure d64⟩
  | text value =>
    have hwritten : Bytes.text value = .ok _ := bind_eq_ok.2 ⟨_, hindex h, rfl⟩
    refine ⟨_, hwritten, ?_,
      fun start => ((Reader.reads_text hwritten start).sure h).bind_pure text⟩
    rw [List.length_append, length_u32]
    rfl

/-! ## Streams -/

section
variable {values : List Primitive} {pieces : List Bytes}

/-- Values that fit are written piece by piece, behind whatever is written before. -/
theorem exists_pieces (h : ∀ value ∈ values, value.Fits) :
    ∃ pieces, List.Forall₂ IsWritten values pieces ∧
      ∀ written, values.foldlM append written = .ok (written ++ pieces.flatten) := by
  induction values with
  | nil => exact ⟨[], .nil, fun written => congrArg Except.ok (List.append_nil written).symm⟩
  | cons value values ih =>
    obtain ⟨hfits, hrest⟩ := List.forall_mem_cons.1 h
    obtain ⟨piece, hpiece, hwritten⟩ := exists_written hfits
    obtain ⟨pieces, hpieces, hall⟩ := ih hrest
    refine ⟨piece :: pieces, .cons hwritten hpieces, fun written => ?_⟩
    have hfirst : append written value = .ok (written ++ piece) :=
      bind_eq_ok.2 ⟨piece, hpiece, rfl⟩
    rw [List.foldlM_cons, hfirst, List.flatten_cons, ← List.append_assoc]
    exact hall (written ++ piece)

theorem length_flatten (h : List.Forall₂ IsWritten values pieces) :
    pieces.flatten.length = (values.map width).sum := by
  induction h with
  | nil => rfl
  | cons hw _ ih =>
    rw [List.flatten_cons, List.length_append, hw.length, ih, List.map_cons, List.sum_cons]

theorem reads_flatten (h : List.Forall₂ IsWritten values pieces) (start : Nat) :
    Reader.Reads (readAll (values.map kind)) start pieces.flatten True values :=
  (Reader.Reads.mapM (h.imp fun _ _ hw => hw.reads) start).of_eq rfl (by simp) (List.map_id _)

/-- **So many values are read from the front of a stream, and the rest of it is left.** -/
theorem readAll_take (h : List.Forall₂ IsWritten values pieces) (count : Nat) :
    readAll ((values.take count).map kind) (.start pieces.flatten) =
      .ok (values.take count) ⟨((values.take count).map width).sum,
        pieces.flatten.drop ((values.take count).map width).sum⟩ := by
  have htake := List.forall₂_take count h
  have hsplit : pieces.flatten = (pieces.take count).flatten ++ (pieces.drop count).flatten := by
    rw [← List.flatten_append, List.take_append_drop]
  have hread := (reads_flatten htake 0).ok trivial (pieces.drop count).flatten
  rw [← hsplit, Nat.zero_add] at hread
  rw [← length_flatten htake, Cursor.start, hread, hsplit, List.drop_left]

end

end Primitive

/-! ## Overwriting a distance -/

namespace Bytes

variable {written patched : Bytes} {position : Nat} {distance : Int}

theorem patchS24_eq_ok : patchS24 written position distance = .ok patched ↔
    ∃ patch, s24 distance = .ok patch ∧ position + 3 ≤ written.length ∧
      written.take position ++ patch ++ written.drop (position + 3) = patched := by
  rw [patchS24, bind_eq_ok]
  refine exists_congr fun patch => and_congr_right fun _ => ?_
  by_cases hroom : position + 3 ≤ written.length
  · rw [if_pos hroom, pure_eq_ok]
    exact (and_iff_right hroom).symm
  · rw [if_neg hroom]
    exact iff_of_false (by simp [throw, throwThe, MonadExceptOf.throw]) fun h => hroom h.1

/-- A distance can be put where there is room for it, if it fits. -/
theorem patchS24_isOk : Succeeds (patchS24 written position distance) ↔
    (-2 ^ 23 ≤ distance ∧ distance < 2 ^ 23) ∧ position + 3 ≤ written.length := by
  simp only [Succeeds, patchS24_eq_ok, Reader.s24_eq_ok]
  constructor
  · rintro ⟨patched, patch, ⟨hfits, -⟩, hroom, -⟩
    exact ⟨hfits, hroom⟩
  · rintro ⟨hfits, hroom⟩
    exact ⟨_, _, ⟨hfits, rfl⟩, hroom, rfl⟩

/-- **Only the three bytes at the position change**, and the distance is read back from them. -/
theorem patchS24_spec (h : patchS24 written position distance = .ok patched) :
    patched.length = written.length ∧
    (∀ i, i < position ∨ position + 3 ≤ i → patched[i]? = written[i]?) ∧
    Reader.s24 ⟨position, patched.drop position⟩ =
      .ok distance ⟨position + 3, patched.drop (position + 3)⟩ := by
  obtain ⟨patch, hpatch, hroom, rfl⟩ := patchS24_eq_ok.1 h
  have hthree : patch.length = 3 := by
    obtain ⟨-, rfl⟩ := Reader.s24_eq_ok.1 hpatch
    rfl
  have hbefore : (written.take position).length = position := List.length_take_of_le (by omega)
  have hupto : (written.take position ++ patch).length = position + 3 := by
    rw [List.length_append, hbefore, hthree]
  refine ⟨?_, ?_, ?_⟩
  · rw [List.length_append, hupto, List.length_drop]
    omega
  · rintro i (hi | hi)
    · rw [List.append_assoc, List.getElem?_append_left (by omega), List.getElem?_take_of_lt hi]
    · rw [List.getElem?_append_right (by omega), hupto, List.getElem?_drop]
      congr 1
      omega
  · have hread := (Reader.reads_s24 hpatch position).ok trivial (written.drop (position + 3))
    rw [hthree] at hread
    rw [List.drop_left' hupto, List.append_assoc, List.drop_left' hbefore]
    exact hread

end Bytes

/-! ## Round trip -/

namespace Primitive

/-- **Values that are written one after another are read back in their order.**  After each of them
    as many bytes are read as the widths so far add up to, and after the last no byte is left.  In
    the bytes of a stream a distance can be overwritten wherever there is room. -/
theorem stream_round_trip {values : List Primitive} (h : ∀ value ∈ values, value.Fits) :
    ∃ bytes, writeAll values = .ok bytes ∧ bytes.length = (values.map width).sum ∧
      (∃ last, readAll (values.map kind) (.start bytes) = .ok values last ∧ last.atEnd = true) ∧
      (∀ count, readAll ((values.take count).map kind) (.start bytes) =
        .ok (values.take count) ⟨((values.take count).map width).sum,
          bytes.drop ((values.take count).map width).sum⟩) ∧
      ∀ position distance,
        (Succeeds (Bytes.patchS24 bytes position distance) ↔
          (-2 ^ 23 ≤ distance ∧ distance < 2 ^ 23) ∧ position + 3 ≤ bytes.length) ∧
        ∀ patched, Bytes.patchS24 bytes position distance = .ok patched →
          patched.length = bytes.length ∧
          (∀ i, i < position ∨ position + 3 ≤ i → patched[i]? = bytes[i]?) ∧
          Reader.s24 ⟨position, patched.drop position⟩ =
            .ok distance ⟨position + 3, patched.drop (position + 3)⟩ := by
  obtain ⟨pieces, hwritten, hall⟩ := exists_pieces h
  have hlength := length_flatten hwritten
  refine ⟨pieces.flatten, hall [], hlength, ?_, readAll_take hwritten, fun position distance =>
      ⟨Bytes.patchS24_isOk, fun patched hpatched => Bytes.patchS24_spec hpatched⟩⟩
  have hlast := readAll_take hwritten values.length
  rw [List.take_length, ← hlength, List.drop_length] at hlast
  exact ⟨_, hlast, rfl⟩

/-- A value of each kind, most of them at an end of what fits. -/
def boundaryValues : List Primitive :=
  [.bytes [0x80, 0x80], .u8 0xff, .s8 (-1), .u16 0xfffe, .s24 (-0x800000), .u32 0x10000000,
    .u30 0xe0000000, .index 0x1fffffff, .s32 (-1), .d64 ⟨0x7ff8000000000001⟩, .text "é"]

/-- Their bytes. -/
def boundaryBytes : Bytes :=
  [0x80, 0x80, 0xff, 0xff, 0xfe, 0xff, 0x00, 0x00, 0x80, 0x80, 0x80, 0x80, 0x80, 0x01,
    0x80, 0x80, 0x80, 0x80, 0x0e, 0xff, 0xff, 0xff, 0xff, 0x01, 0xff, 0xff, 0xff, 0xff, 0x0f,
    0x01, 0x00, 0x00, 0x00, 0x00, 0x00, 0xf8, 0x7f, 0x02, 0xc3, 0xa9]

theorem stream_round_trip_boundaryValues :
    (∀ value ∈ boundaryValues, value.Fits) ∧ writeAll boundaryValues = .ok boundaryBytes ∧
    (∃ last, readAll (boundaryValues.map kind) (.start boundaryBytes) = .ok boundaryValues last ∧
      last.atEnd = true) ∧
    ∃ patched, Bytes.patchS24 boundaryBytes 37 0x7fffff = .ok patched ∧
      Reader.s24 ⟨37, patched.drop 37⟩ = .ok 0x7fffff ⟨40, patched.drop 40⟩ := by
  have hfits : ∀ value ∈ boundaryValues, value.Fits := by decide
  have hbytes : writeAll boundaryValues = .ok boundaryBytes := by rfl
  obtain ⟨bytes, hwritten, -, hread, -, hpatch⟩ := stream_round_trip hfits
  cases hwritten.symm.trans hbytes
  obtain ⟨patched, hpatched⟩ := (hpatch 37 0x7fffff).1.2 (by decide)
  exact ⟨hfits, hbytes, hread, patched, hpatched, ((hpatch 37 0x7fffff).2 patched hpatched).2.2⟩

end Primitive

end ActionBytecode
