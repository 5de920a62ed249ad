/-
  ActionBytecode — numbers of a fixed width.

  Bytes, two-byte numbers, three-byte jump distances and doubles stand with their low byte first.
  Each has a reader (`Reader.u16`, …) and a writer (`Bytes.u16`, …).  Jump distances are signed,
  and only those that fit in 24 bits can be written; `Bytes.patchS24` overwrites one in place.
-/
import ActionBytecode.Decimal.Double
import ActionBytecode.Wire.Cursor

namespace ActionBytecode

/-! ## Little-endian numbers -/

/-- The number that bytes stand for, low byte first. -/
def littleEndian : Bytes → Nat
  | [] => 0
  | b :: rest => b.toNat + 256 * littleEndian rest

/-- The low `width` bytes of a number, low byte first. -/
def toLittleEndian : (width : Nat) → (n : Nat) → Bytes
  | 0, _ => []
  | width + 1, n => UInt8.ofNat n :: toLittleEndian width (n / 256)

/-! ## Readers -/

namespace Reader

/-- A signed byte. -/
def s8 : Reader Int8 := return (← u8).toInt8

/-- A two-byte number. -/
def u16 : Reader UInt16 := return UInt16.ofNat (littleEndian (← bytes 2))

/-- A signed three-byte distance. -/
def s24 : Reader Int := return (littleEndian (← bytes 3) : Int).bmod 0x1000000

/-- A double. -/
def d64 : Reader Double := return ⟨UInt64.ofNat (littleEndian (← bytes 8))⟩

end Reader

/-! ## Writers -/

/-- Whether a distance fits in 24 bits. -/
def fitsS24 (distance : Int) : Bool := -0x800000 ≤ distance && distance < 0x800000

namespace Bytes

/-- A byte. -/
def u8 (value : UInt8) : Bytes := [value]

/-- A signed byte. -/
def s8 (value : Int8) : Bytes := [value.toUInt8]

/-- A two-byte number. -/
def u16 (value : UInt16) : Bytes := toLittleEndian 2 value.toNat

/-- A signed three-byte distance. -/
def s24 (distance : Int) : Except Fault Bytes :=
  if fitsS24 distance then .ok (toLittleEndian 3 (distance % 0x1000000).toNat)
  else .error (.misuse (.offsetRange distance))

/-- A double. -/
def d64 (value : Double) : Bytes := toLittleEndian 8 value.bits.toNat

/-- Overwrite the three bytes at `position` by a distance. -/
def patchS24 (written : Bytes) (position : Nat) (distance : Int) : Except Fault Bytes := do
  let patch ← s24 distance
  if position + 3 ≤ written.length then
    return written.take position ++ patch ++ written.drop (position + 3)
  else throw (.misuse (.patchPosition position))

end Bytes

end ActionBytecode
