/-
  ActionBytecode — packed numbers.

  A packed number is cut into groups of seven bits, low group first, one to a byte; the high bit
  of a byte says that another group follows.  A number of 32 bits has at most five groups, and of
  the fifth only the low four bits count.

  Reading takes any number of groups up to five, so a number can stand on the wire in more ways
  than the shortest, which is the one that is written.  Counts and indices are packed numbers
  whose upper three bits agree; they are written only below `2^30`.
-/
import ActionBytecode.Wire.Fixed

namespace ActionBytecode

/-! ## Readers -/

namespace Reader

/-- The number of the next groups, at most `groups` of them. -/
def packedGroups : (groups : Nat) → Reader Nat
  | 0 => pure 0
  | groups + 1 => do
    let b ← u8
    if b < 128 then return b.toNat
    return b.toNat - 128 + 128 * (← packedGroups groups)

/-- A packed number. -/
def u32 : Reader UInt32 := return UInt32.ofNat (← packedGroups 5)

/-- A packed number whose upper three bits agree. -/
def u30 : Reader UInt32 := do
  let start ← offset
  let value ← u32
  if value >>> 29 = 0 ∨ value >>> 29 = 7 then return value
  malformed start (.packedRange value)

/-- A count or an index. -/
def index : Reader Nat := return (← u30).toNat

/-- A packed signed number. -/
def s32 : Reader Int32 := return (← u32).toInt32

/-- Text: its length in bytes, then its bytes. -/
def text : Reader String := do
  let start ← offset
  let length ← index
  let octets ← bytes length
  match Utf8.decode octets with
  | .ok s => return s
  | .error fault => malformed start (.text fault)

/-- A counted list. -/
def list {α : Type} (read : Reader α) : Reader (List α) := do
  let count ← index
  times count read

end Reader

/-! ## Writers -/

/-- The groups of `n`, at most `groups + 1` of them. -/
def packedGroups : (groups : Nat) → (n : Nat) → Bytes
  | 0, n => [UInt8.ofNat n]
  | groups + 1, n =>
    if n < 128 then [UInt8.ofNat n]
    else UInt8.ofNat (n % 128 + 128) :: packedGroups groups (n / 128)

/-- The number of bytes of a packed number. -/
def packedLength (value : UInt32) : Nat :=
  if value < 0x80 then 1
  else if value < 0x4000 then 2
  else if value < 0x200000 then 3
  else if value < 0x10000000 then 4
  else 5

namespace Bytes

/-- A packed number, in as few groups as it has. -/
def u32 (value : UInt32) : Bytes := packedGroups 4 value.toNat

/-- A packed signed number. -/
def s32 (value : Int32) : Bytes := u32 value.toUInt32

/-- A count or an index. -/
def index (n : Nat) : Except Fault Bytes :=
  if n < 0x40000000 then .ok (u32 (UInt32.ofNat n)) else .error (.misuse (.indexRange n))

/-- Text: its length in bytes, then its bytes. -/
def text (s : String) : Except Fault Bytes := do
  let octets := Utf8.encode s
  return (← index octets.length) ++ octets

/-- A counted list, each of its members written by `write`. -/
def list {α : Type} (write : α → Except Fault Bytes) (members : List α) : Except Fault Bytes := do
  let count ← index members.length
  return count ++ (← members.mapM write).flatten

end Bytes

end ActionBytecode
