/-
  ActionBytecode — text on the wire is UTF-8.

  `decode` turns octets into text.  When they are not UTF-8, `firstFault` names the character at
  which the text goes wrong: either an octet there rules it out, after so many octets that could
  still have been right, or the octets end in the middle of it.
-/
namespace ActionBytecode.Utf8

/-- Why octets are not UTF-8. -/
inductive Fault where
  /-- The character that starts at `index` is ruled out by the octet after its first `length`. -/
  | invalid (length index : Nat)
  /-- The octets end inside the character that starts at `index`. -/
  | incomplete (index : Nat)
  deriving DecidableEq, Repr

/-- The wording of a fault. -/
def Fault.message : Fault → String
  | .invalid length index => s!"invalid utf-8 sequence of {length} bytes from index {index}"
  | .incomplete index => s!"incomplete utf-8 byte sequence from index {index}"

/-- What the octets after a leading one must be: how many are owed, and the least and the
    greatest that the next may be. -/
structure Owed where
  count : Nat
  low : UInt8
  high : UInt8

/-- What a leading octet calls for; none if no character starts with it. -/
def lead (b : UInt8) : Option Owed :=
  if b < 0x80 then some ⟨0, 0x80, 0xbf⟩
  else if b < 0xc2 then none
  else if b < 0xe0 then some ⟨1, 0x80, 0xbf⟩
  else if b == 0xe0 then some ⟨2, 0xa0, 0xbf⟩
  else if b == 0xed then some ⟨2, 0x80, 0x9f⟩
  else if b < 0xf0 then some ⟨2, 0x80, 0xbf⟩
  else if b == 0xf0 then some ⟨3, 0x90, 0xbf⟩
  else if b < 0xf4 then some ⟨3, 0x80, 0xbf⟩
  else if b == 0xf4 then some ⟨3, 0x80, 0x8f⟩
  else none

/-- The first fault of octets read from `index + seen` on, where `seen` octets of the character
    at `index` are read and `owed` is what it still calls for. -/
def faultFrom (index seen : Nat) (owed : Owed) : List UInt8 → Option Fault
  | [] => if owed.count = 0 then none else some (.incomplete index)
  | b :: rest =>
    match owed.count with
    | 0 =>
      match lead b with
      | none => some (.invalid 1 (index + seen))
      | some owed => faultFrom (index + seen) 1 owed rest
    | count + 1 =>
      if owed.low ≤ b && b ≤ owed.high then faultFrom index (seen + 1) ⟨count, 0x80, 0xbf⟩ rest
      else some (.invalid seen index)

/-- The first fault of `octets`; the end of UTF-8 octets, which have none. -/
def firstFault (octets : List UInt8) : Fault :=
  (faultFrom 0 0 ⟨0, 0x80, 0xbf⟩ octets).getD (.incomplete octets.length)

/-- The text that `octets` spell. -/
def decode (octets : List UInt8) : Except Fault String :=
  match String.fromUTF8? ⟨octets.toArray⟩ with
  | some s => .ok s
  | none => .error (firstFault octets)

/-- The octets of a text. -/
def encode (s : String) : List UInt8 :=
  s.toUTF8.data.toList

/-- **Reading undoes writing.** -/
theorem decode_encode (s : String) : decode (encode s) = .ok s := by
  have octets : (⟨(encode s).toArray⟩ : ByteArray) = s.toByteArray := by simp [encode]
  have valid : String.fromUTF8? s.toByteArray = some s := by
    rw [String.fromUTF8?, dif_pos s.isValidUTF8]
    rfl
  rw [decode, octets, valid]

end ActionBytecode.Utf8
