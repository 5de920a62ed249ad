/-
  ActionBytecode — numerals in messages and listings.

  * `hex` writes a natural number in base sixteen without leading zeros;
  * `hexByte` writes a byte with exactly two digits;
  * `signed` writes an integer with its sign, also when it is not negative.
-/
namespace ActionBytecode.Numeral

/-- Lower-case digits of `n` in base sixteen, without leading zeros. -/
def hexDigits (n : Nat) : String :=
  String.ofList (Nat.toDigits 16 n)

/-- `n` in base sixteen, such as `0x1f`. -/
def hex (n : Nat) : String :=
  "0x" ++ hexDigits n

/-- A byte in base sixteen with exactly two digits, such as `0x0a`. -/
def hexByte (b : UInt8) : String :=
  if b < 16 then "0x0" ++ hexDigits b.toNat else hex b.toNat

/-- An integer with a sign in front, `+` for those that are not negative. -/
def signed (n : Int) : String :=
  if n < 0 then toString n else "+" ++ toString n

end ActionBytecode.Numeral
