/-
  ActionBytecode — double-precision constants and their text.

  A constant is kept as the 64 bits that stand on the wire, so that every NaN stays the one it
  was.  `Double.text` writes it with the fewest digits that read back, positionally between
  10^-4 and 10^16 and with an exponent elsewhere.
-/
import ActionBytecode.Decimal.Shortest

namespace ActionBytecode

/-- A double-precision number, by its bits. -/
structure Double where
  bits : UInt64
  deriving DecidableEq, Repr

namespace Double

/-- The NaN at index 0 of the double table. -/
def nan : Double := ⟨0x7ff8000000000000⟩

variable (d : Double)

/-- Whether the sign bit is set. -/
def isNegative : Bool := d.bits >>> 63 == 1

/-- The eleven bits of the exponent. -/
def exponentField : Nat := (d.bits >>> 52 &&& 0x7ff).toNat

/-- The fifty-two bits of the fraction. -/
def fraction : Nat := (d.bits &&& 0xfffffffffffff).toNat

/-- The absolute value of a finite number other than zero. -/
def magnitude : Decimal.Binary :=
  if d.exponentField = 0 then ⟨d.fraction, -1074, false⟩
  else
    { mantissa := 0x10000000000000 + d.fraction
      exponent := d.exponentField - 1075
      atPower := d.fraction = 0 && 1 < d.exponentField }

/-- Digits with a point, and at least one digit on either side of it. -/
def positional (digits : String) (exponent : Int) : String :=
  let zeros (n : Int) : String := String.ofList (List.replicate n.toNat '0')
  let places := -exponent
  let size : Int := digits.length
  if places ≤ 0 then digits ++ zeros exponent ++ ".0"
  else if places < size then
    let whole := (size - places).toNat
    String.ofList (digits.toList.take whole) ++ "." ++ String.ofList (digits.toList.drop whole)
  else "0." ++ zeros (places - size) ++ digits

/-- One digit before the point, and a power of ten. -/
def scientific (digits : String) (exponent : Int) : String :=
  let power := toString (exponent + digits.length - 1)
  match digits.toList with
  | first :: second :: rest =>
    String.ofList (first :: '.' :: second :: rest) ++ "e" ++ power
  | _ => digits ++ "e" ++ power

/-- A positive decimal: positional from `10^-4` on and below `10^16`. -/
def decimalText (x : Decimal.Scientific) : String :=
  let digits := toString x.coefficient
  let leading := x.exponent + digits.length - 1
  if -4 ≤ leading && leading < 16 then positional digits x.exponent
  else scientific digits x.exponent

/-- The number in the fewest digits that read back. -/
def text : String :=
  let sign := if d.isNegative then "-" else ""
  if d.exponentField = 0x7ff then
    if d.fraction = 0 then sign ++ "inf" else "NaN"
  else if d.exponentField = 0 && d.fraction = 0 then sign ++ "0.0"
  else sign ++ decimalText d.magnitude.shortest

end Double

end ActionBytecode
