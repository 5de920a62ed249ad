/-
  ActionBytecode — the shortest decimal that reads back as a binary number.

  A binary floating-point number `m · 2^q` is the nearest such number to every real in an
  interval around it.  Among the decimals of that interval `shortest` gives one with the fewest
  digits, and of two of those the nearer; between two equally near it takes the larger.

  The search walks down the grids `10^k · ℕ`, coarsest first.  If a grid has a point in the
  interval, then one of the number's two neighbours on that grid is such a point, so testing
  these two (`onGrid`) decides each grid.
-/
namespace ActionBytecode.Decimal

/-- A positive binary number `mantissa · 2^exponent`.  At a power of two (`atPower`) the gap to
    the number below is half the gap to the number above. -/
structure Binary where
  mantissa : Nat
  exponent : Int
  atPower : Bool

/-- The decimal `coefficient · 10^exponent`. -/
structure Scientific where
  coefficient : Nat
  exponent : Int
  deriving DecidableEq, Repr

namespace Binary

variable (b : Binary)

/-- The number itself, in quarters of `2^exponent`. -/
def value : Nat := 4 * b.mantissa

/-- The lower end of the interval that rounds to the number, in the same quarters. -/
def low : Nat := b.value - if b.atPower then 1 else 2

/-- The upper end of the interval that rounds to the number, in the same quarters. -/
def high : Nat := b.value + 2

/-- The ends round to the number as well exactly when its mantissa is even. -/
def endsIncluded : Bool := b.mantissa % 2 == 0

/-- The point of the grid `10^k · ℕ` that stands for the number, if the grid has one in the
    interval: the nearer of its two neighbours there, the upper one when both are as near. -/
def onGrid (k : Int) : Option Nat :=
  let quarter := Nat.pow 2 (b.exponent - 2).toNat * Nat.pow 10 (-k).toNat
  let step := Nat.pow 10 k.toNat * Nat.pow 2 (2 - b.exponent).toNat
  let value := b.value * quarter
  let below := value / step
  let inside (n : Nat) : Bool :=
    if b.endsIncluded then b.low * quarter ≤ n * step && n * step ≤ b.high * quarter
    else b.low * quarter < n * step && n * step < b.high * quarter
  match inside below, inside (below + 1) with
  | true, true =>
    some (if value - below * step < (below + 1) * step - value then below else below + 1)
  | true, false => some below
  | false, true => some (below + 1)
  | false, false => none

/-- The first of the grids `10^k · ℕ`, `10^(k-1) · ℕ`, … with a point in the interval, looking
    at no more than `tries` of them. -/
def search : (tries : Nat) → (k : Int) → Scientific
  | 0, k => ⟨b.value, k⟩
  | tries + 1, k =>
    match b.onGrid k with
    | some n => ⟨n, k⟩
    | none => search tries (k - 1)

/-- An exponent of ten above the number: `2^e < 10^(e · 0.30103 + 1)`. -/
def topGrid : Int :=
  (Nat.log2 b.mantissa + 1 + b.exponent) * 30103 / 100000 + 1

/-- The shortest decimal that rounds to the number.  Seventeen digits always suffice, and the
    first grid is at most three above the number's own leading digit. -/
def shortest : Scientific :=
  b.search 24 b.topGrid

end Binary

end ActionBytecode.Decimal
