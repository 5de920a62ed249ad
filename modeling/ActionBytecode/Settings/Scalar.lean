/-
  ActionBytecode — words in a settings file.

  A value that is no string, list or table is one word: a truth value, a number, or a moment in
  time.  Of numbers and moments only their form matters, since nothing can be set by one; but a
  word of another form makes the file unreadable.

  * An integer fits in 64 bits.  It has a sign and digits without needless zeros, or a base.
  * A fraction has a part after the point, an exponent, or both.  One above all finite doubles is
    no number, while one below all of them is.
  * A moment is a date, a time, or both, and then it can tell how far the time is off.
-/
import ActionBytecode.Settings.Text

namespace ActionBytecode

/-- What a word says. -/
inductive Scalar where
  | truth (value : Bool)
  | number
  | moment
  deriving DecidableEq, Repr

namespace Scalar

/-! ## Digits -/

/-- Whether text has digits only, with at most one underscore between two of them. -/
def isDigitRun (isDigit : Char → Bool) : List Char → Bool
  | [] => false
  | [c] => isDigit c
  | c :: '_' :: rest => isDigit c && isDigitRun isDigit rest
  | c :: rest => isDigit c && isDigitRun isDigit rest

/-- The number that digits in a base up to sixteen stand for. -/
def numberOf (base : Nat) (digits : List Char) : Nat :=
  (digits.filterMap Quotation.hexValue?).foldl (fun n digit => base * n + digit) 0

/-- Whether a character is a digit in a base up to sixteen. -/
def isDigitIn (base : Nat) (c : Char) : Bool := (Quotation.hexValue? c).any (· < base)

/-- Whether digits in base ten have no needless zero. -/
def isDecimal (digits : List Char) : Bool :=
  isDigitRun Char.isDigit digits && (digits.head? != some '0' || digits.length == 1)

/-- Whether text has a minus sign, and what follows its sign. -/
def signed : List Char → Bool × List Char
  | '-' :: rest => (true, rest)
  | '+' :: rest => (false, rest)
  | cs => (false, cs)

/-! ## Numbers -/

/-- How many integers of 64 bits are not negative. -/
def integerLimit : Nat := 0x8000000000000000

/-- Whether text is an integer in a base, without a sign. -/
def isBased (base : Nat) (digits : List Char) : Bool :=
  isDigitRun (isDigitIn base) digits && numberOf base digits < integerLimit

/-- Whether text is an integer. -/
def isInteger : List Char → Bool
  | '0' :: 'x' :: digits => isBased 16 digits
  | '0' :: 'o' :: digits => isBased 8 digits
  | '0' :: 'b' :: digits => isBased 2 digits
  | cs =>
    let (negative, digits) := signed cs
    isDecimal digits && numberOf 10 digits < integerLimit + (if negative then 1 else 0)

/-- The least number that is nearer to 2 to the power of 1024 than to any finite double. -/
def doubleLimit : Nat := Nat.pow 2 1024 - Nat.pow 2 970

/-- Whether digits, moved by `exponent` places, stand for more than every finite double.  Only a
    number with about 300 places is worked out. -/
def isHuge (digits : List Char) (exponent : Int) : Bool :=
  let digits := digits.dropWhile (· == '0')
  let places := digits.length + exponent
  let number := numberOf 10 digits
  if digits.isEmpty || places < 300 then false
  else if places > 310 then true
  else if exponent ≥ 0 then number * Nat.pow 10 exponent.toNat ≥ doubleLimit
  else number ≥ doubleLimit * Nat.pow 10 (-exponent).toNat

/-- The exponent that text gives, 0 if it is empty. -/
def exponent? : List Char → Option Int
  | [] => some 0
  | c :: rest =>
    let (negative, digits) := signed rest
    if (c = 'e' ∨ c = 'E') ∧ isDigitRun Char.isDigit digits then
      some (if negative then -numberOf 10 digits else numberOf 10 digits)
    else none

/-- Whether text is a fraction. -/
def isFraction (cs : List Char) : Bool :=
  let (negative, cs) := signed cs
  let isPart (c : Char) : Bool := c.isDigit || c == '_'
  let whole := cs.takeWhile isPart
  let (places, rest) :=
    match cs.dropWhile isPart with
    | '.' :: rest => (some (rest.takeWhile isPart), rest.dropWhile isPart)
    | rest => (none, rest)
  let digits := (whole ++ places.getD []).filter Char.isDigit
  let moved := ((places.getD []).filter Char.isDigit).length
  isDecimal whole && places.all (isDigitRun Char.isDigit) && (places.isSome || !rest.isEmpty) &&
    (exponent? rest).any fun exponent => negative || !isHuge digits (exponent - moved)

/-- Whether text is infinite or no number at all, and says so. -/
def isSpecial (cs : List Char) : Bool :=
  (signed cs).2 == ['i', 'n', 'f'] || (signed cs).2 == ['n', 'a', 'n']

/-! ## Moments -/

/-- The number that two digits stand for. -/
def twoDigits? (a b : Char) : Option Nat :=
  if a.isDigit ∧ b.isDigit then some (numberOf 10 [a, b]) else none

/-- How many days a month has. -/
def daysIn (year month : Nat) : Nat :=
  if month = 2 then
    if year % 4 = 0 ∧ (year % 100 ≠ 0 ∨ year % 400 = 0) then 29 else 28
  else if month ∈ [4, 6, 9, 11] then 30
  else 31

/-- Whether text is a date. -/
def isDate : List Char → Bool
  | [a, b, c, d, '-', e, f, '-', g, h] =>
    match twoDigits? a b, twoDigits? c d, twoDigits? e f, twoDigits? g h with
    | some century, some year, some month, some day =>
      1 ≤ month && month ≤ 12 && 1 ≤ day && day ≤ daysIn (100 * century + year) month
    | _, _, _, _ => false
  | _ => false

/-- Whether text gives hours and minutes. -/
def isClock : List Char → Bool
  | [a, b, ':', c, d] => (twoDigits? a b).any (· < 24) && (twoDigits? c d).any (· < 60)
  | _ => false

/-- Whether text tells how far a time is off. -/
def isOffset : List Char → Bool
  | ['Z'] | ['z'] => true
  | '+' :: clock | '-' :: clock => isClock clock
  | _ => false

/-- Whether text is a time; where `zoned` holds, it can tell how far it is off. -/
def isTime (zoned : Bool) (cs : List Char) : Bool :=
  let afterSeconds (rest : List Char) : Bool := rest.isEmpty || (zoned && isOffset rest)
  isClock (cs.take 5) &&
    match cs.drop 5 with
    | ':' :: a :: b :: rest =>
      (twoDigits? a b).any (· ≤ 60) &&
        match rest with
        | '.' :: c :: rest => c.isDigit && afterSeconds (rest.dropWhile Char.isDigit)
        | rest => afterSeconds rest
    | _ => false

/-- Whether text is a moment. -/
def isMoment (cs : List Char) : Bool :=
  isTime false cs || (isDate (cs.take 10) &&
    match cs.drop 10 with
    | [] => true
    | c :: time => (c == 'T' || c == 't' || c == ' ') && isTime true time)

/-! ## Words -/

/-- What a word says. -/
def ofWord? (word : List Char) : Option Scalar :=
  if word = ['t', 'r', 'u', 'e'] then some (.truth true)
  else if word = ['f', 'a', 'l', 's', 'e'] then some (.truth false)
  else if isInteger word || isFraction word || isSpecial word then some .number
  else if isMoment word then some .moment
  else none

/-- Whether a character can stand in a word. -/
def isWordPart (c : Char) : Bool := c.isAlphanum || c ∈ ['_', '+', '-', '.', ':']

end Scalar

/-- A word.  The two parts of a moment can have a blank between them. -/
def Scanner.scalar : Scanner Scalar := do
  let word ← takeWhile Scalar.isWordPart
  let word ←
    match ← get with
    | ' ' :: c :: rest =>
      if Scalar.isDate word && c.isDigit then
        set (c :: rest)
        pure (word ++ ' ' :: (← takeWhile Scalar.isWordPart))
      else pure word
    | _ => pure word
  Scalar.ofWord? word

end ActionBytecode
