/-
  ActionBytecode — strings in a settings file.

  A string stands between double or single quotes.  Between double quotes a backslash starts an
  escape; between single quotes every character stands for itself.  Three quotes in a row start a
  string that can go over several lines: its first line is left out when it is empty, a line ends
  with a line feed however the file ends it, and a backslash at the end of a line leaves out all
  blanks up to the next word.  Such a string ends with three quotes, before which it can have one
  or two of its own.
-/
import ActionBytecode.Settings.Scanner

namespace ActionBytecode

/-- How a string is written. -/
structure Quotation where
  mark : Char
  /-- Whether a backslash starts an escape. -/
  escapes : Bool
  /-- Whether it can go over several lines. -/
  multiline : Bool
  deriving DecidableEq, Repr

namespace Quotation

/-- What the next character of a string belongs to. -/
inductive Mode where
  | plain
  /-- It comes after a backslash. -/
  | escaped
  /-- It is a digit of a code point that starts with `value` and lacks `missing` digits. -/
  | codePoint (missing value : Nat)
  /-- It comes before the end of a line that a backslash has closed. -/
  | lineEnd
  /-- It comes after such an end, before the next word. -/
  | margin
  deriving DecidableEq, Repr

/-- The character that a letter after a backslash stands for. -/
def escape? : Char → Option Char
  | 'b' => some '\x08'
  | 't' => some '\t'
  | 'n' => some '\n'
  | 'f' => some '\x0c'
  | 'r' => some '\r'
  | '"' => some '"'
  | '\\' => some '\\'
  | _ => none

/-- The value of a digit in base sixteen. -/
def hexValue? (c : Char) : Option Nat :=
  if c.isDigit then some (c.toNat - '0'.toNat)
  else if 'a' ≤ c ∧ c ≤ 'f' then some (c.toNat - 'a'.toNat + 10)
  else if 'A' ≤ c ∧ c ≤ 'F' then some (c.toNat - 'A'.toNat + 10)
  else none

section
variable (style : Quotation)

/-- What follows a string that ends before `cs`, with the quotes that still belong to it. -/
def close? : List Char → Option (List Char × List Char)
  | a :: b :: c :: rest =>
    if a ≠ style.mark then none
    else if !style.multiline then some ([], b :: c :: rest)
    else if b ≠ style.mark ∨ c ≠ style.mark then none
    else
      let more := (rest.take 2).takeWhile (· = style.mark)
      some (more, rest.drop more.length)
  | a :: rest => if a = style.mark ∧ !style.multiline then some ([], rest) else none
  | [] => none

/-- Whether `c`, with `rest` after it, is the carriage return of an end of line. -/
def isReturn (c : Char) (rest : List Char) : Bool := c == '\r' && rest.head? == some '\n'

/-- The rest of a string of which `done` was read, last character first, and what follows it. -/
def read (mode : Mode) (done : List Char) : List Char → Option (String × List Char)
  | [] => none
  | c :: rest =>
    let isSpace := Scanner.isBlank c || c == '\n' || isReturn c rest
    match if mode = .margin ∧ !isSpace then .plain else mode with
    | .plain =>
      match style.close? (c :: rest) with
      | some (quotes, rest) => some (String.ofList (done.reverse ++ quotes), rest)
      | none =>
        if c = '\\' ∧ style.escapes then read .escaped done rest
        else if style.multiline ∧ isReturn c rest then read .plain done rest
        else if Scanner.isAllowed c ∨ (style.multiline ∧ c = '\n') then read .plain (c :: done) rest
        else none
    | .escaped =>
      if style.multiline ∧ isSpace then
        if c = '\n' then read .margin done rest else read .lineEnd done rest
      else if c = 'u' then read (.codePoint 4 0) done rest
      else if c = 'U' then read (.codePoint 8 0) done rest
      else
        match escape? c with
        | some c => read .plain (c :: done) rest
        | none => none
    | .codePoint missing value =>
      match hexValue? c with
      | none => none
      | some digit =>
        let value := 16 * value + digit
        if missing > 1 then read (.codePoint (missing - 1) value) done rest
        else if value.isValidChar then read .plain (Char.ofNat value :: done) rest
        else none
    | .lineEnd =>
      if c = '\n' then read .margin done rest
      else if isSpace then read .lineEnd done rest
      else none
    | .margin => read .margin done rest

end

/-- The way of the string that the text goes on with. -/
def next : Scanner Quotation := do
  if ← Scanner.accept ['"', '"', '"'] then return ⟨'"', true, true⟩
  if ← Scanner.accept ['\'', '\'', '\''] then return ⟨'\'', false, true⟩
  if ← Scanner.accept ['"'] then return ⟨'"', true, false⟩
  Scanner.expect '\''
  return ⟨'\'', false, false⟩

end Quotation

namespace Scanner

/-- A string. -/
def string : Scanner String := do
  let style ← Quotation.next
  if style.multiline then discard newline
  style.read .plain []

/-- A string that stays on its line. -/
def lineString : Scanner String := do
  if ← accept ['"'] then Quotation.read ⟨'"', true, false⟩ .plain []
  else
    expect '\''
    Quotation.read ⟨'\'', false, false⟩ .plain []

end Scanner

end ActionBytecode
