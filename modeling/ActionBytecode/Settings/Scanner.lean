/-
  ActionBytecode — scanning the text of a settings file.

  A scanner reads the start of a text, or fails; what it leaves is for the next.  Here are the
  parts that every line has: blanks, comments and ends of lines.
-/
namespace ActionBytecode

/-- A reader of the start of a text. -/
abbrev Scanner := StateT (List Char) Option

namespace Scanner

/-- The next character, which stays. -/
def peek? : Scanner (Option Char) := fun cs => some (cs.head?, cs)

/-- Pass over `start`, if the text goes on with it. -/
def accept (start : List Char) : Scanner Bool := fun cs =>
  if start.isPrefixOf cs then some (true, cs.drop start.length) else some (false, cs)

/-- Pass over a character that has to come next. -/
def expect (c : Char) : Scanner Unit := do
  unless ← accept [c] do failure

/-- The characters up to the first without a property. -/
def takeWhile (p : Char → Bool) : Scanner (List Char) := fun cs =>
  some (cs.takeWhile p, cs.dropWhile p)

/-! ## Blanks and lines -/

/-- Whether a character separates words on a line. -/
def isBlank (c : Char) : Bool := c == ' ' || c == '\t'

/-- Whether a character can stand in a comment or in a string: any but the controls, of which
    only the tab can. -/
def isAllowed (c : Char) : Bool := c == '\t' || (0x20 ≤ c.toNat && c.toNat ≠ 0x7f)

/-- Pass over blanks. -/
def blanks : Scanner Unit := discard (takeWhile isBlank)

/-- Pass over the end of a line, with or without a carriage return. -/
def newline : Scanner Bool := do
  if ← accept ['\n'] then return true else accept ['\r', '\n']

/-- Pass over the rest of a line, which holds at most a comment. -/
def lineEnd : Scanner Unit := do
  blanks
  if ← accept ['#'] then discard (takeWhile isAllowed)
  unless ← newline do
    if (← peek?).isSome then failure

/-- What is left after blanks, ends of lines and comments; `comment` tells whether the text starts
    inside a comment. -/
def afterLines (comment : Bool) : List Char → Option (List Char)
  | [] => if comment then none else some []
  | '\n' :: rest => afterLines false rest
  | '\r' :: rest => if rest.head? = some '\n' then afterLines comment rest else none
  | c :: rest =>
    if comment then
      if isAllowed c then afterLines true rest else none
    else if c = '#' then afterLines true rest
    else if isBlank c then afterLines false rest
    else some (c :: rest)

/-- Pass over blanks, ends of lines and comments. -/
def lines : Scanner Unit := fun cs => (afterLines false cs).map ((), ·)

end Scanner

end ActionBytecode
