/-
  ActionBytecode — quoted text.

  Names and string constants appear in listings between double quotes.  `quote` shows them so
  that the text stays on one line and every character can be told: five characters have an
  escape of their own, hidden characters (`Printable.isHidden`) are written by code point, and
  all else stands for itself.
-/
import ActionBytecode.Text.Numeral
import ActionBytecode.Text.Printable

namespace ActionBytecode.Quoted

/-- One character inside double quotes. -/
def escape (c : Char) : String :=
  match c with
  | '\x00' => "\\0"
  | '\t' => "\\t"
  | '\r' => "\\r"
  | '\n' => "\\n"
  | '"' => "\\\""
  | '\\' => "\\\\"
  | c =>
    if Printable.isHidden c then "\\u\x7b" ++ Numeral.hexDigits c.toNat ++ "\x7d"
    else c.toString

/-- `s` between double quotes. -/
def quote (s : String) : String :=
  "\"" ++ String.join (s.toList.map escape) ++ "\""

end ActionBytecode.Quoted
