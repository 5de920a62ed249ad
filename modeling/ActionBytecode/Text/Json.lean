/-
  ActionBytecode — JSON text.

  Reports can be written as JSON, indented by two blanks.  Members keep the order in which they
  are given.
-/
import ActionBytecode.Text.Numeral

namespace ActionBytecode

/-- A value that can be written as JSON. -/
inductive JsonValue where
  | truth (value : Bool)
  | number (value : Nat)
  | text (value : String)
  | array (members : List JsonValue)
  | object (members : List (String × JsonValue))

namespace JsonValue

/-- One character inside double quotes. -/
def escape (c : Char) : String :=
  match c with
  | '"' => "\\\""
  | '\\' => "\\\\"
  | '\n' => "\\n"
  | '\r' => "\\r"
  | '\t' => "\\t"
  | '\x08' => "\\b"
  | '\x0c' => "\\f"
  | c =>
    if c.toNat < 0x10 then "\\u000" ++ Numeral.hexDigits c.toNat
    else if c.toNat < 0x20 then "\\u00" ++ Numeral.hexDigits c.toNat
    else c.toString

/-- `s` between double quotes. -/
def quote (s : String) : String :=
  "\"" ++ String.join (s.toList.map escape) ++ "\""

/-- Items between two brackets, one to a line, the lines of the items indented by `margin` and two
    blanks more.  Without items the brackets stand next to each other. -/
def bracket (opening closing margin : String) (items : List String) : String :=
  if items.isEmpty then opening ++ closing
  else
    let inner := "\n" ++ margin ++ "  "
    opening ++ inner ++ ("," ++ inner).intercalate items ++ "\n" ++ margin ++ closing

mutual
/-- The text of a value that stands on a line indented by `margin`. -/
def pretty (margin : String) : JsonValue → String
  | truth value => if value then "true" else "false"
  | number value => toString value
  | text value => quote value
  | array members => bracket "[" "]" margin (prettyAll (margin ++ "  ") members)
  | object members => bracket "\x7b" "\x7d" margin (prettyMembers (margin ++ "  ") members)

/-- The texts of the members of an array. -/
def prettyAll (margin : String) : List JsonValue → List String
  | [] => []
  | value :: values => pretty margin value :: prettyAll margin values

/-- The texts of the members of an object. -/
def prettyMembers (margin : String) : List (String × JsonValue) → List String
  | [] => []
  | (key, value) :: members =>
    (quote key ++ ": " ++ pretty margin value) :: prettyMembers margin members
end

end JsonValue

end ActionBytecode
