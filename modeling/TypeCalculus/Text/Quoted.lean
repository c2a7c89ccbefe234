import TypeCalculus.Text.Class
import TypeCalculus.Text.Printable

/-! Text between double quotes. Quotes and backslashes are escaped, control characters have their
    short names or a hexadecimal code, and other characters that do not print have a code of four or
    eight digits. -/

namespace TypeCalculus.Text

/-- How one character stands inside quotes. -/
def escaped (c : Char) : String :=
  match c with
  | '"' => "\\\""
  | '\\' => "\\\\"
  | '\n' => "\\n"
  | '\t' => "\\t"
  | '\r' => "\\r"
  | c =>
    if isPrintable c then String.singleton c
    else if c.toNat = 0x7 then "\\a"
    else if c.toNat = 0x8 then "\\b"
    else if c.toNat = 0xC then "\\f"
    else if c.toNat = 0xB then "\\v"
    else if c.toNat < 0x20 || c.toNat = 0x7F then "\\x" ++ hexPadded 2 c.toNat
    else if c.toNat < 0x10000 then "\\u" ++ hexPadded 4 c.toNat
    else "\\U" ++ hexPadded 8 c.toNat

/-- The text between double quotes. -/
def quote (s : String) : String :=
  "\"" ++ String.join (s.toList.map escaped) ++ "\""

end TypeCalculus.Text
