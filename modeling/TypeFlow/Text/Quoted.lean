import TypeFlow.Text.Printable
import TypeFlow.Text.Rune

/-! Quoted text: printable characters as they are, every other character and every stray byte as an
escape. -/

namespace TypeFlow.Text

/-- The hexadecimal numeral of `n` with at least `width` digits. -/
def hex (width n : Nat) : Text := padLeft (ascii '0') width (numeral 16 n)

namespace Quoted

def escapeChar (c : Char) : Text :=
  if c = '"' then "\\\""
  else if c = '\\' then "\\\\"
  else if isPrintable c then String.singleton c
  else if c.toNat = 7 then "\\a"
  else if c.toNat = 8 then "\\b"
  else if c.toNat = 12 then "\\f"
  else if c = '\n' then "\\n"
  else if c = '\r' then "\\r"
  else if c = '\t' then "\\t"
  else if c.toNat = 11 then "\\v"
  else if c.toNat < 0x20 || c.toNat = 0x7f then "\\x" ++ hex 2 c.toNat
  else if c.toNat < 0x10000 then "\\u" ++ hex 4 c.toNat
  else "\\U" ++ hex 8 c.toNat

def escape : Rune → Text
  | .char c => escapeChar c
  | .stray b => "\\x" ++ hex 2 b.toNat

end Quoted

def quoted (t : Text) : Text := "\"" ++ (Rune.ofText t).flatMap Quoted.escape ++ "\""

end TypeFlow.Text
