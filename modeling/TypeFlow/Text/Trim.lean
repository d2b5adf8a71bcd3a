import TypeFlow.Text.Printable
import TypeFlow.Text.Rune

/-! White space around a text. -/

namespace TypeFlow

/-- The characters with the property White_Space. -/
def isSpace (c : Char) : Bool :=
  Text.Printable.inRanges c.toNat [(0x09, 0x0D), (0x20, 0x20), (0x85, 0x85), (0xA0, 0xA0),
    (0x1680, 0x1680), (0x2000, 0x200A), (0x2028, 0x2029), (0x202F, 0x202F),
    (0x205F, 0x205F), (0x3000, 0x3000)]

def Rune.isSpace : Rune → Bool
  | char c => TypeFlow.isSpace c
  | stray _ => false

/-- A text without the white space at its ends. -/
def Text.trim (t : Text) : Text :=
  let runes := (Rune.ofText t).dropWhile Rune.isSpace
  ((runes.reverse.dropWhile Rune.isSpace).reverse.map Rune.toText).flatten

end TypeFlow
