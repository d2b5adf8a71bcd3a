import TypeFlow.Text

/-! Reading bytes as UTF-8. A byte that starts no well-formed sequence stands for itself, so every
text has runes. -/

namespace TypeFlow

inductive Rune where
  | char (c : Char)
  | stray (b : UInt8)
  deriving DecidableEq, Repr

namespace Rune

def isContinuation (b : UInt8) : Bool := 0x80 ≤ b && b ≤ 0xBF

/-- The low six bits of a continuation byte. -/
def payload (b : UInt8) : Nat := b.toNat % 64

/-- The character that starts with the byte `b`, and the number of further bytes it takes. Overlong
forms, surrogates and values beyond the last code point have no character. -/
def decode? (b : UInt8) (rest : Text) : Option (Char × Nat) :=
  if b < 0x80 then some (Char.ofNat b.toNat, 0)
  else
    match rest with
    | [] => none
    | c :: rest =>
      if 0xC2 ≤ b && b ≤ 0xDF && isContinuation c then
        some (Char.ofNat ((b.toNat - 0xC0) * 64 + payload c), 1)
      else
        match rest with
        | [] => none
        | d :: rest =>
          if 0xE0 ≤ b && b ≤ 0xEF && isContinuation c && isContinuation d
              && !(b == 0xE0 && c < 0xA0) && !(b == 0xED && c > 0x9F) then
            some (Char.ofNat ((b.toNat - 0xE0) * 4096 + payload c * 64 + payload d), 2)
          else
            match rest with
            | [] => none
            | e :: _ =>
              if 0xF0 ≤ b && b ≤ 0xF4 && isContinuation c && isContinuation d && isContinuation e
                  && !(b == 0xF0 && c < 0x90) && !(b == 0xF4 && c > 0x8F) then
                some (Char.ofNat ((b.toNat - 0xF0) * 262144 + payload c * 4096 + payload d * 64
                  + payload e), 3)
              else none

/-- The runes of a text after its first `skip` bytes. -/
def ofTextFrom : Nat → Text → List Rune
  | _, [] => []
  | skip + 1, _ :: rest => ofTextFrom skip rest
  | 0, b :: rest =>
    match decode? b rest with
    | some (c, n) => char c :: ofTextFrom n rest
    | none => stray b :: ofTextFrom 0 rest

def ofText (t : Text) : List Rune := ofTextFrom 0 t

def toText : Rune → Text
  | char c => String.singleton c
  | stray b => [b]

end Rune

/-- The bytes of a sequence of characters. -/
def Text.ofChars (cs : List Char) : Text := Text.ofString (String.ofList cs)

end TypeFlow
