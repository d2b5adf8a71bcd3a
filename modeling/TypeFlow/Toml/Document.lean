import TypeFlow.Toml.Grammar

/-! What a configuration text defines. -/

namespace TypeFlow.Toml

structure Document where
  fields : Fields
  /-- The keys that were written, each behind the keys of its value. -/
  keys : List Key

/-- Drops the marks of a text with two bytes for each character. -/
def dropByteOrder : Text → Text
  | 0xFF :: 0xFE :: t => t
  | 0xFE :: 0xFF :: t => t
  | t => t

def decoded : Rune → Char
  | .char c => c
  | .stray _ => undecoded

/-- Counts the place of a crash in bytes from the front of the text with the characters `cs`. -/
def Fault.placed (cs : List Char) : Fault → Fault
  | .crash (.bounds left) => .crash (.bounds (Text.ofChars (cs.take (cs.length - left))).length)
  | f => f

namespace Document

/-- The document of a text, which may have no null byte near its start. -/
def read (t : Text) : Except Fault Document := do
  let t := dropByteOrder t
  if (t.take 6).contains 0 then throw .malformed
  let cs := (Rune.ofText t).map decoded
  let result := ((Writer.statements [] (2 * cs.length + 2)).run {}).run cs
  let ((_, d), _) ← result.mapError (Fault.placed cs)
  return ⟨d.fields, d.keys.reverse⟩

end Document

end TypeFlow.Toml
