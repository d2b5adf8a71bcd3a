import TypeFlow.Text.Rune
import TypeFlow.Toml.Syntax

/-! Quoted texts: on one line or on several, with escapes between double quotes and without between
single ones. A text is first cut at its closing quotes; lines are joined and escapes replaced in
what was cut off. -/

namespace TypeFlow.Toml

/-- Cuts behind the quote that closes a text on one line. `escaped` says that the character before
was a backslash that escapes the next. -/
def untilQuote (quote : Char) (escapes escaped : Bool) : List Char → Option (List Char × List Char)
  | [] => none
  | c :: cs =>
    if !escaped && c = quote then some ([], cs)
    else if isForbidden c || isBreak c then none
    else
      (untilQuote quote escapes (escapes && !escaped && c = '\\') cs).map fun (inside, rest) =>
        (c :: inside, rest)

def hexValue? (c : Char) : Option Nat :=
  if '0' ≤ c && c ≤ '9' then some (c.toNat - 48)
  else if 'a' ≤ c && c ≤ 'f' then some (c.toNat - 87)
  else if 'A' ≤ c && c ≤ 'F' then some (c.toNat - 55)
  else none

def isHex (c : Char) : Bool := (hexValue? c).isSome

/-- Whether a text starts with that many hexadecimal digits. -/
def startsHex (count : Nat) (cs : List Char) : Bool :=
  (cs.take count).length = count && (cs.take count).all isHex

/-- Whether a backslash on one of several lines may stand before `c` and then `cs`. Before blanks it
may be meant for the end of the line. -/
def mayFollow (c : Char) (cs : List Char) : Bool :=
  isBlank c || isBreak c || "btnfr\"\\".toList.contains c || c = 'u' && startsHex 4 cs
    || c = 'U' && startsHex 8 cs

/-- What comes before a character of a text on several lines. -/
inductive Before where
  | nothing
  | backslash
  /-- A run of quotes. One that follows an escaped quote counts that quote, too. -/
  | quotes (run counted : Nat)
  deriving DecidableEq, Repr

/-- Ends a run of quotes. A run of three closes the text, and one or two more before them belong to
it. -/
def closeRun (quote : Char) (run counted : Nat) : Option (Option (List Char)) :=
  if run < 3 then some none
  else if counted ≤ 5 then some (some (List.replicate (run - 3) quote))
  else none

/-- Whether `c` may stand before `cs` in a text on several lines. -/
def isPlain (c : Char) (cs : List Char) : Bool :=
  !isForbidden c && (c != '\r' || cs.head? = some '\n')

/-- Cuts behind the three quotes that close a text on several lines. -/
def untilQuotes (quote : Char) (escapes : Bool) : Before → List Char →
    Option (List Char × List Char)
  | .quotes run counted, [] => do
    let inside ← ← closeRun quote run counted
    return (inside, [])
  | _, [] => none
  | before, c :: cs =>
    let more (before : Before) : Option (List Char × List Char) :=
      (untilQuotes quote escapes before cs).map fun (inside, rest) => (c :: inside, rest)
    let plain (quotes : List Char) : Option (List Char × List Char) :=
      if isPlain c cs then
        (more (if escapes && c = '\\' then .backslash else .nothing)).map fun (inside, rest) =>
          (quotes ++ inside, rest)
      else none
    match before with
    | .backslash =>
      if mayFollow c cs then more (if c = quote then .quotes 0 1 else .nothing) else none
    | .nothing => if c = quote then untilQuotes quote escapes (.quotes 1 1) cs else plain []
    | .quotes run counted =>
      if c = quote then untilQuotes quote escapes (.quotes (run + 1) (counted + 1)) cs
      else
        match closeRun quote run counted with
        | none => none
        | some (some inside) => if c = undecoded then none else some (inside, c :: cs)
        | some none => plain (List.replicate run quote)

/-- The character with a code point written in hexadecimal. -/
def codePoint (digits : List Char) : Except Fault Char :=
  let n := digits.foldl (fun n c => n * 16 + (hexValue? c).getD 0) 0
  if digits.all isHex && n.isValidChar then .ok (Char.ofNat n) else .error .malformed

def escaped : Char → Except Fault Char
  | 'b' => .ok '\x08'
  | 't' => .ok '\t'
  | 'n' => .ok '\n'
  | 'f' => .ok '\x0c'
  | 'r' => .ok '\r'
  | '"' => .ok '"'
  | '\\' => .ok '\\'
  | '\r' => .error (.crash .escape)
  | _ => .error .malformed

/-- Replaces escapes, of which each has to be known. -/
def unescape : List Char → Except Fault (List Char)
  | [] => .ok []
  | '\\' :: 'u' :: a :: b :: c :: d :: cs => do
    return (← codePoint [a, b, c, d]) :: (← unescape cs)
  | '\\' :: 'U' :: a :: b :: c :: d :: e :: f :: g :: h :: cs => do
    return (← codePoint [a, b, c, d, e, f, g, h]) :: (← unescape cs)
  | '\\' :: c :: cs => do return (← escaped c) :: (← unescape cs)
  | ['\\'] => .error .malformed
  | c :: cs => (unescape cs).map (c :: ·)

def lines (cs : List Char) : List (List Char) := cs.splitOn '\n'

def dropRight (p : Char → Bool) (cs : List Char) : List Char := (cs.reverse.dropWhile p).reverse

def isMargin (c : Char) : Bool := isBlank c || c = '\r'

/-- Joins lines. A backslash at the end of a line, blanks aside, is dropped with them, with the line
break and with the blanks at the start of the next line. `joined` says that the last line which
ended in backslashes ended so; line breaks behind it are left out. -/
def joinLines (joined indented : Bool) : List (List Char) → List Char
  | [] => []
  | line :: rest =>
    let line := if indented then line.dropWhile isMargin else line
    let body := dropRight isMargin line
    let backslashes := (body.reverse.takeWhile (· = '\\')).length
    if backslashes = 0 then
      let stop : List Char := if joined || rest.isEmpty then [] else ['\n']
      dropRight (· = '\r') line ++ stop ++ joinLines joined false rest
    else if backslashes % 2 = 0 then line ++ '\n' :: joinLines false false rest
    else
      let body := if joined then body.dropWhile isMargin else body
      body.dropLast ++ joinLines true true rest

/-- Drops a line break right behind the opening quotes. -/
def dropFirstBreak : List Char → List Char
  | '\n' :: cs => cs
  | '\r' :: '\n' :: cs => cs
  | cs => cs

/-- A text on one line, from behind its opening quote. -/
def oneLine (quote : Char) : Reader Text := fun cs => do
  match untilQuote quote (quote = '"') false cs with
  | none => throw .malformed
  | some (inside, rest) =>
    let inside ← if quote = '"' then unescape inside else pure inside
    return (Text.ofChars inside, rest)

/-- A text on several lines, from behind its opening quotes. -/
def manyLines (quote : Char) : Reader Text := fun cs => do
  if [quote, quote, quote, undecoded].isPrefixOf cs then throw (.crash (.bounds cs.length))
  match untilQuotes quote (quote = '"') .nothing cs with
  | none => throw .malformed
  | some (inside, rest) =>
    let inside ←
      if quote = '"' then unescape (dropFirstBreak (joinLines false false (lines inside)))
      else pure (dropFirstBreak inside)
    return (Text.ofChars inside, rest)

/-- A text, from behind the first of its opening quotes. -/
def quoted (quote : Char) : Reader Text := fun
  | a :: b :: cs =>
    if a = quote && b = quote then manyLines quote cs else oneLine quote (a :: b :: cs)
  | cs => oneLine quote cs

end TypeFlow.Toml
