import TypeFlow.Toml.Syntax

/-! Points in time: a date, a time of day, or both with or without an offset. Days have to exist in
the calendar. -/

namespace TypeFlow.Toml.Moment

def digit? (c : Char) : Option Nat := if c.isDigit then some (c.toNat - 48) else none

/-- A number of two digits. -/
def two? : List Char → Option (Nat × List Char)
  | a :: b :: cs => do return ((← digit? a) * 10 + (← digit? b), cs)
  | _ => none

/-- A number of one or two digits. -/
def oneOrTwo? : List Char → Option (Nat × List Char)
  | a :: b :: cs => do
    let tens ← digit? a
    match digit? b with
    | some ones => return (tens * 10 + ones, cs)
    | none => return (tens, b :: cs)
  | [a] => (digit? a).map (·, [])
  | [] => none

def drop? (c : Char) : List Char → Option (List Char)
  | [] => none
  | d :: cs => if c = d then some cs else none

def isLeap (year : Nat) : Bool := year % 4 = 0 && (year % 100 != 0 || year % 400 = 0)

def daysIn (year month : Nat) : Nat :=
  if month = 2 then if isLeap year then 29 else 28
  else if [4, 6, 9, 11].contains month then 30
  else 31

/-- The rest behind a date. -/
def date? (cs : List Char) : Option (List Char) := do
  let (century, cs) ← two? cs
  let (year, cs) ← two? cs
  let (month, cs) ← two? (← drop? '-' cs)
  let (day, cs) ← two? (← drop? '-' cs)
  guard (1 ≤ month && month ≤ 12 && 1 ≤ day && day ≤ daysIn (century * 100 + year) month)
  return cs

/-- The rest behind a fraction of a second, which may be missing. -/
def fraction : List Char → List Char
  | '.' :: c :: cs => if c.isDigit then cs.dropWhile Char.isDigit else '.' :: c :: cs
  | cs => cs

/-- The rest behind a time of day. -/
def time? (cs : List Char) : Option (List Char) := do
  let (hour, cs) ← oneOrTwo? cs
  let (minute, cs) ← two? (← drop? ':' cs)
  let (second, cs) ← two? (← drop? ':' cs)
  guard (hour < 24 && minute < 60 && second < 60)
  return fraction cs

/-- The rest behind an offset. -/
def offset? : List Char → Option (List Char)
  | 'Z' :: cs => some cs
  | sign :: cs => do
    guard (sign = '+' || sign = '-')
    let (hour, cs) ← two? cs
    let (minute, cs) ← two? (← drop? ':' cs)
    guard (hour ≤ 24 && minute ≤ 60)
    return cs
  | [] => none

/-- A blank or a small letter may stand for the mark between date and time. -/
def normal (c : Char) : Char := if c = 't' || c = ' ' then 'T' else if c = 'z' then 'Z' else c

def accepts (cs : List Char) : Bool :=
  let cs := cs.map normal
  let day := date? cs
  let instant := (day.bind (drop? 'T')).bind time?
  day = some [] || instant = some [] || instant.bind offset? = some [] || time? cs = some []

/-- Characters that points in time are written with. -/
def isMark (c : Char) : Bool := c.isDigit || "-:Tt .Zz+".toList.contains c

end TypeFlow.Toml.Moment
