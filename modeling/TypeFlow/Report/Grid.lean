import TypeFlow.Text.Columns

/-! Tables drawn with lines. Every column is as wide as its widest entry; the header is centred and
the cells are set flush left. A cell may have several lines. -/

namespace TypeFlow

structure Grid where
  header : List Text
  rows : List (List Text)

namespace Grid

def blanks (n : Nat) : Text := List.replicate n (Text.ascii ' ')

def centred (width : Nat) (t : Text) : Text :=
  let gap := width - t.columns
  blanks (gap / 2) ++ t ++ blanks (gap - gap / 2)

def flushLeft (width : Nat) (t : Text) : Text := t ++ blanks (width - t.columns)

def cellLines (cell : Text) : List Text := Text.split (Text.ascii '\n') cell

def cellWidth (cell : Text) : Nat := ((cellLines cell).map Text.columns).foldl max 0

/-- The widths of the columns. -/
def widths (g : Grid) : List Nat :=
  g.rows.foldl (fun ws row => List.zipWith max ws (row.map cellWidth)) (g.header.map cellWidth)

def dashes (n : Nat) : Text := List.replicate n (Text.ascii '-') ++ "+"

def rule (widths : List Nat) : Text :=
  "+" ++ (widths.map fun w => dashes (w + 2)).flatten ++ "\n"

def entry (t : Text) : Text := " " ++ t ++ " |"

/-- A line of entries with bars around them. -/
def barred (entries : List Text) : Text := "|" ++ (entries.map entry).flatten ++ "\n"

/-- The lines of a row. Cells with fewer lines than the row are filled up with lines of two blanks.
-/
def rowText (align : Nat → Text → Text) (widths : List Nat) (row : List Text) : Text :=
  let cells := row.map cellLines
  let height := (cells.map List.length).foldl max 0
  ((List.range height).map fun i =>
    barred (List.zipWith (fun w lines => align w (lines[i]?.getD (blanks 2))) widths cells)).flatten

def render (g : Grid) : Text :=
  let ws := g.widths
  rule ws ++ rowText centred ws g.header ++ rule ws
    ++ (g.rows.map (rowText flushLeft ws)).flatten ++ rule ws

end Grid

end TypeFlow
