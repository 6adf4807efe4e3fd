import WorkflowEngine.Text.Width

/-!
# Tables on a screen

Cells stand in columns between lines, each as wide as its widest cell. A cell of several lines makes
its row higher.

## Main definitions

* `Table`: the texts of a table
* `Table.text`: the table as drawn
-/

namespace WorkflowEngine.CommandLine

/-- The texts of a table. -/
structure Table where
  header : List String
  rows : List (List String)

namespace Table

/-- The lines of a cell. -/
def linesOf (cell : String) : List String := (cell.toList.splitOn '\n').map String.ofList

/-- The columns that a cell needs. -/
def cellWidth (cell : String) : Nat := ((linesOf cell).map Text.width).foldl max 0

/-- The widths of the columns. -/
def widths (t : Table) : List Nat :=
  t.rows.foldl (fun ws row => List.zipWith max ws (row.map cellWidth)) (t.header.map cellWidth)

/-- A text filled up with blanks. -/
def padded (width : Nat) (s : String) : String :=
  s ++ String.ofList (List.replicate (width - Text.width s) ' ')

/-- A line that is drawn between rows: its ends, what joins columns, and what fills them. -/
def rule (left fill middle right : String) (widths : List Nat) : String :=
  let column := fun w => String.join (List.replicate (w + 2) fill)
  left ++ middle.intercalate (widths.map column) ++ right

/-- One line of a row. -/
def line (widths : List Nat) (cells : List String) : String :=
  let column := fun w s => " " ++ padded w s ++ " "
  "│" ++ "┆".intercalate (List.zipWith column widths cells) ++ "│"

/-- The lines of a row. -/
def rowLines (widths : List Nat) (row : List String) : List String :=
  let cells := row.map linesOf
  let height := (cells.map List.length).foldl max 1
  (List.range height).map fun i => line widths (cells.map fun c => c.getD i "")

/-- The table as drawn. -/
def text (t : Table) : String :=
  let ws := t.widths
  "\n".intercalate <|
    [rule "┌" "─" "┬" "┐" ws] ++ rowLines ws t.header ++ [rule "╞" "═" "╪" "╡" ws] ++
      t.rows.flatMap (rowLines ws) ++ [rule "└" "─" "┴" "┘" ws]

end Table

end WorkflowEngine.CommandLine
