import Relata.Table.Basic
/-!
# Printing tables

A table is printed as a grid: a title, then the attribute names and the rows between rules. Every
column is as wide as its widest cell, and cells are aligned to the right. Cells are padded to a width
of two bytes at most, and printing breaks off before a column that is wider. The index is printed as
one line for each entry, in the order of the index.
-/

namespace Relata.Grid

/-- The widths with room for one more row of cells. Columns without a cell keep their width. -/
def widen : List Nat → List String → List Nat
  | w :: widths, cell :: cells => max w cell.length :: widen widths cells
  | widths, _ => widths

/-- The width of each column: the greatest length among its name and its cells. -/
def widths (header : List String) (rows : List (List String)) : List Nat :=
  rows.foldl widen (header.map String.length)

/-- A cell with blanks before it, up to the given width, and a separator after it. -/
def cell (width : Nat) (text : String) : String :=
  " " ++ String.ofList (List.replicate (width - text.length) ' ') ++ text ++ " |"

def line (widths : List Nat) (cells : List String) : String :=
  "|" ++ String.join (List.zipWith cell widths cells)

def rule (widths : List Nat) : String :=
  "|" ++ String.join (widths.map fun w => "-" ++ String.ofList (List.replicate w '-') ++ "-|")

def lines (title : String) (header : List String) (rows : List (List String)) : List String :=
  let w := widths header rows
  [title, rule w, line w header, rule w] ++ rows.map (line w) ++ [rule w]

def unlines (lines : List String) : String := String.join (lines.map fun l => l ++ "\n")

/-- The greatest width that a cell is padded to. -/
def widest : Nat := 65535

/-- Whether cells can be padded to all of the widths. -/
def isPrintable (widths : List Nat) : Bool := widths.all fun w => w ≤ widest

/-- What is printed before the first column that is too wide: the header breaks off there. -/
def beginning (title : String) (header : List String) (rows : List (List String)) : String :=
  let w := widths header rows
  unlines [title, rule w] ++ line (w.takeWhile fun w => w ≤ widest) header

end Grid

namespace Table

def title (t : Table) : String := " Table " ++ t.name

/-- The cells of a table, row by row. -/
def cells (t : Table) : List (List String) := t.tuples.map fun row => row.map Value.render

def gridLines (t : Table) : List String := Grid.lines t.title t.schema.names t.cells

def render (t : Table) : String := Grid.unlines t.gridLines

/-- The grid of a table, unless a column is too wide to be printed. -/
def render? (t : Table) : Option String :=
  if Grid.isPrintable (Grid.widths t.schema.names t.cells) then some t.render else none

/-- What is printed of a table that has a column that is too wide. -/
def renderBeginning (t : Table) : String := Grid.beginning t.title t.schema.names t.cells

/-- The line of an entry of the index. -/
def entryLine (entry : Key × Tuple) : String :=
  Tuple.render entry.1 ++ " -> " ++ Tuple.render entry.2

def renderIndex (t : Table) : String :=
  Grid.unlines ([" Index for " ++ t.name ++ " (" ++ t.indexKind.name ++ ")", "-------------------"]
    ++ t.index.entries.map entryLine ++ ["-------------------"])

end Table

end Relata
