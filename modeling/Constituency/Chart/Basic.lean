import Constituency.Chart.Cell

/-!
# Charts

A chart has a cell for every span of a sentence. Cells are kept by length of span, then by start.

* `Chart.blank`: the chart of a sentence, with nothing in it.
* `CellRows.cell`: the cell of a span; the narrower rows of a chart can be read in the same way
  while a wider one is filled.
* `Chart.score`, `Chart.render`.
-/

namespace Constituency
set_option autoImplicit false

/-- Rows of cells; row `k` holds the spans of length `k + 1`, by start. -/
abbrev CellRows := Array (Array Cell)

namespace CellRows

def cell (rows : CellRows) (start stop : Nat) : Checked Cell :=
  if start < stop then do Checked.fetch (← Checked.fetch rows (stop - start - 1)) start
  else Checked.fault .outOfRange

def setCell (rows : CellRows) (start stop : Nat) (c : Cell) : Checked CellRows :=
  if start < stop then do
    let row ← Checked.fetch rows (stop - start - 1)
    Checked.put rows (stop - start - 1) (← Checked.put row start c)
  else Checked.fault .outOfRange

end CellRows

structure Chart where
  /-- The length of the sentence. -/
  size : Nat
  nonterminals : Nat
  layout : Layout
  rows : CellRows

namespace Chart

/-- Midpoints have to fit in 16 bits. -/
def longest : Nat := 2 ^ 16 - 1

def blankRow (size nonterminals : Nat) (layout : Layout) (length : Nat) : Array Cell :=
  (Array.range (size - length + 1)).map fun start =>
    Cell.fresh ⟨start, start + length⟩ nonterminals layout

def blank (size nonterminals : Nat) (layout : Layout) : Except Error Chart :=
  if longest < size then .error (.sentenceTooLong size longest)
  else
    .ok { size, nonterminals, layout
          rows := (Array.range size).map fun k => blankRow size nonterminals layout (k + 1) }

def cell (c : Chart) (start stop : Nat) : Checked Cell := c.rows.cell start stop

/-- All cells, by length of span, then by start. -/
def cells (c : Chart) : List Cell := c.rows.toList.flatMap Array.toList

def top? (c : Chart) : Checked (Option Cell) :=
  if 0 < c.size then return some (← c.cell 0 c.size) else pure none

/-- The score of the start symbol over the whole sentence. -/
def score (c : Chart) : Checked Score := do
  match ← c.top? with
  | some cell => pure (cell.score Grammar.start)
  | none => pure .impossible

/-! ## Text -/

def entryLine (g : Grammar) (e : Entry) : Checked String := do
  let name ← Checked.present (g.nonterminals.name? e.nonterminal)
  return "  " ++ name ++ ": " ++ e.slot.score.fixed 4 ++ " (mid " ++ e.slot.midpoint.repr ++ ")\n"

/-- A heading and a line for each entry; nothing for a cell without entries. -/
def cellText (g : Grammar) (c : Cell) : Checked String := do
  match c.entries with
  | [] => return ""
  | entries =>
    let lines ← entries.mapM (entryLine g)
    return "Cell " ++ c.span.start.repr ++ ".." ++ c.span.stop.repr ++ ":\n" ++ String.join lines

def render (c : Chart) (g : Grammar) : Checked String := do
  return String.join (← c.cells.mapM (cellText g))

end Chart
end Constituency
