import PackageHistory.Terminal
import PackageHistory.Text.Units

/-! # Tables of text -/

namespace PackageHistory

inductive Align where
  | left | right
  deriving DecidableEq, Repr

structure Column where
  header : Text
  width : Number
  align : Align := .left
  deriving DecidableEq, Repr

/-- How much a width fills: its integer part, and nothing below zero. -/
def checkWidth (width : Number) : Except Failure Nat :=
  if Text.longest < width.whole then .error .tooLong else .ok width.whole.toNat

namespace Column

/-- Refuses widths: first those that are too large, then those below zero. -/
def checkAll (columns : List Column) : Except Failure (List Column) := do
  for c in columns do
    let _ ← checkWidth c.width
  for c in columns do
    if c.width.whole < 0 then throw (.negativeWidth c.width)
  return columns

/-- How many units a cell fills. -/
def room (c : Column) : Nat := c.width.whole.toNat

def pad (c : Column) (t : Text) : Text :=
  match c.align with
  | .left => t.padEnd c.room
  | .right => t.padStart c.room

/-- A cell fills the width of its column; a header may be wider. -/
def cell (c : Column) (t : Text) : Text := c.pad (t.truncate c.width)

def rule (c : Column) : Text := List.replicate c.room '-'

end Column

namespace Table

def joinCells (cells : List Text) : Text := Text.join "  ".toList cells

/-- Rows that may lack cells, which is a failure. -/
def checkRows (columns : List Column) (rows : List (List Text)) :
    Except Failure (List (List Text)) :=
  if rows.any (·.length < columns.length) then .error (.missing "length".toList) else .ok rows

def row (columns : List Column) (cells : List Text) : Text :=
  joinCells (columns.zipWith Column.cell cells)

/-- The headers, a rule and the rows, each on a line. -/
def render (terminal : Terminal) (columns : List Column) (rows : List (List Text)) : Text :=
  Text.join ['\n'] <|
    joinCells (columns.map fun c => terminal.bold (c.pad c.header)) ::
    terminal.dim (joinCells (columns.map Column.rule)) ::
    rows.map (row columns)

end Table

end PackageHistory
