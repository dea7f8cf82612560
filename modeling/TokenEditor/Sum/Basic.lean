import TokenEditor.Text.Decimal
import TokenEditor.Token

/-! # Sums

The values of the sum language: numbers, variables, notes with a shared cell, increments, and sums
of any number of terms. -/

namespace TokenEditor

inductive Sum where
  | num (n : Int64)
  | var (name : Text)
  | add (terms : List Sum)
  | inc (term : Sum)
  | note (cell : CellId)

namespace Sum

mutual

def display (cells : Cells) : Sum → Text
  | num n => Decimal.write n
  | var name => name
  | add terms => Text.joinWith [' ', '+', ' '] (displayAll cells terms)
  | inc e => e.display cells ++ ['+', '+']
  | note c => '<' :: cells.text c ++ ['>']

def displayAll (cells : Cells) : List Sum → List Text
  | [] => []
  | t :: ts => t.display cells :: displayAll cells ts

end

mutual

/-- A copy in which every occurrence of a cell is a cell of its own. -/
def detach : Sum → StateM Cells Sum
  | add terms => do return add (← detachAll terms)
  | inc e => do return inc (← e.detach)
  | note c => do return note (← Cells.new ((← get).text c))
  | e => pure e

def detachAll : List Sum → StateM Cells (List Sum)
  | [] => pure []
  | t :: ts => do return (← t.detach) :: (← detachAll ts)

end

mutual

/-- Equality of structure and of the texts in the cells. -/
def same (cells : Cells) : Sum → Sum → Bool
  | num a, num b => a == b
  | var a, var b => a == b
  | add a, add b => sameAll cells a b
  | inc a, inc b => a.same cells b
  | note c, note d => cells.text c == cells.text d
  | _, _ => false

def sameAll (cells : Cells) : List Sum → List Sum → Bool
  | [], [] => true
  | a :: as, b :: bs => a.same cells b && sameAll cells as bs
  | _, _ => false

end

mutual

/-- Cells from left to right, once per occurrence. -/
def cellsOf : Sum → List CellId
  | add terms => cellsOfAll terms
  | inc e => e.cellsOf
  | note c => [c]
  | _ => []

def cellsOfAll : List Sum → List CellId
  | [] => []
  | t :: ts => t.cellsOf ++ cellsOfAll ts

end

instance : Payload Sum where
  display := display
  detach := detach
  same := same
  cellsOf := cellsOf

end Sum

end TokenEditor
