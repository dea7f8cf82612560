import TokenEditor.Text.Decimal
import TokenEditor.Token

/-! # Expressions

The values of the expression language. A `text` holds a shared cell. -/

namespace TokenEditor

inductive Expr where
  | var (name : Text)
  | int (n : Int64)
  | plus (left right : Expr)
  | mul (left right : Expr)
  | inc (operand : Expr)
  | factorial (operand : Expr)
  | parens (inner : Expr)
  /-- A call without argument. -/
  | call (name : Text)
  /-- A call with one argument. -/
  | callWith (name : Text) (argument : Expr)
  | field (target : Expr) (name : Text)
  | text (cell : CellId)
deriving DecidableEq, Repr

namespace Expr

def display (cells : Cells) : Expr → Text
  | var name => name
  | int n => Decimal.write n
  | plus l r => l.display cells ++ [' ', '+', ' '] ++ r.display cells
  | mul l r => l.display cells ++ [' ', '*', ' '] ++ r.display cells
  | inc e => e.display cells ++ ['+', '+']
  | factorial e => e.display cells ++ ['!']
  | parens e => '(' :: e.display cells ++ [')']
  | call name => name ++ ['(', ')']
  | callWith name e => name ++ '(' :: e.display cells ++ [')']
  | field e name => e.display cells ++ '.' :: name
  | text c => '\x22' :: cells.text c ++ ['\x22']

/-- A copy in which every occurrence of a cell is a cell of its own. -/
def detach : Expr → StateM Cells Expr
  | plus l r => do return plus (← l.detach) (← r.detach)
  | mul l r => do return mul (← l.detach) (← r.detach)
  | inc e => do return inc (← e.detach)
  | factorial e => do return factorial (← e.detach)
  | parens e => do return parens (← e.detach)
  | callWith name e => do return callWith name (← e.detach)
  | field e name => do return field (← e.detach) name
  | text c => do return text (← Cells.new ((← get).text c))
  | e => pure e

/-- Equality of structure and of the texts in the cells. -/
def same (cells : Cells) : Expr → Expr → Bool
  | var a, var b => a == b
  | int a, int b => a == b
  | plus a b, plus c d => a.same cells c && b.same cells d
  | mul a b, mul c d => a.same cells c && b.same cells d
  | inc a, inc b => a.same cells b
  | factorial a, factorial b => a.same cells b
  | parens a, parens b => a.same cells b
  | call a, call b => a == b
  | callWith a e, callWith b f => a == b && e.same cells f
  | field e a, field f b => e.same cells f && a == b
  | text c, text d => cells.text c == cells.text d
  | _, _ => false

/-- Cells from left to right, once per occurrence. -/
def cellsOf : Expr → List CellId
  | plus l r | mul l r => l.cellsOf ++ r.cellsOf
  | inc e | factorial e | parens e | callWith _ e | field e _ => e.cellsOf
  | text c => [c]
  | _ => []

instance : Payload Expr where
  display := display
  detach := detach
  same := same
  cellsOf := cellsOf

end Expr

end TokenEditor
