import TokenEditor.Cell

/-! # Tokens

A region is edited as a row of tokens. A token never changes: every edit replaces tokens. Value
tokens carry a payload, which may share cells with other values; `detach` copies it onto cells of
its own. Whether two tokens are the same is judged by what they show, not by the cells they use. -/

namespace TokenEditor

/-- What a value token may carry, seen against the store of its cells. -/
class Payload (V : Type) where
  /-- The text that the value shows. -/
  display : Cells → V → Text
  /-- A copy on cells of its own. -/
  detach : V → StateM Cells V
  /-- Equality of structure and of the texts in the cells. -/
  same : Cells → V → V → Bool
  /-- Cells in the value, left to right, once per occurrence. -/
  cellsOf : V → List CellId

/-- On which sides a token stands without a space. -/
structure Glue where
  left : Bool := false
  right : Bool := false
deriving DecidableEq, Repr

namespace Glue

def none : Glue := {}
def onLeft : Glue := { left := true }
def onRight : Glue := { right := true }
def both : Glue := { left := true, right := true }

end Glue

/-- A token over payloads of type `V`. -/
inductive Token (V : Type) where
  /-- Fixed text, such as an operator or a number. -/
  | simple (text : Text) (glue : Glue)
  | identifier (name : Text)
  | value (v : V)
  /-- Free text behind a mark. -/
  | comment (mark body : Text)
  /-- Text that no completion resolves. -/
  | error (text : Text)
  | terminator (mark name : Text)
deriving DecidableEq, Repr

namespace Token
variable {V : Type}

/-- A simple token that keeps a space on both sides. -/
def plain (text : Text) : Token V :=
  .simple text .none

def glue : Token V → Glue
  | simple _ g => g
  | terminator _ _ => .onLeft
  | _ => .none

def isSimple : Token V → Bool
  | simple _ _ => true
  | _ => false

def isIdentifier : Token V → Bool
  | identifier _ => true
  | _ => false

def isValue : Token V → Bool
  | value _ => true
  | _ => false

def isError : Token V → Bool
  | error _ => true
  | _ => false

def isComment : Token V → Bool
  | comment _ _ => true
  | _ => false

def value? : Token V → Option V
  | value v => some v
  | _ => none

variable [Payload V]

def text (cells : Cells) : Token V → Text
  | simple t _ => t
  | identifier name => name
  | value v => Payload.display cells v
  | comment mark body => mark ++ body
  | error t => t
  | terminator mark name => mark ++ name

/-- Equality with values compared by what they show. -/
def same (cells : Cells) : Token V → Token V → Bool
  | simple t g, simple t' g' => t == t' && g == g'
  | identifier n, identifier n' => n == n'
  | value v, value v' => Payload.same cells v v'
  | comment m b, comment m' b' => m == m' && b == b'
  | error t, error t' => t == t'
  | terminator m n, terminator m' n' => m == m' && n == n'
  | _, _ => false

/-- A copy whose payload has cells of its own. -/
def detach : Token V → StateM Cells (Token V)
  | value v => do return value (← Payload.detach v)
  | t => pure t

def detachAll : List (Token V) → StateM Cells (List (Token V))
  | [] => pure []
  | t :: ts => do return (← t.detach) :: (← detachAll ts)

def cellsOf : Token V → List CellId
  | value v => Payload.cellsOf v
  | _ => []

end Token

end TokenEditor
