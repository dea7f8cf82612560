import TokenEditor.View

/-! # Caret positions

Where the caret goes after an edit. The end of a token and the start of the next one are the same
spot on screen when the two are glued, so `select` hands the caret over to the neighbour. -/

namespace TokenEditor
variable {V : Type}

/-- Where the caret lands inside a token. -/
inductive Position where
  | first
  | last
  | offset (n : Nat)
deriving DecidableEq, Repr

inductive Target where
  | token (index : Nat) (position : Position)
  | placeholder
  | unchanged
deriving DecidableEq, Repr

/-- A move of the caret that follows an edit. -/
structure Move where
  target : Target
  /-- Open the menu again if the text before the caret is ambiguous there. -/
  reopen : Bool := false
deriving DecidableEq, Repr

namespace Move

def toToken (index : Nat) (position : Position) : Move := { target := .token index position }
def toPlaceholder : Move := { target := .placeholder }
def stay : Move := { target := .unchanged }

def reopening (m : Move) (reopen : Bool) : Move :=
  { m with reopen := m.reopen || reopen }

/-- The caret may not rest between the neighbours `a` and `b`, or not in a token that takes no
focus: it belongs to the other side. -/
def handsOver (focusable : Bool) (a b : Token V) : Bool :=
  a.glue.right || b.glue.left || !focusable

/-- The move to a position in the token at `index`. -/
def select (tokens : List (Token V)) (views : List View) (index : Nat) (position : Position) :
    Move :=
  let focusable := (views[index]?).all View.focusable
  match position with
  | .first | .offset 0 =>
    match index with
    | 0 => toToken 0 .first
    | i + 1 =>
      match tokens[i]?, tokens[i + 1]? with
      | some a, some b =>
        if handsOver focusable a b then toToken i .last else toToken (i + 1) .first
      | _, _ => toToken (i + 1) .first
  | .last =>
    match tokens[index]?, tokens[index + 1]? with
    | some a, some b =>
      if handsOver focusable a b then toToken (index + 1) .first else toToken index .last
    | _, _ => toToken index .last
  | .offset (n + 1) => toToken index (.offset (n + 1))

end Move

end TokenEditor
