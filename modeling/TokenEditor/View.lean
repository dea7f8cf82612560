import TokenEditor.Token

/-! # Views

A view is the editable projection of one token: a text buffer with a caret. The buffer may drift
from the token while a key is being handled. A view keeps its number as long as its token is not
replaced. -/

namespace TokenEditor

/-- The number of a view; never given twice in one region. -/
abbrev ViewId := Nat

structure View where
  id : ViewId
  text : Text
  caret : Nat
  /-- Value tokens take no text input. -/
  editable : Bool
  focusable : Bool
  glue : Glue
deriving DecidableEq, Repr

namespace View

/-- The view of a new token. A simple token glued on both sides cannot hold the caret. -/
def ofToken {V : Type} [Payload V] (cells : Cells) (id : ViewId) (t : Token V) : View where
  id := id
  text := t.text cells
  caret := 0
  editable := !t.isValue
  focusable := !(t.isSimple && t.glue.left && t.glue.right)
  glue := t.glue

def caretAtEnd (v : View) : Bool :=
  v.caret == v.text.length

/-- The text before the caret. -/
def beforeCaret (v : View) : Text :=
  v.text.take v.caret

def afterCaret (v : View) : Text :=
  v.text.drop v.caret

/-- Place the caret, at the end if the offset lies beyond it. -/
def setCaret (v : View) (caret : Nat) : View :=
  { v with caret := min caret v.text.length }

def setText (v : View) (text : Text) (caret : Nat) : View :=
  { v with text := text }.setCaret caret

/-- Type a piece of text at the caret. -/
def insert (v : View) (piece : Text) : View :=
  { v with text := v.text.insertAt v.caret piece, caret := v.caret + piece.length }

/-- Remove the character before the caret, if there is one. -/
def eraseBefore (v : View) : View :=
  if v.caret = 0 then v
  else { v with text := v.text.eraseIdx (v.caret - 1), caret := v.caret - 1 }

/-- Remove the character after the caret, if there is one. -/
def eraseAfter (v : View) : View :=
  { v with text := v.text.eraseIdx v.caret }

end View

/-- Fresh views for `tokens`, numbered from `id` on. -/
def View.ofTokens {V : Type} [Payload V] (cells : Cells) (id : ViewId) : List (Token V) → List View
  | [] => []
  | t :: ts => View.ofToken cells id t :: View.ofTokens cells (id + 1) ts

end TokenEditor
