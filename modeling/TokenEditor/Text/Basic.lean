/-! # Text

A text is the list of its characters, so that a caret or an offset is a position in that list. -/

namespace TokenEditor

/-- A text, character by character. -/
abbrev Text := List Char

namespace Text

/-- `piece` put into `t` at an offset; past the end it is appended. -/
def insertAt (t : Text) (offset : Nat) (piece : Text) : Text :=
  t.take offset ++ piece ++ t.drop offset

/-- What follows `opening` in `t`, if `t` starts with it. -/
def after? (opening t : Text) : Option Text :=
  if opening.isPrefixOf t then some (t.drop opening.length) else none

/-- The texts joined with `separator` between neighbours. -/
def joinWith (separator : Text) : List Text → Text
  | [] => []
  | [t] => t
  | t :: ts => t ++ separator ++ joinWith separator ts

/-- Number of bytes of the text in UTF-8. -/
def utf8Size : Text → Nat
  | [] => 0
  | c :: t => c.utf8Size + utf8Size t

theorem length_insertAt (t piece : Text) (offset : Nat) :
    (t.insertAt offset piece).length = t.length + piece.length := by
  simp [insertAt]; omega

@[simp] theorem utf8Size_nil : utf8Size [] = 0 := rfl

@[simp] theorem utf8Size_append (a b : Text) : utf8Size (a ++ b) = utf8Size a + utf8Size b := by
  induction a with
  | nil => simp
  | cons c a ih => simp only [List.cons_append, utf8Size, ih, Nat.add_assoc]

end Text

end TokenEditor
