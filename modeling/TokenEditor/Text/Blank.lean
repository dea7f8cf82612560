import TokenEditor.Text.Basic

/-! # Blanks and words

`isBlank` is the White_Space property. `words` cuts a text at its blanks; a word is never empty. -/

namespace TokenEditor.Text

/-- White_Space: the control blanks, the spaces of every width, and the line and paragraph
separators. The zero width space is not among them. -/
def isBlank (c : Char) : Bool :=
  let n := c.toNat
  (9 ≤ n && n ≤ 13) || n == 0x20 || n == 0x85 || n == 0xA0 || n == 0x1680 ||
    (0x2000 ≤ n && n ≤ 0x200A) || n == 0x2028 || n == 0x2029 || n == 0x202F || n == 0x205F ||
    n == 0x3000

/-- The maximal runs of characters that are not blank, in order. -/
def words : Text → List Text
  | [] => []
  | c :: cs =>
    if isBlank c then words cs
    else match cs with
      | [] => [[c]]
      | d :: _ =>
        if isBlank d then [c] :: words cs
        else match words cs with
          | w :: ws => (c :: w) :: ws
          | [] => [[c]]

/-- Cutting at blanks loses nothing but the blanks. -/
theorem flatten_words (t : Text) : (words t).flatten = t.filter (fun c => !isBlank c) := by
  fun_induction words t <;> grind

end TokenEditor.Text
