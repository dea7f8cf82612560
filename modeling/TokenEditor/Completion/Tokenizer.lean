import TokenEditor.Text.Blank
import TokenEditor.Completion.Item

/-! # Tokenizing with completion items

Each word is cut greedily into the longest pieces that resolve. What is left when no piece resolves
becomes one error token. -/

namespace TokenEditor.Item
variable {V : Type}

/-- The longest of the first `n` non-empty beginnings of `t` that resolves: how many characters it
has after the first, and its tokens. -/
def longestResolving (items : List (Item V)) (t : Text) :
    Nat → StateM Cells (Option (Nat × List (Token V)))
  | 0 => pure none
  | n + 1 => do
    match ← resolve items (t.take (n + 1)) with
    | some tokens => pure (some (n, tokens))
    | none => longestResolving items t n

/-- Cut one word. `fuel` is at least its length. -/
def cutWord (items : List (Item V)) : Nat → Text → StateM Cells (List (Token V))
  | 0, _ => pure []
  | _ + 1, [] => pure []
  | fuel + 1, c :: rest => do
    match ← longestResolving items (c :: rest) (rest.length + 1) with
    | some (n, tokens) => return tokens ++ (← cutWord items fuel (rest.drop n))
    | none => pure [.error (c :: rest)]

def cutWords (items : List (Item V)) : List Text → StateM Cells (List (Token V))
  | [] => pure []
  | w :: ws => do return (← cutWord items w.length w) ++ (← cutWords items ws)

/-- The tokens of a text: its words cut one by one. -/
def tokenize (items : List (Item V)) (t : Text) : StateM Cells (List (Token V)) :=
  cutWords items (Text.words t)

end TokenEditor.Item
