/-! # Pairs

Brackets pair up by counting: the partner of an opening item is the first closing item after it
that is not the partner of an opening item in between, and the other way round. -/

namespace TokenEditor.Pairing
variable {α : Type}

/-- How far ahead the level falls below where it was: the first item that closes with no item
opened in between left to close. -/
def scan (opens closes : α → Bool) : Nat → List α → Option Nat
  | _, [] => none
  | depth, a :: rest =>
    if opens a then (scan opens closes (depth + 1) rest).map (· + 1)
    else if closes a then
      match depth with
      | 0 => some 0
      | depth + 1 => (scan opens closes depth rest).map (· + 1)
    else (scan opens closes depth rest).map (· + 1)

/-- Index of the item paired with the one at `index`; `pair` has the last word. -/
def partner? (left right : α → Bool) (pair : α → α → Bool) (items : List α) (index : Nat) :
    Option Nat :=
  match items[index]? with
  | none => none
  | some a =>
    if left a then
      match scan left right 0 (items.drop (index + 1)) with
      | none => none
      | some k =>
        match items[index + 1 + k]? with
        | some b => if pair a b then some (index + 1 + k) else none
        | none => none
    else if right a then
      match scan right left 0 (items.take index).reverse with
      | none => none
      | some k =>
        match items[index - 1 - k]? with
        | some b => if pair b a then some (index - 1 - k) else none
        | none => none
    else none

end TokenEditor.Pairing
