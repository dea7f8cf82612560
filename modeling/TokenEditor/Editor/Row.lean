import TokenEditor.Editor.Completing

/-! # Edits of the row

Deleting, replacing, merging and splitting tokens, and what becomes of a comment. Each edit gives
the move of the caret that should follow it. -/

namespace TokenEditor.Editor
variable {V : Type} [Payload V]

/-- `index` moved by `delta`, if that is an index. -/
def shifted? (index : Nat) (delta : Int) : Option Nat :=
  if 0 ≤ index + delta then some (index + delta).toNat else none

def shifted (index : Nat) (delta : Int) : EditM V Nat := do
  match shifted? index delta with
  | some i => pure i
  | none => throw (.outOfBounds index (← get).tokens.length)

/-- There is a token at `index + delta`. -/
def canDelete (index : Nat) (delta : Int) (e : Editor V) : Bool :=
  (shifted? index delta).any fun i => i < e.tokens.length

/-- There are tokens at `index` and `index + delta`, and neither is a value. -/
def canMerge (index : Nat) (delta : Int) (e : Editor V) : Bool :=
  match shifted? index delta with
  | none => false
  | some other =>
    match e.tokens[index]?, e.tokens[other]? with
    | some a, some b => !a.isValue && !b.isValue
    | _, _ => false

/-- Delete the token at `index + delta`. -/
def deleteToken (index : Nat) (delta : Int) : EditM V Move := do
  let target ← shifted index delta
  discard (onRegion (Region.remove target))
  let e ← get
  if e.tokens.isEmpty then reportEmptied
  else if delta < 0 then pure (e.select (index - 1) .first)
  else if 0 < delta then pure (e.select index .last)
  else if 0 < index then pure (e.select (index - 1) .last)
  else pure (e.select 0 .first)

def replaceToken (index : Nat) (t : Token V) : EditM V Move := do
  discard (onRegion (Region.replace index t))
  pure ((← get).select index .first)

/-- The texts of two neighbours about to be merged. Where they are glued the key that merges them
takes away a character: going backward the last one of the left text, else the first of the right
one. -/
def mergedTexts (cells : Cells) (left right : Token V) (backward : Bool) : Text × Text :=
  let l := left.text cells
  let r := right.text cells
  if left.glue.right || right.glue.left then
    if backward then (l.dropLast, r) else (l, r.drop 1)
  else (l, r)

/-- Merge the token at `left` with the next one and resolve the joined text. -/
def mergeFrom (left : Nat) (backward : Bool) : EditM V Move := do
  let a ← onRegion (Region.tokenAt left)
  let b ← onRegion (Region.tokenAt (left + 1))
  let e ← get
  let (l, r) := mergedTexts e.region.cells a b backward
  let resolved ← onRegion (Region.onCells (Item.resolve e.looseItems (l ++ r)))
  onRegion (Region.splice left (left + 2) (resolved.getD [.error (l ++ r)]))
  pure ((← get).select left (.offset l.length))

/-- Merge the token at `index` with its neighbour. -/
def mergeTokens (index : Nat) (backward : Bool) : EditM V Move := do
  let left ← if backward then shifted index (-1) else pure index
  mergeFrom left backward

/-- Put in an error token with `text` before (`delta` 0) or after (1) the token at `index`. -/
def expandToError (index : Nat) (text : Text) (delta : Nat) : EditM V Move := do
  onRegion (Region.insert (index + delta) (.error text))
  pure ((← get).select (index + delta) .last)

/-- Where the caret goes when `count` tokens were put in from `start` on. -/
def afterInsertion (start count : Nat) : EditM V Move := do
  let e ← get
  if e.tokens.isEmpty then reportEmptied
  else pure (e.select (min (start + count - 1) (e.tokens.length - 1)) .last)

/-- Bring a comment token in line with its view. A text that has lost the mark is no comment any
more and is cut into tokens. -/
def replaceComment (index : Nat) : EditM V Move := do
  let t ← onRegion (Region.tokenAt index)
  match t, (← get).views[index]? with
  | .comment mark _, some v =>
    match Text.after? mark v.text with
    | some body =>
      discard (onRegion (Region.replace index (.comment mark body)))
      pure (Move.toToken index (.offset v.caret))
    | none =>
      let new ← onRegion (Region.onCells ((← get).region.language.tokenize v.text))
      spliceUpdated index (index + 1) new
      afterInsertion index new.length
  | _, _ => pure .stay

/-- Splice the row, bring it in line with its print and move the caret. -/
def spliceAndSelect (start stop : Nat) (new : List (Token V)) (index : Nat) (position : Position) :
    EditM V Unit := do
  spliceUpdated start stop new
  modify fun e => e.run (e.select index position)

/-- Split the token at `index` if the character just typed into its view stands between two
tokens, or is a space inside the text. Tells whether it did. -/
def afterType (index : Nat) : EditM V Bool := do
  let e ← get
  match e.views[index]? with
  | none => pure false
  | some v =>
    if v.caret = 0 then pure false
    else
      let before := v.text.take (v.caret - 1)
      let rest := v.text.drop (v.caret - 1)
      let typed := rest.take 1
      let after := rest.drop 1
      let items := e.looseItems
      let resolve (t : Text) : EditM V (Token V) :=
        onRegion (Region.onCells (Item.tokenOrError items t))
      if typed = [' '] ∧ before ≠ [] ∧ after ≠ [] then
        let a ← resolve before
        let b ← resolve after
        spliceAndSelect index (index + 1) [a, b] (index + 1) .first
        pure true
      else if Item.isBoundary items v.text (v.caret - 1) && Item.isBoundary items rest 1 then
        let a ← resolve before
        let b ← resolve typed
        let c ← resolve after
        spliceAndSelect index (index + 1) [a, b, c] (index + 1) .last
        pure true
      else pure false

/-- Put the tokens of `text` in place of those from `start` up to `stop` and go to the last. -/
def afterPaste (start stop : Nat) (text : Text) : EditM V Unit := do
  let new ← onRegion (Region.onCells ((← get).region.language.tokenize text))
  spliceUpdated start stop new
  let move ← afterInsertion start new.length
  modify (run move)

end TokenEditor.Editor
