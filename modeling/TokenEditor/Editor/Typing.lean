import TokenEditor.Editor.Row

/-! # Typing

A typed character first goes into the text of a view and is then resolved: it splits the token, it
completes it, it starts a token beside it, or it leaves an error token with what was typed. When
the text resolves up to the character before, that much is completed and the character is typed
again into what has become of the row. Items that change nothing could bring it back for ever, so
the number of times is limited. -/

namespace TokenEditor.Editor
variable {V : Type} [Payload V]

/-- A typed text is completed if exactly one item stands for it; while the menu is open, only if no
other item may still become of it. -/
def shouldComplete (items : List (Item V)) (t : Text) (e : Editor V) : Bool :=
  Item.hasSingleMatch items t && (!e.menu.active || (Item.startedBy items t).length ≤ 1)

/-- Delete the selected tokens. -/
def clearSelection : EditM V Unit := do
  let e ← get
  match e.selection with
  | none => pure ()
  | some s =>
    set { e with selection := none }.closeMenu
    onRegion (Region.splice s.start s.stop [])
    let count := (← get).tokens.length
    let move ←
      if count = 0 then reportEmptied
      else if s.start < count then pure (Move.toToken s.start .first)
      else pure (Move.toToken (s.start - 1) .last)
    modify (run move)

/-- The token that typing goes to: the start of a token glued to its left neighbour is the end of
that neighbour. -/
def typingTarget (index : Nat) (e : Editor V) : Nat × Editor V :=
  match index with
  | 0 => (0, e)
  | i + 1 =>
    let glued := (e.views[i + 1]?).any fun v => v.caret == 0 && v.glue.left
    if glued && (e.views[i]?).any View.editable then (i, e.selectToken i .last) else (i + 1, e)

def typeInPlaceholder (c : Char) : EditM V Unit := do
  let e ← get
  if Text.isBlank c && e.placeholder.isEmpty then pure ()
  else
    let text := e.placeholder ++ [c]
    let e := { e with placeholder := text }
    set e
    let offer := e.typingOffer .placeholder
    if e.shouldComplete offer.items text then
      set { e with placeholder := [] }
      completeMatch offer text
    else if !e.menu.active && (Item.startedBy offer.items text).isEmpty then
      set { e with placeholder := [] }
      let count := e.tokens.length
      onRegion (Region.splice count count [.error text])
      modify (selectToken count .last)

/-- Complete `sideText` beside the token at `index`, whose view first gets its own text back. A
text without a single match becomes an error token. -/
def typeBeside (index delta : Nat) (ownText : Option Text) (sideText : Text) : EditM V Unit := do
  let params := if (← get).menu.active then Params.typing.atEndRight else .typing
  match ownText with
  | some t => modify (modifyView index fun v => v.setText t (if delta = 0 then 0 else t.length))
  | none => pure ()
  let e ← get
  let offer := (Supplier.side index delta).offer params e
  if Item.hasSingleMatch offer.items sideText then completeMatch offer sideText
  else
    let move ← expandToError index sideText delta
    modify (run move)

/-- A value takes no text: what is typed at it goes beside it. -/
def typeAtValue (index : Nat) (c : Char) : EditM V Unit := do
  let delta := if ((← get).views[index]?).any (fun v => v.caret == 0) then 0 else 1
  if c = ' ' then
    let move ← expandToError index [] delta
    modify (run move)
  else typeBeside index delta none [c]

/-- Keep the text of a view as an error token. -/
def markUnresolved (index : Nat) (text : Text) (caret : Nat) : EditM V Unit := do
  match (← get).tokens[index]? with
  | some (.error current) =>
    unless current = text do discard (onRegion (Region.replace index (.error text)))
  | _ => discard (onRegion (Region.replace index (.error text)))
  modify (selectToken index (.offset caret))

/-- Complete the token at `index` with all but the last character of its view, then type that
character again. -/
def completeThenRetype (retype : Char → EditM V Unit) (index : Nat) (front : Text)
    (last : Option Char) : EditM V Unit := do
  modify (modifyView index fun v => v.setText front front.length)
  let offer := (Supplier.token index).offer .typing (← get)
  completeMatch offer front
  match last with
  | some c => retype c
  | none => pure ()

/-- Resolve the text of the view at `index` after a character was typed into it. -/
def resolveTyped (retype : Char → EditM V Unit) (index : Nat) : EditM V Unit := do
  let e ← get
  match e.views[index]?, e.tokens[index]? with
  | some v, some token =>
    let text := v.text
    let current := token.text e.region.cells
    let offer := e.typingOffer (.token index)
    let front := text.dropLast
    if e.shouldComplete offer.items text then completeMatch offer text
    else if v.caretAtEnd && !Item.hasMatch offer.items text && front == current then
      typeBeside index 1 (some front) (text.drop (text.length - 1))
    else if v.caretAtEnd && !Item.hasMatch offer.items text && Item.hasSingleMatch offer.items front
    then completeThenRetype retype index front text.getLast?
    else if v.caret == 1 && !e.menu.active && text.drop 1 == current then
      typeBeside index 0 (some (text.drop 1)) (text.take 1)
    else markUnresolved index text v.caret
  | _, _ => pure ()

/-- A space at either edge of a token opens an empty token there. -/
def typeSpace (retype : Char → EditM V Unit) (index : Nat) : EditM V Unit := do
  match (← get).views[index]? with
  | none => pure ()
  | some v =>
    if v.caretAtEnd || v.caret == 1 then
      modify (modifyView index View.eraseBefore)
      let move ← expandToError index [] (if v.caretAtEnd then 1 else 0)
      modify (run move)
    else resolveTyped retype index

/-- Type a character into the token at `index`. -/
def typeAt (retype : Char → EditM V Unit) (index : Nat) (c : Char) : EditM V Unit := do
  let (index, e) := (← get).typingTarget index
  set e
  if !(e.views[index]?).any View.editable then typeAtValue index c
  else
    modify (modifyView index (·.insert [c]))
    if (e.tokens[index]?).any Token.isComment then
      let move ← replaceComment index
      modify (run move)
    else if ← afterType index then pure ()
    else if c = ' ' then typeSpace retype index
    else resolveTyped retype index

/-- Type a character, with `retype` for typing it again. -/
def typeWith (retype : Char → EditM V Unit) (c : Char) : EditM V Unit := do
  clearSelection
  match (← get).focusedIndex? with
  | none => typeInPlaceholder c
  | some index => typeAt retype index c

/-- Type a character, retyping it less than `limit` times before giving up. -/
def typeWithin (giveUp : EditM V Unit) : Nat → Char → EditM V Unit
  | 0 => fun _ => giveUp
  | limit + 1 => typeWith (typeWithin giveUp limit)

/-- How often a character is typed again before typing is given up. Each time the row has to
change, or typing will never end; the limit leaves room for as many changes as there are tokens,
and more. -/
def retypeLimit (e : Editor V) : Nat :=
  e.tokens.length + 1000

def typeChar (c : Char) : EditM V Unit := do
  typeWithin (throw .stalled) (← get).retypeLimit c

/-- Type the characters one after the other, up to the first that fails. -/
def typeText (t : Text) : EditM V Unit :=
  t.forM typeChar

end TokenEditor.Editor
