import TokenEditor.Editor.Deleting

/-! # Commands

Paste and enter, selections and pairs, and the commands that replace what the region holds. -/

namespace TokenEditor.Editor
variable {V : Type} [Payload V]

/-! ### Paste and enter -/

/-- Paste a text at the caret: into the text of the focused token, beside a value, or into the
placeholder. -/
def paste (text : Text) : EditM V Unit := do
  clearSelection
  modify closeMenu
  let e ← get
  match e.focusedView? with
  | none =>
    set { e with placeholder := [] }
    afterPaste e.tokens.length e.tokens.length (e.placeholder ++ text)
  | some (index, v) =>
    if v.editable then afterPaste index (index + 1) (v.beforeCaret ++ text ++ v.afterCaret)
    else
      let place := if v.caret = 0 then index else index + 1
      afterPaste place place text

/-- The menu item that enter accepts for the text before the caret, with the text it is applied to. -/
def menuChoice (e : Editor V) : Option (Item V × Text) :=
  Item.chosen e.menuOffer.items e.textBeforeCaret

/-- Accept the menu's choice, or complete an unresolved token. -/
def enter : EditM V Unit := do
  let e ← get
  if e.menu.active then
    match e.menuChoice with
    | some (item, text) => acceptItem e.menuOffer item text
    | none => set e.closeMenu
  else
    match e.focusedView? with
    | none => pure ()
    | some (index, v) =>
      match e.tokens[index]? with
      | none => pure ()
      | some token =>
        let resolved := !token.isError && v.text == token.text e.region.cells
        if resolved || !v.editable then pure ()
        else
          let offer := (Supplier.token index).offer .typing e
          if Item.hasSingleMatch offer.items e.textBeforeCaret then
            completeMatch offer e.textBeforeCaret

/-! ### Selections and pairs -/

def selectRange (start stop : Nat) : EditM V Unit := do
  let e ← get
  if stop < start ∨ e.tokens.length < stop then throw (.outOfBounds stop e.tokens.length)
  else set { e with selection := if start < stop then some ⟨start, stop⟩ else none }

/-- The spans of the nodes of the printed tree, while the region is valid. -/
def nodeSpans (e : Editor V) : Option (List Span) :=
  if e.region.valid then e.region.tree.map fun t => t.spans.map fun (a, b) => ⟨a, b⟩ else none

/-- Grow the selection; tells whether there is one now. -/
def expandSelection (e : Editor V) : Bool × Editor V :=
  match Span.expand e.selection e.focusedIndex? e.nodeSpans e.tokens.length with
  | none => (false, e)
  | some s => (true, { e with selection := some s })

/-- Shrink the selection towards the focus; tells whether there was one. -/
def shrinkSelection (e : Editor V) : Bool × Editor V :=
  match e.selection with
  | none => (false, e)
  | some s =>
    (true, { e with selection := Span.shrink s (e.focusedIndex?.getD s.start) e.nodeSpans })

def partner? (index : Nat) (e : Editor V) : Option Nat :=
  e.region.language.partner? e.region.cells e.tokens index

/-! ### What the region holds -/

def setTokens (new : List (Token V)) : EditM V Unit := do
  modify fun e => { e.closeMenu with selection := none }
  onRegion (Region.setTokens new)
  modify repairFocus

def setValue (v : Option V) : EditM V Unit := do
  modify closeMenu
  onRegion (Region.setValue v)
  modify repairFocus

/-- Change the language. Requests that the old one has not answered are given up. -/
def setLanguage (language : Language V) : EditM V Unit := do
  modify fun e => e.closeMenu.dropOwed
  onRegion (Region.setLanguage language)
  modify repairFocus

/-- Act on a change of a watched cell; tells whether there was one. -/
def processChanges : EditM V Bool := do
  let changed ← onRegion Region.processChanges
  if changed then modify repairFocus
  pure changed

/-- A copy of the row on cells of its own. -/
def save : EditM V (List (Token V)) := do
  onRegion (Region.onCells (Token.detachAll (← get).tokens))

def restore (saved : Option (List (Token V))) : EditM V Unit := do
  modify fun e => { e.closeMenu with selection := none }
  onRegion (Region.restore saved)
  modify repairFocus

def dispose (e : Editor V) : Editor V :=
  let e := e.closeMenu
  { e with region := e.region.dispose }

end TokenEditor.Editor
