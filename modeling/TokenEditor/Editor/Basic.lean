import TokenEditor.Caret
import TokenEditor.Region
import TokenEditor.Span

/-! # Editors

An editor is a region with a focus, a caret, a selection and a completion menu. Its operations are
the intents of a user; this module holds the state and what all of them share. -/

namespace TokenEditor
variable {V : Type}

/-- Where keys go. -/
inductive Focus where
  /-- The placeholder of an empty region, with a text of its own. -/
  | placeholder
  | token (id : ViewId)
deriving DecidableEq, Repr

/-- Where completion happens. -/
inductive Supplier where
  /-- In place of the token at `index`. -/
  | token (index : Nat)
  /-- Beside the token at `index`: before it for `delta` 0, after it for 1. -/
  | side (index delta : Nat)
  /-- Into the empty region. -/
  | placeholder
deriving DecidableEq, Repr

/-- How completed tokens get into the row. -/
inductive Placement where
  | replace
  | beside (params : Params)
  | fill
deriving DecidableEq, Repr

/-- Items together with where they apply. -/
structure Offer (V : Type) where
  supplier : Supplier
  items : List (Item V)
  kind : ContextKind
  target : Nat
  placement : Placement

/-- A request for later items, made when the row had seen `generation` edits. -/
structure Pending (V : Type) where
  supplier : Supplier
  promise : Promise V
  kind : ContextKind
  target : Nat
  placement : Placement
  generation : Nat

/-- The completion menu: whether it is open, what it waits for, and what it was given together
with the generation of the row at that time. -/
structure Menu (V : Type) where
  active : Bool := false
  pending : Option (Pending V) := none
  received : Option (Nat × Offer V) := none

structure Editor (V : Type) where
  region : Region V
  settings : Settings
  focus : Focus := .placeholder
  placeholder : Text := []
  selection : Option Span := none
  menu : Menu V := {}
  /-- Channels of all requests for later items. -/
  channels : Channels V := []
  /-- Channels of the requests that the language means to answer, oldest first. -/
  owed : List Nat := []
  /-- How often the region was emptied by a deletion. -/
  emptied : Nat := 0

/-- An operation on an editor that may fail. -/
abbrev EditM (V : Type) := EStateM EditError (Editor V)

namespace Editor

def new (language : Language V) (cells : Cells) (settings : Settings) : Editor V where
  region := .new language cells settings
  settings := settings

/-- Run an operation of the region. -/
def onRegion {α : Type} (f : RegionM V α) : EditM V α := fun e =>
  match f e.region with
  | .ok a r => .ok a { e with region := r }
  | .error err r => .error err { e with region := r }

def tokens (e : Editor V) : List (Token V) := e.region.tokens

def views (e : Editor V) : List View := e.region.views

def setHideTokens (hide : Bool) (e : Editor V) : Editor V :=
  { e with settings := { e.settings with hideTokensInMenu := hide } }

/-! ### Focus -/

def focusedIndex? (e : Editor V) : Option Nat :=
  match e.focus with
  | .token id => e.region.viewPosition? id
  | .placeholder => none

/-- The focused view with its index. -/
def focusedView? (e : Editor V) : Option (Nat × View) :=
  match e.focusedIndex? with
  | none => none
  | some i => (e.views[i]?).map fun v => (i, v)

/-- The caret of the focused token, or of the placeholder. -/
def caret (e : Editor V) : Nat :=
  match e.focusedView? with
  | some (_, v) => v.caret
  | none => e.placeholder.length

/-- The text before the caret. -/
def textBeforeCaret (e : Editor V) : Text :=
  match e.focusedView? with
  | some (_, v) => v.beforeCaret
  | none => e.placeholder

/-- Close the menu; a request still under way is cancelled. -/
def closeMenu (e : Editor V) : Editor V :=
  { e with
    channels := match e.menu.pending with
      | some p => p.promise.cancel e.channels
      | none => e.channels
    menu := {} }

def focusPlaceholder (e : Editor V) : Editor V :=
  { e with focus := .placeholder, placeholder := [] }

def modifyView (index : Nat) (f : View → View) (e : Editor V) : Editor V :=
  { e with region := e.region.modifyView index f }

/-- Focus the token at `index` with the caret at `position`, if there is such a token. The menu
does not survive a change of focus. -/
def selectToken (index : Nat) (position : Position) (e : Editor V) : Editor V :=
  match e.views[index]? with
  | none => e
  | some v =>
    let caret := match position with
      | .first => 0
      | .last => v.text.length
      | .offset n => n
    let e := e.modifyView index (·.setCaret caret)
    let e := if e.focus = .token v.id then e else e.closeMenu
    { e with focus := .token v.id }

/-- The focus names nothing that is there. -/
def focusLost (e : Editor V) : Bool :=
  match e.focus with
  | .token id => (e.region.viewPosition? id).isNone
  | .placeholder => !e.tokens.isEmpty

/-- Focus what is there: the end of the last token, or the placeholder of an empty region. A
selection that no longer fits the row is dropped. -/
def repairFocus (e : Editor V) : Editor V :=
  let count := e.tokens.length
  let e :=
    if e.focusLost then
      if count = 0 then e.focusPlaceholder else e.selectToken (count - 1) .last
    else e
  match e.selection with
  | some s => if count < s.stop then { e with selection := none } else e
  | none => e

/-- The last token is gone: report it and go to the placeholder. -/
def reportEmptied : EditM V Move := do
  modify fun e => { e with emptied := e.emptied + 1 }
  pure .toPlaceholder

end Editor

end TokenEditor
