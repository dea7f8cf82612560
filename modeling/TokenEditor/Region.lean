import TokenEditor.Language
import TokenEditor.Settings

/-! # Regions

A region holds a row of tokens, one view per token, and the value read from the row. Every edit of
the row goes through `splice`, which reads the row again; a row that reads as a value is printed
back at once and must give as many tokens. A row that does not read keeps its tokens and is
invalid.

Reading and aligning are guarded: what is asked for while a synchronisation runs is dropped, so
that the row can be brought in line with its print without being read again. An operation that
fails leaves the region as far as it had come. -/

namespace TokenEditor
variable {V : Type}

structure Region (V : Type) where
  language : Language V
  cells : Cells
  tokens : List (Token V) := []
  views : List View := []
  /-- The number of the next view. -/
  nextView : ViewId := 0
  /-- The value last read or set. -/
  value : Option V := none
  valid : Bool := true
  /-- The tree of the last print, if the row agrees with it. -/
  tree : Option (PrintTree V) := none
  printed : Option (List (Token V)) := some []
  syncing : Bool := false
  restoring : Bool := false
  /-- Subscriptions to the cells of the last print. -/
  subscriptions : List Subscription := []
  /-- A watched cell has changed since the last print. -/
  stale : Bool := false
  /-- Number of edits of the row. -/
  modifications : Nat := 0
  autoReparse : Bool := true
  autoReprint : Bool := true
  /-- How often the language has been asked to read a row. -/
  parses : Nat := 0

/-- An operation on a region that may fail. -/
abbrev RegionM (V : Type) := EStateM EditError (Region V)

namespace Region

def new (language : Language V) (cells : Cells) (settings : Settings) : Region V where
  language := language
  cells := cells
  autoReparse := settings.autoReparse
  autoReprint := settings.autoReprint

def viewPosition? (r : Region V) (id : ViewId) : Option Nat :=
  r.views.findIdx? fun v => v.id == id

/-- For every token the value that owns it; empty without a print. -/
def objects (r : Region V) : List V :=
  match r.tree with
  | some t => t.objects
  | none => []

/-- Change one view; the token behind it stays. -/
def modifyView (index : Nat) (f : View → View) (r : Region V) : Region V :=
  { r with views := r.views.modify index f }

/-- Run a computation on the cells. -/
def onCells {α : Type} (f : StateM Cells α) : RegionM V α := fun r =>
  let (a, cells) := f r.cells
  .ok a { r with cells := cells }

/-! ### Watching cells -/

/-- Give up all subscriptions. -/
def dispose (r : Region V) : Region V :=
  { r with cells := r.cells.unsubscribeAll r.subscriptions, subscriptions := [] }

/-- Subscribe to the listed cells in place of those watched so far. -/
def watch (cs : List CellId) (r : Region V) : Region V :=
  let (subscriptions, cells) := r.cells.subscribeAll cs
  { r with cells := cells.unsubscribeAll r.subscriptions, subscriptions := subscriptions }

/-- Change the text of a cell. The region notices if it listens to it. -/
def setCellText (c : CellId) (t : Text) (r : Region V) : Region V :=
  { r with
    cells := r.cells.setText c t
    stale := r.stale || 0 < r.cells.listenerCount c }

/-! ### Synchronisation -/

/-- Begin a synchronisation, unless one is running. -/
def beginSync? (r : Region V) : Option (Region V) :=
  if r.syncing then none else some { r with syncing := true }

def endSync (r : Region V) : Region V :=
  { r with syncing := false }

/-- Run `f` as a synchronisation. While one is running the request is dropped. -/
def sync (f : RegionM V Unit) : RegionM V Unit := fun r =>
  match r.beginSync? with
  | none => .ok () r
  | some r =>
    match f r with
    | .ok _ r => .ok () r.endSync
    | .error e r => .error e r.endSync

/-- Print the value, replacing the tree, the printed tokens and all subscriptions. -/
def reprint (r : Region V) : Region V :=
  match r.value with
  | some v =>
    let p := r.language.printed r.cells v
    { r.watch p.watched with stale := false, tree := some p.tree, printed := some p.tokens }
  | none => { r.dispose with tree := none, printed := some [] }

variable [Payload V]

/-- Read the row. The language sees a copy with cells of its own. -/
def reparse : RegionM V Unit := fun r =>
  if r.restoring then .ok () r
  else if r.tokens.isEmpty then
    .ok () { r.dispose with value := none, valid := true, tree := none, printed := some [] }
  else
    let (copy, cells) := Token.detachAll r.tokens r.cells
    let r := { r with cells := cells, parses := r.parses + 1 }
    match r.language.parse cells copy with
    | none => .ok () { r with valid := false, tree := none, printed := none }
    | some v =>
      let r := { r with value := some v, valid := true }.reprint
      let count := (r.printed.getD []).length
      if count = r.tokens.length then .ok () r else .error (.mismatch count r.tokens.length) r

/-- The row was edited. -/
def edited : RegionM V Unit := do
  modify fun r => { r with modifications := r.modifications + 1 }
  if (← get).autoReparse then sync reparse

/-- Put `new` in place of the tokens from `start` up to `stop`, as one edit. -/
def splice (start stop : Nat) (new : List (Token V)) : RegionM V Unit := do
  let r ← get
  if stop < start ∨ r.tokens.length < stop then throw (.outOfBounds stop r.tokens.length)
  else
    set { r with
      tokens := r.tokens.take start ++ new ++ r.tokens.drop stop
      views := r.views.take start ++ View.ofTokens r.cells r.nextView new ++ r.views.drop stop
      nextView := r.nextView + new.length }
    edited

/-! ### Editing the row -/

def setTokens (new : List (Token V)) : RegionM V Unit := do
  splice 0 (← get).tokens.length new

def clear : RegionM V Unit :=
  setTokens []

def insert (index : Nat) (t : Token V) : RegionM V Unit :=
  splice index index [t]

def tokenAt (index : Nat) : RegionM V (Token V) := do
  let r ← get
  match r.tokens[index]? with
  | some t => pure t
  | none => throw (.outOfBounds index r.tokens.length)

/-- Remove a token and return it. -/
def remove (index : Nat) : RegionM V (Token V) := do
  let t ← tokenAt index
  splice index (index + 1) []
  pure t

/-- Replace a token and return the old one. -/
def replace (index : Nat) (new : Token V) : RegionM V (Token V) := do
  let t ← tokenAt index
  splice index (index + 1) [new]
  pure t

/-! ### Agreement of row, print and value -/

/-- Print the value and make the printed tokens the row. -/
def reprintToTokens : RegionM V Unit := do
  modify reprint
  let r ← get
  splice 0 r.tokens.length (r.printed.getD [])
  modify fun r => { r with valid := true }

/-- Replace the value; the row follows if the region reprints by itself. -/
def setValue (v : Option V) : RegionM V Unit := do
  modify fun r => { r with value := v }
  if (← get).autoReprint then sync reprintToTokens

/-- Replace the tokens from `index` on that differ from the listed ones. -/
def alignFrom (index : Nat) : List (Token V) → RegionM V Unit
  | [] => pure ()
  | t :: ts => do
    let r ← get
    match r.tokens[index]? with
    | some old => unless old.same r.cells t do discard (replace index t)
    | none => pure ()
    alignFrom (index + 1) ts

/-- Bring the row in line with its print. Tokens that were printed unchanged keep their views. -/
def updateToPrinted : RegionM V Unit := do
  let r ← get
  match r.printed with
  | none => pure ()
  | some printed =>
    if printed.length = r.tokens.length then sync (alignFrom 0 printed)
    else throw (.mismatch printed.length r.tokens.length)

/-- What a restore does to the row. -/
def putBack (saved : Option (List (Token V))) : RegionM V Unit := do
  match saved with
  | some tokens => setTokens tokens
  | none => unless (← get).valid do reprintToTokens

/-- Put saved tokens back, or without any print an invalid region from its last value. The row is
read only when the restore is over. -/
def restore (saved : Option (List (Token V))) : RegionM V Unit := fun r =>
  if r.restoring then .error .restoring r
  else
    match putBack saved { r with restoring := true } with
    | .error e r => .error e { r with restoring := false }
    | .ok _ r =>
      let r := { r with restoring := false }
      if saved.isSome then sync reparse r else .ok () r

/-- Change the language; the row is read again and brought in line with the new print. -/
def setLanguage (language : Language V) : RegionM V Unit := do
  modify fun r => { r with language := language, parses := 0 }
  if (← get).autoReparse then
    sync reparse
    updateToPrinted

/-- Act on a change of a watched cell; tells whether there was one. -/
def processChanges : RegionM V Bool := do
  let r ← get
  if r.stale then
    set { r with stale := false }
    if r.autoReprint then sync reprintToTokens
    pure true
  else pure false

end Region

end TokenEditor
