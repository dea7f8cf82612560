import TokenEditor.Editor.Offer

/-! # Applying completions

Putting completed tokens into the row, and where the caret goes afterwards. -/

namespace TokenEditor
variable {V : Type} [Payload V]

namespace Editor

/-- Splice the row and bring it in line with its print. -/
def spliceUpdated (start stop : Nat) (new : List (Token V)) : EditM V Unit := do
  onRegion (Region.splice start stop new)
  onRegion Region.updateToPrinted

/-- The move to a position in the token at `index`. -/
def select (index : Nat) (position : Position) (e : Editor V) : Move :=
  Move.select e.tokens e.views index position

/-- Complete in place of the token at `target`. The caret keeps its place if the selected token
reads as what was typed, and goes to its end otherwise. -/
def completeReplacing (target selected : Nat) (new : List (Token V)) : EditM V Move := do
  let e ← get
  match e.views[target]? with
  | none => throw (.outOfBounds target e.tokens.length)
  | some v =>
    spliceUpdated target (target + 1) new
    let after ← get
    let index := target + selected
    let kept := (after.views[index]?).any fun w => w.editable && w.text == v.text
    let move :=
      if !kept || !v.editable then after.select index .last
      else if v.caret = 0 then after.select index .first
      else if v.caretAtEnd then after.select index .last
      else Move.toToken index (.offset v.caret)
    pure (move.reopening e.menu.active)

/-- Complete beside a token. A value put in where a value stands takes its place. -/
def completeBeside (params : Params) (target selected : Nat) (new : List (Token V)) :
    EditM V Move := do
  let e ← get
  let overValue := new.head?.any Token.isValue && (e.tokens[target]?).any Token.isValue
  spliceUpdated target (if overValue then target + 1 else target) new
  let move := (← get).select (target + selected) .last
  pure (move.reopening (params.endRight && !params.menu))

/-- Complete at the end of the row, which is where the placeholder stands. -/
def completeFilling (selected : Nat) (new : List (Token V)) : EditM V Move := do
  let e ← get
  spliceUpdated e.tokens.length e.tokens.length new
  pure (((← get).select selected .last).reopening e.menu.active)

def complete (placement : Placement) (target selected : Nat) (new : List (Token V)) :
    EditM V Move :=
  match placement with
  | .replace => completeReplacing target selected new
  | .beside params => completeBeside params target selected new
  | .fill => completeFilling selected new

/-- Remove a token before the target on behalf of an item. -/
def removeBefore (kind : ContextKind) (target index : Nat) : EditM V (Token V) :=
  if kind ≠ .token then throw (.removal kind)
  else if target ≤ index then throw (.outOfBounds index target)
  else onRegion (Region.remove index)

/-- What an item of the offer sees when it is applied. -/
def scope (offer : Offer V) (e : Editor V) : Scope V := ⟨offer.kind, offer.target, e.tokens⟩

/-- Carry out what an item does. What it calls for applies to the row as it is by then, and the target
moves along with the tokens removed before it. -/
def applyEffect (offer : Offer V) : Effect V → EditM V Move
  | .done move => pure move
  | .fail err => throw err
  | .look change next => do
    let e ← get
    onRegion (Region.onCells (modify (change (e.scope offer))))
    applyEffect offer (next (e.scope offer) e.region.cells)
  | .complete selected tokens next => do
    let result ← observing (complete offer.placement offer.target selected tokens)
    applyEffect offer (next result)
  | .remove index next => do
    let result ← observing (removeBefore offer.kind offer.target index)
    let target := if result.isOk then offer.target - 1 else offer.target
    applyEffect { offer with target := target } (next result)

/-- Apply an item of an offer to a text. -/
def applyItem (offer : Offer V) (item : Item V) (t : Text) : EditM V Move := do
  let effect ← onRegion (Region.onCells (item.effect ((← get).scope offer) t))
  applyEffect offer effect

/-- Apply the first item that matches the text, if any. -/
def applyMatch (offer : Offer V) (t : Text) : EditM V (Option Move) :=
  match Item.matching offer.items t with
  | [] => pure none
  | item :: _ => do return some (← applyItem offer item t)

/-- Apply the first item that matches the text, close the menu and move the caret. -/
def completeMatch (offer : Offer V) (t : Text) : EditM V Unit := do
  match ← applyMatch offer t with
  | none => pure ()
  | some move => modify fun e => e.closeMenu.run move

/-- Accept an item: apply it, close the menu and move the caret. -/
def acceptItem (offer : Offer V) (item : Item V) (t : Text) : EditM V Unit := do
  let move ← applyItem offer item t
  modify fun e =>
    let e := if offer.supplier = .placeholder then { e with placeholder := [] } else e
    e.closeMenu.run move

/-- The items for texts that stand nowhere. -/
def looseItems (e : Editor V) : List (Item V) :=
  e.region.language.looseItems e.region.cells

end Editor

end TokenEditor
