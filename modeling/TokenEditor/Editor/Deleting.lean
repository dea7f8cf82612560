import TokenEditor.Editor.Typing

/-! # Deleting

A delete key takes away a character of the focused token, merges it with a neighbour, or takes away
a whole token: a value, an empty token, or a neighbour that cannot be merged. -/

namespace TokenEditor.Editor
variable {V : Type} [Payload V]

/-- The token at `index` has lost its last character. Glued to a neighbour or alone it goes;
between spaces it stays as an empty error token. -/
def becameEmpty (index : Nat) : EditM V Unit := do
  let e ← get
  match e.tokens[index]? with
  | none => pure ()
  | some current =>
    let prev := if index = 0 then none else e.tokens[index - 1]?
    let next := e.tokens[index + 1]?
    let goes := prev.any (fun p => p.glue.right || current.glue.left) ||
      next.any (fun n => n.glue.left) || current.glue.right || (prev.isNone && next.isNone)
    let move ← if goes then deleteToken index 0 else replaceToken index (.error [])
    modify (run move)

/-- Place the caret of the focused view where its text reaches that far. -/
def keepCaret (caret : Nat) (e : Editor V) : Editor V :=
  match e.focusedView? with
  | some (index, v) => if caret ≤ v.text.length then e.modifyView index (·.setCaret caret) else e
  | none => e

/-- Resolve the text of the view at `index` after a character was taken from it. -/
def afterDelete (index : Nat) : EditM V Unit := do
  let e ← get
  match e.views[index]?, e.tokens[index]? with
  | some v, some token =>
    if v.text.isEmpty then becameEmpty index
    else if v.text == token.text e.region.cells then pure ()
    else
      let offer := e.typingOffer (.token index)
      if Item.hasSingleMatch offer.items v.text then
        completeMatch offer v.text
        modify (keepCaret v.caret)
      else markUnresolved index v.text v.caret
  | _, _ => pure ()

/-- Delete the token at `index` as a whole. -/
def deleteWhole (index : Nat) : EditM V Unit := do
  modify closeMenu
  let move ← deleteToken index 0
  modify (run move)

/-- Delete across the edge of the token at `index`. -/
def deleteAcross (index : Nat) (backward : Bool) : EditM V Unit := do
  let delta := if backward then -1 else 1
  let e ← get
  if e.canDelete index delta then
    let move ←
      if e.canMerge index delta then mergeTokens index backward else deleteToken index delta
    modify fun e => e.closeMenu.run move

/-- A delete key: it takes the selection, or else acts before (`backward`) or after the caret. -/
def deleteChar (backward : Bool) : EditM V Unit := do
  let e ← get
  if e.selection.isSome then clearSelection
  else
    match e.focusedIndex? with
    | none => if backward then set { e with placeholder := e.placeholder.dropLast }
    | some index =>
      match e.views[index]? with
      | none => pure ()
      | some v =>
        let atEdge := if backward then v.caret == 0 else v.caretAtEnd
        if !v.editable || v.text.isEmpty then deleteWhole index
        else if atEdge then deleteAcross index backward
        else
          modify (modifyView index (if backward then View.eraseBefore else View.eraseAfter))
          afterDelete index

def backspace : EditM V Unit := deleteChar true

def delete : EditM V Unit := deleteChar false

/-- Delete the selection, or else the focused token. -/
def deleteCurrent : EditM V Unit := do
  let e ← get
  if e.selection.isSome then clearSelection
  else
    match e.focusedIndex? with
    | none => pure ()
    | some index => deleteWhole index

end TokenEditor.Editor
