import TokenEditor.Text.Basic
import TokenEditor.Change

/-! # Shared text cells

A value may hold texts that are edited in place and shared: a cell. Cells live in a store and
values name them by number. Whoever shows a cell subscribes to it; every change of its text is
announced to the subscribers. -/

namespace TokenEditor

/-- The number of a cell in its store. -/
abbrev CellId := Nat

/-- A text with the listeners that are told of its changes. All that matters of a listener is
that it is there. -/
structure Cell where
  text : Text
  listeners : Listeners Unit := {}

/-- All cells, by number. -/
structure Cells where
  entries : List Cell := []

/-- A subscription to a cell. -/
structure Subscription where
  cell : CellId
  id : Nat
deriving DecidableEq, Repr

namespace Cells

def text (cells : Cells) (c : CellId) : Text :=
  match cells.entries[c]? with
  | some cell => cell.text
  | none => []

def listenerCount (cells : Cells) (c : CellId) : Nat :=
  match cells.entries[c]? with
  | some cell => cell.listeners.count
  | none => 0

/-- A new cell that nobody listens to. -/
def new (t : Text) : StateM Cells CellId := fun cells =>
  (cells.entries.length, ⟨cells.entries ++ [{ text := t }]⟩)

def setText (cells : Cells) (c : CellId) (t : Text) : Cells :=
  ⟨cells.entries.modify c fun cell => { cell with text := t }⟩

def subscribe (cells : Cells) (c : CellId) : Subscription × Cells :=
  match cells.entries[c]? with
  | none => (⟨c, 0⟩, cells)
  | some cell =>
    let (id, listeners) := cell.listeners.subscribe ()
    (⟨c, id⟩, ⟨cells.entries.set c { cell with listeners := listeners }⟩)

def unsubscribe (cells : Cells) (s : Subscription) : Cells :=
  ⟨cells.entries.modify s.cell fun cell =>
    { cell with listeners := cell.listeners.unsubscribe s.id }⟩

/-- Subscribe to every listed cell, once per occurrence. -/
def subscribeAll (cells : Cells) : List CellId → List Subscription × Cells
  | [] => ([], cells)
  | c :: cs =>
    let (s, cells) := cells.subscribe c
    let (ss, cells) := cells.subscribeAll cs
    (s :: ss, cells)

def unsubscribeAll (cells : Cells) (ss : List Subscription) : Cells :=
  ss.foldl unsubscribe cells

end Cells

end TokenEditor
