import TokenEditor.Forest
import TokenEditor.Token

/-! # Printed values

A printer turns a value into tokens by a stream of steps. Running the stream gives the tokens, the
tree of the values that own them, and the cells whose changes call for another print. -/

namespace TokenEditor
variable {V : Type}

/-- One step of a printer. -/
inductive PrintStep (V : Type) where
  /-- What follows, up to the matching `close`, is printed for `v`. -/
  | enter (v : V)
  | token (t : Token V)
  | close
  /-- Ask to be printed again when the cell changes. -/
  | watch (c : CellId)

/-- The tree of a print: the value printed and what was printed for it. -/
structure PrintTree (V : Type) where
  value : V
  children : Forest V (Token V)

namespace PrintTree

def tokens (t : PrintTree V) : List (Token V) := t.children.leaves

def tokenCount (t : PrintTree V) : Nat := t.children.leafCount

/-- For every token the value that owns it. -/
def objects (t : PrintTree V) : List V := t.children.owners t.value

/-- The whole tree as a forest of one tree. -/
def forest (t : PrintTree V) : Forest V (Token V) := .node t.value t.children .nil

/-- For every node, the root first, the interval of tokens printed under it. -/
def spans (t : PrintTree V) : List (Nat × Nat) :=
  t.forest.spans 0

theorem spans_eq (t : PrintTree V) : t.spans = (0, t.tokenCount) :: t.children.spans 0 := by
  simp [spans, forest, tokenCount]

end PrintTree

/-- The outcome of a print. -/
structure Printed (V : Type) where
  tokens : List (Token V)
  tree : PrintTree V
  watched : List CellId

namespace PrintStep

def token? : PrintStep V → Option (Token V)
  | token t => some t
  | _ => none

def watch? : PrintStep V → Option CellId
  | watch c => some c
  | _ => none

/-- The effect of a step on the tree under construction. -/
def build (b : Forest.Builder V (Token V)) : PrintStep V → Forest.Builder V (Token V)
  | enter v => b.openNode v
  | token t => b.leaf t
  | close => b.closeNode
  | watch _ => b

end PrintStep

/-- Run a printer's steps for `v`. Nodes left open are closed at the end. -/
def Printed.ofSteps (v : V) (steps : List (PrintStep V)) : Printed V where
  tokens := steps.filterMap PrintStep.token?
  tree := ⟨v, (steps.foldl PrintStep.build .empty).finish⟩
  watched := steps.filterMap PrintStep.watch?

end TokenEditor
