import TokenEditor.Expr.Event

/-! # Text ranges in syntax trees

Every node and lexeme of a tree covers a range of the text. Offsets count the bytes of the text in
UTF-8. -/

namespace TokenEditor.Expr

/-- A node, or a lexeme with its text, and where it stands. -/
structure Located where
  depth : Nat
  kind : Kind
  start : Nat
  stop : Nat
  text : Option Text
deriving DecidableEq, Repr

/-- Number of bytes of the text under a tree. -/
def Tree.utf8Size : Tree → Nat
  | .nil => 0
  | .leaf l rest => l.text.utf8Size + utf8Size rest
  | .node _ children rest => utf8Size children + utf8Size rest

theorem Tree.utf8Size_eq (tree : Tree) : Tree.utf8Size tree = (Tree.text tree).utf8Size := by
  induction tree <;> simp_all [Tree.utf8Size, Tree.text, Forest.leaves]

/-- Everything in a tree, a node before what it holds, when its text begins at `start`. -/
def Tree.locate (depth start : Nat) : Tree → List Located
  | .nil => []
  | .leaf l rest =>
    let stop := start + l.text.utf8Size
    ⟨depth, l.kind, start, stop, some l.text⟩ :: locate depth stop rest
  | .node kind children rest =>
    let stop := start + Tree.utf8Size children
    ⟨depth, kind, start, stop, none⟩ ::
      (locate (depth + 1) start children ++ locate depth stop rest)

end TokenEditor.Expr
