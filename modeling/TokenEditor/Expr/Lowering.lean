import TokenEditor.Expr.Basic
import TokenEditor.Expr.Event

/-! # From trees to expressions

A syntax tree without error nodes stands for an expression. The nodes for embedded values take
their expressions from a list, in order. -/

namespace TokenEditor.Expr

/-- How many child nodes a node of the kind reads. -/
def arity : Kind → Nat
  | .binExpr => 2
  | .postfixExpr | .parenExpr | .callExpr | .fieldExpr => 1
  | _ => 0

/-- The name among the node's own lexemes. -/
def ownName? (children : Tree) : Option Text :=
  (children.ownLeaves.find? fun l => l.kind == .ident).map Lexeme.text

/-- The operator among the node's own lexemes. -/
def ownOperator? (children : Tree) : Option Kind :=
  (children.ownLeaves.map Lexeme.kind).find? fun k =>
    k == .plus || k == .star || k == .plusPlus || k == .bang

/-- The expression of a node over the expressions of its first child nodes. -/
def assemble (kind : Kind) (children : Tree) (operands : List Expr) : Option Expr :=
  match kind, operands with
  | .nameRef, _ => (ownName? children).map var
  | .literal, _ => (Decimal.read? (Tree.text children)).map int
  | .parenExpr, [e] => some (parens e)
  | .callExpr, [] => (ownName? children).map call
  | .callExpr, [e] => (ownName? children).map (callWith · e)
  | .fieldExpr, [e] => (ownName? children).map (field e)
  | .postfixExpr, [e] =>
    match ownOperator? children with
    | some .plusPlus => some (inc e)
    | some .bang => some (factorial e)
    | _ => none
  | .binExpr, [l, r] =>
    match ownOperator? children with
    | some .plus => some (plus l r)
    | some .star => some (mul l r)
    | _ => none
  | _, _ => none

/-- The expressions of the first `n` nodes of a row, and the values left over. -/
def lowerNodes : Nat → Tree → List Expr → Option (List Expr × List Expr)
  | 0, _, values => some ([], values)
  | _ + 1, .nil, values => some ([], values)
  | n + 1, .leaf _ rest, values => lowerNodes (n + 1) rest values
  | n + 1, .node .valueExpr _ rest, values =>
    match values with
    | [] => none
    | v :: values => do
      let (es, values) ← lowerNodes n rest values
      some (v :: es, values)
  | n + 1, .node kind children rest, values => do
    let (operands, values) ← lowerNodes (arity kind) children values
    let e ← assemble kind children operands
    let (es, values) ← lowerNodes n rest values
    some (e :: es, values)

/-- The expression of a syntax tree, unless it has an error node or none at all. -/
def lower (tree : Tree) (values : List Expr) : Option Expr :=
  if tree.labels.contains .error then none
  else
    match tree.firstNode? with
    | none => none
    | some (_, children) =>
      match lowerNodes 1 children values with
      | some ([e], _) => some e
      | _ => none

end TokenEditor.Expr
