/-! # Kinds of the expression syntax

The kinds of lexemes and of tree nodes, and how tightly the binary operators bind. -/

namespace TokenEditor.Expr

inductive Kind where
  | whitespace
  | ident
  | int
  | plus
  | star
  | plusPlus
  | bang
  | dot
  | lparen
  | rparen
  /-- An embedded value. -/
  | value
  | errorToken
  | eof
  | root
  | binExpr
  | postfixExpr
  | parenExpr
  | callExpr
  | fieldExpr
  | nameRef
  | literal
  | valueExpr
  | error
deriving DecidableEq, Repr

namespace Kind

/-- Position in the list of all kinds; lexeme kinds come first. -/
def number (k : Kind) : Nat := k.ctorIdx

def isLexeme (k : Kind) : Bool := k.number ≤ eof.number

def isNode (k : Kind) : Bool := !k.isLexeme

/-- Lexemes without meaning. -/
def isTrivia (k : Kind) : Bool := k == whitespace

end Kind

/-- The levels of the two binary operators; the higher one binds tighter. -/
structure Precedence where
  plus : UInt8 := 1
  mul : UInt8 := 2
deriving DecidableEq, Repr

namespace Precedence

/-- The level of a binary operator. -/
def level? (p : Precedence) : Kind → Option Nat
  | .plus => some p.plus.toNat
  | .star => some p.mul.toNat
  | _ => none

/-- How tightly an operator binds to its left and to its right. Being one tighter on the right,
an operator groups with itself to the left. -/
def bindingPower? (p : Precedence) (k : Kind) : Option (Nat × Nat) :=
  (p.level? k).map fun level => (2 * level + 1, 2 * level + 2)

end Precedence

end TokenEditor.Expr
