import TokenEditor.Completion.Channel
import TokenEditor.Completion.Context
import TokenEditor.Completion.Tokenizer
import TokenEditor.Pairing
import TokenEditor.Printed

/-! # Languages

A language is all that the editor asks for: to read a row of tokens as a value, to print a value as
tokens, to propose completion items, to cut pasted text into tokens, and to tell which tokens pair.
Reading and printing may look at the texts in the cells. -/

namespace TokenEditor

structure Language (V : Type) where
  /-- The value of a row, if it is one. -/
  parse : Cells → List (Token V) → Option V
  print : Cells → V → List (PrintStep V)
  tokenItems : Cells → Context V → Params → List (Item V)
  /-- Further items for the menu. -/
  extraItems : Cells → Context V → Params → List (Item V) := fun _ _ _ => []
  /-- Items for the menu that may come later. -/
  laterItems : Cells → Context V → Params → Later V := fun _ _ _ => .ready []
  tokenize : Text → StateM Cells (List (Token V)) := fun t cells =>
    Item.tokenize (tokenItems cells .nowhere .typing) t cells
  pairLeft : Cells → Token V → Bool := fun _ _ => false
  pairRight : Cells → Token V → Bool := fun _ _ => false
  pair : Cells → Token V → Token V → Bool := fun _ _ _ => false

namespace Language
variable {V : Type}

/-- Print a value with the language's printer. -/
def printed (l : Language V) (cells : Cells) (v : V) : Printed V :=
  Printed.ofSteps v (l.print cells v)

/-- The items for texts that stand nowhere. -/
def looseItems (l : Language V) (cells : Cells) : List (Item V) :=
  l.tokenItems cells .nowhere .typing

/-- The items with which a language answers a request at once. -/
def answer (l : Language V) (cells : Cells) (call : Call V) : List (Item V) :=
  match call.provider with
  | .tokens => l.tokenItems cells call.context call.params
  | .extras => l.extraItems cells call.context call.params
  | .later => []

/-- Index of the token paired with the one at `index`. -/
def partner? (l : Language V) (cells : Cells) (tokens : List (Token V)) (index : Nat) :
    Option Nat :=
  Pairing.partner? (l.pairLeft cells) (l.pairRight cells) (l.pair cells) tokens index

end Language

end TokenEditor
