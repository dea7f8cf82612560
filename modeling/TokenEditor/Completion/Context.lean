import TokenEditor.Completion.Item
import TokenEditor.View

/-! # Completion requests

What a language is told when it is asked for completion items. -/

namespace TokenEditor
variable {V : Type}

/-- Why completion was asked for. -/
structure Params where
  /-- By the menu, not by typing. -/
  menu : Bool := false
  /-- To put something in behind a finished token. -/
  endRight : Bool := false
deriving DecidableEq, Repr

namespace Params

def typing : Params := {}
def forMenu : Params := { menu := true }

def atEndRight (p : Params) : Params := { p with endRight := true }

end Params

/-- The region as it is when completion is asked for. -/
structure Context (V : Type) where
  kind : ContextKind := .unsupported
  target : Nat := 0
  tokens : List (Token V) := []
  views : List View := []
  /-- For every token the value that owns it. -/
  objects : List V := []
  /-- The value of the region, for token contexts. -/
  value : Option V := none

namespace Context

/-- For texts that stand nowhere. -/
def nowhere : Context V := {}

/-- The tokens before the target. -/
def before (c : Context V) : List (Token V) :=
  c.tokens.take c.target

end Context

/-- Which of its sources of items a language is asked for. -/
inductive Provider where
  | tokens
  | extras
  | later
deriving DecidableEq, Repr

/-- One request to a language. -/
structure Call (V : Type) where
  provider : Provider
  context : Context V
  params : Params

end TokenEditor
