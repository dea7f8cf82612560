/-! # Editing errors

What can go wrong in an edit. A row that does not parse and an ambiguous completion are no errors:
the first makes the region invalid, the second leaves an error token. -/

namespace TokenEditor

/-- Where completion is asked for. -/
inductive ContextKind where
  /-- At a position of the row. -/
  | token
  /-- Into the empty region. -/
  | placeholder
  /-- For a text that stands nowhere. -/
  | unsupported
deriving DecidableEq, Repr

def ContextKind.name : ContextKind → String
  | token => "token"
  | placeholder => "placeholder"
  | unsupported => "unsupported"

inductive EditError where
  /-- The value read from `tokens` tokens prints as `printed` tokens. -/
  | mismatch (printed tokens : Nat)
  /-- A restore was asked for while one is under way. -/
  | restoring
  /-- A completion item wants to remove a token where it cannot. -/
  | removal (context : ContextKind)
  | outOfBounds (index length : Nat)
  /-- Typing a character did not come to rest: every completion brought it back. -/
  | stalled
deriving DecidableEq, Repr

def EditError.message : EditError → String
  | mismatch printed tokens =>
    s!"printer produced {printed} tokens for a value parsed from {tokens} tokens"
  | restoring => "restore_state called while a restore is already in progress"
  | removal context =>
    "remove_token is not supported in a " ++ context.name ++ " completion context"
  | outOfBounds index length => s!"token index {index} is out of bounds for {length} tokens"
  | stalled => "typing did not come to rest"

end TokenEditor
