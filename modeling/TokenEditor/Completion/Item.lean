import TokenEditor.Caret
import TokenEditor.Error

/-! # Completion items

An item says which typed texts it stands for and what applying it does: it calls on the editor to
put tokens in or to remove some, and goes on from how each call has ended. `resolve` applies the one
item that matches a text where there is no row at all, and takes the tokens it would put in. -/

namespace TokenEditor
variable {V : Type}

/-- How an item judges a typed text. -/
inductive Matcher where
  /-- Stands for one text. -/
  | exact (text : Text)
  /-- Stands for the texts with `whole`; `start` holds of those that may still grow into one. -/
  | pattern (whole start : Text → Bool)

namespace Matcher

def accepts : Matcher → Text → Bool
  | exact expected, t => expected == t
  | pattern whole _, t => whole t

/-- The text is the beginning of an accepted one, or may be. -/
def acceptsStart : Matcher → Text → Bool
  | exact expected, t => t.isPrefixOf expected
  | pattern _ start, t => start t

/-- The beginning of an accepted text, but not itself the whole of it. -/
def acceptsProperStart : Matcher → Text → Bool
  | exact expected, t => t.length < expected.length && t.isPrefixOf expected
  | pattern whole start, t => start t && !whole t

end Matcher

/-- What an item sees of the row while it is applied. -/
structure Scope (V : Type) where
  kind : ContextKind
  target : Nat
  tokens : List (Token V)

/-- No row to look at. -/
def Scope.nowhere : Scope V := ⟨.unsupported, 0, []⟩

/-- What an item does when it is applied. It learns how a call has ended and may go on after one
that failed; the errors it ends with itself are the errors of its calls or its own. -/
inductive Effect (V : Type) where
  | done (move : Move)
  | fail (err : EditError)
  /-- Looks at the row and the cells as they are now. It may change the cells. -/
  | look (change : Scope V → Cells → Cells) (next : Scope V → Cells → Effect V)
  /-- Puts tokens in at the target; the caret is to go to the one at `selected`. -/
  | complete (selected : Nat) (tokens : List (Token V)) (next : Except EditError Move → Effect V)
  /-- Removes a token before the target. -/
  | remove (index : Nat) (next : Except EditError (Token V) → Effect V)

/-- Tokens to put in, and which of them the caret goes to. -/
structure Insertion (V : Type) where
  selected : Nat := 0
  tokens : List (Token V)

namespace Effect

/-- Ends as a call has ended. -/
def ofResult : Except EditError Move → Effect V
  | .ok move => done move
  | .error err => fail err

/-- Removes tokens, each in turn, and then puts some in or leaves the row alone. What fails ends
it. -/
def plain : List Nat → Option (Insertion V) → Effect V
  | [], none => done .stay
  | [], some i => complete i.selected i.tokens ofResult
  | index :: removals, insertion => remove index fun
    | .ok _ => plain removals insertion
    | .error err => fail err

def insert (i : Insertion V) : Effect V := plain [] (some i)

def put (tokens : List (Token V)) : Effect V := insert { tokens := tokens }

/-- The tokens that the effect puts in last where there is no row, after those in `slot`. Nothing can
be removed there. -/
def captured : Effect V → Option (List (Token V)) → StateM Cells (Option (List (Token V)))
  | done _, slot => pure slot
  | fail _, _ => pure none
  | look change next, slot => fun cells =>
    captured (next .nowhere cells) slot (change .nowhere cells)
  | complete _ tokens next, _ => captured (next (.ok .stay)) (some tokens)
  | remove _ next, slot => captured (next (.error (.removal .unsupported))) slot

end Effect

/-- One proposal. -/
structure Item (V : Type) where
  /-- How the menu shows it. -/
  label : Text
  matcher : Matcher
  /-- Yields to every other item that accepts the same text. -/
  lowPriority : Bool := false
  /-- What it does when applied to a typed text. New cells may be made on the way. -/
  effect : Scope V → Text → StateM Cells (Effect V)

namespace Item

/-- Stands for exactly `text`. -/
def exact (text : Text) (effect : Scope V → Text → StateM Cells (Effect V)) : Item V :=
  { label := text, matcher := .exact text, effect := effect }

def pattern (label : Text) (whole start : Text → Bool)
    (effect : Scope V → Text → StateM Cells (Effect V)) : Item V :=
  { label := label, matcher := .pattern whole start, effect := effect }

/-- Stands for the text of a token and puts that token in. -/
def token [Payload V] (cells : Cells) (t : Token V) : Item V :=
  exact (t.text cells) fun _ _ => pure (.put [t])

def yielding (i : Item V) : Item V := { i with lowPriority := true }

/-! ### Lists of items -/

/-- The items that accept the text. Low priority items count only if no other does. -/
def matching (items : List (Item V)) (t : Text) : List (Item V) :=
  let accepting := items.filter fun i => i.matcher.accepts t
  if accepting.any fun i => !i.lowPriority then accepting.filter fun i => !i.lowPriority
  else accepting

def hasMatch (items : List (Item V)) (t : Text) : Bool :=
  !(matching items t).isEmpty

def hasSingleMatch (items : List (Item V)) (t : Text) : Bool :=
  (matching items t).length == 1

/-- Items that the text may still grow into. -/
def startedBy (items : List (Item V)) (t : Text) : List (Item V) :=
  items.filter fun i => i.matcher.acceptsStart t

def properlyStartedBy (items : List (Item V)) (t : Text) : List (Item V) :=
  items.filter fun i => i.matcher.acceptsProperStart t

/-- The item that is accepted for a text, with the text it is applied to: the first that matches, else
the first that the text may grow into and that matches its own label. -/
def chosen (items : List (Item V)) (t : Text) : Option (Item V × Text) :=
  match matching items t with
  | item :: _ => some (item, t)
  | [] => ((startedBy items t).find? fun i => i.matcher.accepts i.label).map fun i => (i, i.label)

/-- More than one item may still become of the text. -/
def isAmbiguous (items : List (Item V)) (t : Text) : Bool :=
  1 < (startedBy items t).length

/-- The first `n` characters are a token and with the next one they would start none. -/
def isBoundary (items : List (Item V)) (t : Text) (n : Nat) : Bool :=
  n < t.length && hasMatch items (t.take n) && (startedBy items (t.take (n + 1))).isEmpty

/-- The tokens that the item puts in where there is no row. -/
def captured (i : Item V) (t : Text) : StateM Cells (Option (List (Token V))) := do
  (← i.effect .nowhere t).captured none

/-- The tokens that the single item for the text puts in. -/
def resolve (items : List (Item V)) (t : Text) : StateM Cells (Option (List (Token V))) :=
  match matching items t with
  | [item] => do return (← item.captured t).filter fun ts => !ts.isEmpty
  | _ => pure none

/-- The token that the single item for the text puts in, if it is one token. -/
def resolveToken (items : List (Item V)) (t : Text) : StateM Cells (Option (Token V)) := do
  match ← resolve items t with
  | some [token] => pure (some token)
  | _ => pure none

/-- The token for a text, or an error token that holds it. -/
def tokenOrError (items : List (Item V)) (t : Text) : StateM Cells (Token V) := do
  return (← resolveToken items t).getD (.error t)

end Item

end TokenEditor
