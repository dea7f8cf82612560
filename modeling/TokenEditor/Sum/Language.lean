import TokenEditor.Language
import TokenEditor.Sum.Basic
import TokenEditor.Text.Letter

/-! # The sum language

```text
sum  := term ('+' term)*
term := atom '++'*
atom := digits | identifier | value
```

`*` and brackets can be completed but never parse. -/

namespace TokenEditor.Sum

/-! ### Tokens -/

def plusToken : Token Sum := .plain ['+']
def incToken : Token Sum := .plain ['+', '+']
def mulToken : Token Sum := .plain ['*']
def groupToken : Token Sum := .simple ['('] .onRight
def closeToken : Token Sum := .simple [')'] .onLeft

/-- A letter, then letters and numerals. -/
def isNameStart (t : Text) : Bool :=
  t.head?.all Text.isLetter && t.all Text.isLetterOrNumeral

def isName (t : Text) : Bool :=
  !t.isEmpty && isNameStart t

/-! ### Reading -/

def isPlus : Token Sum → Bool
  | .simple t g => t == ['+'] && g == .none
  | _ => false

def isInc : Token Sum → Bool
  | .simple t g => t == ['+', '+'] && g == .none
  | _ => false

/-- The value of a token that stands for one. -/
def atom? : Token Sum → Option Sum
  | .simple t _ => if Decimal.isDigits t then (Decimal.read? t).map num else none
  | .identifier name => some (var name)
  | .value v => some v
  | _ => none

/-- Increments after a term. -/
def increments (e : Sum) : List (Token Sum) → Sum × List (Token Sum)
  | [] => (e, [])
  | t :: ts => if isInc t then increments (inc e) ts else (e, t :: ts)

theorem length_increments_le (e : Sum) (ts : List (Token Sum)) :
    (increments e ts).2.length ≤ ts.length := by
  fun_induction increments e ts <;> grind

/-- The terms of a row, with a plus between neighbours. -/
def terms? : List (Token Sum) → Option (List Sum)
  | [] => none
  | t :: ts =>
    match atom? t with
    | none => none
    | some e =>
      match _h : increments e ts with
      | (e', []) => some [e']
      | (e', plus :: rest) => if isPlus plus then (terms? rest).map (e' :: ·) else none
termination_by ts => ts.length
decreasing_by
  have hle := length_increments_le e ts
  rw [_h] at hle
  simp at hle ⊢
  omega

/-- A single term stands for itself, several for their sum. -/
def parse (tokens : List (Token Sum)) : Option Sum :=
  match terms? tokens with
  | some [e] => some e
  | some es => some (add es)
  | none => none

/-! ### Printing -/

/-- Ways of printing. -/
structure Style where
  /-- Fill numbers up to three characters. -/
  pad : Bool := false
  /-- Leave out the last term of a sum, so that the print does not read back. -/
  dropLast : Bool := false
deriving DecidableEq, Repr

mutual

def printSteps (style : Style) : Sum → List (PrintStep Sum)
  | num n => [.token (.plain (if style.pad then Decimal.writePadded 3 n else Decimal.write n))]
  | var name => [.token (.identifier name)]
  | inc e => .enter e :: e.printSteps style ++ [.close, .token incToken]
  | note c => [.watch c, .token (.value (note c))]
  | add terms => printTerms style terms

/-- The terms with a plus between neighbours, each a node of its own. -/
def printTerms (style : Style) : List Sum → List (PrintStep Sum)
  | [] => []
  | [t] => if style.dropLast then [] else .enter t :: t.printSteps style ++ [.close]
  | t :: ts => .enter t :: t.printSteps style ++ .close :: .token plusToken :: printTerms style ts

end

/-! ### Completion -/

def numberItem : Item Sum :=
  .pattern "<number>".toList Decimal.isDigits (fun t => t.all Char.isDigit) fun _ t =>
    pure (.put [.plain t])

def nameItem : Item Sum :=
  (Item.pattern "<identifier>".toList isName isNameStart fun _ t =>
    pure (.put [.identifier t])).yielding

/-- Drops the first token of the row and puts in a plus. -/
def dropFirstItem : Item Sum :=
  .exact ['<', '<'] fun _ _ =>
    pure (.plain [0] (some { tokens := [plusToken] }))

def tokenItems : List (Item Sum) := [
  .token {} plusToken,
  .token {} incToken,
  .token {} mulToken,
  .token {} groupToken,
  .token {} closeToken,
  numberItem,
  nameItem,
  dropFirstItem]

def extraItems : List (Item Sum) := [
  .exact "note".toList fun _ _ => do return .put [.value (note (← Cells.new []))]]

/-- The sum language. Of the requests for later items only the latest is kept. -/
def language (style : Style) : Language Sum where
  parse _ := parse
  print _ e := e.printSteps style
  tokenItems _ _ _ := tokenItems
  extraItems _ _ _ := extraItems
  laterItems _ _ _ := .latest
  pairLeft cells t := t.text cells == ['(']
  pairRight cells t := t.text cells == [')']
  pair cells l r := l.text cells == ['('] && r.text cells == [')']

end TokenEditor.Sum
