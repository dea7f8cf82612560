import TokenEditor.Expr.Grammar
import TokenEditor.Expr.Lowering
import TokenEditor.Language

/-! # The expression language

Names, integers, `+` and `*`, postfix `++` and `!`, grouping, calls, fields and embedded texts.
Postfix operators and closing brackets stand close to what is before them, an opening bracket to
what follows, a point and the bracket of a call to both. -/

namespace TokenEditor.Expr

/-! ### Tokens -/

def plusToken : Token Expr := .plain ['+']
def mulToken : Token Expr := .plain ['*']
def incToken : Token Expr := .simple ['+', '+'] .onLeft
def factorialToken : Token Expr := .simple ['!'] .onLeft
def dotToken : Token Expr := .simple ['.'] .both
/-- Opens a group. -/
def groupToken : Token Expr := .simple ['('] .onRight
/-- Opens the argument of a call. -/
def callToken : Token Expr := .simple ['('] .both
def closeToken : Token Expr := .simple [')'] .onLeft

/-! ### Reading and printing -/

/-- The kind under which the grammar sees a token. -/
def tokenKind : Token Expr → Kind
  | .identifier _ => .ident
  | .value _ => .value
  | .simple t _ => (singleKind? t).getD .errorToken
  | _ => .errorToken

def Lexeme.ofToken (cells : Cells) (t : Token Expr) : Lexeme :=
  ⟨tokenKind t, t.text cells⟩

/-- Read a row of tokens. -/
def parse (p : Precedence) (cells : Cells) (tokens : List (Token Expr)) : Option Expr :=
  lower (parseLexemes p (tokens.map (Lexeme.ofToken cells))) (tokens.filterMap Token.value?)

/-- The steps that print an expression. Each operand is a node of its own. -/
def printSteps : Expr → List (PrintStep Expr)
  | var name => [.token (.identifier name)]
  | int n => [.token (.plain (Decimal.write n))]
  | plus l r =>
    .enter l :: l.printSteps ++ .close :: .token plusToken :: .enter r :: r.printSteps ++ [.close]
  | mul l r =>
    .enter l :: l.printSteps ++ .close :: .token mulToken :: .enter r :: r.printSteps ++ [.close]
  | inc e => .enter e :: e.printSteps ++ [.close, .token incToken]
  | factorial e => .enter e :: e.printSteps ++ [.close, .token factorialToken]
  | parens e => .token groupToken :: .enter e :: e.printSteps ++ [.close, .token closeToken]
  | call name => [.token (.identifier name), .token callToken, .token closeToken]
  | callWith name e =>
    .token (.identifier name) :: .token callToken :: .enter e :: e.printSteps ++
      [.close, .token closeToken]
  | field e name =>
    .enter e :: e.printSteps ++ [.close, .token dotToken, .token (.identifier name)]
  | text c => [.watch c, .token (.value (text c))]

/-! ### Completion -/

/-- Puts in a new text with the given contents. -/
def newText (contents : Text) : StateM Cells (Effect Expr) := do
  return .put [.value (text (← Cells.new contents))]

/-- An opening bracket; right after a name it opens a call. -/
def bracketItem : Item Expr :=
  .exact ['('] fun scope _ =>
    let afterName := 0 < scope.target && (scope.tokens[scope.target - 1]?).any Token.isIdentifier
    pure (.put [if afterName then callToken else groupToken])

def numberItem : Item Expr :=
  .pattern "<number>".toList isNumber (fun t => t.all Char.isDigit) fun _ t =>
    pure (.put [.plain t])

def nameItem : Item Expr :=
  (Item.pattern "<identifier>".toList isName (fun t => t.isEmpty || isName t) fun _ t =>
    pure (.put [.identifier t])).yielding

/-- The word for an empty text. -/
def valueWord : Text := "value".toList

def tokenItems : List (Item Expr) := [
  .token {} plusToken,
  .token {} mulToken,
  .token {} incToken,
  .token {} factorialToken,
  .token {} dotToken,
  bracketItem,
  .token {} closeToken,
  numberItem,
  nameItem,
  .exact valueWord fun _ _ => newText []]

def extraItems : List (Item Expr) := [.exact "text".toList fun _ _ => newText []]

/-- The items with which requests for later items are answered. -/
def laterItems : List (Item Expr) := [.exact "async".toList fun _ _ => newText "async".toList]

/-! ### Cutting text into tokens -/

/-- The token of a lexeme; nothing for spaces and for what is no token. -/
def tokenOf? (l : Lexeme) : StateM Cells (Option (Token Expr)) :=
  match l.kind with
  | .ident =>
    if l.text = valueWord then do return some (.value (text (← Cells.new [])))
    else pure (some (.identifier l.text))
  | .int => pure (if isNumber l.text then some (.plain l.text) else none)
  | .plus => pure (some plusToken)
  | .star => pure (some mulToken)
  | .plusPlus => pure (some incToken)
  | .bang => pure (some factorialToken)
  | .dot => pure (some dotToken)
  | .lparen => pure (some groupToken)
  | .rparen => pure (some closeToken)
  | _ => pure none

/-- The tokens of the lexemes, where `bad` is the text of the error token in progress. Neighbouring
lexemes that are no tokens make one error token. -/
def tokensOf (bad : Text) : List Lexeme → StateM Cells (List (Token Expr))
  | [] => pure (flush [])
  | l :: ls =>
    if l.kind.isTrivia then do return flush (← tokensOf [] ls)
    else do
      match ← tokenOf? l with
      | some t => return flush (t :: (← tokensOf [] ls))
      | none => tokensOf (bad ++ l.text) ls
where
  /-- Put the error token in front, if there is one. -/
  flush (tokens : List (Token Expr)) : List (Token Expr) :=
    if bad.isEmpty then tokens else .error bad :: tokens

def tokenize (t : Text) : StateM Cells (List (Token Expr)) :=
  tokensOf [] (lex t)

/-- The expression language with the given precedence. Requests for later items queue up until
they are answered. -/
def language (p : Precedence) : Language Expr where
  parse := parse p
  print _ e := e.printSteps
  tokenItems _ _ _ := tokenItems
  extraItems _ _ _ := extraItems
  laterItems _ _ _ := .queued
  tokenize := tokenize
  pairLeft cells t := t.text cells == ['(']
  pairRight cells t := t.text cells == [')']
  pair cells l r := l.text cells == ['('] && r.text cells == [')']

end TokenEditor.Expr
