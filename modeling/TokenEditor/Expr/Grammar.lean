import TokenEditor.Expr.Event

/-! # Grammar

```text
root    := expr? ERROR?
expr    := postfix (('+' | '*') expr)*      by precedence climbing
postfix := atom ('++' | '!' | '.' IDENT)*
atom    := IDENT '(' expr? ')' | IDENT | INT | VALUE | '(' expr ')'
```

Every rule takes the lexemes it can and never gives up: a lexeme that starts no operand is wrapped
in an error node, something missing leaves an empty error node, and what follows a complete
expression goes into one last error node. Rules report events; `base` is the position at which the
events of a rule begin in the whole list. -/

namespace TokenEditor.Expr

/-- The kind of the next lexeme. -/
def peek (ls : List Lexeme) : Kind :=
  match ls with
  | [] => .eof
  | l :: _ => l.kind

/-- The events of an operand that may yet become part of a larger one. -/
structure Fragment where
  events : List Event
  /-- Position, among these events, at which the outermost node begins. -/
  head : Nat

namespace Fragment

/-- A complete node over the given events. -/
def node (kind : Kind) (body : List Event) : Fragment :=
  ⟨.start kind none :: body ++ [.finish], 0⟩

/-- Make the operand the first child of a new node with the further events `body`. -/
def wrap (base : Nat) (f : Fragment) (kind : Kind) (body : List Event) : Fragment where
  events :=
    (f.events.modify f.head fun
      | .start k _ => .start k (some (base + f.events.length))
      | e => e) ++ .start kind none :: body ++ [.finish]
  head := f.events.length

end Fragment

/-- An empty error node where something is missing. -/
def missing : List Event := [.start .error none, .finish]

/-- Take a lexeme of the kind, or report it missing. -/
def expect (kind : Kind) : List Lexeme → List Event × List Lexeme
  | [] => (missing, [])
  | l :: ls => if l.kind = kind then ([.token kind], ls) else (missing, l :: ls)

/-- Postfix operators after the operand `f`. -/
def postfixes (base : Nat) (f : Fragment) : List Lexeme → Fragment × List Lexeme
  | [] => (f, [])
  | l :: ls =>
    match l.kind with
    | .plusPlus | .bang => postfixes base (f.wrap base .postfixExpr [.token l.kind]) ls
    | .dot =>
      match ls with
      | n :: ls' =>
        if n.kind = .ident then
          postfixes base (f.wrap base .fieldExpr [.token .dot, .token .ident]) ls'
        else postfixes base (f.wrap base .fieldExpr (.token .dot :: missing)) (n :: ls')
      | [] => (f.wrap base .fieldExpr (.token .dot :: missing), [])
    | _ => (f, l :: ls)

mutual

/-- An expression whose operators all bind at least as tightly as `least`; nothing if no operand
starts here. `fuel` bounds the nesting. -/
def exprFrom (p : Precedence) :
    Nat → Nat → Nat → List Lexeme → Option (Fragment × List Lexeme)
  | 0, _, _, _ => none
  | fuel + 1, base, least, ls =>
    match atom p fuel base ls with
    | none => none
    | some (f, ls) =>
      let (f, ls) := postfixes base f ls
      some (climb p fuel base least f ls)

/-- Take operators that bind at least as tightly as `least` after the operand `f`. -/
def climb (p : Precedence) :
    Nat → Nat → Nat → Fragment → List Lexeme → Fragment × List Lexeme
  | 0, _, _, f, ls => (f, ls)
  | _ + 1, _, _, f, [] => (f, [])
  | fuel + 1, base, least, f, l :: ls =>
    match p.bindingPower? l.kind with
    | none => (f, l :: ls)
    | some (left, right) =>
      if left < least then (f, l :: ls)
      else
        let (operand, ls) :=
          match exprFrom p fuel (base + f.events.length + 2) right ls with
          | some (g, ls) => (g.events, ls)
          | none => (missing, ls)
        climb p fuel base least (f.wrap base .binExpr (.token l.kind :: operand)) ls

/-- An operand without operators. -/
def atom (p : Precedence) : Nat → Nat → List Lexeme → Option (Fragment × List Lexeme)
  | 0, _, _ => none
  | _ + 1, _, [] => none
  | fuel + 1, base, l :: ls =>
    match l.kind with
    | .ident =>
      match ls with
      | n :: ls' =>
        if n.kind = .lparen then
          let (argument, ls) :=
            if peek ls' = .rparen then ([], ls') else operand p fuel (base + 3) ls'
          let (close, ls) := expect .rparen ls
          some (.node .callExpr (.token .ident :: .token .lparen :: argument ++ close), ls)
        else some (.node .nameRef [.token .ident], n :: ls')
      | [] => some (.node .nameRef [.token .ident], [])
    | .int => some (.node .literal [.token .int], ls)
    | .value => some (.node .valueExpr [.token .value], ls)
    | .lparen =>
      let (inner, ls) := operand p fuel (base + 2) ls
      let (close, ls) := expect .rparen ls
      some (.node .parenExpr (.token .lparen :: inner ++ close), ls)
    | .eof | .rparen => none
    | kind => some (.node .error [.token kind], ls)

/-- An expression, or an error node where there is none. -/
def operand (p : Precedence) (fuel : Nat) (base : Nat) (ls : List Lexeme) :
    List Event × List Lexeme :=
  match fuel with
  | 0 => (missing, ls)
  | fuel + 1 =>
    match exprFrom p fuel base 0 ls with
    | some (f, ls) => (f.events, ls)
    | none => (missing, ls)

end

/-- Enough fuel for the lexemes: every rule that calls itself has taken one of them before. -/
def fuelFor (ls : List Lexeme) : Nat := 3 * ls.length + 3

/-- The events of a whole region. -/
def rootEvents (p : Precedence) (ls : List Lexeme) : List Event :=
  let (body, rest) := if ls.isEmpty then ([], []) else operand p (fuelFor ls) 1 ls
  let trailing :=
    if rest.isEmpty then []
    else .start .error none :: rest.map (fun l => .token l.kind) ++ [.finish]
  .start .root none :: body ++ trailing ++ [.finish]

/-- The syntax tree of a list of lexemes. -/
def parseLexemes (p : Precedence) (ls : List Lexeme) : Tree :=
  Event.replay (rootEvents p ls) ls

/-- The syntax tree of a text; spaces are left out. -/
def parseText (t : Text) : Tree :=
  parseLexemes {} ((lex t).filter fun l => !l.kind.isTrivia)

end TokenEditor.Expr
