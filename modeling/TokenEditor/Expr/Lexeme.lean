import TokenEditor.Expr.Kind
import TokenEditor.Text.Decimal

/-! # Lexemes

Cutting a text into lexemes by longest match. Nothing is lost: the texts of the lexemes make up the
input. A character that starts no lexeme is an error lexeme on its own. -/

namespace TokenEditor.Expr

structure Lexeme where
  kind : Kind
  text : Text
deriving DecidableEq, Repr

def isSpace (c : Char) : Bool :=
  c == ' ' || c == '\t' || c == '\r' || c == '\n'

def isNameStart (c : Char) : Bool :=
  c.isAlpha || c == '_'

def isNameChar (c : Char) : Bool :=
  c.isAlphanum || c == '_'

/-- The kind of a lexeme of one character. -/
def symbolKind : Char → Kind
  | '+' => .plus
  | '*' => .star
  | '!' => .bang
  | '.' => .dot
  | '(' => .lparen
  | ')' => .rparen
  | _ => .errorToken

/-- The first lexeme of `c :: cs` is of kind `.1`, and takes `.2` characters of `cs`. -/
def firstLexeme (c : Char) (cs : Text) : Kind × Nat :=
  if isSpace c then (.whitespace, (cs.takeWhile isSpace).length)
  else if isNameStart c then (.ident, (cs.takeWhile isNameChar).length)
  else if c.isDigit then (.int, (cs.takeWhile Char.isDigit).length)
  else if c == '+' && cs.head? == some '+' then (.plusPlus, 1)
  else (symbolKind c, 0)

/-- The lexemes of a text. -/
def lex : Text → List Lexeme
  | [] => []
  | c :: cs =>
    let (kind, n) := firstLexeme c cs
    ⟨kind, c :: cs.take n⟩ :: lex (cs.drop n)
termination_by t => t.length
decreasing_by simp only [List.length_drop, List.length_cons]; omega

/-- The kind of a text that is a single lexeme with a meaning: no space, no error, and no integer
that 64 bits do not hold. -/
def singleKind? (t : Text) : Option Kind :=
  match lex t with
  | [⟨.whitespace, _⟩] => none
  | [⟨.errorToken, _⟩] => none
  | [⟨.int, _⟩] => if (Decimal.read? t).isSome then some .int else none
  | [⟨kind, _⟩] => some kind
  | _ => none

def isName (t : Text) : Bool :=
  singleKind? t == some .ident

def isNumber (t : Text) : Bool :=
  singleKind? t == some .int

/-- Cutting loses nothing. -/
theorem flatten_lex (t : Text) : ((lex t).map Lexeme.text).flatten = t := by
  fun_induction lex t <;> simp_all

end TokenEditor.Expr
