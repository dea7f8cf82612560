import Mathlib.Data.List.TakeWhile
import TokenEditor.Proofs.Structural

/-! # Canonical expressions and their rows

The expressions that the grammar can tell from their tokens: no negative integer, no operator under
a tighter one without brackets. `row e` is what is printed for `e`; two tokens are `Alike` when the
grammar cannot tell them apart, and a row `Spells` an expression when it is alike to its print,
token by token. -/

namespace TokenEditor.Expr

/-- The level of the operator at the top, if it is a binary one. -/
def topLevel? (p : Precedence) : Expr → Option Nat
  | plus _ _ => p.level? .plus
  | mul _ _ => p.level? .star
  | _ => none

/-- Both operands of an operator of level `level` may stand without brackets. -/
def Fits (p : Precedence) (level : Nat) (l r : Expr) : Prop :=
  (∀ k ∈ l.topLevel? p, level ≤ k) ∧ ∀ k ∈ r.topLevel? p, level < k

/-- No integer is negative and every operand may stand where it does without brackets. -/
def Canonical (p : Precedence) : Expr → Prop
  | int n => 0 ≤ n.toInt
  | plus l r => Fits p p.plus.toNat l r ∧ l.Canonical p ∧ r.Canonical p
  | mul l r => Fits p p.mul.toNat l r ∧ l.Canonical p ∧ r.Canonical p
  | inc e | factorial e | field e _ => e.topLevel? p = none ∧ e.Canonical p
  | parens e | callWith _ e => e.Canonical p
  | var _ | call _ | text _ => True

instance (p : Precedence) (level : Nat) (l r : Expr) : Decidable (Fits p level l r) :=
  inferInstanceAs (Decidable (_ ∧ _))

instance Canonical.decidable (p : Precedence) : (e : Expr) → Decidable (e.Canonical p)
  | int n => inferInstanceAs (Decidable (0 ≤ n.toInt))
  | plus l r | mul l r =>
    have := Canonical.decidable p l
    have := Canonical.decidable p r
    inferInstanceAs (Decidable (_ ∧ _ ∧ _))
  | inc e | factorial e | field e _ =>
    have := Canonical.decidable p e
    inferInstanceAs (Decidable (_ ∧ _))
  | parens e | callWith _ e => Canonical.decidable p e
  | var _ | call _ | text _ => isTrue trivial

theorem isDigit_iff {c : Char} : c.isDigit ↔ 48 ≤ c.toNat ∧ c.toNat ≤ 57 := by
  simp [Char.isDigit, UInt32.le_iff_toNat_le, ← Char.toNat_val]

theorem isNameStart_of_isDigit {c : Char} (h : c.isDigit) : isNameStart c = false := by
  have hc := isDigit_iff.1 h
  have halpha : c.isAlpha = false := by
    rw [← Bool.not_eq_true, Text.isAlpha_iff]
    omega
  have hne : c ≠ '_' := by
    rintro rfl
    simp at h
  simp [isNameStart, halpha, hne]

theorem isSpace_of_isDigit {c : Char} (h : c.isDigit) : isSpace c = false := by
  simp only [isSpace, Bool.or_eq_false_iff, beq_eq_false_iff_ne]
  refine ⟨⟨⟨?_, ?_⟩, ?_⟩, ?_⟩ <;> rintro rfl <;> simp at h

theorem firstLexeme_of_isDigit {c : Char} (h : c.isDigit) (cs : Text) :
    firstLexeme c cs = (.int, (cs.takeWhile Char.isDigit).length) := by
  simp [firstLexeme, isSpace_of_isDigit h, isNameStart_of_isDigit h, h]

theorem isDigit_of_firstLexeme_int {c : Char} {cs : Text} (h : (firstLexeme c cs).1 = .int) :
    c.isDigit := by
  have hsymbol : symbolKind c ≠ .int := by
    unfold symbolKind
    split <;> decide
  unfold firstLexeme at h
  repeat' split at h
  all_goals first | assumption | exact absurd h hsymbol | simp at h

theorem lex_cons (c : Char) (cs : Text) :
    lex (c :: cs) = ⟨(firstLexeme c cs).1, c :: cs.take (firstLexeme c cs).2⟩ ::
      lex (cs.drop (firstLexeme c cs).2) := by
  rw [lex]

theorem lex_eq_nil {t : Text} : lex t = [] ↔ t = [] := by
  cases t <;> simp [lex]

theorem lex_eq_int_iff {t : Text} : (∃ u, lex t = [⟨.int, u⟩]) ↔ Decimal.isDigits t := by
  cases t with
  | nil => simp [lex, Decimal.isDigits]
  | cons c cs =>
    have hdigits : Decimal.isDigits (c :: cs) ↔ c.isDigit ∧ ∀ d ∈ cs, d.isDigit := by
      simp [Decimal.isDigits]
    rw [lex_cons, hdigits]
    constructor
    · rintro ⟨u, hu⟩
      rw [List.cons.injEq, Lexeme.mk.injEq] at hu
      obtain ⟨⟨hfirst, -⟩, hrest⟩ := hu
      have hc : c.isDigit := isDigit_of_firstLexeme_int hfirst
      refine ⟨hc, List.takeWhile_eq_self_iff.1 ?_⟩
      rw [firstLexeme_of_isDigit hc, lex_eq_nil, List.drop_eq_nil_iff] at hrest
      exact (List.takeWhile_prefix _).eq_of_length_le hrest
    · rintro ⟨hc, hcs⟩
      rw [firstLexeme_of_isDigit hc, List.takeWhile_eq_self_iff.2 hcs]
      exact ⟨c :: cs, by simp [lex]⟩

theorem singleKind?_eq_int {t : Text} :
    singleKind? t = some .int ↔ Decimal.isDigits t ∧ (Decimal.read? t).isSome := by
  rw [← lex_eq_int_iff]
  unfold singleKind?
  split <;> simp_all [Option.isSome_iff_ne_none]

theorem toInt_of_read?_digits {ds : Text} (h : Decimal.isDigits ds) {n : Int64}
    (hn : Decimal.read? ds = some n) : 0 ≤ n.toInt := by
  rw [Decimal.read?_of_isDigits h] at hn
  rw [Decimal.toInt_of_fit? hn]
  exact Int.natCast_nonneg _

theorem singleKind?_write {n : Int64} (h : 0 ≤ n.toInt) :
    singleKind? (Decimal.write n) = some .int := by
  refine singleKind?_eq_int.2 ⟨?_, by rw [Decimal.read?_write]; rfl⟩
  rw [Decimal.write, if_neg (by omega)]
  exact Decimal.isDigits_toDigits _

/-! ### Tokens that the grammar cannot tell apart -/

/-- The tokens are of one kind; as names and as embedded texts they read the same, as integers they
have one value. -/
structure Alike (cells : Cells) (t u : Token Expr) : Prop where
  kind : tokenKind t = tokenKind u
  name : tokenKind t = .ident → t.text cells = u.text cells
  number : tokenKind t = .int → Decimal.read? (t.text cells) = Decimal.read? (u.text cells)
  contents : tokenKind t = .value → t.text cells = u.text cells

namespace Alike
variable {cells : Cells} {t u w : Token Expr}

theorem refl (cells : Cells) (t : Token Expr) : Alike cells t t :=
  ⟨rfl, fun _ => rfl, fun _ => rfl, fun _ => rfl⟩

theorem trans (h : Alike cells t u) (h' : Alike cells u w) : Alike cells t w :=
  ⟨h.kind.trans h'.kind,
    fun hk => (h.name hk).trans (h'.name (h.kind.symm.trans hk)),
    fun hk => (h.number hk).trans (h'.number (h.kind.symm.trans hk)),
    fun hk => (h.contents hk).trans (h'.contents (h.kind.symm.trans hk))⟩

end Alike

/-- The row is alike to the print of the expression, token by token. -/
def Spells (cells : Cells) (e : Expr) (ts : List (Token Expr)) : Prop :=
  List.Forall₂ (Alike cells) e.row ts

/-- At most a text is embedded in the token. -/
def embedsText : Token Expr → Bool
  | .value (text _) => true
  | .value _ => false
  | _ => true

/-- No value token of the row carries anything but a text. -/
def TextOnly (ts : List (Token Expr)) : Prop := ∀ t ∈ ts, embedsText t

instance (ts : List (Token Expr)) : Decidable (TextOnly ts) :=
  inferInstanceAs (Decidable (∀ t ∈ ts, embedsText t = true))

section
variable {cells : Cells} {a b : Expr} {t u : Token Expr} {p : Precedence}

theorem topLevel?_of_same (h : a.same cells b) : a.topLevel? p = b.topLevel? p := by
  fun_induction same cells a b <;> simp_all [topLevel?]

theorem canonical_of_same (h : a.same cells b) : a.Canonical p ↔ b.Canonical p := by
  fun_induction same cells a b <;> grind [Canonical, Fits, topLevel?_of_same]

theorem sameRow_row (h : a.same cells b) : SameRow cells a.row b.row := by
  fun_induction same cells a b
  case case3 l r l' r' hl hr =>
    obtain ⟨hsl, hsr⟩ := Bool.and_eq_true_iff.1 h
    simpa using (hl hsl).append ((SameRow.refl _ [plusToken]).append (hr hsr))
  case case4 l r l' r' hl hr =>
    obtain ⟨hsl, hsr⟩ := Bool.and_eq_true_iff.1 h
    simpa using (hl hsl).append ((SameRow.refl _ [mulToken]).append (hr hsr))
  case case5 e e' ih => simpa using (ih h).append (SameRow.refl _ [incToken])
  case case6 e e' ih => simpa using (ih h).append (SameRow.refl _ [factorialToken])
  case case7 e e' ih =>
    simpa using (SameRow.refl _ [groupToken]).append ((ih h).append (SameRow.refl _ [closeToken]))
  case case9 n e n' e' ih =>
    obtain ⟨hn, he⟩ := Bool.and_eq_true_iff.1 h
    obtain rfl := beq_iff_eq.1 hn
    simpa using (SameRow.refl _ [.identifier n, callToken]).append
      ((ih he).append (SameRow.refl _ [closeToken]))
  case case10 e n e' n' ih =>
    obtain ⟨he, hn⟩ := Bool.and_eq_true_iff.1 h
    obtain rfl := beq_iff_eq.1 hn
    simpa using (ih he).append (SameRow.refl _ [dotToken, .identifier n])
  case case11 c d => exact .cons h .nil
  case case12 => exact absurd h Bool.false_ne_true
  all_goals
    obtain rfl := beq_iff_eq.1 h
    exact SameRow.refl _ _

theorem alike_of_same (h : t.same cells u) : Alike cells t u := by
  obtain ⟨hkind, htext⟩ := Lexeme.mk.inj (lexeme_of_same h)
  exact ⟨hkind, fun _ => htext, fun _ => by rw [htext], fun _ => htext⟩

end

theorem spells_row (cells : Cells) (e : Expr) : Spells cells e e.row :=
  List.forall₂_same.2 fun t _ => Alike.refl cells t

theorem Spells.of_same {ts : List (Token Expr)} {cells : Cells} {a b : Expr}
    (h : Spells cells a ts) (hs : a.same cells b) : Spells cells b ts :=
  forall₂_trans (R := Alike cells) (fun _ _ _ => Alike.trans)
    ((sameRow_row (same_symm hs)).imp fun _ _ => alike_of_same) h

theorem textOnly_row (e : Expr) : TextOnly e.row := by
  induction e <;>
    simp_all [TextOnly, embedsText, or_imp, Token.plain, plusToken, mulToken, incToken,
      factorialToken, dotToken, groupToken, callToken, closeToken]

end TokenEditor.Expr
