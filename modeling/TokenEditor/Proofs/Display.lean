import TokenEditor.Proofs.Keystrokes

/-! # Display cut into tokens

An expression displays with spaces around its operators and without any elsewhere. Cutting what it
displays into tokens gives the tokens that are printed for it, but for the bracket of a call, which
comes back as that of a group: an operator is never run together with its neighbours, since each
piece of the text either ends at a character that cannot go on with it or is a whole symbol.
`CutsTo` states this of one piece and of any text after it; the pieces put themselves together. -/

namespace TokenEditor.Expr

/-- No text is embedded, no integer is negative, and names are names other than the word for a new
text. -/
def Legible : Expr → Prop
  | var name | call name => isNameShaped name ∧ name ≠ valueWord
  | int n => 0 ≤ n.toInt
  | plus l r | mul l r => l.Legible ∧ r.Legible
  | inc e | factorial e | parens e => e.Legible
  | callWith name e | field e name => (isNameShaped name ∧ name ≠ valueWord) ∧ e.Legible
  | text _ => False

instance Legible.decidable : (e : Expr) → Decidable e.Legible
  | var name | call name => inferInstanceAs (Decidable (isNameShaped name = true ∧ _))
  | int n => inferInstanceAs (Decidable (0 ≤ n.toInt))
  | plus l r | mul l r =>
    have := Legible.decidable l
    have := Legible.decidable r
    inferInstanceAs (Decidable (_ ∧ _))
  | inc e | factorial e | parens e => Legible.decidable e
  | callWith name e | field e name =>
    have := Legible.decidable e
    inferInstanceAs (Decidable ((isNameShaped name = true ∧ _) ∧ _))
  | text _ => isFalse id

/-- A text does not tell the bracket of a call from that of a group. -/
def regroup (t : Token Expr) : Token Expr :=
  if t = callToken then groupToken else t

theorem regroup_plain (t : Text) : regroup (.plain t) = .plain t :=
  if_neg (by simp [Token.plain, callToken, Glue.none, Glue.both])

theorem text_regroup (cells : Cells) (t : Token Expr) : (regroup t).text cells = t.text cells := by
  unfold regroup
  split
  case isTrue h => rw [h]; rfl
  case isFalse => rfl

theorem ofToken_regroup (cells : Cells) (t : Token Expr) :
    Lexeme.ofToken cells (regroup t) = Lexeme.ofToken cells t := by
  unfold regroup
  split
  case isTrue h => rw [h]; rfl
  case isFalse => rfl

theorem value?_regroup (t : Token Expr) : (regroup t).value? = t.value? := by
  unfold regroup
  split
  case isTrue h => rw [h]; rfl
  case isFalse => rfl

theorem parse_map_regroup (p : Precedence) (cells : Cells) (ts : List (Token Expr)) :
    parse p cells (ts.map regroup) = parse p cells ts := by
  have hlexemes : (ts.map regroup).map (Lexeme.ofToken cells) = ts.map (Lexeme.ofToken cells) := by
    simp [ofToken_regroup]
  have hvalues : (ts.map regroup).filterMap Token.value? = ts.filterMap Token.value? := by
    simp [List.filterMap_map, value?_regroup]
  rw [parse, hlexemes, hvalues, parse]

/-- Cut together with what follows it, the text gives the tokens and leaves what follows whole. -/
def CutsTo (t : Text) (ts : List (Token Expr)) (rest : Text) : Prop :=
  tokensOf [] (lex (t ++ rest)) = (ts ++ ·) <$> tokensOf [] (lex rest)

/-- No name and no number goes on into the text. -/
def Parts (rest : Text) : Prop := ∀ c ∈ rest.head?, isNameChar c = false

section
variable {c : Char} {cs t t' rest : Text} {ts ts' : List (Token Expr)} {tok : Token Expr}
  {l : Lexeme} {ls : List Lexeme}

theorem CutsTo.append (h : CutsTo t ts (t' ++ rest)) (h' : CutsTo t' ts' rest) :
    CutsTo (t ++ t') (ts ++ ts') rest := by
  unfold CutsTo at *
  rw [List.append_assoc, h, h']
  simp [Functor.map_map]

theorem tokensOf_trivia (h : l.kind.isTrivia) : tokensOf [] (l :: ls) = tokensOf [] ls := by
  rw [tokensOf]
  simp [h, tokensOf.flush]

theorem tokensOf_token (h : l.kind.isTrivia = false) (htok : tokenOf? l = pure (some tok)) :
    tokensOf [] (l :: ls) = (tok :: ·) <$> tokensOf [] ls := by
  rw [tokensOf]
  simp [h, htok, tokensOf.flush]

theorem lex_of_first {kind : Kind} (hfirst : firstLexeme c (cs ++ rest) = (kind, cs.length)) :
    lex (c :: cs ++ rest) = ⟨kind, c :: cs⟩ :: lex rest := by
  rw [List.cons_append, lex_cons, hfirst, List.take_left, List.drop_left]

/-- A piece that is the first lexeme of every text it begins with. -/
theorem CutsTo.lexeme (kind : Kind) (hfirst : firstLexeme c (cs ++ rest) = (kind, cs.length))
    (hkind : kind.isTrivia = false) (htok : tokenOf? ⟨kind, c :: cs⟩ = pure (some tok)) :
    CutsTo (c :: cs) [tok] rest := by
  unfold CutsTo
  rw [lex_of_first hfirst]
  exact tokensOf_token hkind htok

theorem takeWhile_append_of_parts {q : Char → Bool} (hq : ∀ c, q c → isNameChar c)
    (hcs : ∀ c ∈ cs, q c) (hrest : Parts rest) : (cs ++ rest).takeWhile q = cs := by
  rw [List.takeWhile_append_of_pos hcs]
  cases rest with
  | nil => simp
  | cons d rest =>
    have hd : q d = false := by
      have := hrest d rfl
      by_contra h
      simp_all
    simp [hd]

theorem CutsTo.name (hname : isNameShaped t) (hv : t ≠ valueWord) (hrest : Parts rest) :
    CutsTo t [.identifier t] rest := by
  cases t with
  | nil => simp [isNameShaped] at hname
  | cons c cs =>
    rw [isNameShaped, Bool.and_eq_true_iff, List.all_eq_true] at hname
    obtain ⟨hstart, hcs⟩ := hname
    have htake := takeWhile_append_of_parts (fun _ h => h) hcs hrest
    refine .lexeme .ident ?_ rfl (by simp [tokenOf?, hv])
    simp [firstLexeme, isSpace_of_isNameStart hstart, hstart, htake]

theorem isNameChar_of_isDigit (h : c.isDigit) : isNameChar c := by
  simp [isNameChar, Char.isAlphanum, h]

theorem CutsTo.int {n : Int64} (hn : 0 ≤ n.toInt) (hrest : Parts rest) :
    CutsTo (Decimal.write n) [.plain (Decimal.write n)] rest := by
  have hkind := singleKind?_write hn
  have hdigits := (singleKind?_eq_int.1 hkind).1
  generalize Decimal.write n = t at *
  cases t with
  | nil => simp [Decimal.isDigits] at hdigits
  | cons c cs =>
    obtain ⟨hc, hcs⟩ : c.isDigit ∧ ∀ d ∈ cs, d.isDigit := by simpa [Decimal.isDigits] using hdigits
    have htake := takeWhile_append_of_parts (fun _ => isNameChar_of_isDigit) hcs hrest
    refine .lexeme .int ?_ rfl (by simp [tokenOf?, isNumber, hkind])
    rw [firstLexeme_of_isDigit hc, htake]

theorem lex_space (hc : isSpace c) (cs : Text) :
    lex (c :: cs) = ⟨.whitespace, c :: cs.takeWhile isSpace⟩ :: lex (cs.dropWhile isSpace) := by
  have hsplit : cs.takeWhile isSpace ++ cs.dropWhile isSpace = cs := List.takeWhile_append_dropWhile
  have hlex : lex (c :: cs.takeWhile isSpace ++ cs.dropWhile isSpace) = _ :=
    lex_of_first (by rw [hsplit, firstLexeme, if_pos hc])
  rwa [List.cons_append, hsplit] at hlex

theorem tokensOf_lex_space (hc : isSpace c) (rest : Text) :
    tokensOf [] (lex (c :: rest)) = tokensOf [] (lex rest) := by
  rw [lex_space hc, tokensOf_trivia rfl]
  cases rest with
  | nil => rfl
  | cons d rest =>
    by_cases hd : isSpace d
    · rw [List.dropWhile_cons_of_pos hd, lex_space hd, tokensOf_trivia rfl]
    · rw [List.dropWhile_cons_of_neg hd]

theorem CutsTo.spaced (h : ∀ rest, CutsTo t ts (' ' :: rest)) (rest : Text) :
    CutsTo (' ' :: t ++ [' ']) ts rest := by
  have hc : isSpace ' ' := by decide
  unfold CutsTo at *
  rw [List.cons_append, List.cons_append, tokensOf_lex_space hc, List.append_assoc,
    List.singleton_append, h, tokensOf_lex_space hc]

theorem CutsTo.operator (c : Char) (tok : Token Expr)
    (h : (c, tok) ∈ [('+', plusToken), ('*', mulToken)]) (rest : Text) :
    CutsTo [' ', c, ' '] [tok] rest := by
  simp only [List.mem_cons, Prod.mk.injEq, List.not_mem_nil, or_false] at h
  rcases h with ⟨rfl, rfl⟩ | ⟨rfl, rfl⟩
  · exact spaced (t := ['+']) (fun rest => .lexeme .plus
      (by simp [firstLexeme, isSpace, isNameStart, symbolKind]) rfl rfl) rest
  · exact spaced (t := ['*']) (fun rest => .lexeme .star
      (by simp [firstLexeme, isSpace, isNameStart, symbolKind]) rfl rfl) rest

theorem CutsTo.increment (rest : Text) : CutsTo ['+', '+'] [incToken] rest :=
  .lexeme .plusPlus (by simp [firstLexeme, isSpace, isNameStart]) rfl rfl

theorem CutsTo.symbol (c : Char) (tok : Token Expr) (h : (c, tok) ∈
      [('!', factorialToken), ('.', dotToken), ('(', groupToken), (')', closeToken)])
    (rest : Text) : CutsTo [c] [tok] rest := by
  simp only [List.mem_cons, Prod.mk.injEq, List.not_mem_nil, or_false] at h
  rcases h with ⟨rfl, rfl⟩ | ⟨rfl, rfl⟩ | ⟨rfl, rfl⟩ | ⟨rfl, rfl⟩
  · exact .lexeme .bang (by simp [firstLexeme, isSpace, isNameStart, symbolKind]) rfl rfl
  · exact .lexeme .dot (by simp [firstLexeme, isSpace, isNameStart, symbolKind]) rfl rfl
  · exact .lexeme .lparen (by simp [firstLexeme, isSpace, isNameStart, symbolKind]) rfl rfl
  · exact .lexeme .rparen (by simp [firstLexeme, isSpace, isNameStart, symbolKind]) rfl rfl

end

theorem parts_cons {c : Char} (h : isNameChar c = false) (rest : Text) : Parts (c :: rest) := by
  simpa [Parts] using h

/-- What an expression displays is cut into the tokens printed for it. -/
theorem CutsTo.display {e : Expr} (h : e.Legible) (cells : Cells) {rest : Text}
    (hrest : Parts rest) : CutsTo (e.display cells) (e.row.map regroup) rest := by
  have opening := fun rest => symbol '(' groupToken (by simp) rest
  have closing := fun rest => symbol ')' closeToken (by simp) rest
  -- what stands after an operand is a space, a symbol or the text after the whole
  induction e generalizing rest with
  | var name => exact .name h.1 h.2 hrest
  | int n =>
    rw [row_int, List.map_singleton, regroup_plain]
    exact .int h hrest
  | plus l r ihl ihr =>
    rw [row_plus, List.append_cons, List.map_append, List.map_append]
    have hop := operator '+' plusToken (by simp) (r.display cells ++ rest)
    exact ((ihl h.1 (parts_cons rfl _)).append hop).append (ihr h.2 hrest)
  | mul l r ihl ihr =>
    rw [row_mul, List.append_cons, List.map_append, List.map_append]
    have hop := operator '*' mulToken (by simp) (r.display cells ++ rest)
    exact ((ihl h.1 (parts_cons rfl _)).append hop).append (ihr h.2 hrest)
  | inc e ih =>
    rw [row_inc, List.map_append]
    exact (ih h (parts_cons rfl _)).append (.increment rest)
  | factorial e ih =>
    rw [row_factorial, List.map_append]
    exact (ih h (parts_cons rfl _)).append (.symbol '!' factorialToken (by simp) rest)
  | parens e ih =>
    rw [row_parens, List.map_append]
    exact ((opening _).append (ih h (parts_cons rfl _))).append (closing rest)
  | call name =>
    exact (CutsTo.name h.1 h.2 (parts_cons rfl _)).append ((opening _).append (closing rest))
  | callWith name e ih =>
    obtain ⟨⟨hname, hv⟩, he⟩ := h
    rw [row_callWith, List.map_append]
    have hclose : Parts (')' :: rest) := parts_cons rfl rest
    have hargument := (opening _).append (ih he hclose)
    exact ((CutsTo.name hname hv (parts_cons rfl _)).append hargument).append (closing rest)
  | field e name ih =>
    obtain ⟨⟨hname, hv⟩, he⟩ := h
    rw [row_field, List.map_append]
    have hdot := symbol '.' dotToken (by simp) (name ++ rest)
    exact (ih he (parts_cons rfl _)).append (hdot.append (.name hname hv hrest))
  | text c => exact h.elim

theorem tokenize_display {e : Expr} (h : e.Legible) (cells : Cells) :
    tokenize (e.display cells) = pure (e.row.map regroup) := by
  have hcuts := @CutsTo.display e h cells [] (by simp [Parts])
  rw [CutsTo, List.append_nil] at hcuts
  rw [tokenize, hcuts, lex, tokensOf]
  simp [tokensOf.flush]

/-- An expression without texts, negative integers and names that are none: what it displays is cut
into as many tokens as are printed for it, with the same texts, and without making any cell; so that
both rows read the same, and as the expression where it is canonical. -/
theorem display_agrees_with_print {e : Expr} (h : e.Legible) (p : Precedence) (cells : Cells) :
    ∃ ts, ((language p).tokenize (Payload.display cells e)).run cells = (ts, cells) ∧
      ts.map (Token.text cells) =
        ((language p).printed cells e).tokens.map (Token.text cells) ∧
      (∀ q, (language q).parse cells ts =
        (language q).parse cells ((language p).printed cells e).tokens) ∧
      ∀ q, e.Canonical q → (language q).parse cells ts = some e := by
  simp only [printed_tokens, language_parse]
  refine ⟨e.row.map regroup, ?_, by simp [text_regroup], fun q => parse_map_regroup q cells e.row,
    fun q hq => ?_⟩
  · exact congrArg (fun cut => cut.run cells) (tokenize_display h cells)
  · rw [parse_map_regroup, parse_row cells hq]

/-- The expression `a++++ + f(7.value2)`. -/
def spoken : Expr :=
  plus (inc (inc (var ['a']))) (callWith ['f'] (field (int 7) "value2".toList))

theorem display_agrees_with_print_spoken :
    spoken.Legible ∧ spoken.Canonical {} ∧
      Payload.display {} spoken = "a++++ + f(7.value2)".toList ∧
      ∃ ts, ((language {}).tokenize (Payload.display {} spoken)).run {} = (ts, {}) ∧
        ts.length = 10 ∧ (language {}).parse {} ts = some spoken := by
  obtain ⟨ts, hrun, htexts, -, hparse⟩ :=
    display_agrees_with_print (e := spoken) (by decide) {} {}
  refine ⟨by decide, by decide, by decide, ts, hrun, ?_, hparse {} (by decide)⟩
  simpa [printed_tokens, spoken] using congrArg List.length htexts

end TokenEditor.Expr
