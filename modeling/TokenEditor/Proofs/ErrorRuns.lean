import TokenEditor.Proofs.Display

/-! # Runs of errors

Cutting an expression text into tokens goes by its lexemes. Spaces are left out, a lexeme with a
meaning becomes the token it denotes, and the unreadable lexemes between two of these make one error
token together. `Grouped` relates lexemes to tokens in this way. Nothing is lost but spaces, except
that the word for a new text is shown as an empty text. -/

namespace TokenEditor.Expr

section
variable {c : Char} {cs t : Text} {l : Lexeme} {ls : List Lexeme}

theorem takeWhile_take {q : Char → Bool} {m : Nat} (h : (cs.takeWhile q).length ≤ m) :
    (cs.take m).takeWhile q = cs.takeWhile q := by
  induction cs generalizing m with
  | nil => simp
  | cons c cs ih =>
    cases hc : q c with
    | false => cases m <;> simp [hc]
    | true =>
      rw [List.takeWhile_cons_of_pos hc, List.length_cons] at h
      obtain ⟨m, rfl⟩ := Nat.exists_eq_add_of_le' (Nat.le_trans (Nat.le_add_left 1 _) h)
      rw [List.take_succ_cons, List.takeWhile_cons_of_pos hc, List.takeWhile_cons_of_pos hc,
        ih (Nat.le_of_succ_le_succ h)]

/-- The first lexeme does not depend on what stands far behind it. -/
theorem firstLexeme_take {m : Nat} (h : (firstLexeme c cs).2 ≤ m) :
    firstLexeme c (cs.take m) = firstLexeme c cs := by
  unfold firstLexeme at h ⊢
  split_ifs at h ⊢ with _ _ _ htaken hplus hplus
  · rw [takeWhile_take h]
  · rw [takeWhile_take h]
  · rw [takeWhile_take h]
  · rfl
  · rw [List.head?_take] at htaken
    split_ifs at htaken
    · simp at htaken
    · exact absurd htaken hplus
  · rw [List.head?_take, if_neg (Nat.ne_of_gt h)] at htaken
    exact absurd hplus htaken
  · rfl

theorem isSpace_of_isNameChar (h : isNameChar c) : isSpace c = false := by
  simp only [isSpace, Bool.or_eq_false_iff, beq_eq_false_iff_ne]
  refine ⟨⟨⟨?_, ?_⟩, ?_⟩, ?_⟩ <;> rintro rfl <;> simp [isNameChar] at h

/-- The lexeme is what its text is cut into. -/
def Lexeme.Whole (l : Lexeme) : Prop := lex l.text = [l]

theorem whole_of_mem_lex (h : l ∈ lex t) : l.Whole := by
  fun_induction lex t with
  | case1 => cases h
  | case2 c cs kind n hfirst ih =>
    rcases List.mem_cons.1 h with rfl | h
    · have htake : firstLexeme c (cs.take n) = (kind, n) := by
        rw [firstLexeme_take (by rw [hfirst]), hfirst]
      rw [Lexeme.Whole, lex_cons, htake]
      simp [lex, List.take_take]
    · exact ih h

namespace Lexeme.Whole

theorem first (h : l.Whole) : ∃ c cs, l = ⟨(firstLexeme c cs).1, c :: cs⟩ ∧
    cs.length ≤ (firstLexeme c cs).2 := by
  obtain ⟨kind, t⟩ := l
  cases t with
  | nil => simp [Whole, lex] at h
  | cons c cs =>
    rw [Whole, lex_cons, List.cons.injEq, Lexeme.mk.injEq, lex_eq_nil, List.drop_eq_nil_iff] at h
    obtain ⟨⟨rfl, -⟩, hlength⟩ := h
    exact ⟨c, cs, rfl, hlength⟩

theorem text_ne_nil (h : l.Whole) : l.text ≠ [] := by
  obtain ⟨c, cs, rfl, -⟩ := h.first
  exact List.cons_ne_nil c cs

/-- A lexeme has spaces in it only if it has nothing else. -/
theorem isSpace_eq (h : l.Whole) (hc : c ∈ l.text) : isSpace c = (l.kind == .whitespace) := by
  obtain ⟨d, cs, rfl, hlength⟩ := h.first
  have hall : ∀ {q : Char → Bool}, cs.length ≤ (cs.takeWhile q).length → ∀ x ∈ cs, q x :=
    fun hq => List.takeWhile_eq_self_iff.1 ((List.takeWhile_prefix _).eq_of_length_le hq)
  unfold firstLexeme at hlength ⊢
  split_ifs at hlength ⊢ with hspace hname hdigit hplus
  · rcases List.mem_cons.1 hc with rfl | hc
    · exact hspace
    · exact hall hlength c hc
  · rcases List.mem_cons.1 hc with rfl | hc
    · exact isSpace_of_isNameStart hname
    · exact isSpace_of_isNameChar (hall hlength c hc)
  · rcases List.mem_cons.1 hc with rfl | hc
    · exact isSpace_of_isDigit hdigit
    · exact isSpace_of_isDigit (hall hlength c hc)
  · obtain ⟨hd, hhead⟩ := Bool.and_eq_true_iff.1 hplus
    obtain rfl := beq_iff_eq.1 hd
    obtain ⟨rest, rfl⟩ := List.head?_eq_some_iff.1 (beq_iff_eq.1 hhead)
    obtain rfl : rest = [] := by simpa using hlength
    obtain rfl : c = '+' := by simpa using hc
    decide
  · obtain rfl := List.eq_nil_of_length_eq_zero (Nat.le_zero.1 hlength)
    obtain rfl := List.mem_singleton.1 hc
    rw [Bool.eq_false_iff.2 hspace]
    unfold symbolKind
    split <;> rfl

theorem singleKind?_eq (h : l.Whole) (hspace : l.kind ≠ .whitespace) (herror : l.kind ≠ .errorToken)
    (hint : l.kind = .int → (Decimal.read? l.text).isSome) :
    singleKind? l.text = some l.kind := by
  obtain ⟨kind, t⟩ := l
  rw [Whole] at h
  unfold singleKind?
  rw [h]
  cases kind <;> simp_all

end Lexeme.Whole

/-- The tokens of the lexemes with only one text. -/
def symbolTokens : List (Lexeme × Token Expr) :=
  [(⟨.plus, ['+']⟩, plusToken), (⟨.star, ['*']⟩, mulToken), (⟨.plusPlus, ['+', '+']⟩, incToken),
    (⟨.bang, ['!']⟩, factorialToken), (⟨.dot, ['.']⟩, dotToken), (⟨.lparen, ['(']⟩, groupToken),
    (⟨.rparen, [')']⟩, closeToken)]

theorem symbolTokens_spec {tok : Token Expr} (h : (l, tok) ∈ symbolTokens) :
    tok = .simple l.text tok.glue ∧ l.kind ∉ [.ident, .int, .errorToken, .whitespace] := by
  have hall : ∀ x ∈ symbolTokens, x.2 = .simple x.1.text x.2.glue ∧
    x.1.kind ∉ [.ident, .int, .errorToken, .whitespace] := by decide
  exact hall _ h

/-- The token that a lexeme stands for. The word for a new text stands for one that is empty. -/
inductive Denotes (cells : Cells) : Lexeme → Token Expr → Prop
  | symbol {l : Lexeme} {tok : Token Expr} : (l, tok) ∈ symbolTokens → Denotes cells l tok
  | number {t : Text} : (Decimal.read? t).isSome → Denotes cells ⟨.int, t⟩ (.plain t)
  | name {t : Text} : t ≠ valueWord → Denotes cells ⟨.ident, t⟩ (.identifier t)
  | value {c : CellId} : cells.Has [c] → cells.text c = [] →
      Denotes cells ⟨.ident, valueWord⟩ (.value (text c))

/-- The lexeme stands for nothing: it is a character of no lexeme, or a number that is too large. -/
def Lexeme.Unreadable (l : Lexeme) : Prop :=
  l.kind = .errorToken ∨ l.kind = .int ∧ Decimal.read? l.text = none

/-- How an empty text is displayed. -/
def emptyDisplay : Text := ['"', '"']

/-- The text of the lexeme in a row of tokens. -/
def Lexeme.shown (l : Lexeme) : Text :=
  if l.kind = .ident ∧ l.text = valueWord then emptyDisplay else l.text

namespace Denotes
variable {cells after : Cells} {tok : Token Expr}

theorem keeps (h : Denotes cells l tok) (hk : cells.Keeps after) : Denotes after l tok := by
  cases h with
  | symbol h => exact .symbol h
  | number h => exact .number h
  | name h => exact .name h
  | value hc htext => exact .value (hk.has hc) ((hk.text_eq _ (hc _ (by simp))).trans htext)

theorem kind_spec (h : Denotes cells l tok) : l.kind ≠ .whitespace ∧ ¬ l.Unreadable := by
  unfold Lexeme.Unreadable
  cases h with
  | symbol h =>
    have hkind := (symbolTokens_spec h).2
    simp_all
  | number h => simp [Option.isSome_iff_ne_none.1 h]
  | name => simp
  | value => simp

theorem not_error (h : Denotes cells l tok) (t : Text) : tok ≠ .error t := by
  cases h with
  | symbol h =>
    rw [(symbolTokens_spec h).1]
    rintro ⟨⟩
  | _ => rintro ⟨⟩

theorem text_eq (h : Denotes cells l tok) : tok.text cells = l.shown := by
  cases h with
  | symbol h =>
    obtain ⟨htok, hkind⟩ := symbolTokens_spec h
    have hident : l.kind ≠ .ident := fun hk => hkind (by simp [hk])
    rw [htok, Lexeme.shown, if_neg fun hword => hident hword.1]
    rfl
  | number => simp [Lexeme.shown, Token.text, Token.plain]
  | name hv => simp [Lexeme.shown, Token.text, hv]
  | value hc htext => simp [Lexeme.shown, Token.text, Payload.display, display, htext, emptyDisplay]

end Denotes

theorem tokenOf?_of_unreadable (h : l.Unreadable) : tokenOf? l = pure none := by
  unfold tokenOf?
  rcases h with hk | ⟨hk, hnone⟩
  · rw [hk]
  · have hnumber : isNumber l.text = false := by
      rw [isNumber, beq_eq_false_iff_ne, Ne, singleKind?_eq_int]
      simp [hnone]
    rw [hk, hnumber]
    rfl

theorem singleKind?_valueWord : singleKind? valueWord = some .ident :=
  singleKind?_eq_ident.2 (by decide)

/-- A lexeme that is the single one of its text gives the token of its kind, but for the word for a
new text. -/
theorem tokenOf?_of_singleKind? (h : singleKind? l.text = some l.kind) : tokenOf? l =
    if l.text = valueWord then do return some (.value (text (← Cells.new [])))
    else pure (some (tokenOfKind false l.kind l.text)) := by
  obtain ⟨kind, t⟩ := l
  dsimp only at h ⊢
  by_cases hident : kind = .ident
  · subst hident
    rfl
  have hv : t ≠ valueWord := by
    rintro rfl
    exact hident (Option.some.inj (h.symm.trans singleKind?_valueWord))
  rw [if_neg hv]
  by_cases hint : kind = .int
  · subst hint
    have hnumber : isNumber t = true := beq_iff_eq.2 h
    unfold tokenOf?
    rw [hnumber]
    rfl
  have hmem := mem_symbols_of_singleKind? h hident hint
  simp only [symbols, List.mem_cons, Prod.mk.injEq, List.not_mem_nil, or_false] at hmem
  rcases hmem with ⟨rfl, rfl⟩ | ⟨rfl, rfl⟩ | ⟨rfl, rfl⟩ | ⟨rfl, rfl⟩ | ⟨rfl, rfl⟩ | ⟨rfl, rfl⟩ | ⟨rfl, rfl⟩
  all_goals rfl

theorem denotes_tokenOfKind (h : singleKind? l.text = some l.kind) (hv : l.text ≠ valueWord)
    (cells : Cells) : Denotes cells l (tokenOfKind false l.kind l.text) := by
  obtain ⟨kind, t⟩ := l
  dsimp only at h hv ⊢
  by_cases hident : kind = .ident
  · subst hident
    exact .name hv
  by_cases hint : kind = .int
  · subst hint
    exact .number (singleKind?_eq_int.1 h).2
  have hmem := mem_symbols_of_singleKind? h hident hint
  have hsymbols : ∀ x ∈ symbols, (⟨x.1, x.2⟩, tokenOfKind false x.1 x.2) ∈ symbolTokens := by decide
  exact .symbol (hsymbols _ hmem)

/-- A lexeme other than spaces gives the token it denotes, or is unreadable. -/
theorem tokenOf?_cases (h : l.Whole) (hspace : l.kind ≠ .whitespace) (cells : Cells) :
    (∃ tok after, (tokenOf? l).run cells = (some tok, after) ∧ cells.Keeps after ∧
      Denotes after l tok) ∨
    tokenOf? l = pure none ∧ l.Unreadable := by
  by_cases hbad : l.Unreadable
  · exact .inr ⟨tokenOf?_of_unreadable hbad, hbad⟩
  have hsingle := h.singleKind?_eq hspace (fun hk => hbad (.inl hk)) fun hk =>
    Option.isSome_iff_ne_none.2 fun hnone => hbad (.inr ⟨hk, hnone⟩)
  left
  rw [tokenOf?_of_singleKind? hsingle]
  split_ifs with hv
  · refine ⟨_, _, rfl, .of_append rfl, ?_⟩
    obtain ⟨kind, t⟩ := l
    obtain rfl : t = valueWord := hv
    obtain rfl : kind = .ident := Option.some.inj (hsingle.symm.trans singleKind?_valueWord)
    exact .value (fun c hc => by simp_all) (by simp [Cells.text])
  · exact ⟨_, cells, rfl, .refl cells, denotes_tokenOfKind hsingle hv cells⟩

section
variable {bad : Text} {cells cells' after : Cells} {ts : List (Token Expr)}

theorem run_tokensOf_space (hspace : l.kind = .whitespace)
    (h : (tokensOf [] ls).run cells = (ts, after)) :
    (tokensOf bad (l :: ls)).run cells = (tokensOf.flush bad ts, after) := by
  rw [tokensOf, if_pos (by simp [Kind.isTrivia, hspace]), StateT.run_bind, h]
  rfl

theorem run_tokensOf_token {tok : Token Expr} (hspace : l.kind ≠ .whitespace)
    (htok : (tokenOf? l).run cells = (some tok, cells'))
    (h : (tokensOf [] ls).run cells' = (ts, after)) :
    (tokensOf bad (l :: ls)).run cells = (tokensOf.flush bad (tok :: ts), after) := by
  rw [tokensOf, if_neg (by simpa [Kind.isTrivia] using hspace), StateT.run_bind, htok]
  show (do return tokensOf.flush bad (tok :: (← tokensOf [] ls)) : StateM Cells _).run cells' = _
  rw [StateT.run_bind, h]
  rfl

theorem tokensOf_bad (hspace : l.kind ≠ .whitespace) (htok : tokenOf? l = pure none) :
    tokensOf bad (l :: ls) = tokensOf (bad ++ l.text) ls := by
  rw [tokensOf, if_neg (by simpa [Kind.isTrivia] using hspace), htok]
  rfl

end

/-! ### Lexemes grouped into tokens -/

/-- Spaces are left out, a lexeme with a meaning is a token, and a longest run of unreadable ones is
an error token. -/
inductive Grouped (cells : Cells) : List Lexeme → List (Token Expr) → Prop
  | nil : Grouped cells [] []
  | space {l : Lexeme} {ls : List Lexeme} {ts : List (Token Expr)} : l.kind = .whitespace →
      Grouped cells ls ts → Grouped cells (l :: ls) ts
  | token {l : Lexeme} {ls : List Lexeme} {tok : Token Expr} {ts : List (Token Expr)} :
      Denotes cells l tok → Grouped cells ls ts → Grouped cells (l :: ls) (tok :: ts)
  | error {bad ls : List Lexeme} {ts : List (Token Expr)} : bad ≠ [] →
      (∀ l ∈ bad, l.Unreadable) → (∀ l ∈ ls.head?, ¬ l.Unreadable) → Grouped cells ls ts →
      Grouped cells (bad ++ ls) (.error (bad.map Lexeme.text).flatten :: ts)

section
variable {cells : Cells} {bad : List Lexeme} {ts : List (Token Expr)}

theorem Grouped.flush (h : Grouped cells ls ts) (hhead : ∀ l ∈ ls.head?, ¬ l.Unreadable)
    (hbad : ∀ l ∈ bad, l.Whole ∧ l.Unreadable) :
    Grouped cells (bad ++ ls) (tokensOf.flush (bad.map Lexeme.text).flatten ts) := by
  cases bad with
  | nil => exact h
  | cons l bad =>
    have hne : ((l :: bad).map Lexeme.text).flatten ≠ [] := by
      simp [(hbad l (by simp)).1.text_ne_nil]
    rw [tokensOf.flush, if_neg (by simpa using hne)]
    exact .error (List.cons_ne_nil l bad) (fun l hl => (hbad l hl).2) hhead h

theorem grouped_tokensOf (hbad : ∀ l ∈ bad, l.Whole ∧ l.Unreadable) (hls : ∀ l ∈ ls, l.Whole)
    (cells : Cells) : ∃ ts after, (tokensOf (bad.map Lexeme.text).flatten ls).run cells =
      (ts, after) ∧ cells.Keeps after ∧ Grouped after (bad ++ ls) ts := by
  induction ls generalizing bad cells with
  | nil => exact ⟨_, cells, rfl, .refl cells, Grouped.nil.flush (by simp) hbad⟩
  | cons l ls ih =>
    obtain ⟨hl, hls⟩ := List.forall_mem_cons.1 hls
    by_cases hspace : l.kind = .whitespace
    · obtain ⟨ts, after, hrun, hkeeps, hgrouped⟩ := @ih [] (by simp) hls cells
      refine ⟨_, after, run_tokensOf_space hspace hrun, hkeeps, ?_⟩
      exact (Grouped.space hspace hgrouped).flush (by simp [Lexeme.Unreadable, hspace]) hbad
    rcases tokenOf?_cases hl hspace cells with ⟨tok, cells', hrun', hkeeps', htok⟩ | ⟨hnone, hunreadable⟩
    · obtain ⟨ts, after, hrun, hkeeps, hgrouped⟩ := @ih [] (by simp) hls cells'
      have htok := htok.keeps hkeeps
      refine ⟨_, after, run_tokensOf_token hspace hrun' hrun, hkeeps'.trans hkeeps, ?_⟩
      exact (hgrouped.token htok).flush (by simpa using htok.kind_spec.2) hbad
    · have hlonger : ∀ b ∈ bad ++ [l], b.Whole ∧ b.Unreadable :=
        List.forall_mem_append.2 ⟨hbad, by simpa using ⟨hl, hunreadable⟩⟩
      obtain ⟨ts, after, hrun, hkeeps, hgrouped⟩ := ih hlonger hls cells
      refine ⟨ts, after, ?_, hkeeps, by simpa using hgrouped⟩
      rw [tokensOf_bad hspace hnone]
      simpa using hrun

theorem Lexeme.Unreadable.kind_spec (h : l.Unreadable) : l.kind ≠ .whitespace ∧ l.kind ≠ .ident := by
  rcases h with hk | ⟨hk, -⟩ <;> simp [hk]

/-- Lexemes are all spaces or have none. -/
theorem filter_shown (h : l.Whole) : l.shown.filter (fun c => !isSpace c) =
    if l.kind = .whitespace then [] else l.shown := by
  by_cases hword : l.kind = .ident ∧ l.text = valueWord
  · rw [Lexeme.shown, if_pos hword, if_neg (by simp [hword])]
    decide
  rw [Lexeme.shown, if_neg hword]
  split_ifs with hspace
  · exact List.filter_eq_nil_iff.2 fun c hc => by simp [h.isSpace_eq hc, hspace]
  · exact List.filter_eq_self.2 fun c hc => by simpa [h.isSpace_eq hc] using hspace

theorem Grouped.texts (h : Grouped cells ls ts) (hls : ∀ l ∈ ls, l.Whole) :
    (ts.map (Token.text cells)).flatten =
      ((ls.map Lexeme.shown).flatten).filter fun c => !isSpace c := by
  induction h with
  | nil => rfl
  | space hspace _ ih =>
    obtain ⟨hl, hls⟩ := List.forall_mem_cons.1 hls
    rw [ih hls, List.map_cons, List.flatten_cons, List.filter_append, filter_shown hl, if_pos hspace,
      List.nil_append]
  | token htok _ ih =>
    obtain ⟨hl, hls⟩ := List.forall_mem_cons.1 hls
    rw [List.map_cons, List.flatten_cons, ih hls, htok.text_eq, List.map_cons, List.flatten_cons,
      List.filter_append, filter_shown hl, if_neg htok.kind_spec.1]
  | @error bad ls ts _ hunreadable _ _ ih =>
    obtain ⟨hbad, hls⟩ := List.forall_mem_append.1 hls
    have hshown : ∀ l ∈ bad, l.shown.filter (fun c => !isSpace c) = l.text := by
      intro l hl
      obtain ⟨hspace, hident⟩ := (hunreadable l hl).kind_spec
      rw [filter_shown (hbad l hl), if_neg hspace, Lexeme.shown, if_neg fun hword => hident hword.1]
    have htexts : ((bad.map Lexeme.shown).flatten).filter (fun c => !isSpace c) =
        (bad.map Lexeme.text).flatten := by
      rw [List.filter_flatten, List.map_map]
      exact congrArg List.flatten (List.map_congr_left hshown)
    rw [List.map_cons, List.flatten_cons, ih hls, List.map_append, List.flatten_append,
      List.filter_append, htexts]
    rfl

/-- Before an error token there are only spaces, and none only if it begins at once. -/
theorem Grouped.spaces_before_error {t : Text} (h : Grouped cells ls (.error t :: ts))
    (hls : ∀ l ∈ ls, l.Whole) : ∃ s y, (ls.map Lexeme.text).flatten = s ++ t ++ y ∧
      (∀ c ∈ s, isSpace c) ∧ (s = [] → ∃ l ∈ ls.head?, l.Unreadable) := by
  generalize hout : Token.error t :: ts = out at h
  induction h with
  | nil => cases hout
  | @space l ls out hspace _ ih =>
    obtain ⟨hl, hls⟩ := List.forall_mem_cons.1 hls
    obtain ⟨s, y, htext, hs, -⟩ := ih hls hout
    refine ⟨l.text ++ s, y, by simp [htext], ?_, fun hnil => ?_⟩
    · refine List.forall_mem_append.2 ⟨fun c hc => ?_, hs⟩
      simp [hl.isSpace_eq hc, hspace]
    · exact absurd (List.append_eq_nil_iff.1 hnil).1 hl.text_ne_nil
  | token htok _ _ =>
    cases hout
    exact absurd rfl (htok.not_error t)
  | @error bad ls out hbad hunreadable _ _ _ =>
    cases hout
    obtain ⟨l, bad, rfl⟩ := List.exists_cons_of_ne_nil hbad
    exact ⟨[], (ls.map Lexeme.text).flatten, by simp, by simp, fun _ => ⟨l, rfl, hunreadable l (by simp)⟩⟩

/-- Between two neighbouring error tokens there are spaces. -/
theorem Grouped.errors_apart {a b : Text} {before rest : List (Token Expr)}
    (h : Grouped cells ls (before ++ .error a :: .error b :: rest)) (hls : ∀ l ∈ ls, l.Whole) :
    ∃ x s y, (ls.map Lexeme.text).flatten = x ++ a ++ s ++ b ++ y ∧ s ≠ [] ∧ ∀ c ∈ s, isSpace c := by
  generalize hout : before ++ .error a :: .error b :: rest = out at h
  induction h generalizing before with
  | nil => simp at hout
  | @space l ls out _ _ ih =>
    obtain ⟨x, s, y, htext, hs⟩ := ih (List.forall_mem_cons.1 hls).2 hout
    exact ⟨l.text ++ x, s, y, by simp [htext], hs⟩
  | @token l ls tok out htok _ ih =>
    cases before with
    | nil =>
      cases hout
      exact absurd rfl (htok.not_error a)
    | cons t before =>
      cases hout
      obtain ⟨x, s, y, htext, hs⟩ := ih (List.forall_mem_cons.1 hls).2 rfl
      exact ⟨l.text ++ x, s, y, by simp [htext], hs⟩
  | @error bad ls out _ _ hhead hgrouped ih =>
    have hls := (List.forall_mem_append.1 hls).2
    cases before with
    | nil =>
      cases hout
      obtain ⟨s, y, htext, hs, hnil⟩ := hgrouped.spaces_before_error hls
      refine ⟨[], s, y, by simp [htext], fun h => ?_, hs⟩
      obtain ⟨l, hl, hunreadable⟩ := hnil h
      exact hhead l hl hunreadable
    | cons t before =>
      cases hout
      obtain ⟨x, s, y, htext, hs⟩ := ih hls rfl
      exact ⟨(bad.map Lexeme.text).flatten ++ x, s, y, by simp [htext], hs⟩

end

end

/-- Cutting a text into tokens always ends with tokens, and loses nothing but spaces: the tokens show
the text without them, with an empty text for the word that stands for a new one. A token that is no
error is the one that its lexeme denotes, and two error tokens are neighbours only if there are
spaces between them. -/
theorem tokenize_loses_only_spaces (p : Precedence) (t : Text) (cells : Cells) :
    ∃ ts after, ((language p).tokenize t).run cells = (ts, after) ∧
      (ts.map (Token.text after)).flatten =
        (((lex t).map Lexeme.shown).flatten).filter (fun c => !isSpace c) ∧
      Grouped after (lex t) ts ∧
      ∀ before a b rest, ts = before ++ .error a :: .error b :: rest →
        ∃ x s y, t = x ++ a ++ s ++ b ++ y ∧ s ≠ [] ∧ ∀ c ∈ s, isSpace c := by
  have hwhole : ∀ l ∈ lex t, l.Whole := fun l => whole_of_mem_lex
  obtain ⟨ts, after, hrun, -, hgrouped⟩ := @grouped_tokensOf _ [] (by simp) hwhole cells
  rw [List.nil_append] at hgrouped
  refine ⟨ts, after, hrun, hgrouped.texts hwhole, hgrouped, ?_⟩
  rintro before a b rest rfl
  have hapart := hgrouped.errors_apart hwhole
  rwa [flatten_lex] at hapart

/-- An unknown character and a number that is too large run together, but not over a space. -/
theorem tokenize_loses_only_spaces_runs :
    ∃ after, ((language {}).tokenize "#9223372036854775808 $value+".toList).run {} =
        ([.error "#9223372036854775808".toList, .error ['$'], .value (text 0), plusToken], after) ∧
      ∃ x s y, "#9223372036854775808 $value+".toList =
        x ++ "#9223372036854775808".toList ++ s ++ ['$'] ++ y ∧ s ≠ [] ∧ ∀ c ∈ s, isSpace c := by
  obtain ⟨ts, after, hrun, -, -, hapart⟩ :=
    tokenize_loses_only_spaces {} "#9223372036854775808 $value+".toList {}
  have htokens : (((language {}).tokenize "#9223372036854775808 $value+".toList).run {}).1 =
      [.error "#9223372036854775808".toList, .error ['$'], .value (text 0), plusToken] := by
    decide +kernel
  rw [hrun] at htokens
  subst htokens
  exact ⟨after, hrun, hapart [] _ _ _ rfl⟩

end TokenEditor.Expr
