import TokenEditor.Proofs.Inverse

/-! # Rows under the keys

What typing makes of a row of expression tokens, apart from any editor. A character grows the last
token if the longer text is a token, and starts a new one otherwise; a space opens a gap, which the
next character fills. `Presses.display`: typing what an expression displays puts its printed tokens
at the end of the row. All rows on the way are `Tidy`, and a tidy row that reads is its own print. -/

namespace TokenEditor.Expr

def endsInName (ts : List (Token Expr)) : Bool :=
  ts.getLast?.any Token.isIdentifier

@[simp] theorem endsInName_concat (ts : List (Token Expr)) (t : Token Expr) :
    endsInName (ts ++ [t]) = t.isIdentifier := by
  simp [endsInName]

/-- The token that is printed for a text of the kind; an opening bracket depends on what is before
it. -/
def tokenOfKind (afterName : Bool) : Kind → Text → Token Expr
  | .ident, t => .identifier t
  | .int, t => .plain t
  | .plus, _ => plusToken
  | .star, _ => mulToken
  | .plusPlus, _ => incToken
  | .bang, _ => factorialToken
  | .dot, _ => dotToken
  | .lparen, _ => if afterName then callToken else groupToken
  | .rparen, _ => closeToken
  | _, t => .error t

/-- The token has the form in which it is printed, or is an error. -/
structure TidyToken (afterName : Bool) (t : Token Expr) : Prop where
  form : t = tokenOfKind afterName (tokenKind t) (t.text {})
  digits : tokenKind t = .int → ∃ n : Int64, 0 ≤ n.toInt ∧ t.text {} = Decimal.write n

inductive Tidy : List (Token Expr) → Prop
  | nil : Tidy []
  | concat {ts : List (Token Expr)} {t : Token Expr} : Tidy ts → TidyToken (endsInName ts) t →
      Tidy (ts ++ [t])

section
variable {ts us base : List (Token Expr)} {t u : Token Expr} {a : Bool} {cells : Cells} {e : Expr}
  {p : Precedence}

namespace TidyToken

theorem error (t : Text) : TidyToken a (.error t) :=
  ⟨rfl, by rintro ⟨⟩⟩

theorem identifier (t : Text) : TidyToken a (.identifier t) :=
  ⟨rfl, by rintro ⟨⟩⟩

theorem number {n : Int64} (h : 0 ≤ n.toInt) : TidyToken a (.plain (Decimal.write n)) := by
  have hkind : tokenKind (.plain (Decimal.write n)) = .int := by
    simp [tokenKind, Token.plain, singleKind?_write h]
  exact ⟨by rw [hkind]; rfl, fun _ => ⟨n, h, rfl⟩⟩

theorem symbol (h : t ∈ [plusToken, mulToken, incToken, factorialToken, dotToken, closeToken]) :
    TidyToken a t := by
  simp only [List.mem_cons, List.not_mem_nil, or_false] at h
  rcases h with rfl | rfl | rfl | rfl | rfl | rfl <;> constructor <;> simp [tokenOfKind]

theorem bracket (a : Bool) : TidyToken a (if a then callToken else groupToken) := by
  cases a <;> constructor <;> simp [tokenOfKind]

theorem isValue (h : TidyToken a t) : t.isValue = false := by
  cases t with
  | value v => cases h.form
  | _ => rfl

theorem text_eq (h : TidyToken a t) (cells : Cells) : t.text cells = t.text {} := by
  cases t with
  | value v => cases h.isValue
  | _ => rfl

theorem isComment (h : TidyToken a t) : t.isComment = false := by
  cases t with
  | comment mark body => cases h.form
  | _ => rfl

theorem glue_left (h : TidyToken a t) (ht : t.text {} = []) : t.glue.left = false := by
  have hform := h.form
  rw [ht] at hform
  generalize tokenKind t = k at hform
  subst hform
  cases k
  case lparen => cases a <;> cases ht
  all_goals first | rfl | cases ht

/-- Tidy tokens that the grammar cannot tell apart are equal. -/
theorem eq_of_alike (ht : TidyToken a t) (hu : TidyToken a u) (h : Alike cells t u)
    (hne : tokenKind t ≠ .errorToken) : t = u := by
  have hname : tokenKind t = .ident → t.text {} = u.text {} := fun hk => by
    rw [← ht.text_eq cells, ← hu.text_eq cells]
    exact h.name hk
  have hnumber : tokenKind t = .int → t.text {} = u.text {} := fun hk => by
    obtain ⟨n, -, hn⟩ := ht.digits hk
    obtain ⟨m, -, hm⟩ := hu.digits (h.kind.symm.trans hk)
    have hread := h.number hk
    rw [ht.text_eq cells, hu.text_eq cells, hn, hm, Decimal.read?_write, Decimal.read?_write] at hread
    cases hread
    rw [hn, hm]
  calc
    t = tokenOfKind a (tokenKind t) (t.text {}) := ht.form
    _ = tokenOfKind a (tokenKind t) (u.text {}) := by
      have hform := congrArg tokenKind ht.form
      cases hk : tokenKind t <;> rw [hk] at hform hne
      case ident => rw [hname hk]
      case int => rw [hnumber hk]
      all_goals first | rfl | exact absurd rfl hne | cases hform
    _ = u := by rw [h.kind, ← hu.form]

end TidyToken

namespace Tidy

theorem concat_iff : Tidy (ts ++ [t]) ↔ Tidy ts ∧ TidyToken (endsInName ts) t := by
  refine ⟨fun h => ?_, fun h => .concat h.1 h.2⟩
  generalize hus : ts ++ [t] = us at h
  cases h with
  | nil => simp at hus
  | concat hts ht =>
    obtain ⟨rfl, ht'⟩ := List.append_inj' hus rfl
    cases ht'
    exact ⟨hts, ht⟩

theorem isValue (h : Tidy ts) : ∀ t ∈ ts, t.isValue = false := by
  induction h with
  | nil => simp
  | concat _ ht ih =>
    intro t hmem
    rcases List.mem_append.1 hmem with hmem | hmem
    · exact ih t hmem
    · rw [List.mem_singleton.1 hmem, ht.isValue]

theorem textOnly (h : Tidy ts) : TextOnly ts := by
  intro t ht
  cases t with
  | value v => cases h.isValue _ ht
  | _ => rfl

theorem rowCells (h : Tidy ts) : rowCells ts = [] := by
  refine List.flatMap_eq_nil_iff.2 fun t ht => ?_
  cases t with
  | value v => cases h.isValue _ ht
  | _ => rfl

theorem eq_of_alike (hus : Tidy us) (hts : Tidy ts) (h : List.Forall₂ (Alike cells) us ts)
    (hne : ∀ u ∈ us, tokenKind u ≠ .errorToken) : us = ts := by
  induction hus generalizing ts with
  | nil => exact (List.forall₂_nil_left_iff.1 h).symm
  | @concat us u _ hu ih =>
    obtain ⟨ts, w, rfl, hts', hw⟩ := forall₂_append_left.1 h
    obtain ⟨t, rfl⟩ : ∃ t, w = [t] := List.length_eq_one_iff.1 hw.length_eq.symm
    obtain ⟨htidy, ht⟩ := concat_iff.1 hts
    obtain rfl := ih htidy hts' fun x hx => hne x (by simp [hx])
    rw [hu.eq_of_alike ht (List.forall₂_cons.1 hw).1 (hne u (by simp))]

end Tidy

/-- What is printed without texts and negative integers is tidy after anything but a name. -/
theorem tidy_append_row (hcells : e.cellsOf = []) (he : e.Canonical p) (h : Tidy base)
    (hbase : endsInName base = false) : Tidy (base ++ e.row) := by
  induction e generalizing base with
  | var name => exact h.concat (.identifier name)
  | int n => exact h.concat (.number he)
  | text c => simp [cellsOf] at hcells
  | plus l r ihl ihr =>
    obtain ⟨hl, hr⟩ := List.append_eq_nil_iff.1 hcells
    have hop := (ihl hl he.2.1 h hbase).concat (t := plusToken) (.symbol (by simp))
    simpa using ihr hr he.2.2 hop (endsInName_concat _ plusToken)
  | mul l r ihl ihr =>
    obtain ⟨hl, hr⟩ := List.append_eq_nil_iff.1 hcells
    have hop := (ihl hl he.2.1 h hbase).concat (t := mulToken) (.symbol (by simp))
    simpa using ihr hr he.2.2 hop (endsInName_concat _ mulToken)
  | inc e ih =>
    simpa using (ih hcells he.2 h hbase).concat (t := incToken) (.symbol (by simp))
  | factorial e ih =>
    simpa using (ih hcells he.2 h hbase).concat (t := factorialToken) (.symbol (by simp))
  | parens e ih =>
    have hopen := h.concat (t := groupToken) (hbase ▸ .bracket false)
    have hin := ih hcells he hopen (endsInName_concat _ groupToken)
    simpa using hin.concat (t := closeToken) (.symbol (by simp))
  | call name =>
    have hname := h.concat (.identifier name)
    have hopen := hname.concat (t := callToken) (endsInName_concat base _ ▸ .bracket true)
    simpa using hopen.concat (t := closeToken) (.symbol (by simp))
  | callWith name e ih =>
    have hname := h.concat (.identifier name)
    have hopen := hname.concat (t := callToken) (endsInName_concat base _ ▸ .bracket true)
    have hin := ih hcells he hopen (endsInName_concat _ callToken)
    simpa using hin.concat (t := closeToken) (.symbol (by simp))
  | field e name ih =>
    have hdot := (ih hcells he.2 h hbase).concat (t := dotToken) (.symbol (by simp))
    simpa using hdot.concat (.identifier name)

theorem kind_row_ne_error (he : e.Canonical p) : ∀ t ∈ e.row, tokenKind t ≠ .errorToken := by
  induction e <;> simp_all [or_imp, Canonical]
  case int n => simp [tokenKind, Token.plain, singleKind?_write he]
  all_goals simp [tokenKind]

/-- A tidy row is the print of what it reads as. -/
theorem Tidy.row_of_parse (h : Tidy ts) (hparse : parse p cells ts = some e) : e.row = ts := by
  obtain ⟨hcanon, hspells⟩ := spells_of_parse h.textOnly hparse
  have hcells : e.cellsOf = [] := by rw [cellsOf_parse hparse, h.rowCells]
  exact (tidy_append_row hcells hcanon .nil rfl).eq_of_alike h hspells (kind_row_ne_error hcanon)

end

/-! ### Tokens for texts -/

/-- A letter or underscore, then letters, digits and underscores. -/
def isNameShaped : Text → Bool
  | [] => false
  | c :: cs => isNameStart c && cs.all isNameChar

section
variable {t : Text} {c : Char} {cs : Text} {k : Kind} {a : Bool}

theorem isSpace_of_isNameStart (h : isNameStart c) : isSpace c = false := by
  simp only [isSpace, Bool.or_eq_false_iff, beq_eq_false_iff_ne]
  refine ⟨⟨⟨?_, ?_⟩, ?_⟩, ?_⟩ <;> rintro rfl <;> simp [isNameStart] at h

theorem singleKind?_nil : singleKind? [] = none := by
  simp [singleKind?, lex]

theorem firstLexeme_of_singleKind? (h : singleKind? (c :: cs) = some k) :
    (firstLexeme c cs).1 = k ∧ cs.length ≤ (firstLexeme c cs).2 ∧ k ≠ .whitespace ∧
      k ≠ .errorToken := by
  unfold singleKind? at h
  rw [lex_cons] at h
  generalize firstLexeme c cs = lexeme at h ⊢
  obtain ⟨kind, n⟩ := lexeme
  cases hrest : lex (cs.drop n) with
  | cons => simp [hrest] at h
  | nil =>
    have hlen : cs.length ≤ n := List.drop_eq_nil_iff.1 (lex_eq_nil.1 hrest)
    rw [hrest] at h
    have hkind : kind ≠ .whitespace ∧ kind ≠ .errorToken := by cases kind <;> simp at h ⊢
    obtain rfl : kind = k := by cases kind <;> simp_all
    exact ⟨rfl, hlen, hkind⟩

/-- The kinds with only one text. -/
def symbols : List (Kind × Text) :=
  [(.plus, ['+']), (.star, ['*']), (.plusPlus, ['+', '+']), (.bang, ['!']), (.dot, ['.']),
    (.lparen, ['(']), (.rparen, [')'])]

theorem singleKind?_of_mem_symbols (h : (k, t) ∈ symbols) : singleKind? t = some k := by
  simp only [symbols, List.mem_cons, Prod.mk.injEq, List.not_mem_nil, or_false] at h
  rcases h with ⟨rfl, rfl⟩ | ⟨rfl, rfl⟩ | ⟨rfl, rfl⟩ | ⟨rfl, rfl⟩ | ⟨rfl, rfl⟩ | ⟨rfl, rfl⟩ | ⟨rfl, rfl⟩
  all_goals simp [singleKind?, lex, firstLexeme, symbolKind, isSpace, isNameStart]

theorem mem_symbols_of_singleKind? (h : singleKind? t = some k) (hident : k ≠ .ident)
    (hint : k ≠ .int) : (k, t) ∈ symbols := by
  cases t with
  | nil => simp [singleKind?_nil] at h
  | cons c cs =>
    obtain ⟨hk, hlen, hspace, herror⟩ := firstLexeme_of_singleKind? h
    unfold firstLexeme at hk hlen
    split_ifs at hk hlen with _ _ _ hplus
    · exact absurd hk.symm hspace
    · exact absurd hk.symm hident
    · exact absurd hk.symm hint
    · obtain ⟨hc, hhead⟩ := Bool.and_eq_true_iff.1 hplus
      obtain rfl := beq_iff_eq.1 hc
      obtain ⟨rest, rfl⟩ := List.head?_eq_some_iff.1 (beq_iff_eq.1 hhead)
      obtain rfl : rest = [] := by simpa using hlen
      subst hk
      decide
    · obtain rfl := List.eq_nil_of_length_eq_zero (Nat.le_zero.1 hlen)
      subst hk
      unfold symbolKind at herror ⊢
      split <;> simp_all [symbols]

theorem tokenOfKind_spec (h : singleKind? t = some k) :
    (tokenOfKind a k t).text {} = t ∧ tokenKind (tokenOfKind a k t) = k := by
  by_cases hident : k = .ident
  · subst hident
    exact ⟨rfl, rfl⟩
  by_cases hint : k = .int
  · subst hint
    exact ⟨rfl, by simp [tokenOfKind, tokenKind, Token.plain, h]⟩
  have hmem := mem_symbols_of_singleKind? h hident hint
  simp only [symbols, List.mem_cons, Prod.mk.injEq, List.not_mem_nil, or_false] at hmem
  rcases hmem with ⟨rfl, rfl⟩ | ⟨rfl, rfl⟩ | ⟨rfl, rfl⟩ | ⟨rfl, rfl⟩ | ⟨rfl, rfl⟩ | ⟨rfl, rfl⟩ | ⟨rfl, rfl⟩
  case' inr.inr.inr.inr.inr.inl => cases a
  all_goals exact ⟨rfl, by simp [tokenOfKind]⟩

theorem singleKind?_eq_ident : singleKind? t = some .ident ↔ isNameShaped t := by
  cases t with
  | nil => simp [singleKind?_nil, isNameShaped]
  | cons c cs =>
    rw [isNameShaped, Bool.and_eq_true_iff, List.all_eq_true]
    constructor
    · intro h
      obtain ⟨hk, hlen, -, -⟩ := firstLexeme_of_singleKind? h
      unfold firstLexeme at hk hlen
      split_ifs at hk hlen with _ hstart
      · refine ⟨hstart, List.takeWhile_eq_self_iff.1 ?_⟩
        exact (List.takeWhile_prefix _).eq_of_length_le hlen
      · exact absurd hk (by unfold symbolKind; split <;> decide)
    · rintro ⟨hstart, hcs⟩
      have hfirst : firstLexeme c cs = (.ident, cs.length) := by
        simp [firstLexeme, isSpace_of_isNameStart hstart, hstart, List.takeWhile_eq_self_iff.2 hcs]
      simp [singleKind?, lex_cons, hfirst, lex]

/-- The token that typing gives for a text after a row; nothing for the word that stands for a new
text. -/
def tokenFor? (afterName : Bool) (t : Text) : Option (Token Expr) :=
  if t = valueWord then none else (singleKind? t).map fun k => tokenOfKind afterName k t

theorem tokenFor?_eq_some {u : Token Expr} : tokenFor? a t = some u ↔
    t ≠ valueWord ∧ ∃ k, singleKind? t = some k ∧ u = tokenOfKind a k t := by
  unfold tokenFor?
  split_ifs with h
  · simp [h]
  · simp only [Option.map_eq_some_iff, ne_eq, h, not_false_eq_true, true_and]
    exact exists_congr fun k => and_congr_right fun _ => eq_comm

theorem beq_symbol {s : Text} (hs : (k, s) ∈ symbols) : (s == t) = (singleKind? t == some k) := by
  have hunique : ∀ x ∈ symbols, ∀ y ∈ symbols, x.1 = y.1 → x.2 = y.2 := by decide
  have hkinds : ∀ x ∈ symbols, x.1 ≠ .ident ∧ x.1 ≠ .int := by decide
  rw [Bool.eq_iff_iff, beq_iff_eq, beq_iff_eq]
  constructor
  · rintro rfl
    exact singleKind?_of_mem_symbols hs
  · intro h
    have ht := mem_symbols_of_singleKind? h (hkinds _ hs).1 (hkinds _ hs).2
    exact hunique _ hs _ ht rfl

/-- Which item accepts a text is a matter of its kind, but for the word for a new text. -/
theorem accepts_tokenItems_or_word (t : Text) : tokenItems.map (fun i => i.matcher.accepts t) =
    ([.plus, .star, .plusPlus, .bang, .dot, .lparen, .rparen, .int, .ident].map fun k =>
      singleKind? t == some k) ++ [valueWord == t] := by
  have hmap : tokenItems.map (fun i => i.matcher.accepts t) =
    [['+'] == t, ['*'] == t, ['+', '+'] == t, ['!'] == t, ['.'] == t, ['('] == t, [')'] == t,
      isNumber t, isName t, valueWord == t] := rfl
  rw [hmap, beq_symbol (k := .plus) (by decide), beq_symbol (k := .star) (by decide),
    beq_symbol (k := .plusPlus) (by decide), beq_symbol (k := .bang) (by decide),
    beq_symbol (k := .dot) (by decide), beq_symbol (k := .lparen) (by decide),
    beq_symbol (k := .rparen) (by decide)]
  rfl

theorem accepts_tokenItems (hv : t ≠ valueWord) : tokenItems.map (fun i => i.matcher.accepts t) =
    ([.plus, .star, .plusPlus, .bang, .dot, .lparen, .rparen, .int, .ident].map fun k =>
      singleKind? t == some k) ++ [false] := by
  have hvalue : (valueWord == t) = false := beq_eq_false_iff_ne.2 (Ne.symm hv)
  rw [accepts_tokenItems_or_word, hvalue]

theorem matching_of_none (h : singleKind? t = none) (hv : t ≠ valueWord) :
    Item.matching tokenItems t = [] := by
  have hfilter : tokenItems.filter (fun i => i.matcher.accepts t) = [] := by
    refine List.filter_eq_nil_iff.2 fun i hi hacc => ?_
    have hmem : true ∈ tokenItems.map fun i => i.matcher.accepts t := hacc ▸ List.mem_map_of_mem hi
    rw [accepts_tokenItems hv, h] at hmem
    exact absurd hmem (by decide)
  simp [Item.matching, hfilter]

theorem matching_of_tokenFor? {u : Token Expr} (h : tokenFor? a t = some u) :
    ∃ item, Item.matching tokenItems t = [item] ∧ ∀ scope : Scope Expr,
      (0 < scope.target && (scope.tokens[scope.target - 1]?).any Token.isIdentifier) = a →
      item.effect scope t = pure (.put [u]) := by
  obtain ⟨hv, k, hk, rfl⟩ := tokenFor?_eq_some.1 h
  have hmap := accepts_tokenItems hv
  simp only [hk, tokenItems, List.map_cons, List.map_nil, List.cons_append, List.nil_append,
    List.cons.injEq, and_true] at hmap
  obtain ⟨h₁, h₂, h₃, h₄, h₅, h₆, h₇, h₈, h₉, h₁₀⟩ := hmap
  simp only [Item.matching, tokenItems, List.filter_cons, h₁, h₂, h₃, h₄, h₅, h₆, h₇, h₈, h₉, h₁₀,
    List.filter_nil]
  cases k
  case ident => exact ⟨nameItem, rfl, fun _ _ => rfl⟩
  case int => exact ⟨numberItem, rfl, fun _ _ => rfl⟩
  case plus => exact ⟨.token {} plusToken, rfl, fun _ _ => rfl⟩
  case star => exact ⟨.token {} mulToken, rfl, fun _ _ => rfl⟩
  case plusPlus => exact ⟨.token {} incToken, rfl, fun _ _ => rfl⟩
  case bang => exact ⟨.token {} factorialToken, rfl, fun _ _ => rfl⟩
  case dot => exact ⟨.token {} dotToken, rfl, fun _ _ => rfl⟩
  case rparen => exact ⟨.token {} closeToken, rfl, fun _ _ => rfl⟩
  case lparen =>
    refine ⟨bracketItem, rfl, fun scope hscope => ?_⟩
    subst hscope
    rfl
  all_goals
    have hmem := mem_symbols_of_singleKind? hk (by decide) (by decide)
    simp [symbols] at hmem

/-- A longer text whose last character belongs to no name is no token, with one exception. -/
theorem singleKind?_concat {cur : Text} (hne : cur ≠ []) (hplus : ¬ (cur = ['+'] ∧ c = '+'))
    (hc : isNameChar c = false) : singleKind? (cur ++ [c]) = none := by
  obtain ⟨x, xs, rfl⟩ := List.exists_cons_of_ne_nil hne
  rw [Option.eq_none_iff_forall_ne_some]
  intro k hk
  obtain ⟨hfirst, hlen, hspace, -⟩ := firstLexeme_of_singleKind? hk
  have hall : ∀ {q : Char → Bool}, (xs ++ [c]).length ≤ ((xs ++ [c]).takeWhile q).length →
      q c = true := by
    intro q hq
    have htake := (List.takeWhile_prefix q).eq_of_length_le hq
    exact List.takeWhile_eq_self_iff.1 htake c (by simp)
  unfold firstLexeme at hfirst hlen
  split_ifs at hfirst hlen with _ _ _ hpp
  · exact hspace hfirst.symm
  · exact absurd (hall hlen) (by simp [hc])
  · have hdigit := hall hlen
    simp [isNameChar, Char.isAlphanum, hdigit] at hc
  · obtain ⟨hx, hhead⟩ := Bool.and_eq_true_iff.1 hpp
    obtain rfl : xs = [] := by simpa using hlen
    exact hplus ⟨by rw [beq_iff_eq.1 hx], by simpa using hhead⟩
  · simp at hlen

theorem singleKind?_pair {x : Char} (hx : isNameChar x = false) (hplus : x ≠ '+') :
    singleKind? [x, c] = none := by
  rw [Option.eq_none_iff_forall_ne_some]
  intro k hk
  obtain ⟨hfirst, hlen, hspace, -⟩ := firstLexeme_of_singleKind? hk
  simp only [isNameChar, Char.isAlphanum, Bool.or_eq_false_iff] at hx
  unfold firstLexeme at hfirst hlen
  simp [isNameStart, hx, hplus] at hfirst hlen
  split_ifs at hfirst hlen
  · exact hspace hfirst.symm
  · simp at hlen

end

/-- A name that does not begin with the word for a new text. -/
def isWord (name : Text) : Bool :=
  isNameShaped name && !valueWord.isPrefixOf name

/-- There are no texts in the expression, and all names are words. -/
def Typable : Expr → Prop
  | var name | call name => isWord name
  | int _ => True
  | plus l r | mul l r => l.Typable ∧ r.Typable
  | inc e | factorial e | parens e => e.Typable
  | callWith name e | field e name => isWord name ∧ e.Typable
  | text _ => False

instance Typable.decidable : (e : Expr) → Decidable e.Typable
  | var name | call name => inferInstanceAs (Decidable (isWord name = true))
  | int _ => isTrue trivial
  | plus l r | mul l r =>
    have := Typable.decidable l
    have := Typable.decidable r
    inferInstanceAs (Decidable (_ ∧ _))
  | inc e | factorial e | parens e => Typable.decidable e
  | callWith name e | field e name =>
    have := Typable.decidable e
    inferInstanceAs (Decidable (isWord name = true ∧ _))
  | text _ => isFalse id

theorem isWord_iff {name : Text} : isWord name ↔ isNameShaped name ∧ ¬ valueWord <+: name := by
  rw [isWord, Bool.and_eq_true_iff, Bool.not_eq_true', ← Bool.not_eq_true, List.isPrefixOf_iff_prefix]

theorem Typable.cellsOf {e : Expr} (h : e.Typable) : e.cellsOf = [] := by
  induction e <;> simp_all [Typable, Expr.cellsOf]

/-! ### Typing at the end of a row -/

/-- After a row, the text is typed as this token, in the form in which it is printed. -/
structure Gives (afterName : Bool) (t : Text) (u : Token Expr) : Prop where
  token : tokenFor? afterName t = some u
  tidy : TidyToken afterName u

/-- What a character typed at the end makes of a row. -/
inductive Press : List (Token Expr) → Char → List (Token Expr) → Prop
  | first {c : Char} {u : Token Expr} : Gives false [c] u → Press [] c [u]
  | space {ts : List (Token Expr)} {t : Token Expr} :
      Press (ts ++ [t]) ' ' (ts ++ [t] ++ [.error []])
  | grow {ts : List (Token Expr)} {t u : Token Expr} {c : Char} :
      Gives (endsInName ts) (t.text {} ++ [c]) u → Press (ts ++ [t]) c (ts ++ [u])
  | start {ts : List (Token Expr)} {t u : Token Expr} {c : Char} : t.text {} ++ [c] ≠ valueWord →
      singleKind? (t.text {} ++ [c]) = none → Gives (endsInName (ts ++ [t])) [c] u →
      Press (ts ++ [t]) c (ts ++ [t] ++ [u])

/-- What a text typed at the end makes of a row. -/
inductive Presses : List (Token Expr) → Text → List (Token Expr) → Prop
  | nil {ts : List (Token Expr)} : Presses ts [] ts
  | cons {ts ts' ts'' : List (Token Expr)} {c : Char} {cs : Text} : Press ts c ts' →
      Presses ts' cs ts'' → Presses ts (c :: cs) ts''

section
variable {ts ts' ts'' base : List (Token Expr)} {t u : Token Expr} {c : Char} {s s' name : Text}
  {k : Kind} {a : Bool} {e : Expr} {p : Precedence} {n : Int64} {cells : Cells}

namespace Presses

theorem single (h : Press ts c ts') : Presses ts [c] ts' := .cons h .nil

theorem append (h : Presses ts s ts') (h' : Presses ts' s' ts'') : Presses ts (s ++ s') ts'' := by
  induction h with
  | nil => exact h'
  | cons hpress _ ih => exact .cons hpress (ih h')

theorem concat (h : Presses ts s ts') (h' : Press ts' c ts'') : Presses ts (s ++ [c]) ts'' :=
  h.append (.single h')

end Presses

namespace Gives

theorem ne_space (h : Gives a (s ++ [c]) u) : c ≠ ' ' := by
  obtain ⟨-, k, hk, -⟩ := tokenFor?_eq_some.1 h.token
  rintro rfl
  by_cases hs : s = []
  · simp [hs, singleKind?, lex, firstLexeme, isSpace] at hk
  · rw [singleKind?_concat hs (by simp) (by decide)] at hk
    cases hk

theorem isBlank (h : Gives a [c] u) : Text.isBlank c = false := by
  obtain ⟨-, k, hk, -⟩ := tokenFor?_eq_some.1 h.token
  have ascii : 33 ≤ c.toNat → c.toNat ≤ 126 → Text.isBlank c = false := by
    intro hlo hhi
    simp only [Text.isBlank, Bool.or_eq_false_iff, Bool.and_eq_false_iff, decide_eq_false_iff_not,
      beq_eq_false_iff_ne]
    omega
  by_cases hident : k = .ident
  · subst hident
    have hstart : isNameStart c := by simpa [isNameShaped] using singleKind?_eq_ident.1 hk
    rcases Bool.or_eq_true_iff.1 hstart with halpha | hunder
    · have := Text.isAlpha_iff.1 halpha
      exact ascii (by omega) (by omega)
    · rw [beq_iff_eq.1 hunder]
      decide
  by_cases hint : k = .int
  · subst hint
    have hdigit : c.isDigit := by simpa [Decimal.isDigits] using (singleKind?_eq_int.1 hk).1
    have := isDigit_iff.1 hdigit
    exact ascii (by omega) (by omega)
  have hsymbols : ∀ x ∈ symbols, x.2.all fun c => !Text.isBlank c := by decide
  simpa using hsymbols _ (mem_symbols_of_singleKind? hk hident hint)

theorem of_kind (hk : singleKind? s = some k) (hv : s ≠ valueWord)
    (hdigits : k = .int → ∃ n : Int64, 0 ≤ n.toInt ∧ s = Decimal.write n) :
    Gives a s (tokenOfKind a k s) := by
  obtain ⟨htext, hkind⟩ := @tokenOfKind_spec s k a hk
  refine ⟨tokenFor?_eq_some.2 ⟨hv, k, hk, rfl⟩, ⟨by rw [hkind, htext], ?_⟩⟩
  rw [hkind, htext]
  exact hdigits

theorem identifier (h : isNameShaped s) (hv : s ≠ valueWord) : Gives a s (.identifier s) :=
  of_kind (singleKind?_eq_ident.2 h) hv (by rintro ⟨⟩)

theorem number (hn : 0 ≤ n.toInt) : Gives a (Decimal.write n) (.plain (Decimal.write n)) := by
  have hk := singleKind?_write hn
  refine of_kind hk ?_ fun _ => ⟨n, hn, rfl⟩
  intro hv
  rw [hv, singleKind?_eq_ident.2 (by decide)] at hk
  cases hk

theorem symbol (h : (k, s) ∈ symbols) : Gives a s (tokenOfKind a k s) := by
  have hfacts : ∀ x ∈ symbols, x.1 ≠ .int ∧ x.2 ≠ valueWord := by decide
  exact of_kind (singleKind?_of_mem_symbols h) (hfacts _ h).2 fun hk => absurd hk (hfacts _ h).1

end Gives

/-- An operand typed after the row `ts` comes right after `base`. -/
structure Opens (ts base : List (Token Expr)) : Prop where
  tidy : Tidy base
  noName : endsInName base = false
  press : ∀ {c : Char} {u : Token Expr}, Gives false [c] u → Press ts c (base ++ [u])

namespace Opens

theorem nil : Opens [] [] := ⟨.nil, rfl, .first⟩

theorem gap (h : Tidy base) (hn : endsInName base = false) : Opens (base ++ [.error []]) base :=
  ⟨h, hn, fun hu => .grow (t := .error []) (hn ▸ hu)⟩

theorem symbol (h : Tidy (ts ++ [t])) (hname : t.isIdentifier = false) (ht : t.text {} = [c])
    (hc : isNameChar c = false) (hplus : c ≠ '+') : Opens (ts ++ [t]) (ts ++ [t]) := by
  have hends : endsInName (ts ++ [t]) = false := (endsInName_concat ts t).trans hname
  refine ⟨h, hends, fun hu => .start ?_ ?_ (hends ▸ hu)⟩
  · simp [ht, valueWord]
  · rw [ht]
    exact singleKind?_pair hc hplus

end Opens

namespace Presses

/-- A symbol typed after the end of an operand stands on its own. -/
theorem after (hne : t.text {} ≠ []) (hplus : t.text {} ≠ ['+']) (hs : (k, [c]) ∈ symbols) :
    Press (ts ++ [t]) c (ts ++ [t] ++ [tokenOfKind t.isIdentifier k [c]]) := by
  have hc : isNameChar c = false := by
    have hall : ∀ x ∈ symbols, x.2.all fun c => !isNameChar c := by decide
    simpa using hall _ hs
  refine .start ?_ (singleKind?_concat hne (fun h => hplus h.1) hc) (endsInName_concat ts t ▸ .symbol hs)
  intro hv
  have hlast := congrArg List.getLast? hv
  rw [List.getLast?_concat, show valueWord.getLast? = some 'e' by decide] at hlast
  cases hlast
  cases hc

theorem name_rest (hname : isNameShaped s) (hs' : s'.all isNameChar)
    (hv : ¬ valueWord <+: s ++ s') :
    Presses (base ++ [.identifier s]) s' (base ++ [.identifier (s ++ s')]) := by
  induction s' generalizing s with
  | nil =>
    rw [List.append_nil]
    exact .nil
  | cons c cs ih =>
    rw [List.all_cons, Bool.and_eq_true_iff] at hs'
    have hlonger : isNameShaped (s ++ [c]) := by
      cases s with
      | nil => cases hname
      | cons x xs => simp_all [isNameShaped]
    have hstep : Press (base ++ [.identifier s]) c (base ++ [.identifier (s ++ [c])]) := by
      refine .grow (.identifier hlonger fun heq => hv ⟨cs, ?_⟩)
      rw [← heq]
      simp [Token.text]
    have hrest := ih hlonger hs'.2 (by simpa using hv)
    rw [List.append_assoc, List.singleton_append] at hrest
    exact .cons hstep hrest

theorem word (h : Opens ts base) (hname : isWord name) :
    Presses ts name (base ++ [.identifier name]) := by
  obtain ⟨hshape, hv⟩ := isWord_iff.1 hname
  cases name with
  | nil => cases hshape
  | cons c cs =>
    obtain ⟨hc, hcs⟩ := Bool.and_eq_true_iff.1 hshape
    have hfirst : isNameShaped [c] := by simpa [isNameShaped] using hc
    exact .cons (h.press (.identifier hfirst (by simp [valueWord]))) (name_rest hfirst hcs hv)

theorem digits (h : Opens ts base) {m : Nat} (hm : m < 9223372036854775808) :
    Presses ts (Nat.toDigits 10 m) (base ++ [.plain (Nat.toDigits 10 m)]) := by
  have gives : ∀ {a : Bool} {m : Nat}, m < 9223372036854775808 →
      Gives a (Nat.toDigits 10 m) (.plain (Nat.toDigits 10 m)) := by
    intro a m hm
    have htoInt : (Int64.ofInt m).toInt = m := Int64.toInt_ofInt_of_le (by omega) (by omega)
    have hwrite : Decimal.write (Int64.ofInt m) = Nat.toDigits 10 m := by
      rw [Decimal.write, htoInt, if_neg (by omega), Int.natAbs_natCast]
    rw [← hwrite]
    exact .number (by omega)
  induction m using Nat.strongRecOn with
  | ind m ih =>
    by_cases hlt : m < 10
    · have hone := @gives false m hm
      rw [Nat.toDigits_of_lt_base hlt] at hone ⊢
      exact .single (h.press hone)
    · have hlast := @gives (endsInName base) m hm
      rw [Nat.toDigits_of_base_le (by omega) (by omega)] at hlast ⊢
      exact (ih (m / 10) (by omega) (by omega)).concat (.grow hlast)

theorem number (h : Opens ts base) (hn : 0 ≤ n.toInt) :
    Presses ts (Decimal.write n) (base ++ [.plain (Decimal.write n)]) := by
  rw [Decimal.write, if_neg (by omega)]
  exact digits h (by have := n.toInt_lt; omega)

end Presses

/-- An operand ends in a token that no symbol grows. -/
theorem exists_concat_row (h : e.Typable) :
    ∃ ts t, e.row = ts ++ [t] ∧ t.text {} ≠ [] ∧ t.text {} ≠ ['+'] := by
  have word : ∀ {name : Text}, isWord name → name ≠ [] ∧ name ≠ ['+'] := by
    intro name hname
    constructor <;> rintro rfl <;> revert hname <;> decide
  induction e with
  | var name => exact ⟨[], _, rfl, word h⟩
  | int n =>
    have hread := Decimal.read?_write n
    refine ⟨[], _, rfl, fun hnil => ?_, fun hplus => ?_⟩
    · rw [show Decimal.write n = [] from hnil] at hread
      cases hread
    · rw [show Decimal.write n = ['+'] from hplus] at hread
      cases hread
  | plus l r _ ih =>
    obtain ⟨ts, t, hts, ht⟩ := ih h.2
    exact ⟨l.row ++ plusToken :: ts, t, by simp [hts], ht⟩
  | mul l r _ ih =>
    obtain ⟨ts, t, hts, ht⟩ := ih h.2
    exact ⟨l.row ++ mulToken :: ts, t, by simp [hts], ht⟩
  | inc e => exact ⟨e.row, _, row_inc e, by decide, by decide⟩
  | factorial e => exact ⟨e.row, _, row_factorial e, by decide, by decide⟩
  | parens e => exact ⟨_, _, row_parens e, by decide, by decide⟩
  | call name => exact ⟨[.identifier name, callToken], _, rfl, by decide, by decide⟩
  | callWith name e => exact ⟨_, _, row_callWith e name, by decide, by decide⟩
  | field e name => exact ⟨e.row ++ [dotToken], .identifier name, by simp, word h.1⟩
  | text c => cases h

namespace Presses

theorem operator (hl : e.Typable) (h : Tidy (base ++ e.row)) (hs : (k, [c]) ∈ symbols)
    (hu : tokenOfKind (endsInName (base ++ e.row)) k [c] = u) (hname : u.isIdentifier = false)
    (hright : ∀ {ts}, Opens ts (base ++ e.row ++ [u]) → Presses ts s (base ++ e.row ++ [u] ++ ts')) :
    Presses (base ++ e.row) ([' ', c, ' '] ++ s) (base ++ e.row ++ [u] ++ ts') := by
  obtain ⟨us, t, hus, -⟩ := exists_concat_row hl
  rw [hus, ← List.append_assoc] at h hu hright ⊢
  have hgives : Gives (endsInName (base ++ us ++ [t])) [c] u := hu ▸ .symbol hs
  have hgap := Opens.gap (h.concat hgives.tidy) ((endsInName_concat _ u).trans hname)
  have hop : Presses (base ++ us ++ [t]) [' ', c, ' '] (base ++ us ++ [t] ++ [u] ++ [.error []]) :=
    .cons .space (.cons (.grow (t := .error []) hgives) (.single .space))
  exact hop.append (hright hgap)

theorem closing (htyp : e.Typable) (h : Presses ts s (base ++ e.row)) (hs : (k, [c]) ∈ symbols) :
    Presses ts (s ++ [c]) (base ++ e.row ++ [tokenOfKind (endsInName (base ++ e.row)) k [c]]) := by
  obtain ⟨us, t, hus, hne, hplus⟩ := exists_concat_row htyp
  rw [hus, ← List.append_assoc] at h ⊢
  rw [endsInName_concat]
  exact h.concat (after hne hplus hs)

/-- Typing what an expression displays where an operand is due puts its tokens there. -/
theorem display (htyp : e.Typable) (hcanon : e.Canonical p) (h : Opens ts base) :
    Presses ts (e.display cells) (base ++ e.row) := by
  have tidy : ∀ {e : Expr} {base : List (Token Expr)}, e.Typable → e.Canonical p → Tidy base →
      endsInName base = false → Tidy (base ++ e.row) :=
    fun he => tidy_append_row he.cellsOf
  induction e generalizing ts base with
  | var name => exact word h htyp
  | int n => exact number h hcanon
  | text c => cases htyp
  | plus l r ihl ihr =>
    have hop := operator (k := .plus) (c := '+') (u := plusToken) htyp.1
      (tidy htyp.1 hcanon.2.1 h.tidy h.noName) (by decide) rfl rfl (ihr htyp.2 hcanon.2.2)
    simpa [Expr.display] using (ihl htyp.1 hcanon.2.1 h).append hop
  | mul l r ihl ihr =>
    have hop := operator (k := .star) (c := '*') (u := mulToken) htyp.1
      (tidy htyp.1 hcanon.2.1 h.tidy h.noName) (by decide) rfl rfl (ihr htyp.2 hcanon.2.2)
    simpa [Expr.display] using (ihl htyp.1 hcanon.2.1 h).append hop
  | inc e ih =>
    -- the first of the two signs is a sum for a moment
    have hplus := closing (e := e) (k := .plus) (c := '+') htyp (ih htyp hcanon.2 h) (by decide)
    have hinc : Press (base ++ e.row ++ [plusToken]) '+' (base ++ e.row ++ [incToken]) :=
      .grow (.symbol (k := .plusPlus) (s := ['+', '+']) (by decide))
    simpa [Expr.display] using hplus.concat hinc
  | factorial e ih =>
    simpa [Expr.display, tokenOfKind] using
      closing (e := e) (k := .bang) (c := '!') htyp (ih htyp hcanon.2 h) (by decide)
  | parens e ih =>
    have hopen : Press ts '(' (base ++ [groupToken]) := h.press (.symbol (k := .lparen) (by decide))
    have hinner : Opens (base ++ [groupToken]) (base ++ [groupToken]) :=
      .symbol (h.tidy.concat (h.noName ▸ .bracket false)) rfl (c := '(') rfl (by decide) (by decide)
    have hclose := closing (e := e) (k := .rparen) (c := ')') htyp (ih htyp hcanon hinner) (by decide)
    simpa [Expr.display, tokenOfKind] using Presses.cons hopen hclose
  | call name =>
    have hopen := closing (e := var name) (k := .lparen) (c := '(') htyp (word h htyp) (by decide)
    have hclose : Press (base ++ [.identifier name] ++ [callToken]) ')'
        (base ++ [.identifier name] ++ [callToken] ++ [closeToken]) :=
      after (k := .rparen) (by decide) (by decide) (by decide)
    rw [row_var, endsInName_concat] at hopen
    simpa [Expr.display] using hopen.concat hclose
  | callWith name e ih =>
    have hopen := closing (e := var name) (k := .lparen) (c := '(') htyp.1 (word h htyp.1) (by decide)
    have hname := h.tidy.concat (.identifier name)
    have htidy := hname.concat (t := callToken) (endsInName_concat base _ ▸ .bracket true)
    have hinner := Opens.symbol (c := '(') htidy rfl rfl (by decide) (by decide)
    have hbody := ih htyp.2 hcanon hinner
    have hclose := closing (e := e) (k := .rparen) (c := ')') htyp.2 hbody (by decide)
    rw [row_var, endsInName_concat] at hopen
    simpa [Expr.display, tokenOfKind] using hopen.append hclose
  | field e name ih =>
    have hdot := closing (e := e) (k := .dot) (c := '.') htyp.2 (ih htyp.2 hcanon.2 h) (by decide)
    have htidy := (tidy htyp.2 hcanon.2 h.tidy h.noName).concat (t := dotToken) (.symbol (by simp))
    have hname := Opens.symbol (c := '.') htidy rfl rfl (by decide) (by decide)
    simpa [Expr.display, tokenOfKind] using hdot.append (word hname htyp.1)

end Presses

end

end TokenEditor.Expr
