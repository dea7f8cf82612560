import TokenEditor.Proofs.CleanTexts

/-! # Lexemes are longest matches

`Matches` lists the patterns of the lexemes. A text is cut by taking the longest beginning that matches
one of them, or a single character as an error where none does, and going on behind it: `Munches`. This
is what `lex` does, and no two patterns compete, so there is only one way to do it
(`munches_iff`).

A lexeme ends where it does because of the character behind it. If that one gives way to a space the
lexeme still ends there, so spaces may be put between lexemes (`filter_lex_spread`).
`lex_is_maximal_munch` has all of this together. -/

namespace TokenEditor.Expr

def Letter (c : Char) : Prop := 'A' ≤ c ∧ c ≤ 'Z' ∨ 'a' ≤ c ∧ c ≤ 'z'

def Digit (c : Char) : Prop := '0' ≤ c ∧ c ≤ '9'

/-- The patterns of the lexemes of each kind. -/
inductive Matches : Kind → Text → Prop
  | whitespace {t : Text} : t ≠ [] → (∀ c ∈ t, c ∈ [' ', '\t', '\r', '\n']) → Matches .whitespace t
  | ident {c : Char} {cs : Text} : Letter c ∨ c = '_' →
      (∀ d ∈ cs, Letter d ∨ Digit d ∨ d = '_') → Matches .ident (c :: cs)
  | int {t : Text} : t ≠ [] → (∀ c ∈ t, Digit c) → Matches .int t
  | plusPlus : Matches .plusPlus ['+', '+']
  | plus : Matches .plus ['+']
  | star : Matches .star ['*']
  | bang : Matches .bang ['!']
  | dot : Matches .dot ['.']
  | lparen : Matches .lparen ['(']
  | rparen : Matches .rparen [')']

/-- The lexeme that a text begins with: its longest beginning that matches a pattern, or else its first
character as an error. -/
inductive Begins : Lexeme → Text → Prop
  | longest {l : Lexeme} {t : Text} : Matches l.kind l.text → l.text <+: t →
      (∀ k u, Matches k u → u <+: t → u.length ≤ l.text.length) → Begins l t
  | error {c : Char} {cs : Text} : (∀ k u, u ≠ [] → u <+: c :: cs → ¬ Matches k u) →
      Begins ⟨.errorToken, [c]⟩ (c :: cs)

/-- The text is cut into the lexemes, each of which is the one that the rest of the text begins with. -/
inductive Munches : Text → List Lexeme → Prop
  | nil : Munches [] []
  | cons {l : Lexeme} {rest : Text} {ls : List Lexeme} : Begins l (l.text ++ rest) → Munches rest ls →
      Munches (l.text ++ rest) (l :: ls)

/-- The texts of the lexemes with a gap in front of each, as far as there are gaps, and what is left of
these at the end. -/
def spread : List Text → List Lexeme → Text
  | gaps, [] => gaps.flatten
  | [], l :: ls => l.text ++ spread [] ls
  | g :: gaps, l :: ls => g ++ l.text ++ spread gaps ls

section
variable {c d : Char} {cs s t u rest : Text} {k : Kind} {l : Lexeme} {ls : List Lexeme}

theorem isSpace_iff : isSpace c ↔ c ∈ [' ', '\t', '\r', '\n'] := by
  simp [isSpace, or_assoc]

theorem isDigit_iff_digit : c.isDigit ↔ Digit c := by
  rw [isDigit_iff]
  rfl

theorem isNameStart_iff : isNameStart c ↔ Letter c ∨ c = '_' := by
  rw [isNameStart, Bool.or_eq_true, Text.isAlpha_iff, beq_iff_eq]
  rfl

theorem isNameChar_iff : isNameChar c ↔ Letter c ∨ Digit c ∨ c = '_' := by
  rw [isNameChar, Char.isAlphanum, Bool.or_eq_true, Bool.or_eq_true, Text.isAlpha_iff,
    isDigit_iff_digit, beq_iff_eq, or_assoc]
  rfl

theorem Matches.ne_nil (h : Matches k t) : t ≠ [] := by
  cases h with
  | whitespace hne _ | int hne _ => exact hne
  | _ => exact List.cons_ne_nil _ _

theorem symbolKind_spec (c : Char) : symbolKind c = .errorToken ∨ Matches (symbolKind c) [c] := by
  unfold symbolKind
  split
  · exact .inr .plus
  · exact .inr .star
  · exact .inr .bang
  · exact .inr .dot
  · exact .inr .lparen
  · exact .inr .rparen
  · exact .inl rfl

/-- The texts that match a pattern are those that are one lexeme. -/
theorem matches_iff : Matches k (c :: cs) ↔ firstLexeme c cs = (k, cs.length) ∧ k ≠ .errorToken := by
  constructor
  · intro h
    cases h with
    | whitespace _ hall =>
      obtain ⟨hc, hcs⟩ := List.forall_mem_cons.1 hall
      have htake : cs.takeWhile isSpace = cs :=
        List.takeWhile_eq_self_iff.2 fun d hd => isSpace_iff.2 (hcs d hd)
      refine ⟨?_, by decide⟩
      rw [firstLexeme, if_pos (isSpace_iff.2 hc), htake]
    | ident hc hcs =>
      have hstart := isNameStart_iff.2 hc
      have htake : cs.takeWhile isNameChar = cs :=
        List.takeWhile_eq_self_iff.2 fun d hd => isNameChar_iff.2 (hcs d hd)
      refine ⟨?_, by decide⟩
      rw [firstLexeme, if_neg (by rw [isSpace_of_isNameStart hstart]; decide), if_pos hstart, htake]
    | int _ hall =>
      obtain ⟨hc, hcs⟩ := List.forall_mem_cons.1 hall
      have htake : cs.takeWhile Char.isDigit = cs :=
        List.takeWhile_eq_self_iff.2 fun d hd => isDigit_iff_digit.2 (hcs d hd)
      refine ⟨?_, by decide⟩
      rw [firstLexeme_of_isDigit (isDigit_iff_digit.2 hc), htake]
    | plusPlus | plus | star | bang | dot | lparen | rparen => decide
  · rintro ⟨hfirst, herror⟩
    have hall : ∀ {q : Char → Bool}, (cs.takeWhile q).length = cs.length → ∀ x ∈ cs, q x :=
      fun hq => List.takeWhile_eq_self_iff.1 ((List.takeWhile_prefix _).eq_of_length hq)
    unfold firstLexeme at hfirst
    split_ifs at hfirst with hspace hname hdigit hplus <;>
      obtain ⟨rfl, hlength⟩ := Prod.mk.inj hfirst
    · exact .whitespace (List.cons_ne_nil _ _) (List.forall_mem_cons.2
        ⟨isSpace_iff.1 hspace, fun d hd => isSpace_iff.1 (hall hlength d hd)⟩)
    · exact .ident (isNameStart_iff.1 hname) fun d hd => isNameChar_iff.1 (hall hlength d hd)
    · exact .int (List.cons_ne_nil _ _) (List.forall_mem_cons.2
        ⟨isDigit_iff_digit.1 hdigit, fun d hd => isDigit_iff_digit.1 (hall hlength d hd)⟩)
    · obtain ⟨hc, hhead⟩ := Bool.and_eq_true_iff.1 hplus
      obtain rfl := beq_iff_eq.1 hc
      obtain ⟨more, rfl⟩ := List.head?_eq_some_iff.1 (beq_iff_eq.1 hhead)
      obtain rfl : more = [] := by simpa using hlength
      exact .plusPlus
    · obtain rfl := List.eq_nil_of_length_eq_zero hlength.symm
      exact (symbolKind_spec c).resolve_left herror

/-! ### Longest matches -/

theorem eq_zero_of_error (h : (firstLexeme c cs).1 = .errorToken) : (firstLexeme c cs).2 = 0 := by
  unfold firstLexeme at h ⊢
  split_ifs at h ⊢
  rfl

theorem matches_firstLexeme (h : (firstLexeme c cs).1 ≠ .errorToken) :
    Matches (firstLexeme c cs).1 (c :: cs.take (firstLexeme c cs).2) := by
  refine matches_iff.2 ⟨?_, h⟩
  rw [firstLexeme_take (Nat.le_refl _), List.length_take_of_le (firstLexeme_le c cs)]

theorem length_le_of_matches (h : Matches k (c :: u)) (hu : u <+: cs) :
    u.length ≤ (firstLexeme c cs).2 := by
  obtain ⟨rest, rfl⟩ := hu
  by_contra hlonger
  have htake := firstLexeme_take (Nat.le_of_lt (Nat.lt_of_not_le hlonger))
  rw [List.take_left, (matches_iff.1 h).1] at htake
  rw [← htake] at hlonger
  exact hlonger (Nat.le_refl _)

theorem not_matches_of_error (h : (firstLexeme c cs).1 = .errorToken) (hu : u <+: cs) :
    ¬ Matches k (c :: u) := by
  intro hmatch
  have hlength := length_le_of_matches hmatch hu
  rw [eq_zero_of_error h] at hlength
  obtain rfl := List.eq_nil_of_length_eq_zero (Nat.le_zero.1 hlength)
  have htake : firstLexeme c (cs.take 0) = firstLexeme c cs :=
    firstLexeme_take (by rw [eq_zero_of_error h])
  rw [List.take_zero, (matches_iff.1 hmatch).1] at htake
  rw [← htake] at h
  exact (matches_iff.1 hmatch).2 h

theorem begins_iff :
    Begins l (c :: cs) ↔ l = ⟨(firstLexeme c cs).1, c :: cs.take (firstLexeme c cs).2⟩ := by
  have htaken : c :: cs.take (firstLexeme c cs).2 <+: c :: cs :=
    List.cons_prefix_cons.2 ⟨rfl, List.take_prefix _ _⟩
  constructor
  · intro h
    cases h with
    | longest hmatch hprefix hmax =>
      obtain ⟨kind, t⟩ := l
      obtain rfl | ⟨u, rfl, hu⟩ := List.prefix_cons_iff.1 hprefix
      · exact absurd rfl hmatch.ne_nil
      have hmeans : (firstLexeme c cs).1 ≠ .errorToken := fun herror =>
        not_matches_of_error herror hu hmatch
      have hlength : u.length = (firstLexeme c cs).2 := by
        have hle := hmax _ _ (matches_firstLexeme hmeans) htaken
        rw [List.length_cons, List.length_cons, List.length_take_of_le (firstLexeme_le c cs)] at hle
        have hge := length_le_of_matches hmatch hu
        omega
      obtain rfl : u = cs.take (firstLexeme c cs).2 := hlength ▸ List.prefix_iff_eq_take.1 hu
      have hkind := (matches_iff.1 hmatch).1
      rw [firstLexeme_take (Nat.le_refl _)] at hkind
      rw [hkind]
    | error hnone =>
      have herror : (firstLexeme c cs).1 = .errorToken := by
        by_contra hmeans
        exact hnone _ _ (List.cons_ne_nil _ _) htaken (matches_firstLexeme hmeans)
      rw [herror, eq_zero_of_error herror, List.take_zero]
  · rintro rfl
    by_cases herror : (firstLexeme c cs).1 = .errorToken
    · rw [herror, eq_zero_of_error herror, List.take_zero]
      refine .error fun k u hne hprefix => ?_
      obtain rfl | ⟨u, rfl, hu⟩ := List.prefix_cons_iff.1 hprefix
      · exact absurd rfl hne
      · exact not_matches_of_error herror hu
    · refine .longest (matches_firstLexeme herror) htaken fun k u hmatch hprefix => ?_
      obtain rfl | ⟨u, rfl, hu⟩ := List.prefix_cons_iff.1 hprefix
      · exact absurd rfl hmatch.ne_nil
      · rw [List.length_cons, List.length_cons, List.length_take_of_le (firstLexeme_le c cs)]
        exact Nat.succ_le_succ (length_le_of_matches hmatch hu)

/-- The lexeme that the text begins with, seen from its first character. -/
theorem Begins.first (h : Begins l (l.text ++ rest)) :
    ∃ c cs, l.text = c :: cs ∧ firstLexeme c (cs ++ rest) = (l.kind, cs.length) := by
  obtain ⟨kind, t⟩ := l
  cases t with
  | nil =>
    cases h with
    | longest hmatch => exact absurd rfl hmatch.ne_nil
  | cons c cs =>
    refine ⟨c, cs, rfl, ?_⟩
    have hl := begins_iff.1 h
    rw [Lexeme.mk.injEq, List.cons.injEq] at hl
    obtain ⟨hkind, -, hcs⟩ := hl
    have hlength := congrArg List.length hcs
    rw [List.length_take_of_le (firstLexeme_le c _)] at hlength
    exact Prod.ext hkind.symm hlength.symm

theorem munches_lex (s : Text) : Munches s (lex s) := by
  induction s using lex.induct with
  | case1 => rw [lex]; exact .nil
  | case2 c cs kind n hfirst ih =>
    have hsplit : c :: cs.take n ++ cs.drop n = c :: cs := by simp
    have hbegins : Begins ⟨kind, c :: cs.take n⟩ (c :: cs.take n ++ cs.drop n) := by
      rw [hsplit, begins_iff, hfirst]
    have hmunches := Munches.cons hbegins ih
    rw [lex_cons, hfirst]
    rwa [hsplit] at hmunches

theorem munches_iff : Munches s ls ↔ ls = lex s := by
  refine ⟨fun h => ?_, fun h => h ▸ munches_lex s⟩
  induction h with
  | nil => rw [lex]
  | @cons l rest ls hbegins _ ih =>
    obtain ⟨c, cs, htext, hfirst⟩ := hbegins.first
    rw [ih, htext, lex_of_first hfirst, ← htext]

theorem Munches.text_ne_nil (h : Munches s ls) (hl : l ∈ ls) : l.text ≠ [] := by
  induction h with
  | nil => cases hl
  | cons hbegins _ ih =>
    rcases List.mem_cons.1 hl with rfl | hl
    · obtain ⟨c, cs, htext, -⟩ := hbegins.first
      simp [htext]
    · exact ih hl

/-! ### Spaces between lexemes -/

/-- A first lexeme that ends before the end of the text does not depend on what comes after it. -/
theorem firstLexeme_append_of_lt (h : (firstLexeme c cs).2 < cs.length) (rest : Text) :
    firstLexeme c (cs ++ rest) = firstLexeme c cs := by
  have htake : ∀ {q : Char → Bool}, (cs.takeWhile q).length < cs.length →
      (cs ++ rest).takeWhile q = cs.takeWhile q := by
    intro q hq
    rw [List.takeWhile_append, if_neg (Nat.ne_of_lt hq)]
  have hhead : (cs ++ rest).head? = cs.head? :=
    List.head?_append_of_ne_nil cs (List.ne_nil_of_length_pos (Nat.zero_lt_of_lt h))
  unfold firstLexeme at h ⊢
  rw [hhead]
  split_ifs at h ⊢
  · rw [htake h]
  · rw [htake h]
  · rw [htake h]
  · rfl
  · rfl

theorem isSpace_eq_false (h : (firstLexeme c cs).1 ≠ .whitespace) : isSpace c = false := by
  by_contra hc
  rw [Bool.not_eq_false] at hc
  rw [firstLexeme, if_pos hc] at h
  exact h rfl

/-- A lexeme ends where it does if the same character comes after it, or a space, or nothing. -/
theorem Begins.lex_append (h : Begins l (l.text ++ rest)) (hl : l.kind ≠ .whitespace) {other : Text}
    (hother : other.head? = rest.head? ∨ ∀ d ∈ other.head?, isSpace d) :
    lex (l.text ++ other) = l :: lex other := by
  obtain ⟨c, cs, htext, hfirst⟩ := h.first
  have hkept : firstLexeme c (cs ++ other) = (l.kind, cs.length) := by
    rcases hother with hhead | hspace
    · cases rest with
      | nil =>
        rw [List.head?_nil, List.head?_eq_none_iff] at hhead
        rwa [hhead]
      | cons d rest =>
        rw [List.head?_cons] at hhead
        obtain ⟨other, rfl⟩ := List.head?_eq_some_iff.1 hhead
        -- what both have in common shows the end of the lexeme
        have hboth : firstLexeme c (cs ++ [d]) = (l.kind, cs.length) := by
          have htake : firstLexeme c ((cs ++ [d] ++ rest).take (cs ++ [d]).length) =
              firstLexeme c (cs ++ [d] ++ rest) :=
            firstLexeme_take (by simp [hfirst])
          rw [List.take_left] at htake
          simpa [hfirst] using htake
        have happend : firstLexeme c (cs ++ [d] ++ other) = firstLexeme c (cs ++ [d]) :=
          firstLexeme_append_of_lt (by simp [hboth]) other
        rwa [hboth, List.append_assoc] at happend
    · have hc : isSpace c = false := isSpace_eq_false (by rwa [hfirst])
      have htake : firstLexeme c ((cs ++ rest).take cs.length) = firstLexeme c (cs ++ rest) :=
        firstLexeme_take (by rw [hfirst])
      rw [List.take_left, hfirst] at htake
      rw [firstLexeme_append hc hspace, htake]
  rw [htext, lex_of_first hkept, ← htext]

theorem Begins.isSpace_of_mem (h : Begins l t) (hl : l.kind = .whitespace) : ∀ c ∈ l.text, isSpace c := by
  cases h with
  | longest hmatch =>
    rw [hl] at hmatch
    cases hmatch with
    | whitespace _ hall => exact fun c hc => isSpace_iff.2 (hall c hc)
  | error => cases hl

theorem head?_spread {gaps : List Text} (hgaps : ∀ g ∈ gaps, ∀ c ∈ g, isSpace c) (h : Munches s ls) :
    (spread gaps ls).head? = s.head? ∨ ∀ d ∈ (spread gaps ls).head?, isSpace d := by
  cases h with
  | nil =>
    right
    intro d hd
    obtain ⟨g, hg, hd⟩ := List.mem_flatten.1 (List.mem_of_mem_head? hd)
    exact hgaps g hg d hd
  | @cons l rest ls hbegins _ =>
    obtain ⟨c, cs, htext, -⟩ := hbegins.first
    match gaps with
    | [] => simp [spread, htext]
    | [] :: gaps => simp [spread, htext]
    | (d :: g) :: gaps => simp [spread, hgaps (d :: g) (by simp) d (by simp)]

/-- Spaces put between lexemes leave all lexemes but the spaces as they are. -/
theorem filter_lex_spread {gaps : List Text} (hgaps : ∀ g ∈ gaps, ∀ c ∈ g, isSpace c)
    (h : Munches s ls) : (lex (spread gaps ls)).filter (·.kind ≠ .whitespace) =
      ls.filter (·.kind ≠ .whitespace) := by
  induction h generalizing gaps with
  | nil =>
    have hall : ∀ c ∈ gaps.flatten, isSpace c := by
      intro c hc
      obtain ⟨g, hg, hc⟩ := List.mem_flatten.1 hc
      exact hgaps g hg c hc
    have hfilter := filter_lex_spaces hall []
    rwa [List.append_nil, lex] at hfilter
  | @cons l rest ls hbegins hrest ih =>
    have hlexeme : ∀ {gaps : List Text}, (∀ g ∈ gaps, ∀ c ∈ g, isSpace c) →
        (lex (l.text ++ spread gaps ls)).filter (·.kind ≠ .whitespace) =
          (l :: ls).filter (·.kind ≠ .whitespace) := by
      intro gaps hgaps
      by_cases hl : l.kind = .whitespace
      · rw [filter_lex_spaces (hbegins.isSpace_of_mem hl), ih hgaps,
          List.filter_cons_of_neg (by simpa using hl)]
      · rw [hbegins.lex_append hl (head?_spread hgaps hrest),
          List.filter_cons_of_pos (by simpa using hl), List.filter_cons_of_pos (by simpa using hl),
          ih hgaps]
    cases gaps with
    | nil => exact hlexeme hgaps
    | cons g gaps =>
      obtain ⟨hg, hgaps⟩ := List.forall_mem_cons.1 hgaps
      rw [spread, List.append_assoc, filter_lex_spaces hg]
      exact hlexeme hgaps

theorem isSome_read?_iff (h : Decimal.isDigits t) :
    (Decimal.read? t).isSome ↔ Decimal.valueOf t < 9223372036854775808 := by
  rw [Decimal.read?_of_isDigits h, Decimal.fit?]
  split_ifs with hfits
  · exact iff_of_true rfl (by omega)
  · exact iff_of_false (by simp) (by omega)

theorem singleKind?_eq_some_iff : singleKind? t = some k ↔ lex t = [⟨k, t⟩] ∧ k ≠ .whitespace ∧
    k ≠ .errorToken ∧ (k = .int → Decimal.valueOf t < 9223372036854775808) := by
  constructor
  · intro h
    cases t with
    | nil =>
      rw [singleKind?_nil] at h
      cases h
    | cons c cs =>
      obtain ⟨hkind, hlength, hspace, herror⟩ := firstLexeme_of_singleKind? h
      refine ⟨?_, hspace, herror, ?_⟩
      · rw [lex_cons, hkind, List.take_of_length_le hlength, List.drop_of_length_le hlength, lex]
      · rintro rfl
        obtain ⟨hdigits, hread⟩ := singleKind?_eq_int.1 h
        exact (isSome_read?_iff hdigits).1 hread
  · rintro ⟨hlex, hspace, herror, hfits⟩
    refine Lexeme.Whole.singleKind?_eq (l := ⟨k, t⟩) hlex hspace herror ?_
    rintro rfl
    exact (isSome_read?_iff (lex_eq_int_iff.1 ⟨t, hlex⟩)).2 (hfits rfl)

end

/-- Cutting a text loses nothing and leaves no lexeme empty; each lexeme is the longest match at its
place, or one character where nothing matches, and no other way of cutting is like that. Spaces
between the lexemes make no difference to the others. A text is of a single kind if it is one lexeme
with a meaning, which for an integer includes that 64 bits hold it. -/
theorem lex_is_maximal_munch (s : Text) :
    (∀ l ∈ lex s, l.text ≠ []) ∧ ((lex s).map Lexeme.text).flatten = s ∧
    (∀ ls, Munches s ls ↔ ls = lex s) ∧
    (∀ gaps : List Text, (∀ g ∈ gaps, g = [] ∨ Matches .whitespace g) →
      (lex (spread gaps (lex s))).filter (·.kind ≠ .whitespace) =
        (lex s).filter (·.kind ≠ .whitespace)) ∧
    ∀ k, singleKind? s = some k ↔ lex s = [⟨k, s⟩] ∧ k ≠ .whitespace ∧ k ≠ .errorToken ∧
      (k = .int → Decimal.valueOf s < 9223372036854775808) := by
  refine ⟨fun l hl => (munches_lex s).text_ne_nil hl, flatten_lex s, fun ls => munches_iff,
    fun gaps hgaps => filter_lex_spread (fun g hg c hc => ?_) (munches_lex s),
    fun k => singleKind?_eq_some_iff⟩
  rcases hgaps g hg with rfl | hspaces
  · cases hc
  · cases hspaces with
    | whitespace _ hall => exact isSpace_iff.2 (hall c hc)

/-- Symbols that run together, a number that runs into a name, and characters without a pattern. -/
theorem lex_is_maximal_munch_runs :
    let s := "x1+++2y\té$".toList
    lex s = [⟨.ident, ['x', '1']⟩, ⟨.plusPlus, ['+', '+']⟩, ⟨.plus, ['+']⟩, ⟨.int, ['2']⟩,
      ⟨.ident, ['y']⟩, ⟨.whitespace, ['\t']⟩, ⟨.errorToken, ['é']⟩, ⟨.errorToken, ['$']⟩] ∧
    Munches s (lex s) ∧
    spread [[], [' '], ['\r', '\n'], [], [], [' ']] (lex s) = "x1 ++\r\n+2y \té$".toList ∧
    (lex "x1 ++\r\n+2y \té$".toList).filter (·.kind ≠ .whitespace) =
      (lex s).filter (·.kind ≠ .whitespace) ∧
    singleKind? s = none := by
  intro s
  have hlex : lex s = [⟨.ident, ['x', '1']⟩, ⟨.plusPlus, ['+', '+']⟩, ⟨.plus, ['+']⟩, ⟨.int, ['2']⟩,
      ⟨.ident, ['y']⟩, ⟨.whitespace, ['\t']⟩, ⟨.errorToken, ['é']⟩, ⟨.errorToken, ['$']⟩] := by
    decide +kernel
  obtain ⟨-, -, hmunches, hspread, hsingle⟩ := lex_is_maximal_munch s
  have hapart : spread [[], [' '], ['\r', '\n'], [], [], [' ']] (lex s) =
      "x1 ++\r\n+2y \té$".toList := by
    rw [hlex]
    decide
  refine ⟨hlex, (hmunches _).2 rfl, hapart, ?_, ?_⟩
  · rw [← hapart]
    refine hspread _ fun g hg => ?_
    by_cases hne : g = []
    · exact .inl hne
    · refine .inr (.whitespace hne fun c hc => ?_)
      have hall : [[], [' '], ['\r', '\n'], [], [], [' ']].all
        (fun g : Text => g.all fun c => decide (c ∈ [' ', '\t', '\r', '\n'])) := by decide
      exact of_decide_eq_true (List.all_eq_true.1 (List.all_eq_true.1 hall g hg) c hc)
  · refine Option.eq_none_iff_forall_ne_some.2 fun k hk => ?_
    have hone := congrArg List.length ((hsingle k).1 hk).1
    rw [hlex] at hone
    cases hone

end TokenEditor.Expr
