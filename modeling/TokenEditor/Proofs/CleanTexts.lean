import TokenEditor.Proofs.ErrorRuns
import TokenEditor.Proofs.GreedyCuts

/-! # Two ways to cut a clean text

A text of expressions is cut into tokens by its lexemes. Cutting it word by word with the items of the
language comes to the same, if each of its characters can begin or continue a lexeme and its integers
are not too large: the first lexeme of what is left of a word is also its longest beginning for which
there is an item. A longer one would have to be a single lexeme, and the first lexeme of a text does
not depend on how much of it is seen beyond its end.

`cut_lex` says this of one word, in terms of `Item.Cut`. -/

namespace TokenEditor.Expr

/-- Letters, digits and the underscore, the symbols, and the spaces that separate lexemes. -/
def isClean (c : Char) : Bool :=
  isNameChar c || c ∈ ['+', '*', '!', '.', '(', ')'] || isSpace c

section
variable {c : Char} {cs t w rest : Text} {l : Lexeme} {k : Kind} {cells : Cells}

theorem isBlank_of_isNameChar (h : isNameChar c) : Text.isBlank c = false := by
  have hn : 48 ≤ c.toNat ∧ c.toNat < 128 := by
    simp only [isNameChar, Char.isAlphanum, Bool.or_eq_true, Text.isAlpha_iff, isDigit_iff,
      beq_iff_eq] at h
    rcases h with (h | h) | rfl
    · omega
    · omega
    · decide
  simp [Text.isBlank]
  omega

theorem isBlank_of_isClean (h : isClean c) : Text.isBlank c = isSpace c := by
  simp only [isClean, Bool.or_eq_true, decide_eq_true_iff] at h
  rcases h with (hname | hsymbol) | hspace
  · rw [isBlank_of_isNameChar hname, isSpace_of_isNameChar hname]
  · have hall : ['+', '*', '!', '.', '(', ')'].all (fun d => Text.isBlank d == isSpace d) := by decide
    exact beq_iff_eq.1 (List.all_eq_true.1 hall c hsymbol)
  · have hall : [' ', '\t', '\r', '\n'].all (fun d => Text.isBlank d == isSpace d) := by decide
    exact beq_iff_eq.1 (List.all_eq_true.1 hall c (by simpa [isSpace, or_assoc] using hspace))

theorem mem_of_mem_lex (hl : l ∈ lex t) (hc : c ∈ l.text) : c ∈ t := by
  rw [← flatten_lex t]
  exact List.mem_flatten_of_mem (List.mem_map_of_mem hl) hc

theorem kind_ne_error_of_clean (h : ∀ c ∈ t, isClean c) (hl : l ∈ lex t) : l.kind ≠ .errorToken := by
  obtain ⟨c, cs, rfl, -⟩ := (whole_of_mem_lex hl).first
  have hc := h c (mem_of_mem_lex hl (by simp))
  simp only [isClean, isNameChar, Char.isAlphanum, Bool.or_eq_true, decide_eq_true_iff] at hc
  unfold firstLexeme
  split_ifs with hspace hname hdigit
  · simp
  · simp
  · simp
  · simp
  · have hall : ['+', '*', '!', '.', '(', ')'].all (symbolKind · != .errorToken) := by decide
    refine bne_iff_ne.1 (List.all_eq_true.1 hall c ?_)
    simp only [isNameStart, Bool.or_eq_true, not_or] at hname
    tauto

theorem firstLexeme_le (c : Char) (cs : Text) : (firstLexeme c cs).2 ≤ cs.length := by
  unfold firstLexeme
  split_ifs with _ _ _ hplus
  · exact (List.takeWhile_prefix _).length_le
  · exact (List.takeWhile_prefix _).length_le
  · exact (List.takeWhile_prefix _).length_le
  · obtain ⟨rest, rfl⟩ := List.head?_eq_some_iff.1 (beq_iff_eq.1 (Bool.and_eq_true_iff.1 hplus).2)
    simp
  · exact Nat.zero_le _

/-- No lexeme goes on into spaces. -/
theorem firstLexeme_append (hc : isSpace c = false) (hrest : ∀ d ∈ rest.head?, isSpace d) :
    firstLexeme c (cs ++ rest) = firstLexeme c cs := by
  have htake : ∀ {q : Char → Bool}, (∀ d, q d → isSpace d = false) →
      (cs ++ rest).takeWhile q = cs.takeWhile q := by
    intro q hq
    have hstop : rest.takeWhile q = [] := by
      cases rest with
      | nil => rfl
      | cons d rest =>
        refine List.takeWhile_cons_of_neg fun hd => ?_
        simpa [hq d hd] using hrest d rfl
    rw [List.takeWhile_append, hstop, List.append_nil]
    split_ifs with hall
    · exact ((List.takeWhile_prefix q).eq_of_length hall).symm
    · rfl
  have hplus : ((cs ++ rest).head? == some '+') = (cs.head? == some '+') := by
    cases cs with
    | cons => rfl
    | nil =>
      cases rest with
      | nil => rfl
      | cons d rest =>
        have hd : d ≠ '+' := by
          rintro rfl
          simpa [isSpace] using hrest '+' rfl
        simpa using hd
  simp only [firstLexeme, hc, Bool.false_eq_true, if_false, hplus,
    htake fun _ => isSpace_of_isNameChar, htake fun _ => isSpace_of_isDigit]

theorem lex_append (hw : ∀ c ∈ w, isSpace c = false) (hrest : ∀ d ∈ rest.head?, isSpace d) :
    lex (w ++ rest) = lex w ++ lex rest := by
  fun_induction lex w with
  | case1 => rfl
  | case2 c cs kind n hfirst ih =>
    obtain ⟨hc, hcs⟩ := List.forall_mem_cons.1 hw
    have hn : n ≤ cs.length := by simpa [hfirst] using firstLexeme_le c cs
    rw [List.cons_append, lex_cons, firstLexeme_append hc hrest, hfirst,
      List.take_append_of_le_length hn, List.drop_append_of_le_length hn,
      ih fun d hd => hcs d (List.mem_of_mem_drop hd)]
    rfl

/-! ### Items for lexemes -/

theorem fails_of_singleKind? (h : singleKind? t = none) (cells : Cells) :
    Item.Fails tokenItems cells t cells := by
  have hv : t ≠ valueWord := by
    rintro rfl
    rw [singleKind?_valueWord] at h
    cases h
  refine .unmatched fun i hi => ?_
  rw [← Item.matching_eq_singleton, matching_of_none h hv] at hi
  cases hi

theorem sole_valueWord :
    Item.Sole tokenItems valueWord (.exact valueWord fun _ _ => newText []) := by
  have hmap := accepts_tokenItems_or_word valueWord
  simp only [singleKind?_valueWord, tokenItems, List.map_cons, List.map_nil, List.cons_append,
    List.nil_append, List.cons.injEq, and_true] at hmap
  obtain ⟨h₁, h₂, h₃, h₄, h₅, h₆, h₇, h₈, h₉, h₁₀⟩ := hmap
  rw [← Item.matching_eq_singleton]
  simp only [Item.matching, tokenItems, List.filter_cons, h₁, h₂, h₃, h₄, h₅, h₆, h₇, h₈, h₉, h₁₀,
    List.filter_nil]
  rfl

/-- The item for a lexeme makes the token of the lexeme. -/
theorem resolves_of_singleKind? (h : singleKind? l.text = some l.kind) (cells : Cells) :
    ∃ tok after, (tokenOf? l).run cells = (some tok, after) ∧
      Item.Resolves tokenItems cells l.text [tok] after := by
  rw [tokenOf?_of_singleKind? h]
  split_ifs with hv
  · rw [hv]
    exact ⟨_, _, rfl, _, sole_valueWord, List.cons_ne_nil _ _, rfl⟩
  · have hfor : tokenFor? false l.text = some (tokenOfKind false l.kind l.text) :=
      tokenFor?_eq_some.2 ⟨hv, l.kind, h, rfl⟩
    obtain ⟨i, hi, heffect⟩ := matching_of_tokenFor? hfor
    refine ⟨_, cells, rfl, i, Item.matching_eq_singleton.1 hi, List.cons_ne_nil _ _, ?_⟩
    rw [Item.captured, heffect .nowhere rfl]
    rfl

theorem singleKind?_of_longer {n : Nat} (hn : (firstLexeme c cs).2 < n) (hlength : n ≤ cs.length) :
    singleKind? (c :: cs.take n) = none := by
  rw [Option.eq_none_iff_forall_ne_some]
  intro k hk
  have hall := (firstLexeme_of_singleKind? hk).2.1
  rw [firstLexeme_take (Nat.le_of_lt hn), List.length_take_of_le hlength] at hall
  exact absurd hn (Nat.not_lt.2 hall)

/-- A word of lexemes that can be read is cut into their tokens, the same way with the items. -/
theorem cut_lex (h : ∀ l ∈ lex w, l.kind ≠ .whitespace ∧ ¬ l.Unreadable) (cells : Cells) :
    ∃ ts after, Item.Cut tokenItems cells w ts after ∧
      ∀ {ls : List Lexeme} {out : List (Token Expr)} {final : Cells},
        (tokensOf [] ls).run after = (out, final) →
        (tokensOf [] (lex w ++ ls)).run cells = (ts ++ out, final) := by
  induction w using lex.induct generalizing cells with
  | case1 => exact ⟨[], cells, .done, fun hrun => by simpa [lex] using hrun⟩
  | case2 c cs kind n hfirst ih =>
    rw [lex_cons, hfirst] at h ⊢
    obtain ⟨⟨hspace, hbad⟩, hrest⟩ := List.forall_mem_cons.1 h
    have hwhole : Lexeme.Whole ⟨kind, c :: cs.take n⟩ :=
      whole_of_mem_lex (t := c :: cs) (by rw [lex_cons, hfirst]; exact List.mem_cons_self)
    have hsingle := hwhole.singleKind?_eq hspace (fun hk => hbad (.inl hk)) fun hk =>
      Option.isSome_iff_ne_none.2 fun hnone => hbad (.inr ⟨hk, hnone⟩)
    obtain ⟨tok, mid, hrun, hresolves⟩ := resolves_of_singleKind? hsingle cells
    obtain ⟨ts, after, hcut, hout⟩ := ih hrest mid
    refine ⟨tok :: ts, after, ?_, fun hls => ?_⟩
    · have hn : n ≤ cs.length := by simpa [hfirst] using firstLexeme_le c cs
      rw [← List.take_append_drop n cs, ← List.cons_append, ← List.singleton_append]
      refine .piece (List.cons_ne_nil _ _) ?_ hresolves hcut
      rw [List.cons_append, List.take_append_drop]
      refine Item.failsAll_of_fails fun u hu => ?_
      obtain ⟨k, hk, hlength, rfl⟩ := Item.mem_longer.1 hu
      rw [List.length_cons, List.length_take_of_le hn] at hk
      obtain ⟨m, rfl⟩ := Nat.exists_eq_add_of_lt (Nat.zero_lt_of_lt hk)
      rw [Nat.zero_add, List.take_succ_cons]
      refine fails_of_singleKind? (singleKind?_of_longer ?_ (Nat.le_of_succ_le_succ ?_)) cells
      · rw [hfirst]
        omega
      · simpa using hlength
    · exact run_tokensOf_token hspace hrun (hout hls)

theorem filter_lex_spaces {g : Text} (hg : ∀ c ∈ g, isSpace c) (t : Text) :
    (lex (g ++ t)).filter (·.kind ≠ .whitespace) = (lex t).filter (·.kind ≠ .whitespace) := by
  induction g with
  | nil => rfl
  | cons c g ih =>
    obtain ⟨hc, hg⟩ := List.forall_mem_cons.1 hg
    rw [← ih hg, List.cons_append, lex_space hc, List.filter_cons_of_neg (by simp)]
    cases g ++ t with
    | nil => rfl
    | cons d rest =>
      by_cases hd : isSpace d
      · rw [List.dropWhile_cons_of_pos hd, lex_space hd, List.filter_cons_of_neg (by simp)]
      · rw [List.dropWhile_cons_of_neg hd]

theorem mem_lex_of_isSpace (hc : isSpace c) (hl : l ∈ lex t) (hk : l.kind ≠ .whitespace) :
    l ∈ lex (c :: t) := by
  have hspace : ∀ d ∈ [c], isSpace d := by simpa using hc
  have hfilter := filter_lex_spaces hspace t
  have hmem : l ∈ (lex t).filter (·.kind ≠ .whitespace) := List.mem_filter.2 ⟨hl, by simpa using hk⟩
  rw [← hfilter] at hmem
  exact (List.mem_filter.1 hmem).1

theorem cutAll_lex {ws : List Text} (h : Text.Spaced t ws) (hclean : ∀ c ∈ t, isClean c)
    (hfits : ∀ l ∈ lex t, l.kind = .int → (Decimal.read? l.text).isSome) (cells : Cells) :
    ∃ ts after, (tokensOf [] (lex t)).run cells = (ts, after) ∧
      Item.CutAll tokenItems cells ws ts after := by
  induction h generalizing cells with
  | nil => exact ⟨[], cells, by rw [lex]; rfl, .nil⟩
  | @blank c t ws hblank _ ih =>
    obtain ⟨hc, hclean⟩ := List.forall_mem_cons.1 hclean
    have hspace : isSpace c := isBlank_of_isClean hc ▸ hblank
    rw [tokensOf_lex_space hspace]
    refine ih hclean (fun l hl hint => hfits l (mem_lex_of_isSpace hspace hl ?_) hint) cells
    simp [hint]
  | @word w t ws _ hword ht _ ih =>
    obtain ⟨hcleanw, hcleant⟩ := List.forall_mem_append.1 hclean
    have hw : ∀ c ∈ w, isSpace c = false := fun c hc =>
      isBlank_of_isClean (hcleanw c hc) ▸ hword c hc
    have hhead : ∀ c ∈ t.head?, isSpace c := fun c hc =>
      isBlank_of_isClean (hcleant c (List.mem_of_mem_head? hc)) ▸ ht c hc
    have happend := lex_append hw hhead
    rw [happend] at hfits ⊢
    obtain ⟨hfitsw, hfitst⟩ := List.forall_mem_append.1 hfits
    have hreadable : ∀ l ∈ lex w, l.kind ≠ .whitespace ∧ ¬ l.Unreadable := by
      intro l hl
      refine ⟨fun hk => ?_, ?_⟩
      · obtain ⟨c, cs, rfl, -⟩ := (whole_of_mem_lex hl).first
        have hc := (whole_of_mem_lex hl).isSpace_eq (c := c) (by simp)
        rw [hw c (mem_of_mem_lex hl (by simp)), hk] at hc
        cases hc
      · rintro (hk | ⟨hk, hnone⟩)
        · exact kind_ne_error_of_clean hcleanw hl hk
        · simpa [hnone] using hfitsw l hl hk
    obtain ⟨ts, mid, hcut, hout⟩ := cut_lex hreadable cells
    obtain ⟨out, after, hrun, hcuts⟩ := ih hcleant hfitst mid
    exact ⟨ts ++ out, after, hout hrun, .cons hcut hcuts⟩

end

/-- On clean texts without integers that are too large, cutting by lexemes and cutting with the items
of the language give the same tokens and make the same cells. -/
theorem tokenize_eq_with_items (p : Precedence) {t : Text} (hclean : ∀ c ∈ t, isClean c)
    (hfits : ∀ l ∈ lex t, l.kind = .int → (Decimal.read? l.text).isSome) (cells : Cells) :
    (language p).tokenize t = Item.tokenize ((language p).looseItems cells) t := by
  refine StateT.ext fun store => ?_
  obtain ⟨ts, after, hrun, hcuts⟩ := cutAll_lex (Text.spaced_words t) hclean hfits store
  exact hrun.trans (Item.cutWords_iff.2 hcuts).symm

/-- Names, the word for a new text and a name that begins with it, symbols that run together, a number
that runs into a name, and the largest number there is. -/
theorem tokenize_eq_with_items_mixed :
    let t := "value+valuex+++9223372036854775807ab\t(1)!.\r\n**".toList
    (∀ c ∈ t, isClean c) ∧ (language {}).tokenize t = Item.tokenize ((language {}).looseItems {}) t ∧
      (((language {}).tokenize t).run {}).1.map (Token.text {}) =
        ["\"\"", "+", "valuex", "++", "+", "9223372036854775807", "ab", "(", "1", ")", "!", ".", "*",
          "*"].map String.toList := by
  intro t
  have hclean : ∀ c ∈ t, isClean c := List.all_eq_true.1 (by decide +kernel)
  exact ⟨hclean, tokenize_eq_with_items {} hclean (by decide +kernel) {}, by decide +kernel⟩

end TokenEditor.Expr
