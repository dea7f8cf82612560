import TokenEditor.Proofs.Structural

/-! # Reading and printing sums

The sum language does not see which cells hold the texts of its notes (`language_structural`). A row
whose only values are notes reads as a sum that prints with as many tokens (`length_row_of_parse`);
every print is such a row. -/

namespace TokenEditor.Sum
variable {cells : Cells} {style : Style} {t u : Token Sum} {ts us : List (Token Sum)} {e e' : Sum}
  {es : List Sum}

theorem eq_or_values_of_same (h : t.same cells u) :
    t = u ∨ ∃ v w, t = .value v ∧ u = .value w ∧ v.same cells w := by
  cases t <;> cases u
  case value.value v w => exact .inr ⟨v, w, rfl, rfl, h⟩
  all_goals first
    | exact absurd h Bool.false_ne_true
    | exact .inl (by simpa [Token.same] using h)

theorem isInc_of_same (h : t.same cells u) : isInc t = isInc u := by
  obtain rfl | ⟨v, w, rfl, rfl, -⟩ := eq_or_values_of_same h <;> rfl

theorem isPlus_of_same (h : t.same cells u) : isPlus t = isPlus u := by
  obtain rfl | ⟨v, w, rfl, rfl, -⟩ := eq_or_values_of_same h <;> rfl

theorem atom?_same (h : t.same cells u) (he : atom? t = some e) :
    ∃ e', atom? u = some e' ∧ e.same cells e' := by
  obtain rfl | ⟨v, w, rfl, rfl, hvw⟩ := eq_or_values_of_same h
  · exact ⟨e, he, same_refl cells e⟩
  · cases he
    exact ⟨w, rfl, hvw⟩

theorem increments_same (he : e.same cells e') (h : SameRow cells ts us) :
    (increments e ts).1.same cells (increments e' us).1 ∧
      SameRow cells (increments e ts).2 (increments e' us).2 := by
  induction h generalizing e e' with
  | nil => exact ⟨he, .nil⟩
  | @cons t u ts us htu hrest ih =>
    rw [increments, increments, ← isInc_of_same htu]
    split
    · exact ih (e := inc e) he
    · exact ⟨he, .cons htu hrest⟩

theorem terms?_of_last (he : atom? t = some e) (h : increments e ts = (e', [])) :
    terms? (t :: ts) = some [e'] := by
  rw [terms?, he]
  simp only
  split <;> simp_all

theorem terms?_of_plus {rest : List (Token Sum)} (he : atom? t = some e)
    (h : increments e ts = (e', u :: rest)) (hu : isPlus u) :
    terms? (t :: ts) = (terms? rest).map (e' :: ·) := by
  rw [terms?, he]
  simp only
  split <;> simp_all

theorem terms?_same (h : SameRow cells ts us) (hes : terms? ts = some es) :
    ∃ es', terms? us = some es' ∧ sameAll cells es es' := by
  fun_induction terms? ts generalizing us es with
  | case1 => cases hes
  | case2 => cases hes
  | case3 t ts e he e₁ hinc =>
    cases hes
    obtain ⟨u, us, htu, hrest, rfl⟩ := List.forall₂_cons_left_iff.1 h
    obtain ⟨e', he', hsame⟩ := atom?_same htu he
    obtain ⟨hfirst, hleft⟩ := increments_same hsame hrest
    rw [hinc] at hfirst hleft
    refine ⟨[(increments e' us).1], terms?_of_last he' (Prod.ext rfl ?_), ?_⟩
    · exact List.forall₂_nil_left_iff.1 hleft
    · simpa [sameAll] using hfirst
  | case4 t ts e he e₁ plus rest hinc hplus ih =>
    obtain ⟨es, hterms, rfl⟩ := Option.map_eq_some_iff.1 hes
    obtain ⟨u, us, htu, hrest, rfl⟩ := List.forall₂_cons_left_iff.1 h
    obtain ⟨e', he', hsame⟩ := atom?_same htu he
    obtain ⟨hfirst, hleft⟩ := increments_same hsame hrest
    rw [hinc] at hfirst hleft
    obtain ⟨plus', rest', hplus', hrest', hsplit⟩ := List.forall₂_cons_left_iff.1 hleft
    obtain ⟨es', hterms', hes'⟩ := ih hrest' hterms
    refine ⟨(increments e' us).1 :: es', ?_, ?_⟩
    · rw [terms?_of_plus he' (Prod.ext rfl hsplit) (isPlus_of_same hplus' ▸ hplus), hterms']
      rfl
    · exact Bool.and_eq_true_iff.2 ⟨hfirst, hes'⟩
  | case5 => cases hes

/-- A single term, or the sum of several. -/
def total : List Sum → Sum
  | [e] => e
  | es => add es

theorem parse_eq (ts : List (Token Sum)) : parse ts = (terms? ts).map total := by
  rw [parse]
  match terms? ts with
  | none | some [] | some [_] | some (_ :: _ :: _) => rfl

theorem total_same {es' : List Sum} (h : sameAll cells es es') :
    (total es).same cells (total es') := by
  match es, es', h with
  | [], [], _ => rfl
  | [_], [_], h => simpa [total, sameAll] using h
  | _ :: _ :: _, _ :: _ :: _, h => exact h
  | [], _ :: _, h | _ :: _, [], h | [_], _ :: _ :: _, h | _ :: _ :: _, [_], h => simp [sameAll] at h

theorem parse_same (h : SameRow cells ts us) (he : parse ts = some e) :
    ∃ e', parse us = some e' ∧ e.same cells e' := by
  rw [parse_eq] at he
  obtain ⟨es, hes, rfl⟩ := Option.map_eq_some_iff.1 he
  obtain ⟨es', hes', hsame⟩ := terms?_same h hes
  exact ⟨total es', by rw [parse_eq, hes']; rfl, total_same hsame⟩

theorem language_structural (hs : style.dropLast = false) : (language style).Structural where
  parse_keeps _ _ := rfl
  parse_same := parse_same
  parse_has hts h := (language_linear hs).parse_cells h ▸ hts
  print_keeps _ _ := rfl
  print_has {cells e} h := ((language_linear hs).print_cells cells e).symm ▸ h

/-- The tokens that a sum is printed with. -/
def row (style : Style) (e : Sum) : List (Token Sum) :=
  (e.printSteps style).filterMap PrintStep.token?

/-- The tokens of several terms, with a plus between neighbours. -/
def rowAll (style : Style) (es : List Sum) : List (Token Sum) :=
  (printTerms style es).filterMap PrintStep.token?

theorem printed_tokens (style : Style) (cells : Cells) (e : Sum) :
    ((language style).printed cells e).tokens = e.row style := rfl

@[simp] theorem row_inc : (inc e).row style = e.row style ++ [incToken] := by
  simp [row, printSteps, List.filterMap_cons, PrintStep.token?]

theorem rowAll_singleton (hs : style.dropLast = false) : rowAll style [e] = e.row style := by
  simp [rowAll, row, printTerms, hs, List.filterMap_cons, PrintStep.token?]

theorem rowAll_cons_cons :
    rowAll style (e :: e' :: es) = e.row style ++ plusToken :: rowAll style (e' :: es) := by
  simp [rowAll, row, printTerms, List.filterMap_cons, PrintStep.token?]

mutual

theorem sameRow_row (style : Style) :
    ∀ a b : Sum, a.same cells b → SameRow cells (a.row style) (b.row style)
  | num _, b, h | var _, b, h => by
    cases b <;> simp_all [same]
    exact SameRow.refl cells _
  | note c, b, h => by
    cases b with
    | note d => exact .cons h .nil
    | _ => simp [same] at h
  | inc a, b, h => by
    cases b with
    | inc b =>
      rw [row_inc, row_inc]
      exact (sameRow_row style a b h).append (SameRow.refl cells _)
    | _ => simp [same] at h
  | add as, b, h => by
    cases b with
    | add bs => exact sameRow_rowAll style as bs h
    | _ => simp [same] at h

theorem sameRow_rowAll (style : Style) :
    ∀ as bs : List Sum, sameAll cells as bs → SameRow cells (rowAll style as) (rowAll style bs)
  | [], [], _ => .nil
  | [], _ :: _, h | _ :: _, [], h => by simp [sameAll] at h
  | [a], [b], h => by
    have hab : a.same cells b := by simpa [sameAll] using h
    cases hs : style.dropLast with
    | true => simp [rowAll, printTerms, hs, SameRow]
    | false =>
      rw [rowAll_singleton hs, rowAll_singleton hs]
      exact sameRow_row style a b hab
  | [a], b :: b' :: bs, h | a :: a' :: as, [b], h => by simp [sameAll] at h
  | a :: a' :: as, b :: b' :: bs, h => by
    obtain ⟨ha, has⟩ := Bool.and_eq_true_iff.1 h
    rw [rowAll_cons_cons, rowAll_cons_cons]
    exact (sameRow_row style a b ha).append
      (.cons (Token.same_refl cells plusToken) (sameRow_rowAll style (a' :: as) (b' :: bs) has))

end

/-- No value but a note is embedded. -/
def embedsNote : Token Sum → Bool
  | .value (note _) => true
  | .value _ => false
  | _ => true

mutual

theorem embedsNote_row (style : Style) : ∀ e : Sum, ∀ t ∈ e.row style, embedsNote t
  | num _ | var _ | note _ => by simp [row, printSteps, PrintStep.token?, embedsNote, Token.plain]
  | inc e => by
    have h := embedsNote_row style e
    simp only [row_inc, List.mem_append, List.mem_singleton]
    rintro t (ht | rfl)
    · exact h t ht
    · rfl
  | add es => embedsNote_rowAll style es

theorem embedsNote_rowAll (style : Style) : ∀ es : List Sum, ∀ t ∈ rowAll style es, embedsNote t
  | [] => by simp [rowAll, printTerms]
  | [e] => by
    have h := embedsNote_row style e
    cases hs : style.dropLast with
    | false => rwa [rowAll_singleton hs]
    | true => simp [rowAll, printTerms, hs]
  | e :: e' :: es => by
    have h := embedsNote_row style e
    have h' := embedsNote_rowAll style (e' :: es)
    simp only [rowAll_cons_cons, List.mem_append, List.mem_cons]
    rintro t (ht | rfl | ht)
    · exact h t ht
    · rfl
    · exact h' t ht

end

theorem length_row_of_atom? (style : Style) (ht : embedsNote t) (h : atom? t = some e) :
    (e.row style).length = 1 := by
  cases t with
  | value v =>
    cases h
    cases e <;> first | rfl | exact absurd ht Bool.false_ne_true
  | identifier name => cases h; rfl
  | simple text glue =>
    simp only [atom?] at h
    split at h
    · obtain ⟨n, -, rfl⟩ := Option.map_eq_some_iff.1 h
      rfl
    · cases h
  | _ => cases h

theorem length_row_increments (style : Style) (e : Sum) (ts : List (Token Sum)) :
    ((increments e ts).1.row style).length + (increments e ts).2.length =
      (e.row style).length + ts.length := by
  fun_induction increments e ts with
  | case1 => rfl
  | case2 e t ts h ih =>
    rw [ih, row_inc]
    simp only [List.length_append, List.length_cons, List.length_nil]
    omega
  | case3 => rfl

theorem mem_of_mem_increments (h : t ∈ (increments e ts).2) : t ∈ ts := by
  fun_induction increments e ts with
  | case1 => exact h
  | case2 e u ts hu ih => exact List.mem_cons_of_mem u (ih h)
  | case3 => exact h

theorem length_rowAll_of_terms? (hs : style.dropLast = false) (hts : ∀ t ∈ ts, embedsNote t)
    (h : terms? ts = some es) : es ≠ [] ∧ (rowAll style es).length = ts.length := by
  fun_induction terms? ts generalizing es with
  | case1 => cases h
  | case2 => cases h
  | case3 t ts e he e' hinc =>
    cases h
    have hfirst := length_row_of_atom? style (hts t (by simp)) he
    have hlen := length_row_increments style e ts
    simp only [hinc, List.length_nil] at hlen
    rw [rowAll_singleton hs, List.length_cons]
    exact ⟨by simp, by omega⟩
  | case4 t ts e he e' plus rest hinc hplus ih =>
    obtain ⟨es', hterms, rfl⟩ := Option.map_eq_some_iff.1 h
    have hfirst := length_row_of_atom? style (hts t (by simp)) he
    have hlen := length_row_increments style e ts
    have hrest : ∀ u ∈ rest, embedsNote u := fun u hu =>
      hts u (List.mem_cons_of_mem t (mem_of_mem_increments (e := e) (by simp [hinc, hu])))
    obtain ⟨hne, hih⟩ := ih hrest hterms
    obtain ⟨e₁, es₁, rfl⟩ := List.exists_cons_of_ne_nil hne
    simp only [hinc, List.length_cons] at hlen
    rw [rowAll_cons_cons, List.length_append, List.length_cons, List.length_cons]
    exact ⟨by simp, by omega⟩
  | case5 => cases h

/-- What is read from a row in which at most notes are embedded prints with as many tokens. -/
theorem length_row_of_parse (hs : style.dropLast = false) (hts : ∀ t ∈ ts, embedsNote t)
    (h : parse ts = some e) : (e.row style).length = ts.length := by
  rw [parse_eq] at h
  obtain ⟨es, hes, rfl⟩ := Option.map_eq_some_iff.1 h
  obtain ⟨-, hlen⟩ := length_rowAll_of_terms? hs hts hes
  rw [← hlen]
  match es with
  | [e] => rw [total, rowAll_singleton hs]
  | [] | _ :: _ :: _ => rfl

end TokenEditor.Sum
