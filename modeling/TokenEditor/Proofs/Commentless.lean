import TokenEditor.Proofs.Inverse

/-! # Languages without comments

Comments are for the row only: neither language can read one or prints one, and no item puts one in.
The same goes for error tokens in a row that is read. Both readers take nothing but tokens of the
language, and of a row that reads they take everything. -/

namespace TokenEditor

/-- The token is neither a comment nor an error. -/
def Token.Legible {V : Type} (t : Token V) : Prop :=
  t.isComment = false ∧ t.isError = false

/-- A language that has no use for comments and offers the same items everywhere. -/
structure Language.Commentless {V : Type} (l : Language V) : Prop where
  reads : ∀ {cells ts v}, l.parse cells ts = some v → ∀ t ∈ ts, t.Legible
  prints : ∀ cells v, ∀ t ∈ (l.printed cells v).tokens, t.isComment = false
  items : ∀ cells context params, l.tokenItems cells context params = l.tokenItems {} .nowhere .typing
  puts : ∀ i ∈ l.tokenItems {} .nowhere .typing, ∀ scope t cells, ∃ removals new,
    ((i.effect scope t).run cells).1 = .plain removals (some new) ∧
      ∀ u ∈ new.tokens, u.isComment = false

namespace Expr
variable {p : Precedence} {cells : Cells} {t : Token Expr} {ts us rest : List (Token Expr)} {e e' : Expr}
  {fuel least : Nat}

/-- What comes before `rest` in the row are tokens of the language. -/
def Consumes (ts rest : List (Token Expr)) : Prop :=
  ∃ taken, ts = taken ++ rest ∧ ∀ t ∈ taken, tokenKind t ≠ .errorToken

namespace Consumes

theorem refl (ts : List (Token Expr)) : Consumes ts ts :=
  ⟨[], rfl, by simp⟩

theorem trans (h : Consumes ts us) (h' : Consumes us rest) : Consumes ts rest := by
  obtain ⟨taken, rfl, ht⟩ := h
  obtain ⟨taken', rfl, ht'⟩ := h'
  refine ⟨taken ++ taken', by simp, fun t hmem => ?_⟩
  exact (List.mem_append.1 hmem).elim (ht t) (ht' t)

theorem cons (ht : tokenKind t ≠ .errorToken) (h : Consumes ts rest) : Consumes (t :: ts) rest := by
  obtain ⟨taken, rfl, htaken⟩ := h
  exact ⟨t :: taken, rfl, List.forall_mem_cons.2 ⟨ht, htaken⟩⟩

end Consumes

theorem consumes_afterClose? (h : afterClose? ts = some rest) : Consumes ts rest := by
  obtain ⟨t, rfl, ht⟩ := afterClose?_eq_some h
  exact .cons (by simp [ht]) (.refl _)

theorem consumes_readPostfix (h : readPostfix cells e ts = some (e', rest)) : Consumes ts rest := by
  fun_induction readPostfix cells e ts with
  | case1 =>
    cases h
    exact .refl _
  | case2 e t ts hk ih => exact .cons (by simp [hk]) (ih h)
  | case3 e t ts hk ih => exact .cons (by simp [hk]) (ih h)
  | case4 e t hk n ts hn ih => exact .cons (by simp [hk]) (.cons (by simp [hn]) (ih h))
  | case5 => cases h
  | case6 => cases h
  | case7 =>
    cases h
    exact .refl _

/-- All rules of the reader take tokens of the language. -/
structure ReadsLanguage (p : Precedence) (cells : Cells) (fuel : Nat) : Prop where
  expr : ∀ {least ts e rest}, readExpr p cells fuel least ts = some (e, rest) → Consumes ts rest
  climb : ∀ {least e₀ ts e rest}, readClimb p cells fuel least e₀ ts = some (e, rest) →
    Consumes ts rest
  atom : ∀ {ts e rest}, readAtom p cells fuel ts = some (e, rest) → Consumes ts rest
  operand : ∀ {ts e rest}, readOperand p cells fuel ts = some (e, rest) → Consumes ts rest

namespace ReadsLanguage

theorem expr_succ (h : ReadsLanguage p cells fuel)
    (hr : readExpr p cells (fuel + 1) least ts = some (e, rest)) : Consumes ts rest := by
  rw [readExpr.eq_def] at hr
  dsimp only at hr
  split at hr
  · cases hr
  · rename_i ha
    split at hr
    · cases hr
    · rename_i hb
      exact (h.atom ha).trans ((consumes_readPostfix hb).trans (h.climb hr))

theorem climb_succ (h : ReadsLanguage p cells fuel)
    (hr : readClimb p cells (fuel + 1) least e' ts = some (e, rest)) : Consumes ts rest := by
  cases ts with
  | nil =>
    simp only [readClimb, Option.some.injEq, Prod.mk.injEq] at hr
    exact hr.2 ▸ .refl _
  | cons t ts =>
    rw [readClimb.eq_def] at hr
    dsimp only at hr
    split at hr
    · cases hr
      exact .refl _
    split at hr
    · cases hr
      exact .refl _
    split at hr
    · cases hr
    rename_i h₁
    split at hr
    · cases hr
    · rename_i hj
      -- only a plus or a star joins two operands
      have hk : tokenKind t ≠ .errorToken := by
        intro hk
        rw [hk] at hj
        cases hj
      exact .cons hk ((h.expr h₁).trans (h.climb hr))

theorem bracketed (h : ReadsLanguage p cells fuel) (ha : readOperand p cells fuel ts = some (e, us))
    (hclose : afterClose? us = some rest) : Consumes ts rest :=
  (h.operand ha).trans (consumes_afterClose? hclose)

theorem atom_succ (h : ReadsLanguage p cells fuel)
    (hr : readAtom p cells (fuel + 1) ts = some (e, rest)) : Consumes ts rest := by
  cases ts with
  | nil => simp [readAtom] at hr
  | cons t ts =>
    rw [readAtom.eq_def] at hr
    dsimp only at hr
    split at hr
    · rename_i hk
      refine .cons (by simp [hk]) ?_
      split at hr
      · split at hr
        · rename_i hm
          refine .cons (by simp [hm]) ?_
          split at hr
          · rename_i hclose
            cases hr
            exact consumes_afterClose? hclose
          · split at hr
            · cases hr
            · rename_i ha
              simp only [Option.map_eq_some_iff, Prod.mk.injEq] at hr
              obtain ⟨_, hclose, -, rfl⟩ := hr
              exact h.bracketed ha hclose
        · cases hr
          exact .refl _
      · cases hr
        exact .refl _
    · rename_i hk
      simp only [Option.map_eq_some_iff, Prod.mk.injEq] at hr
      obtain ⟨_, -, -, rfl⟩ := hr
      exact .cons (by simp [hk]) (.refl _)
    · rename_i hk
      simp only [Option.map_eq_some_iff, Prod.mk.injEq] at hr
      obtain ⟨_, -, -, rfl⟩ := hr
      exact .cons (by simp [hk]) (.refl _)
    · rename_i hk
      refine .cons (by simp [hk]) ?_
      split at hr
      · cases hr
      · rename_i ha
        simp only [Option.map_eq_some_iff, Prod.mk.injEq] at hr
        obtain ⟨_, hclose, -, rfl⟩ := hr
        exact h.bracketed ha hclose
    · cases hr

theorem all (p : Precedence) (cells : Cells) (fuel : Nat) : ReadsLanguage p cells fuel := by
  induction fuel with
  | zero =>
    refine ⟨fun hr => by simp [readExpr] at hr, fun hr => ?_, fun hr => by simp [readAtom] at hr,
      fun hr => by simp [readOperand] at hr⟩
    simp only [readClimb, Option.some.injEq, Prod.mk.injEq] at hr
    exact hr.2 ▸ .refl _
  | succ fuel ih =>
    exact ⟨ih.expr_succ, ih.climb_succ, ih.atom_succ,
      fun hr => ih.expr (by simpa only [readOperand] using hr)⟩

end ReadsLanguage

/-- Whatever its values are, a row that reads holds tokens of the language only. -/
theorem tokenKind_ne_error_of_parse (h : parse p cells ts = some e) :
    ∀ t ∈ ts, tokenKind t ≠ .errorToken := by
  rw [parse_eq_read, read] at h
  split at h
  · rename_i hread
    obtain ⟨taken, rfl, htaken⟩ := (ReadsLanguage.all p cells _).operand hread
    simpa using htaken
  · cases h

theorem comment_not_mem_row (e : Expr) (mark body : Text) : .comment mark body ∉ e.row := by
  induction e <;> simp_all [plusToken, mulToken, incToken, factorialToken, dotToken, groupToken, callToken,
    closeToken, Token.plain]

theorem commentless (p : Precedence) : (language p).Commentless where
  reads h t ht := by
    have hkind := tokenKind_ne_error_of_parse h t ht
    cases t with
    | comment mark body => exact absurd rfl hkind
    | error s => exact absurd rfl hkind
    | _ => exact ⟨rfl, rfl⟩
  prints cells e t ht := by
    rw [printed_tokens] at ht
    cases t with
    | comment mark body => exact absurd ht (comment_not_mem_row e mark body)
    | _ => rfl
  items _ _ _ := rfl
  puts i hi scope t cells := by
    have hi : i ∈ tokenItems := hi
    simp only [tokenItems, List.mem_cons, List.not_mem_nil, or_false] at hi
    rcases hi with rfl | rfl | rfl | rfl | rfl | rfl | rfl | rfl | rfl | rfl
    case inr.inr.inr.inr.inr.inl =>
      refine ⟨_, _, rfl, fun u hu => ?_⟩
      rw [List.mem_singleton.1 hu]
      split <;> rfl
    all_goals
      refine ⟨_, _, rfl, fun u hu => ?_⟩
      rw [List.mem_singleton.1 hu]
      rfl

end Expr

namespace Sum
variable {t : Token Sum} {ts : List (Token Sum)} {e : Sum} {es : List Sum}

theorem legible_of_atom? (h : atom? t = some e) : t.Legible := by
  cases t with
  | comment mark body => cases h
  | error s => cases h
  | _ => exact ⟨rfl, rfl⟩

theorem legible_of_isInc (h : isInc t) : t.Legible := by
  cases t with
  | simple s g => exact ⟨rfl, rfl⟩
  | _ => cases h

theorem legible_of_isPlus (h : isPlus t) : t.Legible := by
  cases t with
  | simple s g => exact ⟨rfl, rfl⟩
  | _ => cases h

theorem legible_of_increments (h : ∀ t ∈ (increments e ts).2, t.Legible) : ∀ t ∈ ts, t.Legible := by
  fun_induction increments e ts with
  | case1 => exact h
  | case2 e t ts ht ih => exact List.forall_mem_cons.2 ⟨legible_of_isInc ht, ih h⟩
  | case3 => exact h

theorem legible_of_terms? (h : terms? ts = some es) : ∀ t ∈ ts, t.Legible := by
  fun_induction terms? ts generalizing es with
  | case1 => cases h
  | case2 => cases h
  | case3 t ts e he e' hinc =>
    exact List.forall_mem_cons.2 ⟨legible_of_atom? he, legible_of_increments (e := e) (by simp [hinc])⟩
  | case4 t ts e he e' plus rest hinc hplus ih =>
    obtain ⟨es', hes', -⟩ := Option.map_eq_some_iff.1 h
    refine List.forall_mem_cons.2 ⟨legible_of_atom? he, legible_of_increments (e := e) ?_⟩
    rw [hinc]
    exact List.forall_mem_cons.2 ⟨legible_of_isPlus hplus, ih hes'⟩
  | case5 => cases h

/-- No step prints a comment. -/
def WithoutComments (steps : List (PrintStep Sum)) : Prop :=
  ∀ t ∈ steps.filterMap PrintStep.token?, t.isComment = false

theorem WithoutComments.append {s s' : List (PrintStep Sum)} (h : WithoutComments s)
    (h' : WithoutComments s') : WithoutComments (s ++ s') := by
  intro t ht
  rw [List.filterMap_append] at ht
  exact (List.mem_append.1 ht).elim (h t) (h' t)

theorem WithoutComments.node {s : List (PrintStep Sum)} (h : WithoutComments s) (e : Sum) :
    WithoutComments (.enter e :: s ++ [.close]) := by
  simpa [WithoutComments, List.filterMap_cons, PrintStep.token?] using h

theorem WithoutComments.token (ht : t.isComment = false) : WithoutComments [.token t] := by
  intro u hu
  rwa [List.mem_singleton.1 hu]

mutual

theorem withoutComments_printSteps (style : Style) : ∀ e : Sum, WithoutComments (e.printSteps style)
  | num _ | var _ => .token rfl
  | note _ => .token (t := .value _) rfl
  | inc e => by
    have h : WithoutComments [.token incToken] := .token rfl
    simpa [printSteps] using ((withoutComments_printSteps style e).node e).append h
  | add es => withoutComments_printTerms style es

theorem withoutComments_printTerms (style : Style) :
    ∀ es : List Sum, WithoutComments (printTerms style es)
  | [] => fun _ ht => absurd ht List.not_mem_nil
  | [e] => by
    have h := (withoutComments_printSteps style e).node e
    rw [printTerms]
    split_ifs
    · exact fun _ ht => absurd ht List.not_mem_nil
    · exact h
  | e :: e' :: es => by
    have h : WithoutComments [.token plusToken] := .token rfl
    have hrest := withoutComments_printTerms style (e' :: es)
    simpa [printTerms] using ((withoutComments_printSteps style e).node e).append (h.append hrest)

end

theorem commentless (style : Style) : (language style).Commentless where
  reads {_ ts v} h t ht := by
    have hparse : parse ts = some v := h
    unfold parse at hparse
    split at hparse
    · rename_i hterms
      exact legible_of_terms? hterms t ht
    · rename_i hterms
      exact legible_of_terms? hterms t ht
    · cases hparse
  prints _ := withoutComments_printSteps style
  items _ _ _ := rfl
  puts i hi scope t cells := by
    have hi : i ∈ tokenItems := hi
    simp only [tokenItems, List.mem_cons, List.not_mem_nil, or_false] at hi
    rcases hi with rfl | rfl | rfl | rfl | rfl | rfl | rfl | rfl
    all_goals
      refine ⟨_, _, rfl, fun u hu => ?_⟩
      rw [List.mem_singleton.1 hu]
      rfl

end Sum

end TokenEditor
