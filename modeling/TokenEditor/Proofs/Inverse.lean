import TokenEditor.Proofs.Canonical

/-! # Reading inverts printing

`parse_inverts_print`: a row of tokens reads as `e` exactly when `e` is canonical and the row spells it.
That what is read is canonical and spelled by the row goes along the rules of the reader; that every
canonical expression is read back goes along the expression, with the rest of the row left to the
rule that reads on. -/

namespace TokenEditor.Expr

@[simp] theorem tokenKind_symbols :
    tokenKind plusToken = .plus ∧ tokenKind mulToken = .star ∧ tokenKind incToken = .plusPlus ∧
      tokenKind factorialToken = .bang ∧ tokenKind dotToken = .dot ∧
      tokenKind groupToken = .lparen ∧ tokenKind callToken = .lparen ∧
      tokenKind closeToken = .rparen := by
  simp [tokenKind, plusToken, mulToken, incToken, factorialToken, dotToken, groupToken, callToken,
    closeToken, Token.plain, singleKind?, lex, firstLexeme, symbolKind, isSpace, isNameStart]

theorem forall₂_append_left {α β : Type} {R : α → β → Prop} {a b : List α} {l : List β} :
    List.Forall₂ R (a ++ b) l ↔ ∃ u w, l = u ++ w ∧ List.Forall₂ R a u ∧ List.Forall₂ R b w := by
  constructor
  · intro h
    exact ⟨l.take a.length, l.drop a.length, (List.take_append_drop ..).symm,
      List.forall₂_take_append l a b h.flip |>.flip, List.forall₂_drop_append l a b h.flip |>.flip⟩
  · rintro ⟨u, w, rfl, ha, hb⟩
    exact List.rel_append ha hb

section
variable {cells : Cells} {ts : List (Token Expr)} {t : Token Expr} {e l r : Expr} {name : Text}

/-- Of a symbol only the kind matters. -/
theorem alike_symbol {s : Token Expr}
    (hs : tokenKind s ≠ .ident ∧ tokenKind s ≠ .int ∧ tokenKind s ≠ .value) :
    Alike cells s t ↔ tokenKind t = tokenKind s :=
  ⟨fun h => h.kind.symm, fun h => ⟨h.symm, fun hk => absurd hk hs.1, fun hk => absurd hk hs.2.1,
    fun hk => absurd hk hs.2.2⟩⟩

theorem alike_symbols :
    (Alike cells plusToken t ↔ tokenKind t = .plus) ∧
      (Alike cells mulToken t ↔ tokenKind t = .star) ∧
      (Alike cells incToken t ↔ tokenKind t = .plusPlus) ∧
      (Alike cells factorialToken t ↔ tokenKind t = .bang) ∧
      (Alike cells dotToken t ↔ tokenKind t = .dot) ∧
      (Alike cells groupToken t ↔ tokenKind t = .lparen) ∧
      (Alike cells callToken t ↔ tokenKind t = .lparen) ∧
      (Alike cells closeToken t ↔ tokenKind t = .rparen) := by
  simp [alike_symbol]

theorem alike_identifier :
    Alike cells (.identifier name) t ↔ tokenKind t = .ident ∧ t.text cells = name := by
  constructor
  · intro h
    exact ⟨h.kind.symm, (h.name rfl).symm⟩
  · rintro ⟨hk, rfl⟩
    exact ⟨hk.symm, fun _ => rfl, fun h => by simp [tokenKind] at h, fun h => by simp [tokenKind] at h⟩

theorem spells_var :
    Spells cells (var name) ts ↔ ∃ t, ts = [t] ∧ tokenKind t = .ident ∧ t.text cells = name := by
  simp only [Spells, row_var, List.forall₂_cons_left_iff, List.forall₂_nil_left_iff,
    alike_identifier]
  grind

theorem spells_int {n : Int64} (hn : 0 ≤ n.toInt) :
    Spells cells (int n) ts ↔
      ∃ t, ts = [t] ∧ tokenKind t = .int ∧ Decimal.read? (t.text cells) = some n := by
  have hkind : tokenKind (.plain (Decimal.write n)) = .int := by
    simp [tokenKind, Token.plain, singleKind?_write hn]
  have hread : Decimal.read? ((.plain (Decimal.write n) : Token Expr).text cells) = some n :=
    Decimal.read?_write n
  constructor
  · intro h
    cases h with
    | cons ha h =>
      cases h
      exact ⟨_, rfl, ha.kind.symm.trans hkind, (ha.number hkind).symm.trans hread⟩
  · rintro ⟨t, rfl, hk, ht⟩
    refine .cons ⟨hkind.trans hk.symm, ?_, fun _ => hread.trans ht.symm, ?_⟩ .nil <;>
      simp [hkind]

theorem spells_text {c : CellId} (hts : TextOnly ts) :
    Spells cells (text c) ts ↔ ∃ d, ts = [.value (text d)] ∧ cells.text d = cells.text c := by
  constructor
  · intro h
    cases h with
    | @cons _ t _ _ ha h =>
      cases h
      obtain ⟨v, rfl⟩ := exists_of_tokenKind_value ha.kind.symm
      have hv := hts (.value v) (by simp)
      cases v with
      | text d =>
        have htext := ha.contents rfl
        simp only [Token.text, Payload.display, display, List.cons_append, List.cons.injEq, true_and,
          List.append_cancel_right_eq] at htext
        exact ⟨d, rfl, htext.symm⟩
      | _ => simp [embedsText] at hv
  · rintro ⟨d, rfl, hd⟩
    refine .cons ⟨rfl, fun _ => ?_, fun h => by simp [tokenKind] at h, fun _ => ?_⟩ .nil <;>
      simp [Token.text, Payload.display, display, hd]

theorem spells_call :
    Spells cells (call name) ts ↔ ∃ t u w, ts = [t, u, w] ∧ tokenKind t = .ident ∧
      t.text cells = name ∧ tokenKind u = .lparen ∧ tokenKind w = .rparen := by
  simp only [Spells, row_call, List.forall₂_cons_left_iff, List.forall₂_nil_left_iff,
    alike_identifier, alike_symbols]
  grind

theorem spells_callWith :
    Spells cells (callWith name e) ts ↔ ∃ t u us w, ts = t :: u :: us ++ [w] ∧ tokenKind t = .ident ∧
      t.text cells = name ∧ tokenKind u = .lparen ∧ Spells cells e us ∧ tokenKind w = .rparen := by
  simp only [Spells, row_callWith, List.cons_append, List.forall₂_cons_left_iff,
    forall₂_append_left, List.forall₂_nil_left_iff, alike_identifier, alike_symbols]
  grind

theorem spells_parens :
    Spells cells (parens e) ts ↔
      ∃ t us w, ts = t :: us ++ [w] ∧ tokenKind t = .lparen ∧ Spells cells e us ∧
        tokenKind w = .rparen := by
  simp only [Spells, row_parens, List.cons_append, List.forall₂_cons_left_iff,
    forall₂_append_left, List.forall₂_nil_left_iff, alike_symbols]
  grind

theorem spells_inc :
    Spells cells (inc e) ts ↔ ∃ us w, ts = us ++ [w] ∧ Spells cells e us ∧ tokenKind w = .plusPlus := by
  simp only [Spells, row_inc, forall₂_append_left, List.forall₂_cons_left_iff,
    List.forall₂_nil_left_iff, alike_symbols]
  grind

theorem spells_factorial :
    Spells cells (factorial e) ts ↔ ∃ us w, ts = us ++ [w] ∧ Spells cells e us ∧ tokenKind w = .bang := by
  simp only [Spells, row_factorial, forall₂_append_left, List.forall₂_cons_left_iff,
    List.forall₂_nil_left_iff, alike_symbols]
  grind

theorem spells_field :
    Spells cells (field e name) ts ↔ ∃ us t w, ts = us ++ [t, w] ∧ Spells cells e us ∧
      tokenKind t = .dot ∧ tokenKind w = .ident ∧ w.text cells = name := by
  simp only [Spells, row_field, forall₂_append_left, List.forall₂_cons_left_iff,
    List.forall₂_nil_left_iff, alike_symbols, alike_identifier]
  grind

variable {p : Precedence} {k : Kind} {level : Nat}

theorem spells_joined (h : joined? k l r = some e) :
    Spells cells e ts ↔
      ∃ us t ws, ts = us ++ t :: ws ∧ Spells cells l us ∧ tokenKind t = k ∧ Spells cells r ws := by
  unfold joined? at h
  split at h <;> cases h
  all_goals
    simp only [Spells, row_plus, row_mul, forall₂_append_left, List.forall₂_cons_left_iff,
      alike_symbols]
    grind

theorem topLevel?_joined (h : joined? k l r = some e) : e.topLevel? p = p.level? k := by
  unfold joined? at h
  split at h <;> cases h <;> rfl

theorem canonical_joined (h : joined? k l r = some e) (hk : p.level? k = some level) :
    e.Canonical p ↔ Fits p level l r ∧ l.Canonical p ∧ r.Canonical p := by
  unfold joined? at h
  split at h <;> cases h <;> cases hk <;> exact Iff.rfl

theorem isSome_joined (hk : p.level? k = some level) (l r : Expr) : (joined? k l r).isSome := by
  unfold Precedence.level? at hk
  split at hk <;> simp_all [joined?]

end

/-! ### What is read is spelled -/

/-- The next operator binds less tightly than `least`. -/
def Stops (p : Precedence) (least : Nat) (rest : List (Token Expr)) : Prop :=
  ∀ t ∈ rest.head?, ∀ k ∈ p.level? (tokenKind t), 2 * k + 1 < least

/-- The next operator may take `e` as its left operand without brackets. -/
def Follows (p : Precedence) (e : Expr) (rest : List (Token Expr)) : Prop :=
  ∀ t ∈ rest.head?, ∀ k ∈ p.level? (tokenKind t), ∀ m ∈ e.topLevel? p, k ≤ m

/-- The operator at the top of `e` binds at least as tightly as `least`. -/
def AtLeast (p : Precedence) (least : Nat) (e : Expr) : Prop :=
  ∀ k ∈ e.topLevel? p, least ≤ 2 * k + 1

/-- The tokens read, up to `rest`, spell `e`. -/
def Taken (cells : Cells) (ts : List (Token Expr)) (e : Expr) (rest : List (Token Expr)) : Prop :=
  ∃ us, ts = us ++ rest ∧ Spells cells e us

/-- The tokens read after those of `e₀`, up to `rest`, make it `e`. -/
def TakenAfter (cells : Cells) (e₀ : Expr) (ts : List (Token Expr)) (e : Expr)
    (rest : List (Token Expr)) : Prop :=
  ∃ us, ts = us ++ rest ∧ ∀ us₀, Spells cells e₀ us₀ → Spells cells e (us₀ ++ us)

section
variable {p : Precedence} {cells : Cells} {ts rest rest' : List (Token Expr)} {e e₀ : Expr}

theorem TextOnly.of_append {us : List (Token Expr)} (h : TextOnly (us ++ rest)) : TextOnly rest :=
  fun t ht => h t (List.mem_append_right _ ht)

theorem TextOnly.tail {t : Token Expr} (h : TextOnly (t :: ts)) : TextOnly ts :=
  fun u hu => h u (List.mem_cons_of_mem _ hu)

theorem Taken.textOnly (h : Taken cells ts e rest) (hts : TextOnly ts) : TextOnly rest := by
  obtain ⟨us, rfl, -⟩ := h
  exact hts.of_append

theorem row_ne_nil (e : Expr) : e.row ≠ [] := by
  cases e <;> simp

theorem Taken.length_lt (h : Taken cells ts e rest) : rest.length < ts.length := by
  obtain ⟨us, rfl, hus⟩ := h
  have hpos := List.length_pos_of_ne_nil (row_ne_nil e)
  rw [List.Forall₂.length_eq hus] at hpos
  simp only [List.length_append]
  omega

theorem TakenAfter.refl (e : Expr) (ts : List (Token Expr)) : TakenAfter cells e ts e ts :=
  ⟨[], rfl, fun us₀ h => by simpa using h⟩

theorem Taken.after (h : Taken cells ts e₀ rest) (h' : TakenAfter cells e₀ rest e rest') :
    Taken cells ts e rest' := by
  obtain ⟨us, rfl, hus⟩ := h
  obtain ⟨ws, rfl, hws⟩ := h'
  exact ⟨us ++ ws, (List.append_assoc ..).symm, hws us hus⟩

theorem readPostfix_sound (h : readPostfix cells e₀ ts = some (e, rest))
    (htop : e₀.topLevel? p = none) (hc : e₀.Canonical p) :
    TakenAfter cells e₀ ts e rest ∧ e.topLevel? p = none ∧ e.Canonical p := by
  fun_induction readPostfix cells e₀ ts with
  | case1 e₀ =>
    cases h
    exact ⟨.refl _ _, htop, hc⟩
  | case2 e₀ t ts hk ih =>
    obtain ⟨⟨us, rfl, hus⟩, hrest⟩ := ih h rfl ⟨htop, hc⟩
    refine ⟨⟨t :: us, rfl, fun us₀ h₀ => ?_⟩, hrest⟩
    have := hus (us₀ ++ [t]) (spells_inc.2 ⟨us₀, t, rfl, h₀, hk⟩)
    rwa [List.append_assoc] at this
  | case3 e₀ t ts hk ih =>
    obtain ⟨⟨us, rfl, hus⟩, hrest⟩ := ih h rfl ⟨htop, hc⟩
    refine ⟨⟨t :: us, rfl, fun us₀ h₀ => ?_⟩, hrest⟩
    have := hus (us₀ ++ [t]) (spells_factorial.2 ⟨us₀, t, rfl, h₀, hk⟩)
    rwa [List.append_assoc] at this
  | case4 e₀ t hk n ts hn ih =>
    obtain ⟨⟨us, rfl, hus⟩, hrest⟩ := ih h rfl ⟨htop, hc⟩
    refine ⟨⟨t :: n :: us, rfl, fun us₀ h₀ => ?_⟩, hrest⟩
    have := hus (us₀ ++ [t, n]) (spells_field.2 ⟨us₀, t, n, rfl, h₀, hk, hn, rfl⟩)
    rwa [List.append_assoc] at this
  | case5 => cases h
  | case6 => cases h
  | case7 e₀ t ts =>
    cases h
    exact ⟨.refl _ _, htop, hc⟩

theorem afterClose?_eq_some (h : afterClose? ts = some rest) :
    ∃ t, ts = t :: rest ∧ tokenKind t = .rparen := by
  unfold afterClose? at h
  split at h
  · cases h
  · rename_i t ts
    split at h
    · cases h
      exact ⟨t, rfl, ‹_›⟩
    · cases h

theorem toInt_of_tokenKind_int {t : Token Expr} (hk : tokenKind t = .int) {n : Int64}
    (hn : Decimal.read? (t.text cells) = some n) : 0 ≤ n.toInt := by
  cases t with
  | simple u g =>
    have hs : singleKind? u = some .int := by
      cases hs : singleKind? u <;> simp_all [tokenKind]
    exact toInt_of_read?_digits (singleKind?_eq_int.1 hs).1 hn
  | _ => simp [tokenKind] at hk

/-- With fuel for the whole row, what the rules read is canonical and spelled by the tokens taken,
and an operator is left only where it binds too weakly. -/
structure ReadsSpelled (p : Precedence) (cells : Cells) (fuel : Nat) : Prop where
  expr : ∀ {least ts e rest}, TextOnly ts → 3 * ts.length + 1 ≤ fuel →
    readExpr p cells fuel least ts = some (e, rest) →
      Taken cells ts e rest ∧ e.Canonical p ∧ AtLeast p least e ∧ Stops p least rest
  climb : ∀ {least e₀ ts e rest}, TextOnly ts → 3 * ts.length ≤ fuel →
    readClimb p cells fuel least e₀ ts = some (e, rest) →
    e₀.Canonical p → Follows p e₀ ts → AtLeast p least e₀ →
      TakenAfter cells e₀ ts e rest ∧ e.Canonical p ∧ AtLeast p least e ∧ Stops p least rest
  atom : ∀ {ts e rest}, TextOnly ts → 3 * ts.length ≤ fuel →
    readAtom p cells fuel ts = some (e, rest) →
      Taken cells ts e rest ∧ e.Canonical p ∧ e.topLevel? p = none
  operand : ∀ {ts e rest}, TextOnly ts → 3 * ts.length + 2 ≤ fuel →
    readOperand p cells fuel ts = some (e, rest) → Taken cells ts e rest ∧ e.Canonical p

namespace ReadsSpelled
variable {fuel least : Nat}

theorem expr_succ (h : ReadsSpelled p cells fuel) (hts : TextOnly ts)
    (hfuel : 3 * ts.length + 1 ≤ fuel + 1)
    (hr : readExpr p cells (fuel + 1) least ts = some (e, rest)) :
    Taken cells ts e rest ∧ e.Canonical p ∧ AtLeast p least e ∧ Stops p least rest := by
  rw [readExpr.eq_def] at hr
  dsimp only at hr
  split at hr
  · cases hr
  · rename_i a ts₁ ha
    obtain ⟨htaken, hcanon, htop⟩ := h.atom hts (by omega) ha
    split at hr
    · cases hr
    · rename_i b ts₂ hb
      obtain ⟨hafter, htop, hcanon⟩ := readPostfix_sound hb htop hcanon
      have htaken := htaken.after hafter
      have hlt := htaken.length_lt
      obtain ⟨hafter, hrest⟩ := h.climb (htaken.textOnly hts) (by omega) hr hcanon
        (fun _ _ _ _ m hm => by simp [htop] at hm) (fun k hk => by simp [htop] at hk)
      exact ⟨htaken.after hafter, hrest⟩

theorem climb_succ (h : ReadsSpelled p cells fuel) (hts : TextOnly ts)
    (hfuel : 3 * ts.length ≤ fuel + 1)
    (hr : readClimb p cells (fuel + 1) least e₀ ts = some (e, rest))
    (hcanon : e₀.Canonical p) (hfollows : Follows p e₀ ts) (hleast : AtLeast p least e₀) :
    TakenAfter cells e₀ ts e rest ∧ e.Canonical p ∧ AtLeast p least e ∧ Stops p least rest := by
  cases ts with
  | nil =>
    simp only [readClimb, Option.some.injEq, Prod.mk.injEq] at hr
    obtain ⟨rfl, rfl⟩ := hr
    exact ⟨.refl _ _, hcanon, hleast, by simp [Stops]⟩
  | cons t ts =>
    rw [readClimb.eq_def] at hr
    dsimp only [Precedence.bindingPower?] at hr
    cases hk : p.level? (tokenKind t) with
    | none =>
      simp only [hk, Option.map_none, Option.some.injEq, Prod.mk.injEq] at hr
      obtain ⟨rfl, rfl⟩ := hr
      exact ⟨.refl _ _, hcanon, hleast, by simp [Stops, hk]⟩
    | some level =>
      simp only [hk, Option.map_some] at hr
      split at hr
      · rename_i hlt
        simp only [Option.some.injEq, Prod.mk.injEq] at hr
        obtain ⟨rfl, rfl⟩ := hr
        exact ⟨.refl _ _, hcanon, hleast, by simpa [Stops, hk] using hlt⟩
      · rename_i hge
        split at hr
        · cases hr
        · rename_i e₁ ts₁ h₁
          split at hr
          · cases hr
          · rename_i e₂ hj
            rw [List.length_cons] at hfuel
            have hts' : TextOnly ts := hts.tail
            obtain ⟨⟨us, rfl, hus⟩, hcanon₁, hleast₁, hstops⟩ := h.expr hts' (by omega) h₁
            have hlen : ts₁.length ≤ (us ++ ts₁).length := by simp
            -- the operator takes `e₀` and `e₁` without brackets, and the next one binds no tighter
            have hfits : Fits p level e₀ e₁ := by
              refine ⟨fun k hk' => hfollows t rfl level hk k hk', fun k hk' => ?_⟩
              have := hleast₁ k hk'
              omega
            have htop := topLevel?_joined (p := p) hj
            rw [hk] at htop
            obtain ⟨⟨ws, rfl, hws⟩, hrest⟩ := h.climb hts'.of_append (by omega) hr
              ((canonical_joined hj hk).2 ⟨hfits, hcanon, hcanon₁⟩)
              (fun u hu k hk' m hm => by
                have := hstops u hu k hk'
                simp only [htop, Option.mem_def, Option.some.injEq] at hm
                omega)
              (fun k hk' => by
                simp only [htop, Option.mem_def, Option.some.injEq] at hk'
                omega)
            refine ⟨⟨t :: us ++ ws, by simp, fun us₀ h₀ => ?_⟩, hrest⟩
            have := hws (us₀ ++ t :: us) ((spells_joined hj).2 ⟨us₀, t, us, rfl, h₀, rfl, hus⟩)
            simpa using this

theorem atom_succ (h : ReadsSpelled p cells fuel) (hts : TextOnly ts)
    (hfuel : 3 * ts.length ≤ fuel + 1) (hr : readAtom p cells (fuel + 1) ts = some (e, rest)) :
    Taken cells ts e rest ∧ e.Canonical p ∧ e.topLevel? p = none := by
  cases ts with
  | nil => simp [readAtom] at hr
  | cons t ts =>
    rw [List.length_cons] at hfuel
    rw [readAtom.eq_def] at hr
    dsimp only at hr
    -- an operand in brackets, from behind the opening one
    have bracketed : ∀ {us us₁ : List (Token Expr)} {a : Expr}, TextOnly us →
        us.length ≤ ts.length → readOperand p cells fuel us = some (a, us₁) →
        afterClose? us₁ = some rest →
        ∃ ws w, us = ws ++ w :: rest ∧ Spells cells a ws ∧ a.Canonical p ∧ tokenKind w = .rparen := by
      intro us us₁ a hus hlen ha hclose
      obtain ⟨⟨ws, rfl, hws⟩, hcanon⟩ := h.operand hus (by omega) ha
      obtain ⟨w, rfl, hw⟩ := afterClose?_eq_some hclose
      exact ⟨ws, w, rfl, hws, hcanon, hw⟩
    split at hr
    · rename_i hk
      split at hr
      · rename_i m ts'
        split at hr
        · rename_i hm
          split at hr
          · rename_i ts₁ hclose
            cases hr
            obtain ⟨w, rfl, hw⟩ := afterClose?_eq_some hclose
            exact ⟨⟨[t, m, w], rfl, spells_call.2 ⟨t, m, w, rfl, hk, rfl, hm, hw⟩⟩, trivial, rfl⟩
          · split at hr
            · cases hr
            · rename_i a us₁ ha
              simp only [Option.map_eq_some_iff, Prod.mk.injEq] at hr
              obtain ⟨us₂, hclose, rfl, rfl⟩ := hr
              obtain ⟨ws, w, rfl, hws, hcanon, hw⟩ := bracketed hts.tail.tail (by simp) ha hclose
              exact ⟨⟨t :: m :: ws ++ [w], by simp,
                spells_callWith.2 ⟨t, m, ws, w, rfl, hk, rfl, hm, hws, hw⟩⟩, hcanon, rfl⟩
        · cases hr
          exact ⟨⟨[t], rfl, spells_var.2 ⟨t, rfl, hk, rfl⟩⟩, trivial, rfl⟩
      · cases hr
        exact ⟨⟨[t], rfl, spells_var.2 ⟨t, rfl, hk, rfl⟩⟩, trivial, rfl⟩
    · rename_i hk
      simp only [Option.map_eq_some_iff, Prod.mk.injEq] at hr
      obtain ⟨n, hn, rfl, rfl⟩ := hr
      have hpos := toInt_of_tokenKind_int hk hn
      exact ⟨⟨[t], rfl, (spells_int hpos).2 ⟨t, rfl, hk, hn⟩⟩, hpos, rfl⟩
    · rename_i hk
      obtain ⟨v, rfl⟩ := exists_of_tokenKind_value hk
      have hv := hts (.value v) (by simp)
      cases hr
      cases e with
      | text c => exact ⟨⟨[_], rfl, .cons (.refl _ _) .nil⟩, trivial, rfl⟩
      | _ => simp [embedsText] at hv
    · rename_i hk
      split at hr
      · cases hr
      · rename_i a us₁ ha
        simp only [Option.map_eq_some_iff, Prod.mk.injEq] at hr
        obtain ⟨us₂, hclose, rfl, rfl⟩ := hr
        obtain ⟨ws, w, rfl, hws, hcanon, hw⟩ := bracketed hts.tail (Nat.le_refl _) ha hclose
        exact ⟨⟨t :: ws ++ [w], by simp, spells_parens.2 ⟨t, ws, w, rfl, hk, hws, hw⟩⟩, hcanon, rfl⟩
    · cases hr

theorem all (p : Precedence) (cells : Cells) (fuel : Nat) : ReadsSpelled p cells fuel := by
  induction fuel with
  | zero =>
    refine ⟨fun _ hf => by omega, fun {_ _ ts _ _} _ hf hr hcanon hfollows hleast => ?_,
      fun {ts _ _} _ hf hr => ?_, fun _ hf => by omega⟩
    · obtain rfl := List.eq_nil_of_length_eq_zero (l := ts) (by omega)
      simp only [readClimb, Option.some.injEq, Prod.mk.injEq] at hr
      obtain ⟨rfl, rfl⟩ := hr
      exact ⟨.refl _ _, hcanon, hleast, by simp [Stops]⟩
    · simp [readAtom] at hr
  | succ fuel ih =>
    refine ⟨ih.expr_succ, ih.climb_succ, ih.atom_succ, fun hts hf hr => ?_⟩
    obtain ⟨htaken, hcanon, -⟩ := ih.expr hts (by omega) (by simpa only [readOperand] using hr)
    exact ⟨htaken, hcanon⟩

end ReadsSpelled

/-! ### What is spelled is read -/

/-- After the operand `e` over the tokens `us` the postfix rule reads on. -/
def LeavesToPostfix (p : Precedence) (cells : Cells) (e : Expr) (us : List (Token Expr)) : Prop :=
  ∀ rest fuel, 3 * (us ++ rest).length ≤ fuel → (∀ t ∈ rest.head?, tokenKind t ≠ .lparen) →
    (readAtom p cells fuel (us ++ rest)).bind (fun r => readPostfix cells r.1 r.2) =
      readPostfix cells e rest

/-- No rule for operands goes on with the row. -/
def Closed (rest : List (Token Expr)) : Prop :=
  ∀ t ∈ rest.head?, tokenKind t ≠ .lparen ∧ tokenKind t ≠ .plusPlus ∧ tokenKind t ≠ .bang ∧
    tokenKind t ≠ .dot

/-- After the operand `e` over the tokens `us` the climbing rule reads on. -/
def LeavesToClimb (p : Precedence) (cells : Cells) (e : Expr) (us : List (Token Expr)) : Prop :=
  ∀ rest fuel least, 3 * (us ++ rest).length + 1 ≤ fuel → Closed rest → Follows p e rest →
    AtLeast p least e → ∃ fuel', 3 * rest.length ≤ fuel' ∧
      readExpr p cells fuel least (us ++ rest) = readClimb p cells fuel' least e rest

variable {us ws : List (Token Expr)} {t u w : Token Expr} {l r : Expr} {name : Text} {fuel least : Nat}

theorem readPostfix_closed (h : Closed rest) (e : Expr) :
    readPostfix cells e rest = some (e, rest) := by
  cases rest with
  | nil => rfl
  | cons t rest =>
    obtain ⟨-, h₁, h₂, h₃⟩ := h t rfl
    rw [readPostfix.eq_def]
    simp only

theorem readPostfix_inc (ht : tokenKind t = .plusPlus) (e : Expr) (ts : List (Token Expr)) :
    readPostfix cells e (t :: ts) = readPostfix cells (inc e) ts := by
  rw [readPostfix.eq_def]
  simp only [ht]

theorem readPostfix_factorial (ht : tokenKind t = .bang) (e : Expr) (ts : List (Token Expr)) :
    readPostfix cells e (t :: ts) = readPostfix cells (factorial e) ts := by
  rw [readPostfix.eq_def]
  simp only [ht]

theorem readPostfix_field (ht : tokenKind t = .dot) (hw : tokenKind w = .ident) (e : Expr)
    (ts : List (Token Expr)) :
    readPostfix cells e (t :: w :: ts) = readPostfix cells (field e (w.text cells)) ts := by
  rw [readPostfix.eq_def]
  simp only [ht, hw, if_true]

theorem readClimb_stops (h : Stops p least rest) (e : Expr) :
    readClimb p cells fuel least e rest = some (e, rest) := by
  cases fuel with
  | zero => simp only [readClimb]
  | succ fuel =>
    cases rest with
    | nil => simp only [readClimb]
    | cons t rest =>
      rw [readClimb.eq_def]
      dsimp only [Precedence.bindingPower?]
      cases hk : p.level? (tokenKind t) with
      | none => rfl
      | some level => simp only [Option.map_some, h t rfl level hk, if_true]

theorem LeavesToPostfix.climb (h : LeavesToPostfix p cells e us) : LeavesToClimb p cells e us := by
  intro rest fuel least hfuel hclosed _ _
  obtain ⟨fuel, rfl⟩ : ∃ n, fuel = n + 1 := ⟨fuel - 1, by omega⟩
  rw [List.length_append] at hfuel
  refine ⟨fuel, by omega, ?_⟩
  have hread := h rest fuel (by rw [List.length_append]; omega) fun t ht => (hclosed t ht).1
  rw [readPostfix_closed hclosed, Option.bind_eq_some_iff] at hread
  obtain ⟨a, ha, hpost⟩ := hread
  rw [readExpr.eq_def]
  simp only [ha, hpost]

theorem LeavesToClimb.joined {k : Kind} {level : Nat} (hl : LeavesToClimb p cells l us)
    (hr : LeavesToClimb p cells r ws) (hj : joined? k l r = some e) (hk : p.level? k = some level)
    (hfits : Fits p level l r) (ht : tokenKind t = k) : LeavesToClimb p cells e (us ++ t :: ws) := by
  intro rest fuel least hfuel hclosed hfollows hleast
  have htop := topLevel?_joined (p := p) hj
  rw [hk] at htop
  have hle : least ≤ 2 * level + 1 := hleast level htop
  have hnext : ∀ u ∈ rest.head?, ∀ m ∈ p.level? (tokenKind u), m ≤ level :=
    fun u hu m hm => hfollows u hu m hm level htop
  simp only [List.length_append, List.length_cons] at hfuel
  obtain ⟨fuel₁, hfuel₁, hread⟩ := hl (t :: ws ++ rest) fuel least
    (by simp only [List.length_append, List.length_cons]; omega)
    (fun u hu => by
      obtain rfl : t = u := by simpa using hu
      rw [ht]
      unfold Precedence.level? at hk
      split at hk <;> simp_all)
    (fun u hu m hm n hn => by
      obtain rfl : t = u := by simpa using hu
      rw [ht, hk] at hm
      cases hm
      exact hfits.1 n hn)
    (fun m hm => by
      have := hfits.1 m hm
      omega)
  simp only [List.length_append, List.length_cons] at hfuel₁
  obtain ⟨fuel₁, rfl⟩ : ∃ n, fuel₁ = n + 1 := ⟨fuel₁ - 1, by omega⟩
  obtain ⟨fuel₂, -, hread'⟩ := hr rest fuel₁ (2 * level + 2)
    (by simp only [List.length_append]; omega) hclosed
    (fun u hu m hm n hn => by
      have h₁ := hnext u hu m hm
      have h₂ := hfits.2 n hn
      omega)
    (fun m hm => by
      have := hfits.2 m hm
      omega)
  have hstops : Stops p (2 * level + 2) rest := fun u hu m hm => by
    have := hnext u hu m hm
    omega
  refine ⟨fuel₁, by omega, ?_⟩
  rw [List.append_assoc, hread, List.cons_append, readClimb.eq_def]
  dsimp only [Precedence.bindingPower?]
  rw [ht, hk]
  simp only [Option.map_some]
  rw [if_neg (by omega), hread', readClimb_stops hstops]
  simp only [hj]

theorem afterClose?_cons (h : tokenKind t = .rparen) (ts : List (Token Expr)) :
    afterClose? (t :: ts) = some ts := if_pos h

/-- No operand starts with a closing bracket. -/
theorem afterClose?_of_readOperand {a : Expr × List (Token Expr)}
    (h : readOperand p cells fuel ts = some a) : afterClose? ts = none := by
  rw [Option.eq_none_iff_forall_ne_some]
  rintro rest hclose
  obtain ⟨t, rfl, ht⟩ := afterClose?_eq_some hclose
  rcases fuel with _ | _ | _ | fuel <;> simp [readOperand, readExpr, readAtom, ht] at h

theorem LeavesToClimb.bracketed (h : LeavesToClimb p cells e us) (hw : tokenKind w = .rparen)
    (rest : List (Token Expr)) (hfuel : 3 * (us ++ w :: rest).length + 2 ≤ fuel) :
    readOperand p cells fuel (us ++ w :: rest) = some (e, w :: rest) := by
  obtain ⟨fuel, rfl⟩ : ∃ n, fuel = n + 1 := ⟨fuel - 1, by omega⟩
  have hnone : ∀ u ∈ (w :: rest).head?, p.level? (tokenKind u) = none := by
    rintro u hu
    obtain rfl : w = u := by simpa using hu
    rw [hw]
    rfl
  obtain ⟨fuel', -, hread⟩ := h (w :: rest) fuel 0 (by omega)
    (fun u hu => by
      obtain rfl : w = u := by simpa using hu
      simp [hw])
    (fun u hu k hk => by simp [hnone u hu] at hk) (fun _ _ => Nat.zero_le _)
  rw [readOperand, hread, readClimb_stops fun u hu k hk => by simp [hnone u hu] at hk]

theorem leavesToPostfix_parens (h : LeavesToClimb p cells e us) (ht : tokenKind t = .lparen)
    (hw : tokenKind w = .rparen) : LeavesToPostfix p cells (parens e) (t :: us ++ [w]) := by
  intro rest fuel hfuel _
  simp only [List.length_append, List.length_cons, List.length_nil] at hfuel
  obtain ⟨fuel, rfl⟩ : ∃ n, fuel = n + 1 := ⟨fuel - 1, by omega⟩
  have hread := h.bracketed hw rest (show _ ≤ fuel by simp; omega)
  rw [List.append_assoc, List.singleton_append, List.cons_append, readAtom.eq_def]
  simp [ht, hread, afterClose?_cons hw]

theorem leavesToPostfix_callWith (h : LeavesToClimb p cells e us) (ht : tokenKind t = .ident)
    (hu : tokenKind u = .lparen) (hw : tokenKind w = .rparen) :
    LeavesToPostfix p cells (callWith (t.text cells) e) (t :: u :: us ++ [w]) := by
  intro rest fuel hfuel _
  simp only [List.length_append, List.length_cons, List.length_nil] at hfuel
  obtain ⟨fuel, rfl⟩ : ∃ n, fuel = n + 1 := ⟨fuel - 1, by omega⟩
  have hread := h.bracketed hw rest (show _ ≤ fuel by simp; omega)
  rw [List.append_assoc, List.singleton_append, List.cons_append, List.cons_append,
    readAtom.eq_def]
  simp [ht, hu, hread, afterClose?_of_readOperand hread, afterClose?_cons hw]

theorem leavesToPostfix_call (ht : tokenKind t = .ident) (hu : tokenKind u = .lparen)
    (hw : tokenKind w = .rparen) : LeavesToPostfix p cells (call (t.text cells)) [t, u, w] := by
  intro rest fuel hfuel _
  obtain ⟨fuel, rfl⟩ : ∃ n, fuel = n + 1 := ⟨fuel - 1, by simp at hfuel; omega⟩
  simp [readAtom, ht, hu, afterClose?_cons hw]

theorem leavesToPostfix_var (ht : tokenKind t = .ident) :
    LeavesToPostfix p cells (var (t.text cells)) [t] := by
  intro rest fuel hfuel hrest
  obtain ⟨fuel, rfl⟩ : ∃ n, fuel = n + 1 := ⟨fuel - 1, by simp at hfuel; omega⟩
  cases rest with
  | nil => simp [readAtom, ht]
  | cons u rest => simp [readAtom, ht, hrest u rfl]

theorem leavesToPostfix_int (ht : tokenKind t = .int) {n : Int64}
    (hn : Decimal.read? (t.text cells) = some n) : LeavesToPostfix p cells (int n) [t] := by
  intro rest fuel hfuel _
  obtain ⟨fuel, rfl⟩ : ∃ n, fuel = n + 1 := ⟨fuel - 1, by simp at hfuel; omega⟩
  simp [readAtom, ht, hn]

theorem leavesToPostfix_value (v : Expr) : LeavesToPostfix p cells v [.value v] := by
  intro rest fuel hfuel _
  obtain ⟨fuel, rfl⟩ : ∃ n, fuel = n + 1 := ⟨fuel - 1, by simp at hfuel; omega⟩
  simp [readAtom, tokenKind, Token.value?]

/-- Whatever the postfix rule takes as one more operator is part of the operand. -/
theorem LeavesToPostfix.extend {e' : Expr} (h : LeavesToPostfix p cells e us) (t : Token Expr)
    (ws : List (Token Expr)) (ht : tokenKind t ≠ .lparen)
    (hstep : ∀ rest, readPostfix cells e (t :: ws ++ rest) = readPostfix cells e' rest) :
    LeavesToPostfix p cells e' (us ++ t :: ws) := by
  intro rest fuel hfuel _
  rw [List.append_assoc] at hfuel ⊢
  rw [h (t :: ws ++ rest) fuel hfuel fun u hu => ?_, hstep]
  obtain rfl : t = u := by simpa using hu
  exact ht

/-- The row reads as an expression that shows the same as `e`, and what follows is left to the rule
that reads on. -/
def ReadsAlong (p : Precedence) (cells : Cells) (e : Expr) (us : List (Token Expr)) : Prop :=
  ∃ e', e'.same cells e ∧ LeavesToClimb p cells e' us ∧
    (e.topLevel? p = none → LeavesToPostfix p cells e' us)

theorem LeavesToPostfix.readsAlong {e' : Expr} (h : LeavesToPostfix p cells e' us)
    (hs : e'.same cells e) : ReadsAlong p cells e us :=
  ⟨e', hs, h.climb, fun _ => h⟩

theorem Fits.of_same {level : Nat} {l' r' : Expr} (h : Fits p level l r) (hl : l'.same cells l)
    (hr : r'.same cells r) : Fits p level l' r' := by
  rw [Fits, topLevel?_of_same hl, topLevel?_of_same hr]
  exact h

theorem TextOnly.left {us : List (Token Expr)} (h : TextOnly (us ++ rest)) : TextOnly us :=
  fun t ht => h t (List.mem_append_left _ ht)

theorem ReadsAlong.joined {k : Kind} {level : Nat} (hl : ReadsAlong p cells l us)
    (hr : ReadsAlong p cells r ws) (hj : joined? k l r = some e) (hk : p.level? k = some level)
    (hfits : Fits p level l r) (ht : tokenKind t = k) : ReadsAlong p cells e (us ++ t :: ws) := by
  obtain ⟨l', hsl, hl, -⟩ := hl
  obtain ⟨r', hsr, hr, -⟩ := hr
  obtain ⟨e', hj'⟩ := Option.isSome_iff_exists.1 (isSome_joined hk l' r')
  refine ⟨e', ?_, hl.joined hr hj' hk (hfits.of_same hsl hsr) ht, fun htop => ?_⟩
  · unfold joined? at hj hj'
    split at hj <;> cases hj <;> cases hj' <;> exact Bool.and_eq_true_iff.2 ⟨hsl, hsr⟩
  · rw [topLevel?_joined hj, hk] at htop
    cases htop

/-- A canonical expression is read from every row of texts that spells it. -/
theorem readsAlong_of_spells (e : Expr) (hc : e.Canonical p) (hts : TextOnly us)
    (hus : Spells cells e us) : ReadsAlong p cells e us := by
  induction e generalizing us with
  | var name =>
    obtain ⟨t, rfl, hk, rfl⟩ := spells_var.1 hus
    exact (leavesToPostfix_var hk).readsAlong (same_refl _ _)
  | int n =>
    obtain ⟨t, rfl, hk, hn⟩ := (spells_int hc).1 hus
    exact (leavesToPostfix_int hk hn).readsAlong (same_refl _ _)
  | text c =>
    obtain ⟨d, rfl, hd⟩ := (spells_text hts).1 hus
    exact (leavesToPostfix_value (text d)).readsAlong (beq_iff_eq.2 hd)
  | call name =>
    obtain ⟨t, u, w, rfl, ht, rfl, hu, hw⟩ := spells_call.1 hus
    exact (leavesToPostfix_call ht hu hw).readsAlong (same_refl _ _)
  | plus l r ihl ihr =>
    obtain ⟨hfits, hl, hr⟩ := hc
    obtain ⟨us, t, ws, rfl, hus, ht, hws⟩ := (spells_joined (k := .plus) rfl).1 hus
    exact (ihl hl hts.left hus).joined (ihr hr hts.of_append.tail hws) rfl rfl hfits ht
  | mul l r ihl ihr =>
    obtain ⟨hfits, hl, hr⟩ := hc
    obtain ⟨us, t, ws, rfl, hus, ht, hws⟩ := (spells_joined (k := .star) rfl).1 hus
    exact (ihl hl hts.left hus).joined (ihr hr hts.of_append.tail hws) rfl rfl hfits ht
  | inc e ih =>
    obtain ⟨us, t, rfl, hus, ht⟩ := spells_inc.1 hus
    obtain ⟨e', hs, -, hread⟩ := ih hc.2 hts.left hus
    exact ((hread hc.1).extend t [] (by simp [ht]) (readPostfix_inc ht e')).readsAlong hs
  | factorial e ih =>
    obtain ⟨us, t, rfl, hus, ht⟩ := spells_factorial.1 hus
    obtain ⟨e', hs, -, hread⟩ := ih hc.2 hts.left hus
    exact ((hread hc.1).extend t [] (by simp [ht]) (readPostfix_factorial ht e')).readsAlong hs
  | field e name ih =>
    obtain ⟨us, t, w, rfl, hus', ht, hw, rfl⟩ := spells_field.1 hus
    obtain ⟨e', hs, -, hread⟩ := ih hc.2 hts.left hus'
    exact ((hread hc.1).extend t [w] (by simp [ht]) (readPostfix_field ht hw e')).readsAlong
      (Bool.and_eq_true_iff.2 ⟨hs, beq_self_eq_true _⟩)
  | parens e ih =>
    obtain ⟨t, us, w, rfl, ht, hus, hw⟩ := spells_parens.1 hus
    obtain ⟨e', hs, hread, -⟩ := ih hc hts.left.tail hus
    exact (leavesToPostfix_parens hread ht hw).readsAlong hs
  | callWith name e ih =>
    obtain ⟨t, u, us, w, rfl, ht, rfl, hu, hus', hw⟩ := spells_callWith.1 hus
    obtain ⟨e', hs, hread, -⟩ := ih hc hts.left.tail.tail hus'
    exact (leavesToPostfix_callWith hread ht hu hw).readsAlong
      (Bool.and_eq_true_iff.2 ⟨beq_self_eq_true _, hs⟩)

theorem fuelFor_lexemes (cells : Cells) (ts : List (Token Expr)) :
    fuelFor (lexemes cells ts) = 3 * ts.length + 3 := by
  simp [fuelFor, lexemes]

/-- What a row of texts reads as is canonical and spelled by the row. -/
theorem spells_of_parse (hts : TextOnly ts) (h : parse p cells ts = some e) :
    e.Canonical p ∧ Spells cells e ts := by
  rw [parse_eq_read, read, fuelFor_lexemes] at h
  split at h
  · rename_i e' hread
    cases h
    obtain ⟨⟨us, hus, hspells⟩, hcanon⟩ := (ReadsSpelled.all p cells _).operand hts (by omega) hread
    rw [List.append_nil] at hus
    exact ⟨hcanon, hus ▸ hspells⟩
  · cases h

theorem parse_of_spells (hts : TextOnly ts) (hc : e.Canonical p) (h : Spells cells e ts) :
    ∃ e', parse p cells ts = some e' ∧ e'.same cells e := by
  obtain ⟨e', hs, hread, -⟩ := readsAlong_of_spells e hc hts h
  obtain ⟨fuel', -, hclimb⟩ := hread [] (3 * ts.length + 2) 0 (by simp) (by simp [Closed])
    (by simp [Follows]) fun _ _ => Nat.zero_le _
  refine ⟨e', ?_, hs⟩
  rw [readClimb_stops (by simp [Stops]), List.append_nil] at hclimb
  rw [parse_eq_read, read, fuelFor_lexemes, readOperand, hclimb]

theorem length_cellsOf_of_same {a b : Expr} (h : a.same cells b) :
    a.cellsOf.length = b.cellsOf.length := by
  fun_induction same cells a b <;> simp_all [cellsOf]

/-- Expressions that show the same on the same cells are equal. -/
theorem eq_of_same {a b : Expr} (h : a.same cells b) (hc : a.cellsOf = b.cellsOf) : a = b := by
  fun_induction same cells a b
  case case3 l r l' r' ihl ihr | case4 l r l' r' ihl ihr =>
    obtain ⟨hl, hr⟩ := Bool.and_eq_true_iff.1 h
    obtain ⟨hcl, hcr⟩ := List.append_inj hc (length_cellsOf_of_same hl)
    rw [ihl hl hcl, ihr hr hcr]
  all_goals simp_all [cellsOf]

end

theorem parse_row (cells : Cells) {e : Expr} (h : e.Canonical p) : parse p cells e.row = some e := by
  obtain ⟨e', hparse, hsame⟩ := parse_of_spells (textOnly_row e) h (spells_row cells e)
  rw [hparse, eq_of_same hsame (by rw [cellsOf_parse hparse, rowCells_row])]

/-- A row of texts reads as `e` exactly when `e` is canonical and its print is alike to the row,
token by token; so as many tokens are printed as were read, and a print reads back exactly when the
expression is canonical. -/
theorem parse_inverts_print (p : Precedence) (cells : Cells) (e : Expr) {ts : List (Token Expr)}
    (hts : TextOnly ts) :
    ((∃ e', (language p).parse cells ts = some e' ∧ e'.same cells e) ↔
      e.Canonical p ∧ List.Forall₂ (Alike cells) ((language p).printed cells e).tokens ts) ∧
    (∀ e', (language p).parse cells ts = some e' →
      ((language p).printed cells e').tokens.length = ts.length) ∧
    ((language p).parse cells ((language p).printed cells e).tokens = some e ↔ e.Canonical p) := by
  rw [language_parse, printed_tokens]
  refine ⟨⟨?_, fun h => parse_of_spells hts h.1 h.2⟩, fun e' h => ?_, ⟨fun h => ?_, parse_row cells⟩⟩
  · rintro ⟨e', hparse, hsame⟩
    obtain ⟨hcanon, hspells⟩ := spells_of_parse hts hparse
    exact ⟨(canonical_of_same hsame).1 hcanon, hspells.of_same hsame⟩
  · rw [printed_tokens]
    exact (spells_of_parse hts h).2.length_eq
  · exact (spells_of_parse (textOnly_row e) h).1

/-- Leading zeros, other spacing and another cell with the same text make no difference. -/
theorem parse_inverts_print_padded :
    TextOnly [.plain ['0', '1'], .simple ['+'] .both, .value (text 1)] ∧
      ∃ e', (language {}).parse ⟨[{ text := ['x'] }, { text := ['x'] }]⟩
          [.plain ['0', '1'], .simple ['+'] .both, .value (text 1)] = some e' ∧
        e'.same ⟨[{ text := ['x'] }, { text := ['x'] }]⟩ (plus (int 1) (text 0)) := by
  refine ⟨by decide, ((parse_inverts_print {} _ _ (by decide)).1).2 ⟨by decide, ?_⟩⟩
  rw [printed_tokens]
  refine (spells_joined (k := .plus) rfl).2 ⟨[_], _, [_], rfl, ?_, ?_, ?_⟩
  · refine (spells_int (by decide)).2 ⟨_, rfl, ?_, by decide⟩
    have hkind : singleKind? ['0', '1'] = some .int := singleKind?_eq_int.2 ⟨by decide, by decide⟩
    simp [tokenKind, Token.plain, hkind]
  · exact tokenKind_symbols.1
  · exact (spells_text (by decide)).2 ⟨1, rfl, rfl⟩

end TokenEditor.Expr
