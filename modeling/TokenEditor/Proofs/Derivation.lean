import TokenEditor.Proofs.Inverse

/-! # The grammar of expressions

`Derives` gives the grammar by the kinds of the lexemes alone; precedence has no part in it.
`accepts_iff_derives`: a row of texts reads as an expression exactly when the grammar derives the
kinds of its tokens. The print of every canonical expression is derived, operand by operand.
Conversely a derivation is followed to a canonical expression that the row spells; a derivation
takes the operators from left to right, so each one is put behind an expression already built, below
the operators of that expression that bind more weakly (`Extends`). -/

namespace TokenEditor.Expr

/-- The rules of the grammar. -/
inductive Rule where
  | expr
  /-- An atom under postfix operators. -/
  | operand
  | atom
deriving DecidableEq

/-- The kinds of lexemes that a rule derives. -/
inductive Derives : Rule → List Kind → Prop
  | operand {ks} : Derives .operand ks → Derives .expr ks
  | binary {ks ks' k} : Derives .expr ks → k ∈ [Kind.plus, .star] → Derives .operand ks' →
      Derives .expr (ks ++ k :: ks')
  | atom {ks} : Derives .atom ks → Derives .operand ks
  | inc {ks} : Derives .operand ks → Derives .operand (ks ++ [.plusPlus])
  | factorial {ks} : Derives .operand ks → Derives .operand (ks ++ [.bang])
  | field {ks} : Derives .operand ks → Derives .operand (ks ++ [.dot, .ident])
  | name : Derives .atom [.ident]
  | number : Derives .atom [.int]
  | value : Derives .atom [.value]
  | call : Derives .atom [.ident, .lparen, .rparen]
  | callWith {ks} : Derives .expr ks → Derives .atom (.ident :: .lparen :: ks ++ [.rparen])
  | group {ks} : Derives .expr ks → Derives .atom (.lparen :: ks ++ [.rparen])

theorem mem_operators_iff {p : Precedence} {k : Kind} :
    k ∈ [Kind.plus, .star] ↔ ∃ level, p.level? k = some level := by
  cases k <;> simp [Precedence.level?]

/-- The right operand of an operator may hold operators of its own. -/
theorem Derives.join {ks ks' : List Kind} {k : Kind} (h : Derives .expr ks)
    (hk : k ∈ [Kind.plus, .star]) (h' : Derives .expr ks') : Derives .expr (ks ++ k :: ks') := by
  generalize hr : Rule.expr = rule at h'
  induction h' with
  | operand h' => exact .binary h hk h'
  | binary h₁ hk₁ h₂ ih =>
    rw [← List.cons_append, ← List.append_assoc]
    exact .binary (ih hr) hk₁ h₂
  | _ => cases hr

section
variable {p : Precedence} {cells : Cells} {ts us ws : List (Token Expr)} {t : Token Expr}
  {e e' l r b b' : Expr} {k j : Kind} {level m : Nat}

theorem Spells.kinds (h : Spells cells e ts) : ts.map tokenKind = e.row.map tokenKind := by
  unfold Spells at h
  generalize e.row = row at h
  induction h with
  | nil => rfl
  | cons ha _ ih => rw [List.map_cons, List.map_cons, ih, ha.kind]

/-- The print of a canonical expression is derived, and as an operand if no binary operator is at
its top. -/
theorem derives_of_canonical (e : Expr) (hc : e.Canonical p) :
    Derives .expr (e.row.map tokenKind) ∧
      (e.topLevel? p = none → Derives .operand (e.row.map tokenKind)) := by
  -- without a binary operator at the top there is an operand to derive
  have operand : ∀ {e : Expr}, Derives .operand (e.row.map tokenKind) →
      Derives .expr (e.row.map tokenKind) ∧
        (e.topLevel? p = none → Derives .operand (e.row.map tokenKind)) :=
    fun h => ⟨.operand h, fun _ => h⟩
  induction e with
  | var name => exact operand (.atom .name)
  | int n =>
    refine operand ?_
    simpa [tokenKind, Token.plain, singleKind?_write hc] using Derives.number.atom
  | text c => exact operand (.atom .value)
  | call name =>
    refine operand ?_
    simpa [tokenKind.eq_1] using Derives.call.atom
  | plus l r ihl ihr =>
    refine ⟨?_, fun htop => by simp [topLevel?, Precedence.level?] at htop⟩
    simpa using (ihl hc.2.1).1.join (k := .plus) (by simp) (ihr hc.2.2).1
  | mul l r ihl ihr =>
    refine ⟨?_, fun htop => by simp [topLevel?, Precedence.level?] at htop⟩
    simpa using (ihl hc.2.1).1.join (k := .star) (by simp) (ihr hc.2.2).1
  | inc e ih =>
    refine operand ?_
    simpa using ((ih hc.2).2 hc.1).inc
  | factorial e ih =>
    refine operand ?_
    simpa using ((ih hc.2).2 hc.1).factorial
  | field e name ih =>
    refine operand ?_
    simpa [tokenKind.eq_1] using ((ih hc.2).2 hc.1).field
  | parens e ih =>
    refine operand ?_
    simpa using (ih hc).1.group.atom
  | callWith name e ih =>
    refine operand ?_
    simpa [tokenKind.eq_1] using (ih hc).1.callWith.atom

/-! ### What is derived is spelled -/

/-- `e'` is `e` with the operator `k` and its right operand `r` put behind it. -/
structure Extends (p : Precedence) (cells : Cells) (k : Kind) (r e e' : Expr) : Prop where
  canonical : e'.Canonical p
  spells : ∀ {us t ws}, Spells cells e us → tokenKind t = k → Spells cells r ws →
    Spells cells e' (us ++ t :: ws)
  /-- The new operator is at the top, or the top is the old one. -/
  top : e'.topLevel? p = p.level? k ∨ e'.topLevel? p = e.topLevel? p

/-- Where the new operator binds no tighter, it takes the whole expression. -/
theorem exists_extends_of_le (hk : p.level? k = some level) (he : e.Canonical p)
    (hr : r.Canonical p) (htop : r.topLevel? p = none) (hle : ∀ m ∈ e.topLevel? p, level ≤ m) :
    ∃ e', Extends p cells k r e e' := by
  obtain ⟨e', hj⟩ := Option.isSome_iff_exists.1 (isSome_joined hk e r)
  have hfits : Fits p level e r := ⟨hle, by simp [htop]⟩
  exact ⟨e', (canonical_joined hj hk).2 ⟨hfits, he, hr⟩,
    fun hus ht hws => (spells_joined hj).2 ⟨_, _, _, rfl, hus, ht, hws⟩,
    .inl (topLevel?_joined hj)⟩

/-- Where it binds tighter, it takes of the right operand what it can. -/
theorem Extends.under (h : Extends p cells k r b b') (hk : p.level? k = some level)
    (hj : joined? j l b = some e) (hm : p.level? j = some m) (hc : e.Canonical p)
    (hlt : m < level) : ∃ e', Extends p cells k r e e' := by
  obtain ⟨⟨hl, hb⟩, hlc, -⟩ := (canonical_joined hj hm).1 hc
  obtain ⟨e', hj'⟩ := Option.isSome_iff_exists.1 (isSome_joined hm l b')
  have hfits : Fits p m l b' := by
    refine ⟨hl, fun n hn => ?_⟩
    rcases h.top with htop | htop
    · rw [htop, hk] at hn
      cases hn
      exact hlt
    · exact hb n (htop ▸ hn)
  refine ⟨e', (canonical_joined hj' hm).2 ⟨hfits, hlc, h.canonical⟩, fun {us t ws} hus ht hws => ?_,
    .inr ((topLevel?_joined hj').trans (topLevel?_joined hj).symm)⟩
  obtain ⟨us₁, u, us₂, rfl, hl, hu, hb⟩ := (spells_joined hj).1 hus
  exact (spells_joined hj').2 ⟨us₁, u, us₂ ++ t :: ws, by simp, hl, hu, h.spells hb ht hws⟩

/-- An operator and an operand can be put behind every canonical expression. -/
theorem exists_extends (cells : Cells) (hk : p.level? k = some level) (hr : r.Canonical p)
    (htop : r.topLevel? p = none) (e : Expr) (he : e.Canonical p) :
    ∃ e', Extends p cells k r e e' := by
  induction e with
  | plus l b _ ih =>
    rcases Nat.lt_or_ge p.plus.toNat level with hlt | hge
    · obtain ⟨b', hb'⟩ := ih he.2.2
      exact hb'.under (j := .plus) hk rfl rfl he hlt
    · exact exists_extends_of_le hk he hr htop (by simpa [topLevel?, Precedence.level?] using hge)
  | mul l b _ ih =>
    rcases Nat.lt_or_ge p.mul.toNat level with hlt | hge
    · obtain ⟨b', hb'⟩ := ih he.2.2
      exact hb'.under (j := .star) hk rfl rfl he hlt
    · exact exists_extends_of_le hk he hr htop (by simpa [topLevel?, Precedence.level?] using hge)
  | _ => exact exists_extends_of_le hk he hr htop (by simp [topLevel?])

/-- A row of texts whose kinds are derived spells a canonical expression, without a binary operator
at the top where only an operand was derived. -/
theorem exists_spells_of_derives (p : Precedence) (cells : Cells) {rule : Rule} {ks : List Kind}
    (h : Derives rule ks) (hts : TextOnly ts) (hks : ts.map tokenKind = ks) :
    ∃ e, e.Canonical p ∧ Spells cells e ts ∧ (rule ≠ .expr → e.topLevel? p = none) := by
  induction h generalizing ts with
  | operand _ ih =>
    obtain ⟨e, hc, hs, -⟩ := ih hts hks
    exact ⟨e, hc, hs, fun h => absurd rfl h⟩
  | binary _ hmem _ ihl ihr =>
    obtain ⟨us, ws, rfl, hus, hws⟩ := List.map_eq_append_iff.1 hks
    obtain ⟨t, ws, rfl, ht, hws⟩ := List.map_eq_cons_iff.1 hws
    obtain ⟨l, hlc, hls, -⟩ := ihl hts.left hus
    obtain ⟨r, hrc, hrs, htop⟩ := ihr hts.of_append.tail hws
    obtain ⟨level, hk⟩ := mem_operators_iff.1 hmem
    obtain ⟨e, he⟩ := exists_extends cells hk hrc (htop (by decide)) l hlc
    exact ⟨e, he.canonical, he.spells hls ht hrs, fun h => absurd rfl h⟩
  | atom _ ih =>
    obtain ⟨e, hc, hs, htop⟩ := ih hts hks
    exact ⟨e, hc, hs, fun _ => htop (by decide)⟩
  | inc _ ih =>
    obtain ⟨us, ws, rfl, hus, hws⟩ := List.map_eq_append_iff.1 hks
    obtain ⟨t, rfl, ht⟩ := List.map_eq_singleton_iff.1 hws
    obtain ⟨e, hc, hs, htop⟩ := ih hts.left hus
    exact ⟨inc e, ⟨htop (by decide), hc⟩, spells_inc.2 ⟨us, t, rfl, hs, ht⟩, fun _ => rfl⟩
  | factorial _ ih =>
    obtain ⟨us, ws, rfl, hus, hws⟩ := List.map_eq_append_iff.1 hks
    obtain ⟨t, rfl, ht⟩ := List.map_eq_singleton_iff.1 hws
    obtain ⟨e, hc, hs, htop⟩ := ih hts.left hus
    exact ⟨factorial e, ⟨htop (by decide), hc⟩, spells_factorial.2 ⟨us, t, rfl, hs, ht⟩,
      fun _ => rfl⟩
  | field _ ih =>
    obtain ⟨us, ws, rfl, hus, hws⟩ := List.map_eq_append_iff.1 hks
    obtain ⟨t, ws, rfl, ht, hws⟩ := List.map_eq_cons_iff.1 hws
    obtain ⟨w, rfl, hw⟩ := List.map_eq_singleton_iff.1 hws
    obtain ⟨e, hc, hs, htop⟩ := ih hts.left hus
    exact ⟨field e (w.text cells), ⟨htop (by decide), hc⟩,
      spells_field.2 ⟨us, t, w, rfl, hs, ht, hw, rfl⟩, fun _ => rfl⟩
  | name =>
    obtain ⟨t, rfl, ht⟩ := List.map_eq_singleton_iff.1 hks
    exact ⟨var (t.text cells), trivial, spells_var.2 ⟨t, rfl, ht, rfl⟩, fun _ => rfl⟩
  | number =>
    obtain ⟨t, rfl, ht⟩ := List.map_eq_singleton_iff.1 hks
    obtain ⟨n, hn⟩ := Option.isSome_iff_exists.1 (isSome_read?_of_tokenKind_int cells ht)
    have hpos := toInt_of_tokenKind_int ht hn
    exact ⟨int n, hpos, (spells_int hpos).2 ⟨t, rfl, ht, hn⟩, fun _ => rfl⟩
  | value =>
    obtain ⟨t, rfl, ht⟩ := List.map_eq_singleton_iff.1 hks
    obtain ⟨v, rfl⟩ := exists_of_tokenKind_value ht
    have hv := hts (.value v) (by simp)
    cases v with
    | text c => exact ⟨text c, trivial, spells_row cells _, fun _ => rfl⟩
    | _ => simp [embedsText] at hv
  | call =>
    obtain ⟨t, us, rfl, ht, hus⟩ := List.map_eq_cons_iff.1 hks
    obtain ⟨u, ws, rfl, hu, hws⟩ := List.map_eq_cons_iff.1 hus
    obtain ⟨w, rfl, hw⟩ := List.map_eq_singleton_iff.1 hws
    exact ⟨call (t.text cells), trivial, spells_call.2 ⟨t, u, w, rfl, ht, rfl, hu, hw⟩, fun _ => rfl⟩
  | callWith _ ih =>
    obtain ⟨t, us, rfl, ht, hus⟩ := List.map_eq_cons_iff.1 hks
    obtain ⟨u, us, rfl, hu, hus⟩ := List.map_eq_cons_iff.1 hus
    obtain ⟨us, ws, rfl, hinner, hws⟩ := List.map_eq_append_iff.1 hus
    obtain ⟨w, rfl, hw⟩ := List.map_eq_singleton_iff.1 hws
    obtain ⟨e, hc, hs, -⟩ := ih hts.tail.tail.left hinner
    exact ⟨callWith (t.text cells) e, hc, spells_callWith.2 ⟨t, u, us, w, rfl, ht, rfl, hu, hs, hw⟩,
      fun _ => rfl⟩
  | group _ ih =>
    obtain ⟨t, us, rfl, ht, hus⟩ := List.map_eq_cons_iff.1 hks
    obtain ⟨us, ws, rfl, hinner, hws⟩ := List.map_eq_append_iff.1 hus
    obtain ⟨w, rfl, hw⟩ := List.map_eq_singleton_iff.1 hws
    obtain ⟨e, hc, hs, -⟩ := ih hts.tail.left hinner
    exact ⟨parens e, hc, spells_parens.2 ⟨t, us, w, rfl, ht, hs, hw⟩, fun _ => rfl⟩

theorem derives_of_parse (hts : TextOnly ts) (h : parse p cells ts = some e) :
    Derives .expr (ts.map tokenKind) := by
  obtain ⟨hc, hs⟩ := spells_of_parse hts h
  rw [hs.kinds]
  exact (derives_of_canonical e hc).1

theorem parse_of_derives (p : Precedence) (cells : Cells) (hts : TextOnly ts)
    (h : Derives .expr (ts.map tokenKind)) : ∃ e, parse p cells ts = some e := by
  obtain ⟨e, hc, hs, -⟩ := exists_spells_of_derives p cells h hts rfl
  obtain ⟨e', he', -⟩ := parse_of_spells hts hc hs
  exact ⟨e', he'⟩

end

/-- Whatever the precedence, a row of texts reads as an expression exactly when the grammar derives
the kinds of its tokens. -/
theorem accepts_iff_derives (p : Precedence) (cells : Cells) {ts : List (Token Expr)}
    (hts : TextOnly ts) :
    ((language p).parse cells ts).isSome ↔ Derives .expr (ts.map tokenKind) := by
  rw [language_parse, Option.isSome_iff_exists]
  exact ⟨fun ⟨_, h⟩ => derives_of_parse hts h, parse_of_derives p cells hts⟩

/-- `f ( 1 ) ! * "t"` is derived, and without its last token it is not. -/
theorem accepts_iff_derives_call :
    TextOnly [.identifier ['f'], callToken, .plain ['1'], closeToken, factorialToken, mulToken,
      .value (text 0)] ∧
    Derives .expr [.ident, .lparen, .int, .rparen, .bang, .star, .value] ∧
    ¬ Derives .expr [.ident, .lparen, .int, .rparen, .bang, .star] := by
  refine ⟨by decide, ?_, ?_⟩
  · have hkinds : [.identifier ['f'], callToken, .plain ['1'], closeToken, factorialToken, mulToken,
        .value (text 0)].map tokenKind =
        [.ident, .lparen, .int, .rparen, .bang, .star, .value] := by decide +kernel
    rw [← hkinds, ← accepts_iff_derives {} {} (by decide)]
    decide +kernel
  · have hkinds : [.identifier ['f'], callToken, .plain ['1'], closeToken, factorialToken,
        mulToken].map tokenKind = [.ident, .lparen, .int, .rparen, .bang, .star] := by decide +kernel
    rw [← hkinds, ← accepts_iff_derives {} {} (by decide)]
    decide +kernel

end TokenEditor.Expr
