import TokenEditor.Proofs.Payload
import TokenEditor.Proofs.Reader
import TokenEditor.Sum.Language

/-! # Languages that see what is shown

The editor hands a language copies of its tokens. That makes no difference to a `Structural`
language: what it reads and prints depends on the texts in the cells, not on which cells hold them.
Both languages are structural, and beyond that `Linear`: every occurrence of a cell in a row is one
in the value read from it, and the print of a value shows, and watches, the cells of the value in
their order. -/

namespace TokenEditor

namespace Language
variable {V : Type} [Payload V]

/-- Reading and printing depend on what the tokens and values show, and bring in no other cells. -/
structure Structural (l : Language V) : Prop where
  parse_keeps : ∀ {before after : Cells} {ts : List (Token V)}, before.Keeps after →
    before.Has (rowCells ts) → l.parse after ts = l.parse before ts
  parse_same : ∀ {cells : Cells} {ts us : List (Token V)} {v : V}, SameRow cells ts us →
    l.parse cells ts = some v → ∃ w, l.parse cells us = some w ∧ Payload.same cells v w
  parse_has : ∀ {cells : Cells} {ts : List (Token V)} {v : V}, cells.Has (rowCells ts) →
    l.parse cells ts = some v → cells.Has (Payload.cellsOf v)
  print_keeps : ∀ {before after : Cells} {v : V}, before.Keeps after →
    before.Has (Payload.cellsOf v) → l.print after v = l.print before v
  print_has : ∀ {cells : Cells} {v : V}, cells.Has (Payload.cellsOf v) →
    cells.Has (rowCells (l.printed cells v).tokens)

/-- A row, its value and its print have the same cells, once per occurrence. -/
structure Linear (l : Language V) : Prop where
  parse_cells : ∀ {cells : Cells} {ts : List (Token V)} {v : V},
    l.parse cells ts = some v → Payload.cellsOf v = rowCells ts
  print_cells : ∀ (cells : Cells) (v : V),
    rowCells (l.printed cells v).tokens = Payload.cellsOf v
  print_watched : ∀ (cells : Cells) (v : V), (l.printed cells v).watched = Payload.cellsOf v

end Language

namespace Expr
variable {cells before after : Cells} {a b : Expr} {ts us : List (Token Expr)} {p : Precedence}

/-- The languages of expressions. -/
def IsLanguage (l : Language Expr) : Prop := ∃ p, l = language p

theorem display_of_same (h : a.same cells b) : a.display cells = b.display cells := by
  fun_induction same cells a b <;> simp_all [display]

theorem display_congr (h : ∀ c ∈ a.cellsOf, after.text c = before.text c) :
    a.display after = a.display before := by
  induction a <;> simp_all [display, cellsOf]

theorem lexeme_of_same {t u : Token Expr} (h : t.same cells u) :
    Lexeme.ofToken cells t = Lexeme.ofToken cells u := by
  cases t <;> cases u
  case value.value v w => exact congrArg (Lexeme.mk .value) (display_of_same h)
  all_goals simp_all [Token.same, Lexeme.ofToken, tokenKind, Token.text]

theorem lexemes_of_sameRow (h : SameRow cells ts us) : lexemes cells ts = lexemes cells us := by
  induction h with
  | nil => rfl
  | cons htu _ ih => rw [lexemes_cons, lexemes_cons, ih, lexeme_of_same htu]

theorem lexemes_keeps (hk : before.Keeps after) (h : before.Has (rowCells ts)) :
    lexemes after ts = lexemes before ts := by
  induction ts with
  | nil => rfl
  | cons t ts ih =>
    obtain ⟨ht, hts⟩ := Cells.has_append.1 h
    rw [lexemes_cons, lexemes_cons, ih hts, Lexeme.ofToken, Lexeme.ofToken]
    cases t with
    | value v =>
      congr 2
      exact display_congr fun c hc => hk.text_eq c (ht c hc)
    | _ => rfl

/-! Lowering a tree puts the payloads into the expression, each once and in order. -/

/-- The expressions show the same, one by one. -/
abbrev SameList (cells : Cells) : List Expr → List Expr → Prop :=
  List.Forall₂ fun a b => a.same cells b = true

theorem payloads_of_sameRow (h : SameRow cells ts us) :
    SameList cells (payloads ts) (payloads us) := by
  induction h with
  | nil => exact .nil
  | @cons t u ts us htu _ ih =>
    cases t <;> cases u
    case value.value v w => exact .cons htu ih
    all_goals first | exact ih | exact absurd htu Bool.false_ne_true

theorem rowCells_eq_payloads (ts : List (Token Expr)) :
    rowCells ts = (payloads ts).flatMap cellsOf := by
  induction ts with
  | nil => rfl
  | cons t ts ih =>
    cases t with
    | value v => exact congrArg (v.cellsOf ++ ·) ih
    | _ => exact ih

section
variable {k : Kind} {children t : Tree} {n : Nat} {e : Expr} {vs vs' es es' rest : List Expr}

theorem assemble_same (hes : SameList cells es es')
    (h : assemble k children es = some e) :
    ∃ e', assemble k children es' = some e' ∧ e.same cells e' := by
  unfold assemble at h
  split at h
  case h_3 x =>
    cases hes with | cons hx hes => ?_
    cases hes
    cases h
    exact ⟨_, rfl, hx⟩
  case h_5 x | h_6 x =>
    cases hes with | cons hx hes => ?_
    cases hes
    obtain ⟨name, hname, rfl⟩ := Option.map_eq_some_iff.1 h
    exact ⟨_, Option.map_eq_some_iff.2 ⟨name, hname, rfl⟩, by simpa [same] using hx⟩
  case h_7 x =>
    cases hes with | cons hx hes => ?_
    cases hes
    split at h <;> cases h <;> rename_i hop
    all_goals
      refine ⟨_, by simp only [assemble, hop]; rfl, ?_⟩
      exact hx
  case h_8 x y =>
    cases hes with | cons hx hes => ?_
    cases hes with | cons hy hes => ?_
    cases hes
    split at h <;> cases h <;> rename_i hop
    all_goals
      refine ⟨_, by simp only [assemble, hop]; rfl, ?_⟩
      exact Bool.and_eq_true_iff.2 ⟨hx, hy⟩
  case h_9 => cases h
  case h_4 =>
    cases hes
    exact ⟨e, h, same_refl _ _⟩
  all_goals exact ⟨e, by simpa only [assemble] using h, same_refl _ _⟩

theorem assemble_cells (hes : es.length ≤ arity k) (h : assemble k children es = some e) :
    e.cellsOf = es.flatMap cellsOf := by
  unfold assemble at h
  split at h
  case h_7 | h_8 => split at h <;> cases h <;> simp [cellsOf]
  case h_3 | h_9 => cases h <;> simp [cellsOf]
  all_goals
    obtain ⟨_, -, rfl⟩ := Option.map_eq_some_iff.1 h
    simp_all [cellsOf, arity]

theorem lowerNodes_node (hk : k ≠ .valueExpr) (rest : Tree) (vs : List Expr) :
    lowerNodes (n + 1) (.node k children rest) vs =
      (lowerNodes (arity k) children vs).bind fun r =>
        (assemble k children r.1).bind fun e =>
          (lowerNodes n rest r.2).bind fun r' => some (e :: r'.1, r'.2) := by
  rw [lowerNodes.eq_def]
  cases k <;> first | contradiction | rfl

theorem lowerNodes_same (hvs : SameList cells vs vs') (h : lowerNodes n t vs = some (es, rest)) :
    ∃ es' rest', lowerNodes n t vs' = some (es', rest') ∧ SameList cells es es' ∧
      SameList cells rest rest' := by
  induction t generalizing n vs vs' es rest with
  | nil =>
    cases n <;> cases h <;> exact ⟨[], vs', by simp [lowerNodes], .nil, hvs⟩
  | leaf l t ih =>
    cases n with
    | zero => cases h; exact ⟨[], vs', by simp [lowerNodes], .nil, hvs⟩
    | succ n => exact ih hvs h
  | node k children t ihc iht =>
    cases n with
    | zero => cases h; exact ⟨[], vs', by simp [lowerNodes], .nil, hvs⟩
    | succ n =>
      by_cases hk : k = .valueExpr
      · subst hk
        cases hvs with
        | nil => cases h
        | cons hv hvs =>
          obtain ⟨⟨es₁, rest₁⟩, h₁, h₂⟩ := Option.bind_eq_some_iff.1 h
          cases h₂
          obtain ⟨es', rest', h', hes, hrest⟩ := iht hvs h₁
          exact ⟨_, rest', Option.bind_eq_some_iff.2 ⟨_, h', rfl⟩, .cons hv hes, hrest⟩
      · rw [lowerNodes_node hk] at h
        obtain ⟨⟨es₁, vs₁⟩, h₁, h⟩ := Option.bind_eq_some_iff.1 h
        obtain ⟨e, he, h⟩ := Option.bind_eq_some_iff.1 h
        obtain ⟨⟨es₂, vs₂⟩, h₂, h⟩ := Option.bind_eq_some_iff.1 h
        cases h
        obtain ⟨es₁', vs₁', h₁', hes₁, hvs₁⟩ := ihc hvs h₁
        obtain ⟨e', he', hs⟩ := assemble_same hes₁ he
        obtain ⟨es₂', vs₂', h₂', hes₂, hvs₂⟩ := iht hvs₁ h₂
        refine ⟨e' :: es₂', vs₂', ?_, .cons hs hes₂, hvs₂⟩
        simp only [lowerNodes_node hk, h₁', Option.bind_some, he', h₂']

theorem lowerNodes_cells (h : lowerNodes n t vs = some (es, rest)) :
    es.length ≤ n ∧ ∃ used, vs = used ++ rest ∧ es.flatMap cellsOf = used.flatMap cellsOf := by
  induction t generalizing n vs es rest with
  | nil => cases n <;> cases h <;> exact ⟨Nat.zero_le _, [], rfl, rfl⟩
  | leaf l t ih =>
    cases n with
    | zero => cases h; exact ⟨Nat.zero_le _, [], rfl, rfl⟩
    | succ n => exact ih h
  | node k children t ihc iht =>
    cases n with
    | zero => cases h; exact ⟨Nat.zero_le _, [], rfl, rfl⟩
    | succ n =>
      by_cases hk : k = .valueExpr
      · subst hk
        cases vs with
        | nil => cases h
        | cons v vs =>
          obtain ⟨⟨es₁, rest₁⟩, h₁, h₂⟩ := Option.bind_eq_some_iff.1 h
          cases h₂
          obtain ⟨hlen, used, rfl, hused⟩ := iht h₁
          exact ⟨by simpa using hlen, v :: used, rfl, by simp [hused]⟩
      · rw [lowerNodes_node hk] at h
        obtain ⟨⟨es₁, vs₁⟩, h₁, h⟩ := Option.bind_eq_some_iff.1 h
        obtain ⟨e, he, h⟩ := Option.bind_eq_some_iff.1 h
        obtain ⟨⟨es₂, vs₂⟩, h₂, h⟩ := Option.bind_eq_some_iff.1 h
        cases h
        obtain ⟨hlen₁, used₁, rfl, hused₁⟩ := ihc h₁
        obtain ⟨hlen₂, used₂, rfl, hused₂⟩ := iht h₂
        refine ⟨by simpa using hlen₂, used₁ ++ used₂, by simp, ?_⟩
        simp [assemble_cells hlen₁ he, hused₁, hused₂]

theorem Node.Means.cellsOf_eq {m : Node} (h : m.Means e vs) : e.cellsOf = vs.flatMap cellsOf := by
  obtain ⟨-, used, hvs, hused⟩ := lowerNodes_cells (h.lowers_one .nil [])
  simp only [List.append_nil] at hvs
  simpa [hvs] using hused

theorem cellsOf_parse (h : parse p cells ts = some e) : e.cellsOf = rowCells ts := by
  obtain ⟨m, hm⟩ := exists_means_of_parse h
  rw [hm.cellsOf_eq, rowCells_eq_payloads]

theorem parse_keeps (hk : before.Keeps after) (h : before.Has (rowCells ts)) :
    parse p after ts = parse p before ts := by
  have hlex := lexemes_keeps hk h
  unfold lexemes at hlex
  rw [parse, parse, hlex]

theorem parse_same (hts : SameRow cells ts us) (h : parse p cells ts = some e) :
    ∃ e', parse p cells us = some e' ∧ e.same cells e' := by
  change lower (parseLexemes p (lexemes cells ts)) (payloads ts) = some e at h
  change ∃ e', lower (parseLexemes p (lexemes cells us)) (payloads us) = some e' ∧ e.same cells e'
  rw [← lexemes_of_sameRow hts]
  unfold lower at h ⊢
  split at h
  · cases h
  rename_i herr
  rw [if_neg herr]
  split at h
  · cases h
  rename_i k children hroot
  split at h
  · rename_i e₁ vs₁ hlow
    cases h
    obtain ⟨es', vs', hlow', hes, -⟩ := lowerNodes_same (payloads_of_sameRow hts) hlow
    cases hes with
    | cons he hes =>
      cases hes
      exact ⟨_, by simp only [hlow'], he⟩
  · cases h

end

/-! What is printed for an expression. -/

/-- The tokens printed for an expression. -/
def row (e : Expr) : List (Token Expr) :=
  e.printSteps.filterMap PrintStep.token?

theorem printed_tokens (p : Precedence) (cells : Cells) (e : Expr) :
    ((language p).printed cells e).tokens = e.row := rfl

section
variable (l r e : Expr) (name : Text)

@[simp] theorem row_var : (var name).row = [.identifier name] := rfl

@[simp] theorem row_int (n : Int64) : (int n).row = [.plain (Decimal.write n)] := rfl

@[simp] theorem row_text (c : CellId) : (text c).row = [.value (text c)] := rfl

@[simp] theorem row_call : (call name).row = [.identifier name, callToken, closeToken] := rfl

@[simp] theorem row_plus : (plus l r).row = l.row ++ plusToken :: r.row := by
  simp [row, printSteps, List.filterMap_cons, PrintStep.token?]

@[simp] theorem row_mul : (mul l r).row = l.row ++ mulToken :: r.row := by
  simp [row, printSteps, List.filterMap_cons, PrintStep.token?]

@[simp] theorem row_inc : (inc e).row = e.row ++ [incToken] := by
  simp [row, printSteps, List.filterMap_cons, PrintStep.token?]

@[simp] theorem row_factorial : (factorial e).row = e.row ++ [factorialToken] := by
  simp [row, printSteps, List.filterMap_cons, PrintStep.token?]

@[simp] theorem row_parens : (parens e).row = groupToken :: e.row ++ [closeToken] := by
  simp [row, printSteps, List.filterMap_cons, PrintStep.token?]

@[simp] theorem row_callWith :
    (callWith name e).row = .identifier name :: callToken :: e.row ++ [closeToken] := by
  simp [row, printSteps, List.filterMap_cons, PrintStep.token?]

@[simp] theorem row_field : (field e name).row = e.row ++ [dotToken, .identifier name] := by
  simp [row, printSteps, List.filterMap_cons, PrintStep.token?]

end

@[simp] theorem rowCells_row (e : Expr) : rowCells e.row = e.cellsOf := by
  induction e <;>
    simp_all [cellsOf, Token.cellsOf, Payload.cellsOf, Token.plain, plusToken, mulToken, incToken,
      factorialToken, dotToken, groupToken, callToken, closeToken]

theorem watched_printSteps (e : Expr) : e.printSteps.filterMap PrintStep.watch? = e.cellsOf := by
  induction e <;> simp_all [printSteps, cellsOf, List.filterMap_cons, PrintStep.watch?]

theorem language_parse (p : Precedence) : (language p).parse = parse p := rfl

theorem printed_watched (p : Precedence) (cells : Cells) (e : Expr) :
    ((language p).printed cells e).watched = e.cellsOf :=
  watched_printSteps e

theorem language_structural (p : Precedence) : (language p).Structural where
  parse_keeps hk h := by
    rw [language_parse]
    exact parse_keeps hk h
  parse_same hts h := by
    rw [language_parse] at h ⊢
    exact parse_same hts h
  parse_has hts h := by
    rw [language_parse] at h
    have hcells := cellsOf_parse h
    intro c hc
    exact hts c (hcells ▸ hc)
  print_keeps _ _ := rfl
  print_has h := by
    rw [printed_tokens, rowCells_row]
    exact h

theorem language_linear (p : Precedence) : (language p).Linear where
  parse_cells h := by
    rw [language_parse] at h
    exact cellsOf_parse h
  print_cells _ _ := by
    rw [printed_tokens]
    exact rowCells_row _
  print_watched := printed_watched p

end Expr

namespace Sum

theorem cellsOf_of_isInc {t : Token Sum} (h : isInc t) : t.cellsOf = [] := by
  cases t <;> first | rfl | cases h

theorem cellsOf_of_isPlus {t : Token Sum} (h : isPlus t) : t.cellsOf = [] := by
  cases t <;> first | rfl | cases h

theorem cellsOf_of_atom? {t : Token Sum} {e : Sum} (h : atom? t = some e) :
    e.cellsOf = t.cellsOf := by
  cases t with
  | value v => cases h; rfl
  | identifier name => cases h; rfl
  | simple text glue =>
    simp only [atom?] at h
    split at h
    · obtain ⟨n, -, rfl⟩ := Option.map_eq_some_iff.1 h
      rfl
    · cases h
  | _ => cases h

theorem increments_cells (e : Sum) (ts : List (Token Sum)) :
    (increments e ts).1.cellsOf ++ rowCells (increments e ts).2 = e.cellsOf ++ rowCells ts := by
  fun_induction increments e ts with
  | case1 => rfl
  | case2 e t ts h ih => rw [ih, rowCells_cons, cellsOf_of_isInc h]; rfl
  | case3 => rfl

theorem terms?_cells {ts : List (Token Sum)} {es : List Sum} (h : terms? ts = some es) :
    cellsOfAll es = rowCells ts := by
  fun_induction terms? ts generalizing es with
  | case1 => cases h
  | case2 => cases h
  | case3 t ts e he e' hinc =>
    cases h
    have := increments_cells e ts
    rw [hinc] at this
    simpa [cellsOfAll, cellsOf_of_atom? he] using this
  | case4 t ts e he e' plus rest hinc hplus ih =>
    obtain ⟨es', hes', rfl⟩ := Option.map_eq_some_iff.1 h
    have := increments_cells e ts
    rw [hinc] at this
    simpa [cellsOfAll, cellsOf_of_atom? he, ih hes', cellsOf_of_isPlus hplus] using this
  | case5 => cases h

theorem cellsOf_parse {ts : List (Token Sum)} {e : Sum} (h : parse ts = some e) :
    e.cellsOf = rowCells ts := by
  unfold parse at h
  split at h
  · rename_i e₁ hterms
    cases h
    simpa [cellsOfAll] using terms?_cells hterms
  · rename_i es hes hterms
    cases h
    exact terms?_cells hterms
  · cases h

/-- The steps show and watch the cells `cs`. -/
def Shows (steps : List (PrintStep Sum)) (cs : List CellId) : Prop :=
  rowCells (steps.filterMap PrintStep.token?) = cs ∧ steps.filterMap PrintStep.watch? = cs

theorem Shows.append {s s' : List (PrintStep Sum)} {cs cs' : List CellId} (h : Shows s cs)
    (h' : Shows s' cs') : Shows (s ++ s') (cs ++ cs') := by
  simp [Shows, h.1, h.2, h'.1, h'.2]

theorem Shows.node {s : List (PrintStep Sum)} {cs : List CellId} (h : Shows s cs) (e : Sum) :
    Shows (.enter e :: s ++ [.close]) cs := by
  simpa [Shows, List.filterMap_cons, PrintStep.token?, PrintStep.watch?] using h

mutual

theorem shows_printSteps {style : Style} (hs : style.dropLast = false) :
    ∀ e : Sum, Shows (e.printSteps style) e.cellsOf
  | num _ | var _ | note _ => ⟨rfl, rfl⟩
  | inc e => by
    have h : Shows [.token incToken] [] := ⟨rfl, rfl⟩
    simpa [printSteps, cellsOf] using ((shows_printSteps hs e).node e).append h
  | add es => shows_printTerms hs es

theorem shows_printTerms {style : Style} (hs : style.dropLast = false) :
    ∀ es : List Sum, Shows (printTerms style es) (cellsOfAll es)
  | [] => ⟨rfl, rfl⟩
  | [e] => by
    simpa [printTerms, hs, cellsOfAll] using (shows_printSteps hs e).node e
  | e :: e' :: es => by
    have h : Shows [.token plusToken] [] := ⟨rfl, rfl⟩
    simpa [printTerms, cellsOfAll] using
      ((shows_printSteps hs e).node e).append (h.append (shows_printTerms hs (e' :: es)))

end

theorem language_linear {style : Style} (h : style.dropLast = false) :
    (language style).Linear where
  parse_cells := cellsOf_parse
  print_cells _ e := (shows_printSteps h e).1
  print_watched _ e := (shows_printSteps h e).2

end Sum

end TokenEditor
