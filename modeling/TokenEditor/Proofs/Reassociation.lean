import Mathlib.Data.List.Chain
import TokenEditor.Proofs.Calls
import TokenEditor.Proofs.Derivation
import TokenEditor.Proofs.Keystrokes

/-! # Changing the precedence

Two expressions whose prints the grammar cannot tell apart are printed with the same tokens
(`sameRow_of_spells`), and whether a row reads does not depend on the precedence. So when a region
in order is given another precedence, the value is nested anew and the row stays
(`setLanguage_reassociates`). Two kinds of regions in order are not reached by this: while a
synchronisation runs nothing is read, and a row that has been left behind by a value which was taken
away need not read at all. -/

namespace TokenEditor.Region

section
variable {V : Type} [Payload V] {r : Region V} {l : Language V}

/-- The region while its row is read in another language. -/
def reading (l : Language V) (r : Region V) : Region V :=
  { r with language := l, parses := 0, syncing := true }

theorem wp_setLanguage {post : Unit → Region V → Prop} {fail : EditError → Region V → Prop}
    (hs : r.syncing = false) (ha : r.autoReparse = true) (hr : r.restoring = false) :
    wp (setLanguage l) post fail r ↔
      if r.tokens.isEmpty then wp updateToPrinted post fail (r.reading l).emptied.endSync
      else match l.parse r.copied.2 r.copied.1 with
        | none => wp updateToPrinted post fail (r.reading l).refused.endSync
        | some v =>
          if (l.printed r.copied.2 v).tokens.length = r.tokens.length
          then wp updateToPrinted post fail ((r.reading l).took v).endSync
          else fail (.mismatch (l.printed r.copied.2 v).tokens.length r.tokens.length)
            ((r.reading l).took v).endSync := by
  simp only [setLanguage, wp_bind, wp_modify, wp_get]
  rw [if_pos ha, wp_bind, wp_sync, if_neg (by simp [hs]), wp_reparse,
    if_neg (by simp [underSync, hr])]
  rfl

/-- The row has been read in `l`, with the value `v`. -/
structure ReadIn (l : Language V) (v : Option V) (before after : Region V) : Prop
    extends KeepsRow before after where
  language : after.language = l
  valid : after.valid = true
  value : after.value = v
  syncing : after.syncing = false

omit [Payload V] in
theorem readIn_emptied (l : Language V) (r : Region V) :
    ReadIn l none r (r.reading l).emptied.endSync :=
  ⟨⟨rfl, rfl, rfl⟩, rfl, rfl, rfl, rfl⟩

theorem readIn_took (l : Language V) (r : Region V) (v : V) :
    ReadIn l (some v) r ((r.reading l).took v).endSync := by
  have h := reread_reprint ((r.reading l).taking v)
  exact ⟨⟨h.tokens, h.views, h.modifications⟩, h.language, rfl, value_reprint _, rfl⟩

theorem printed_took (l : Language V) (r : Region V) (v : V) :
    ((r.reading l).took v).endSync.printed = some (l.printed r.copied.2 v).tokens ∧
      r.copied.2.Keeps ((r.reading l).took v).endSync.cells :=
  ⟨rfl, keeps_took (r.reading l) v⟩

end

end TokenEditor.Region

namespace TokenEditor.Expr

section
variable {cells : Cells} {t u : Token Expr} {ts us : List (Token Expr)} {a : Bool} {e v : Expr}
  {p : Precedence}

/-- If the grammar knows the token it is tidy, or an embedded text. It does not know negative
integers. -/
def Printable (afterName : Bool) (t : Token Expr) : Prop :=
  tokenKind t ≠ .errorToken → TidyToken afterName t ∨ ∃ c, t = .value (text c)

theorem TidyToken.kind_ne_value (h : TidyToken a t) : tokenKind t ≠ .value := by
  intro hk
  obtain ⟨v, rfl⟩ := exists_of_tokenKind_value hk
  cases h.isValue

namespace Printable

theorem identifier (name : Text) : Printable a (.identifier name) :=
  fun _ => .inl (.identifier name)

theorem number (n : Int64) : Printable a (.plain (Decimal.write n)) := by
  intro hne
  by_cases hn : 0 ≤ n.toInt
  · exact .inl (.number hn)
  · -- a sign alone is no lexeme
    have hwrite : Decimal.write n = '-' :: Nat.toDigits 10 n.toInt.natAbs := by
      rw [Decimal.write, if_pos (by omega)]
    cases hk : singleKind? (Decimal.write n) with
    | none => exact absurd (by simp [tokenKind, Token.plain, hk]) hne
    | some k =>
      rw [hwrite] at hk
      obtain ⟨hfirst, -, -, herror⟩ := firstLexeme_of_singleKind? hk
      exact absurd hfirst.symm herror

theorem value (c : CellId) : Printable a (.value (text c)) :=
  fun _ => .inr ⟨c, rfl⟩

theorem symbol (h : t ∈ [plusToken, mulToken, incToken, factorialToken, dotToken, closeToken]) :
    Printable a t :=
  fun _ => .inl (.symbol h)

theorem same_of_alike (ht : Printable a t) (hu : Printable a u) (h : Alike cells t u)
    (hne : tokenKind t ≠ .errorToken) : t.same cells u := by
  rcases ht hne with ht | ⟨c, rfl⟩ <;> rcases hu (h.kind ▸ hne) with hu | ⟨d, rfl⟩
  · rw [ht.eq_of_alike hu h hne]
    exact Token.same_refl cells u
  · exact absurd h.kind ht.kind_ne_value
  · exact absurd h.kind.symm hu.kind_ne_value
  · have htext : cells.text c = cells.text d := by
      simpa [Token.text, Payload.display, display] using h.contents rfl
    exact beq_iff_eq.2 htext

end Printable

/-- `u` may be printed right after `t`. -/
def MayFollow (t u : Token Expr) : Prop :=
  Printable t.isIdentifier u

theorem isChain_join (hts : List.IsChain MayFollow ts) (hus : List.IsChain MayFollow (u :: us))
    (hu : ∀ a, Printable a u) : List.IsChain MayFollow (ts ++ u :: us) := by
  refine List.isChain_append.2 ⟨hts, hus, fun t _ w hw => ?_⟩
  cases hw
  exact hu _

/-- Brackets in a print depend on what is before them, and all other tokens on nothing. -/
theorem isChain_row (e : Expr) (ht : t.isIdentifier = false) :
    List.IsChain MayFollow (t :: e.row) := by
  have hclose : ∀ a, Printable a closeToken := fun a => .symbol (by simp)
  induction e generalizing t with
  | var name => exact .cons_cons (.identifier name) (.singleton _)
  | int n => exact .cons_cons (.number n) (.singleton _)
  | text c => exact .cons_cons (.value c) (.singleton _)
  | plus l r ihl ihr =>
    simpa using isChain_join (ihl ht) (ihr (t := plusToken) rfl) fun a => .symbol (by simp)
  | mul l r ihl ihr =>
    simpa using isChain_join (ihl ht) (ihr (t := mulToken) rfl) fun a => .symbol (by simp)
  | inc e ih =>
    simpa using isChain_join (u := incToken) (ih ht) (.singleton _) fun a => .symbol (by simp)
  | factorial e ih =>
    simpa using isChain_join (u := factorialToken) (ih ht) (.singleton _) fun a => .symbol (by simp)
  | parens e ih =>
    have hopen : MayFollow t groupToken := fun _ => .inl (ht ▸ .bracket false)
    simpa using List.IsChain.cons_cons hopen
      (isChain_join (ih (t := groupToken) rfl) (.singleton _) hclose)
  | call name =>
    have hopen : MayFollow (.identifier name) callToken := fun _ => .inl (.bracket true)
    exact .cons_cons (.identifier name) (.cons_cons hopen (.cons_cons (hclose _) (.singleton _)))
  | callWith name e ih =>
    have hopen : MayFollow (.identifier name) callToken := fun _ => .inl (.bracket true)
    have hin := isChain_join (ih (t := callToken) rfl) (.singleton _) hclose
    simpa using List.IsChain.cons_cons (.identifier name) (.cons_cons hopen hin)
  | field e name ih =>
    have hname : List.IsChain MayFollow [dotToken, .identifier name] :=
      .cons_cons (.identifier name) (.singleton _)
    simpa using isChain_join (ih ht) hname fun a => .symbol (by simp)

theorem isIdentifier_of_same (h : t.same cells u) : t.isIdentifier = u.isIdentifier := by
  fun_cases Token.same cells t u <;> simp_all [Token.isIdentifier, Token.same]

theorem sameRow_of_alike (hus : List.IsChain MayFollow (u :: us))
    (hts : List.IsChain MayFollow (t :: ts)) (hut : u.isIdentifier = t.isIdentifier)
    (h : List.Forall₂ (Alike cells) us ts) (hne : ∀ x ∈ us, tokenKind x ≠ .errorToken) :
    SameRow cells us ts := by
  -- of the token before, only whether it is a name goes into the next
  induction h generalizing u t with
  | nil => exact .nil
  | cons hxy _ ih =>
    obtain ⟨hx, hus⟩ := List.isChain_cons_cons.1 hus
    obtain ⟨hy, hts⟩ := List.isChain_cons_cons.1 hts
    obtain ⟨hne, hrest⟩ := List.forall_mem_cons.1 hne
    rw [MayFollow, hut] at hx
    have hsame := hx.same_of_alike hy hxy hne
    exact .cons hsame (ih hus hts (isIdentifier_of_same hsame) hrest)

/-- A print that spells a canonical expression is the print of that expression. -/
theorem sameRow_of_spells (hv : v.Canonical p) (h : Spells cells v e.row) :
    SameRow cells v.row e.row :=
  sameRow_of_alike (isChain_row (t := plusToken) v rfl) (isChain_row (t := plusToken) e rfl) rfl h
    (kind_row_ne_error hv)

end

/-! ### Regions over expressions -/

/-- What a host brings in has its cells in the store, or is the language of some precedence. -/
def supply (cells : Cells) : Region.Supply Expr where
  token t := cells.Has t.cellsOf
  value v := cells.Has v.cellsOf
  language l := IsLanguage l

/-- The regions that a host comes to by its calls. -/
inductive Reachable : Region Expr → Prop
  | new (p : Precedence) (cells : Cells) (settings : Settings) :
      Reachable (.new (language p) cells settings)
  | call {r : Region Expr} {c : Region.Call Expr} : Reachable r → c.Within (supply r.cells) →
      Reachable (r.after c.run)

/-- All cells are in the store, and what is printed is the print of an expression or nothing. -/
structure Orderly (r : Region Expr) : Prop where
  language : IsLanguage r.language
  row : r.cells.Has (rowCells r.tokens)
  value : ∀ v, r.value = some v → r.cells.Has v.cellsOf
  printed : ∀ ps, r.printed = some ps → ps = [] ∨ ∃ e : Expr, ps = e.row ∧ r.cells.Has e.cellsOf

namespace Orderly
variable {r r' : Region Expr} {cells : Cells}

theorem has_printed (h : Orderly r) : r.cells.Has (rowCells (r.printed.getD [])) := by
  cases hp : r.printed with
  | none => exact Cells.has_nil
  | some ps =>
    rcases h.printed ps hp with rfl | ⟨e, rfl, he⟩
    · exact Cells.has_nil
    · exact (rowCells_row e).symm ▸ he

theorem grow (h : Orderly r) (hlen : r.cells.entries.length ≤ r'.cells.entries.length)
    (hl : r'.language = r.language) (ht : r'.tokens = r.tokens) (hv : r'.value = r.value)
    (hp : r'.printed = r.printed) : Orderly r' := by
  have hhas : ∀ {cs : List CellId}, r.cells.Has cs → r'.cells.Has cs :=
    fun hcs c hc => Nat.lt_of_lt_of_le (hcs c hc) hlen
  refine ⟨hl ▸ h.language, ht ▸ hhas h.row, fun v hv' => hhas (h.value v (hv ▸ hv')), fun ps hps => ?_⟩
  rcases h.printed ps (hp ▸ hps) with rfl | ⟨e, rfl, he⟩
  · exact .inl rfl
  · exact .inr ⟨e, rfl, hhas he⟩

theorem spliced (h : Orderly r) {start stop : Nat} {new : List (Token Expr)}
    (hnew : ∀ t ∈ new, r.cells.Has t.cellsOf) : Orderly (r.spliced start stop new) :=
  ⟨h.language, has_rowCells.2 fun t ht =>
    (Region.mem_spliced ht).elim (has_rowCells.1 h.row t) (hnew t), h.value, h.printed⟩

theorem of_reread (h : Orderly r) (hr : r.Reread r')
    (hv : ∀ v, r'.value = some v → r'.cells.Has v.cellsOf)
    (hp : ∀ ps, r'.printed = some ps → ps = [] ∨ ∃ e : Expr, ps = e.row ∧ r'.cells.Has e.cellsOf) :
    Orderly r' := by
  refine ⟨hr.language ▸ h.language, ?_, hv, hp⟩
  rw [hr.tokens]
  exact hr.cells.has h.row

theorem reprint (h : Orderly r) : Orderly r.reprint := by
  have hr := Region.reread_reprint r
  have hvalue : ∀ v, r.reprint.value = some v → r.reprint.cells.Has v.cellsOf :=
    fun v hv => hr.cells.has (h.value v (by rwa [Region.value_reprint] at hv))
  refine h.of_reread hr hvalue fun ps hps => ?_
  cases hv : r.value with
  | none =>
    obtain ⟨-, hprinted, -⟩ := Region.reprint_none hv
    exact .inl (Option.some.inj (hps.symm.trans hprinted))
  | some v =>
    obtain ⟨p, hp⟩ := h.language
    obtain ⟨-, hprinted, -⟩ := Region.reprint_some hv
    rw [hp, printed_tokens] at hprinted
    exact .inr ⟨v, Option.some.inj (hps.symm.trans hprinted), hvalue v (by simpa using hv)⟩

theorem change (h : Orderly r) (hc : Region.Change (supply cells) r r')
    (hlen : cells.entries.length ≤ r.cells.entries.length) :
    r.cells.entries.length ≤ r'.cells.entries.length ∧ Orderly r' := by
  have hbring : ∀ {cs : List CellId}, cells.Has cs → r.cells.Has cs :=
    fun hcs c hc => Nat.lt_of_lt_of_le (hcs c hc) hlen
  obtain ⟨hcopy, -⟩ := Region.copied_spec h.row
  cases hc with
  | splice _ _ hnew =>
    refine ⟨Nat.le_refl _, h.spliced fun t ht => ?_⟩
    rcases hnew t ht with ht | ht
    · exact hbring ht
    · exact has_rowCells.1 h.has_printed t ht
  | reprint => exact ⟨(Region.reread_reprint r).cells.length_le, h.reprint⟩
  | empty =>
    have hr := Region.reread_emptied r
    refine ⟨hr.cells.length_le, h.of_reread hr (by rintro v ⟨⟩) fun ps hps => .inl ?_⟩
    cases hps
    rfl
  | refuse =>
    have hr := Region.reread_refused h.row
    refine ⟨hr.cells.length_le, h.of_reread hr (fun v hv => hr.cells.has (h.value v hv)) ?_⟩
    rintro ps ⟨⟩
  | @take v hparse =>
    have hk := hcopy.keeps
    have hv : v.cellsOf = rowCells r.copied.1 := by
      obtain ⟨p, hp⟩ := h.language
      rw [hp, language_parse] at hparse
      exact cellsOf_parse hparse
    have hgrown : Orderly { r with cells := r.copied.2 } := h.grow hk.length_le rfl rfl rfl rfl
    refine ⟨hk.length_le, hgrown.language, hgrown.row, ?_, hgrown.printed⟩
    rintro w ⟨⟩
    rw [hv]
    exact hcopy.has
  | setValue hv => exact ⟨Nat.le_refl _, h.language, h.row, fun w hw => hbring (hv w hw), h.printed⟩
  | setLanguage hl => exact ⟨Nat.le_refl _, hl, h.row, h.value, h.printed⟩
  | flag => exact ⟨Nat.le_refl _, h.language, h.row, h.value, h.printed⟩
  | calm => exact ⟨Nat.le_refl _, h.language, h.row, h.value, h.printed⟩
  | dispose => exact ⟨r.keeps_dispose.length_le, h.grow r.keeps_dispose.length_le rfl rfl rfl rfl⟩

end Orderly

/-- Calls keep a region orderly, and none ends in the middle of a restore. -/
theorem Reachable.orderly {r : Region Expr} (h : Reachable r) : Orderly r ∧ r.restoring = false := by
  induction h with
  | new p cells settings =>
    exact ⟨⟨⟨p, rfl⟩, Cells.has_nil, by rintro v ⟨⟩, fun ps hps => .inl (by cases hps; rfl)⟩, rfl⟩
  | @call r c _ hc ih =>
    obtain ⟨hr, hrestoring⟩ := ih
    -- what the call brings in is in the store from its start on, and the store only grows
    have hafter : r.cells.entries.length ≤ (r.after c.run).cells.entries.length ∧
        Orderly (r.after c.run) := by
      refine Region.Call.invariant
        (I := fun r' => r.cells.entries.length ≤ r'.cells.entries.length ∧ Orderly r')
        hc ?_ ?_ ?_ ⟨Nat.le_refl _, hr⟩
      · rintro r₁ r₂ hchange ⟨hlen, h₁⟩
        obtain ⟨hlen', h₂⟩ := h₁.change hchange hlen
        exact ⟨Nat.le_trans hlen hlen', h₂⟩
      · rintro r₁ texts ⟨hlen, h₁⟩
        have hgrow : r₁.cells.entries.length ≤ (r₁.makeCells texts).cells.entries.length := by
          simp [Region.makeCells]
        exact ⟨Nat.le_trans hlen hgrow, h₁.grow hgrow rfl rfl rfl rfl⟩
      · rintro r₁ x t ⟨hlen, h₁⟩
        have hsame : r₁.cells.entries.length ≤ (r₁.setCellText x t).cells.entries.length := by
          simp [Region.setCellText, Cells.setText]
        exact ⟨Nat.le_trans hlen hsame, h₁.grow hsame rfl rfl rfl rfl⟩
    exact ⟨hafter.2, (Region.Call.restoring_after hc r).trans hrestoring⟩

/-! ### The change of precedence -/

/-- A row of texts is the print of one canonical expression only. -/
theorem same_iff_of_sameRow {cells : Cells} {ts : List (Token Expr)} {v : Expr} {q : Precedence}
    (hts : TextOnly ts) (hv : v.Canonical q) (hrow : SameRow cells v.row ts) (e : Expr) :
    v.same cells e ↔ e.Canonical q ∧ SameRow cells e.row ts := by
  constructor
  · intro h
    exact ⟨(canonical_of_same h).1 hv, (sameRow_row (same_symm h)).trans hrow⟩
  · rintro ⟨he, herow⟩
    -- both are what the row reads as
    obtain ⟨v', hparse, hv'⟩ := parse_of_spells hts hv (hrow.imp fun _ _ => alike_of_same)
    obtain ⟨e', hparse', he'⟩ := parse_of_spells hts he (herow.imp fun _ _ => alike_of_same)
    cases hparse.symm.trans hparse'
    exact same_trans (same_symm hv') he'

/-- Row, value and print of the region are those of one reading under `p`. -/
structure Stands (p : Precedence) (r : Region Expr) : Prop where
  language : r.language = language p
  autoReparse : r.autoReparse = true
  valid : r.valid = true
  value : Option.Rel (fun v w => v.same r.cells w = true) r.value (parse p r.cells r.tokens)
  textOnly : TextOnly r.tokens
  printed : ∃ ps, r.printed = some ps ∧ SameRow r.cells r.tokens ps

/-- Row and views are what they were, and the value is the expression with that print which is
canonical under `q`. -/
structure Reassociated (q : Precedence) (before after : Region Expr) : Prop
    extends Region.KeepsRow before after where
  language : after.language = language q
  valid : after.valid = true
  isSome : after.value.isSome = before.value.isSome
  value : ∀ e, (∃ v, after.value = some v ∧ v.same after.cells e) ↔
    e.Canonical q ∧
      SameRow after.cells ((Expr.language q).printed after.cells e).tokens after.tokens

section
variable {r r' : Region Expr} {p q : Precedence} {v : Expr}

theorem Stands.parse_isSome (h : Stands p r) :
    (parse p r.cells r.tokens).isSome = r.value.isSome := by
  have hvalue := h.value
  cases hv : r.value <;> cases hp : parse p r.cells r.tokens <;> rw [hv, hp] at hvalue
  case none.some | some.none => cases hvalue
  all_goals rfl

theorem Stands.textOnly_copied (h : Stands p r) (ho : Orderly r) : TextOnly r.copied.1 := by
  obtain ⟨hcopy, hsame⟩ := Region.copied_spec ho.row
  have hrow : textTokens.Row r.copied.2 r.tokens := ⟨hcopy.keeps.has ho.row, h.textOnly⟩
  exact (hrow.of_sameRow hsame.symm hcopy.has).mem

theorem Stands.isSome_parse_copied (h : Stands p r) (ho : Orderly r) (q : Precedence) :
    (parse q r.copied.2 r.copied.1).isSome ↔ r.value.isSome := by
  obtain ⟨hcopy, hsame⟩ := Region.copied_spec ho.row
  have htext := h.textOnly_copied ho
  have hreads : ∀ q', (parse q' r.copied.2 r.copied.1).isSome ↔
      Derives .expr (r.copied.1.map tokenKind) := fun q' =>
    ⟨fun hsome => derives_of_parse htext (Option.eq_some_of_isSome hsome),
      fun hd => Option.isSome_iff_exists.2 (parse_of_derives q' r.copied.2 htext hd)⟩
  have hparse : (parse p r.copied.2 r.copied.1).isSome ↔ (parse p r.copied.2 r.tokens).isSome := by
    simp only [Option.isSome_iff_exists]
    constructor <;> rintro ⟨v, hv⟩
    · obtain ⟨w, hw, -⟩ := parse_same hsame hv
      exact ⟨w, hw⟩
    · obtain ⟨w, hw, -⟩ := parse_same hsame.symm hv
      exact ⟨w, hw⟩
  rw [hreads q, ← hreads p, hparse, parse_keeps hcopy.keeps ho.row, h.parse_isSome]

/-- What the copy reads as is printed with the tokens of the row. -/
theorem Stands.sameRow_of_parse (h : Stands p r) (ho : Orderly r)
    (hv : parse q r.copied.2 r.copied.1 = some v) {after : Cells} (hk : r.copied.2.Keeps after) :
    v.Canonical q ∧ SameRow after v.row r.tokens := by
  obtain ⟨hcopy, hsame⟩ := Region.copied_spec ho.row
  obtain ⟨hcanon, hspells⟩ := spells_of_parse (h.textOnly_copied ho) hv
  obtain ⟨ps, hps, hrow⟩ := h.printed
  rcases ho.printed ps hps with rfl | ⟨e, rfl, he⟩
  · rw [List.forall₂_nil_right_iff.1 hrow] at hsame
    rw [List.forall₂_nil_right_iff.1 hsame] at hspells
    exact absurd (List.forall₂_nil_right_iff.1 hspells) (row_ne_nil v)
  · have hrow' : SameRow r.copied.2 r.tokens e.row :=
      hrow.keeps hcopy.keeps ho.row ((rowCells_row e).symm ▸ he)
    have hprint : Spells r.copied.2 v e.row :=
      forall₂_trans (R := Alike r.copied.2) (fun _ _ _ => Alike.trans) hspells
        ((hsame.trans hrow').imp fun _ _ => alike_of_same)
    have hcells : r.copied.2.Has (rowCells v.row) := by
      rw [rowCells_row, cellsOf_parse hv]
      exact hcopy.has
    exact ⟨hcanon, ((sameRow_of_spells hcanon hprint).trans hrow'.symm).keeps hk hcells
      (hcopy.keeps.has ho.row)⟩

theorem Stands.reassociated_none (h : Stands p r) (ht : r.tokens = [])
    (hread : Region.ReadIn (Expr.language q) none r r') : Reassociated q r r' := by
  have hnone : parse p r.cells r.tokens = none := by
    rw [ht]
    refine Option.eq_none_iff_forall_ne_some.2 fun e he => ?_
    obtain ⟨-, hspells⟩ := spells_of_parse (by simp [TextOnly]) he
    exact row_ne_nil e (List.forall₂_nil_right_iff.1 hspells)
  refine ⟨hread.toKeepsRow, hread.language, hread.valid, ?_, fun e => ?_⟩
  · rw [← h.parse_isSome, hnone, hread.value]
  · rw [hread.value, hread.tokens, ht]
    constructor
    · rintro ⟨v, ⟨⟩, -⟩
    · rintro ⟨-, hrow⟩
      exact absurd (List.forall₂_nil_right_iff.1 hrow) (row_ne_nil e)

theorem Stands.reassociated_some (h : Stands p r) (hsome : r.value.isSome) (hv : v.Canonical q)
    (hread : Region.ReadIn (Expr.language q) (some v) r r') (hrow : SameRow r'.cells v.row r.tokens) :
    Reassociated q r r' := by
  refine ⟨hread.toKeepsRow, hread.language, hread.valid, ?_, fun e => ?_⟩
  · rw [hread.value, hsome]
    rfl
  · rw [hread.value, hread.tokens, printed_tokens]
    simp only [Option.some.injEq, exists_eq_left']
    exact same_iff_of_sameRow h.textOnly hv hrow e

/-- How a change of precedence ends: a row without a value does not read under any. -/
theorem Stands.setLanguage (h : Stands p r) (ho : Orderly r) (hr : r.restoring = false)
    (hs : r.syncing = false) (q : Precedence) :
    wp (Region.setLanguage (Expr.language q)) (fun _ r' =>
      if r.tokens = [] ∨ r.value.isSome then Reassociated q r r' else r'.valid = false)
      (fun _ _ => False) r := by
  rw [Region.wp_setLanguage hs h.autoReparse hr]
  by_cases ht : r.tokens = []
  · have hread := Region.readIn_emptied (Expr.language q) r
    rw [if_pos (by simp [ht]), Region.wp_updateToPrinted_self hread.syncing rfl
      (hread.tokens ▸ ht ▸ .nil), if_pos (.inl ht)]
    exact h.reassociated_none ht hread
  rw [if_neg (by simpa using ht)]
  cases hparse : parse q r.copied.2 r.copied.1 with
  | none =>
    -- refused: there is no print to bring the row in line with
    have hnone : ¬ (r.tokens = [] ∨ r.value.isSome) := by
      rw [← h.isSome_parse_copied ho q, hparse]
      simp [ht]
    simp only [language_parse, hparse, if_neg hnone]
    exact rfl
  | some v =>
    have hread := Region.readIn_took (Expr.language q) r v
    have hsome : r.value.isSome := (h.isSome_parse_copied ho q).1 (by rw [hparse]; rfl)
    obtain ⟨hprinted, hkeeps⟩ := Region.printed_took (Expr.language q) r v
    obtain ⟨hcanon, hrow⟩ := h.sameRow_of_parse ho hparse hkeeps
    simp only [language_parse, hparse, printed_tokens, if_pos (Or.inr hsome)]
    rw [if_pos hrow.length_eq,
      Region.wp_updateToPrinted_self hread.syncing hprinted (hread.tokens ▸ hrow.symm)]
    exact h.reassociated_some hsome hcanon hread hrow

end

/-- At rest, a region in order that is given another precedence nests its value anew and keeps its
row and all views, exactly if it has a value or an empty row. -/
theorem setLanguage_reassociates {p : Precedence} {r : Region Expr} (hr : Reachable r)
    (h : Stands p r) (hs : r.syncing = false) (q : Precedence) :
    (∃ r', Region.setLanguage (language q) r = .ok () r' ∧ Reassociated q r r') ↔
      r.tokens = [] ∨ r.value.isSome := by
  obtain ⟨ho, hrestoring⟩ := hr.orderly
  obtain ⟨_, r', hrun, hend⟩ := exists_of_wp (h.setLanguage ho hrestoring hs q)
  constructor
  · rintro ⟨r'', hok, hafter⟩
    cases hrun.symm.trans hok
    by_contra hnone
    rw [if_neg hnone] at hend
    exact Bool.false_ne_true (hend.symm.trans hafter.valid)
  · intro hsome
    exact ⟨r', hrun, by rwa [if_pos hsome] at hend⟩

/-- `a + "t" * c`, with the text in a cell. -/
def product : List (Token Expr) :=
  [.identifier ['a'], plusToken, .value (text 0), mulToken, .identifier ['c']]

/-- The region with `a + "t" * c` typed in. -/
def productRegion : Region Expr :=
  (Region.new (language {}) ⟨[{ text := ['t'] }]⟩ {}).after (Region.Call.op (.setTokens product)).run

theorem reachable_productRegion : Reachable productRegion := by
  have hcells : Cells.Has ⟨[{ text := ['t'] }]⟩ (rowCells product) := by
    rw [show rowCells product = [0] from rfl]
    simp [Cells.Has]
  exact .call (.new {} _ {}) ⟨has_rowCells.1 hcells, by rintro v ⟨⟩, by rintro l ⟨⟩⟩

theorem stands_productRegion : Stands {} productRegion where
  language := Region.Call.language_after rfl _
  autoReparse := by decide +kernel
  valid := by decide +kernel
  value := by
    have hv : productRegion.value = some (plus (var ['a']) (mul (text 1) (var ['c']))) := by
      decide +kernel
    have hp : parse {} productRegion.cells productRegion.tokens =
        some (plus (var ['a']) (mul (text 0) (var ['c']))) := by decide +kernel
    rw [hv, hp]
    exact .some (by decide +kernel)
  textOnly := by decide +kernel
  printed := by
    refine ⟨row (plus (var ['a']) (mul (text 1) (var ['c']))), by decide +kernel, ?_⟩
    have ht : productRegion.tokens = row (plus (var ['a']) (mul (text 0) (var ['c']))) := by
      decide +kernel
    rw [ht]
    exact sameRow_row (by decide +kernel)

/-- With `+` binding tighter, `a + "t" * c` is a product, in the same tokens. -/
theorem setLanguage_reassociates_product : ∃ r',
    Reachable productRegion ∧ Stands {} productRegion ∧ productRegion.syncing = false ∧
    Region.setLanguage (language ⟨2, 1⟩) productRegion = .ok () r' ∧
    Reassociated ⟨2, 1⟩ productRegion r' ∧ r'.tokens = product ∧
    ∃ v, r'.value = some v ∧ v.same r'.cells (mul (plus (var ['a']) (text 0)) (var ['c'])) := by
  have hs : productRegion.syncing = false := by decide +kernel
  obtain ⟨r', hok, hafter⟩ := (setLanguage_reassociates reachable_productRegion stands_productRegion hs
    ⟨2, 1⟩).2 (.inr (by decide +kernel))
  have ht : r'.tokens = product := hafter.tokens.trans (by decide +kernel)
  refine ⟨r', reachable_productRegion, stands_productRegion, hs, hok, hafter, ht, ?_⟩
  refine (hafter.value _).2 ⟨by decide, ?_⟩
  rw [ht]
  exact SameRow.refl _ product

/-- The region with the print of `-5`, whose value has then been taken away. -/
def leftRegion : Region Expr :=
  (((Region.new (language {}) {} {}).after (Region.Call.op (.setValue (some (int (-5))))).run).after
    (Region.Call.setAutoReprint false).run).after (Region.Call.op (.setValue none)).run

theorem reachable_leftRegion : Reachable leftRegion := by
  refine .call (.call (.call (.new {} {} {}) ⟨?_, ?_, ?_⟩) ⟨?_, ?_, ?_⟩) ⟨?_, ?_, ?_⟩
  case refine_2 =>
    rintro v ⟨⟩
    exact Cells.has_nil
  all_goals rintro x ⟨⟩

theorem stands_leftRegion : Stands {} leftRegion where
  language := by
    unfold leftRegion
    rw [Region.Call.language_after rfl, Region.Call.language_after rfl, Region.Call.language_after rfl]
    rfl
  autoReparse := by decide +kernel
  valid := by decide +kernel
  value := by
    have hv : leftRegion.value = none := by decide +kernel
    have hp : parse {} leftRegion.cells leftRegion.tokens = none := by decide +kernel
    rw [hv, hp]
    exact .none
  textOnly := by decide +kernel
  printed := by
    refine ⟨row (int (-5)), by decide +kernel, ?_⟩
    rw [show leftRegion.tokens = row (int (-5)) by decide +kernel]
    exact .refl _ _

/-- While a synchronisation runs the value keeps its nesting. What is left of `-5` is in order, for
it does not read, and becomes invalid. -/
theorem regions_not_reassociated :
    (∃ r, Reachable r ∧ Stands {} r ∧ r.value.isSome ∧
      ¬ ∃ r', Region.setLanguage (language ⟨2, 1⟩) r = .ok () r' ∧ Reassociated ⟨2, 1⟩ r r') ∧
    ∃ r, Reachable r ∧ Stands {} r ∧ r.syncing = false ∧
      ¬ ∃ r', Region.setLanguage (language ⟨2, 1⟩) r = .ok () r' ∧ Reassociated ⟨2, 1⟩ r r' := by
  constructor
  · have hsync : productRegion.after (Region.Call.beginSync).run = productRegion.underSync := by
      show productRegion.beginSync?.getD productRegion = productRegion.underSync
      rw [Region.beginSync?, if_neg (by decide +kernel)]
      rfl
    have h := stands_productRegion
    refine ⟨productRegion.underSync, hsync ▸ .call reachable_productRegion ⟨?_, ?_, ?_⟩,
      ⟨h.language, h.autoReparse, h.valid, h.value, h.textOnly, h.printed⟩, by decide +kernel, ?_⟩
    iterate 3 rintro x ⟨⟩
    rintro ⟨r', hok, hafter⟩
    have hends : endsWith (Region.setLanguage (language ⟨2, 1⟩))
        (fun _ r => r.value == some (plus (var ['a']) (mul (text 1) (var ['c']))))
        productRegion.underSync := by decide +kernel
    obtain ⟨_, r'', hok', hvalue⟩ := exists_of_endsWith hends
    cases hok.symm.trans hok'
    obtain ⟨hcanon, -⟩ := (hafter.value _).1 ⟨_, beq_iff_eq.1 hvalue, same_refl _ _⟩
    exact absurd hcanon (by decide)
  · refine ⟨leftRegion, reachable_leftRegion, stands_leftRegion, by decide +kernel, ?_⟩
    rintro ⟨r', hok, hafter⟩
    have hends : endsWith (Region.setLanguage (language ⟨2, 1⟩)) (fun _ r => !r.valid) leftRegion := by
      decide +kernel
    obtain ⟨_, r'', hok', hvalid⟩ := exists_of_endsWith hends
    cases hok.symm.trans hok'
    simp [hafter.valid] at hvalid

end TokenEditor.Expr
