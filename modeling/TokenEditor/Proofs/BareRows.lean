import Mathlib.Data.List.Induction
import TokenEditor.Proofs.Offsets

/-! # Rows of expressions without values

Reading a row and bringing it in line with its print may change its tokens: brackets get the glue of
their place, and numbers lose leading zeros. In a bare row, one without values, nothing else changes,
so without the digit `0` the text of every token stays (`texts_row_of_parse`). `Region.Bare` is such a
region between two edits; `Bare.splice` and `Bare.spliceUpdated` say what an edit of the row makes of
its texts. -/

namespace TokenEditor

namespace Decimal

/-- The digits without leading zeros; of zeros alone one is left. -/
def dropZeros : Text → Text
  | '0' :: d :: ds => dropZeros (d :: ds)
  | ds => ds

theorem dropZeros_of_not_mem {ds : Text} (hzero : '0' ∉ ds) : dropZeros ds = ds := by
  unfold dropZeros
  split
  · simp at hzero
  · rfl

theorem digitChar_of_isDigit {c : Char} (h : c.isDigit) :
    Nat.digitChar (c.toNat - '0'.toNat) = c ∧ c.toNat - '0'.toNat < 10 := by
  obtain ⟨hle, hge⟩ := Expr.isDigit_iff.1 h
  have hzero : '0'.toNat = 48 := rfl
  refine ⟨Char.toNat_inj.1 ?_, by omega⟩
  rw [Nat.toNat_digitChar_of_lt_ten (by omega)]
  omega

theorem isDigits_of_concat {ds : Text} {c : Char} (h : isDigits (ds ++ [c]))
    (hhead : (ds ++ [c]).head? ≠ some '0') (hds : ds ≠ []) :
    isDigits ds ∧ ds.head? ≠ some '0' := by
  refine ⟨by simp_all [isDigits], ?_⟩
  rwa [List.head?_append_of_ne_nil _ hds] at hhead

theorem valueOf_pos {ds : Text} (h : isDigits ds) (hhead : ds.head? ≠ some '0') : 0 < valueOf ds := by
  induction ds using List.reverseRecOn with
  | nil => simp [isDigits] at h
  | append_singleton ds c ih =>
    rw [valueOf_concat]
    by_cases hds : ds = []
    · subst hds
      have hne : c ≠ '0' := fun heq => hhead (by simp [heq])
      have hle := (Expr.isDigit_iff.1 (show c.isDigit by simpa [isDigits] using h)).1
      have hlt : '0'.toNat ≠ c.toNat := fun heq => hne (Char.toNat_inj.1 heq).symm
      have hzero : '0'.toNat = 48 := rfl
      omega
    · obtain ⟨hdigits, hhead⟩ := isDigits_of_concat h hhead hds
      have := ih hdigits hhead
      omega

theorem toDigits_valueOf_of_head {ds : Text} (h : isDigits ds) (hhead : ds.head? ≠ some '0') :
    Nat.toDigits 10 (valueOf ds) = ds := by
  induction ds using List.reverseRecOn with
  | nil => simp [isDigits] at h
  | append_singleton ds c ih =>
    obtain ⟨hchar, hlt⟩ := digitChar_of_isDigit (c := c) (by simp_all [isDigits])
    rw [valueOf_concat]
    by_cases hds : ds = []
    · subst hds
      rw [show valueOf [] = 0 from rfl, Nat.mul_zero, Nat.zero_add, Nat.toDigits_of_lt_base hlt, hchar]
      rfl
    · obtain ⟨hdigits, hhead⟩ := isDigits_of_concat h hhead hds
      rw [← Nat.toDigits_append_toDigits (by decide) (valueOf_pos hdigits hhead) hlt,
        ih hdigits hhead, Nat.toDigits_of_lt_base hlt, hchar]

theorem toDigits_valueOf {ds : Text} (h : isDigits ds) :
    Nat.toDigits 10 (valueOf ds) = dropZeros ds := by
  fun_induction dropZeros ds with
  | case1 d ds ih =>
    have hvalue : valueOf ('0' :: d :: ds) = valueOf (d :: ds) := by simp [valueOf]
    rw [hvalue, ih (by simp_all [isDigits])]
  | case2 ds hds =>
    cases ds with
    | nil => simp [isDigits] at h
    | cons c cs =>
      by_cases hc : c = '0'
      · subst hc
        cases cs with
        | nil => decide
        | cons d cs => exact absurd rfl (hds d cs)
      · exact toDigits_valueOf_of_head h (by simpa using hc)

/-- An integer is printed as it was read, without leading zeros. -/
theorem write_of_read? {ds : Text} (h : isDigits ds) {n : Int64} (hread : read? ds = some n) :
    write n = dropZeros ds := by
  rw [read?_of_isDigits h] at hread
  have hn := toInt_of_fit? hread
  rw [write, if_neg (by omega), hn, Int.natAbs_natCast, toDigits_valueOf h]

end Decimal

namespace Expr
variable {t u : Token Expr} {ts us : List (Token Expr)} {cells : Cells} {p : Precedence} {e : Expr}

theorem singleKind?_text {k : Kind} (h : tokenKind t = k) (hident : k ≠ .ident) (hvalue : k ≠ .value)
    (herror : k ≠ .errorToken) : singleKind? (t.text {}) = some k := by
  cases t with
  | simple s g =>
    show singleKind? s = some k
    cases hs : singleKind? s with
    | none => simp [tokenKind, hs, herror.symm] at h
    | some k' => simpa [tokenKind, hs] using h
  | identifier name => exact absurd h.symm hident
  | value v => exact absurd h.symm hvalue
  | _ => exact absurd h.symm herror

/-- The text with which a token is printed: integers lose leading zeros. -/
def printedText (cells : Cells) (t : Token Expr) : Text :=
  if tokenKind t = .int then Decimal.dropZeros (t.text cells) else t.text cells

theorem printedText_of_not_mem (hzero : '0' ∉ t.text cells) : printedText cells t = t.text cells := by
  unfold printedText
  split
  · exact Decimal.dropZeros_of_not_mem hzero
  · rfl

/-- A printed token has the text of the token it is alike to, up to leading zeros. -/
theorem text_of_alike {a : Bool} (hu : TidyToken a u) (hne : tokenKind u ≠ .errorToken)
    (ht : t.isValue = false) (h : Alike cells u t) : u.text {} = printedText {} t := by
  have hvalue : tokenKind u ≠ .value := by
    intro hk
    have hform := hu.form
    rw [hk] at hform
    rw [hform] at hk
    cases hk
  unfold printedText
  rw [← h.kind]
  by_cases hident : tokenKind u = .ident
  · have hname := h.name hident
    rw [hu.text_eq, Token.text_of_not_isValue ht cells {}] at hname
    rw [hident, if_neg (by decide), hname]
  have huk := singleKind?_text rfl hident hvalue hne
  have htk : singleKind? (t.text {}) = some (tokenKind u) :=
    singleKind?_text h.kind.symm hident hvalue hne
  split_ifs with hint
  · obtain ⟨n, -, hn⟩ := hu.digits hint
    have hread := h.number hint
    rw [hu.text_eq, Token.text_of_not_isValue ht cells {}, hn, Decimal.read?_write] at hread
    rw [hint] at htk
    rw [hn, Decimal.write_of_read? (singleKind?_eq_int.1 htk).1 hread.symm]
  · -- all other kinds have one text
    have hunique : ∀ x ∈ symbols, ∀ y ∈ symbols, x.1 = y.1 → x.2 = y.2 := by decide
    exact hunique _ (mem_symbols_of_singleKind? huk hident hint) _
      (mem_symbols_of_singleKind? htk hident hint) rfl

theorem Tidy.token (h : Tidy ts) : ∀ t ∈ ts, ∃ a, TidyToken a t := by
  induction h with
  | nil => simp
  | concat _ ht ih =>
    intro t hmem
    rcases List.mem_append.1 hmem with hmem | hmem
    · exact ih t hmem
    · exact ⟨_, List.mem_singleton.1 hmem ▸ ht⟩

theorem texts_eq_of_alike (hus : ∀ u ∈ us, ∃ a, TidyToken a u)
    (hne : ∀ u ∈ us, tokenKind u ≠ .errorToken) (hts : ∀ t ∈ ts, t.isValue = false)
    (hzero : ∀ t ∈ ts, '0' ∉ t.text {}) (h : List.Forall₂ (Alike cells) us ts) :
    us.map (Token.text {}) = ts.map (Token.text {}) := by
  induction h with
  | nil => rfl
  | @cons u t us ts halike _ ih =>
    obtain ⟨⟨a, hu⟩, hus⟩ := List.forall_mem_cons.1 hus
    obtain ⟨hune, hne⟩ := List.forall_mem_cons.1 hne
    obtain ⟨ht, hts⟩ := List.forall_mem_cons.1 hts
    obtain ⟨hz, hzero⟩ := List.forall_mem_cons.1 hzero
    rw [List.map_cons, List.map_cons, text_of_alike hu hune ht halike, printedText_of_not_mem hz,
      ih hus hne hts hzero]

theorem rowCells_of_bare (hts : ∀ t ∈ ts, t.isValue = false) : rowCells ts = [] := by
  refine List.flatMap_eq_nil_iff.2 fun t ht => ?_
  cases t with
  | value v => cases hts _ ht
  | _ => rfl

theorem textOnly_of_bare (hts : ∀ t ∈ ts, t.isValue = false) : TextOnly ts := by
  intro t ht
  cases t with
  | value v => cases hts _ ht
  | _ => rfl

/-- The print of what a bare row without zeros reads as is bare and has the same texts. -/
theorem texts_row_of_parse (hts : ∀ t ∈ ts, t.isValue = false) (hzero : ∀ t ∈ ts, '0' ∉ t.text {})
    (hparse : parse p cells ts = some e) :
    e.row.map (Token.text {}) = ts.map (Token.text {}) ∧ ∀ u ∈ e.row, u.isValue = false := by
  obtain ⟨hcanon, hspells⟩ := spells_of_parse (textOnly_of_bare hts) hparse
  have hcells : e.cellsOf = [] := by rw [cellsOf_parse hparse, rowCells_of_bare hts]
  have htidy : Tidy e.row := tidy_append_row hcells hcanon .nil rfl
  exact ⟨texts_eq_of_alike htidy.token (kind_row_ne_error hcanon) hts hzero hspells, htidy.isValue⟩

end Expr

/-! ### What a text resolves to -/

/-- The token stands for the text and is no value. -/
structure Token.Stands (t : Text) (u : Token Expr) : Prop where
  isValue : u.isValue = false
  text : u.text {} = t

theorem Token.Stands.error (t : Text) : Token.Stands t (.error t) :=
  ⟨rfl, rfl⟩

theorem Token.Stands.all {pieces : List Text} {new : List (Token Expr)}
    (h : List.Forall₂ Token.Stands pieces new) :
    (∀ u ∈ new, u.isValue = false) ∧ new.map (Token.text {}) = pieces := by
  induction h with
  | nil => simp
  | cons hu _ ih => simpa [hu.isValue, hu.text] using ih

namespace Expr
variable {t : Text}

theorem stands_tokenFor? {a : Bool} {u : Token Expr} (h : tokenFor? a t = some u) : u.Stands t := by
  obtain ⟨-, k, hk, rfl⟩ := tokenFor?_eq_some.1 h
  obtain ⟨htext, hkind⟩ := tokenOfKind_spec (a := a) hk
  refine ⟨?_, htext⟩
  cases hu : tokenOfKind a k t with
  | value v =>
    -- no lexeme is of the kind of values
    rw [hu] at hkind
    have hvalue : singleKind? t = some .value := by rw [hk, ← hkind]; rfl
    have hmem := mem_symbols_of_singleKind? hvalue (by decide) (by decide)
    simp [symbols] at hmem
  | _ => rfl

theorem hasSingleMatch_iff (hword : t ≠ valueWord) :
    Item.hasSingleMatch tokenItems t ↔ (singleKind? t).isSome := by
  cases hk : singleKind? t with
  | none => simp [Item.hasSingleMatch, matching_of_none hk hword]
  | some k =>
    obtain ⟨item, hmatching, -⟩ :=
      matching_of_tokenFor? (tokenFor?_eq_some.2 ⟨hword, k, hk, rfl⟩ : tokenFor? false t = some _)
    simp [Item.hasSingleMatch, hmatching]

/-- But for the word for a new text, the only item for a text puts in one token that stands for it,
wherever it is applied. -/
theorem exists_stands_of_hasSingleMatch (hword : t ≠ valueWord)
    (h : Item.hasSingleMatch tokenItems t) (scope : Scope Expr) : ∃ item u, u.Stands t ∧
      Item.matching tokenItems t = [item] ∧ item.effect scope t = pure (.put [u]) := by
  cases hk : singleKind? t with
  | none =>
    rw [Item.hasSingleMatch, matching_of_none hk hword] at h
    cases h
  | some k =>
    obtain ⟨u, hu⟩ : ∃ u, tokenFor?
        (0 < scope.target && (scope.tokens[scope.target - 1]?).any Token.isIdentifier) t = some u :=
      ⟨_, tokenFor?_eq_some.2 ⟨hword, k, hk, rfl⟩⟩
    obtain ⟨item, hmatching, heffect⟩ := matching_of_tokenFor? hu
    exact ⟨item, u, stands_tokenFor? hu, hmatching, heffect scope rfl⟩

theorem exists_stands_of_resolve (hword : t ≠ valueWord) (cells : Cells) : ∃ resolved u,
    (Item.resolve tokenItems t).run cells = (resolved, cells) ∧ u.Stands t ∧
      resolved.getD [.error t] = [u] := by
  by_cases h : Item.hasSingleMatch tokenItems t
  · obtain ⟨item, u, hu, hmatching, heffect⟩ := exists_stands_of_hasSingleMatch hword h .nowhere
    refine ⟨some [u], u, ?_, hu, rfl⟩
    simp only [Item.resolve, hmatching, Item.captured, heffect]
    rfl
  · refine ⟨none, .error t, ?_, .error t, rfl⟩
    unfold Item.resolve
    split
    · rename_i item hitem
      simp [Item.hasSingleMatch, hitem] at h
    · rfl

theorem exists_stands_of_tokenOrError (hword : t ≠ valueWord) (cells : Cells) : ∃ u : Token Expr,
    (Item.tokenOrError tokenItems t).run cells = (u, cells) ∧ u.Stands t := by
  obtain ⟨resolved, u, hrun, hu, hresolved⟩ := exists_stands_of_resolve hword cells
  refine ⟨u, ?_, hu⟩
  simp only [Item.tokenOrError, Item.resolveToken, StateT.run_bind, hrun]
  cases resolved with
  | none =>
    cases hresolved
    rfl
  | some ts =>
    cases hresolved
    rfl

end Expr

/-! ### Edits of bare regions -/

theorem Token.eq_of_same {V : Type} [Payload V] {u t : Token V} {cells : Cells} (h : u.same cells t)
    (ht : t.isValue = false) : u = t := by
  unfold Token.same at h
  split at h
  · rw [Bool.and_eq_true, beq_iff_eq, beq_iff_eq] at h
    rw [h.1, h.2]
  · rw [beq_iff_eq.1 h]
  · cases ht
  · rw [Bool.and_eq_true, beq_iff_eq, beq_iff_eq] at h
    rw [h.1, h.2]
  · rw [beq_iff_eq.1 h]
  · rw [Bool.and_eq_true, beq_iff_eq, beq_iff_eq] at h
    rw [h.1, h.2]
  · cases h

theorem Token.detachAll_of_bare {V : Type} [Payload V] {ts : List (Token V)}
    (hts : ∀ t ∈ ts, t.isValue = false) (cells : Cells) :
    (detachAll ts).run cells = (ts, cells) := by
  induction ts with
  | nil => rfl
  | cons t ts ih =>
    obtain ⟨ht, hts⟩ := List.forall_mem_cons.1 hts
    have hdetach : t.detach = pure t := by
      cases t with
      | value v => cases ht
      | _ => rfl
    rw [detachAll, StateT.run_bind, hdetach, StateT.run_pure]
    simp only [pure_bind]
    rw [StateT.run_bind, ih hts]
    rfl

namespace Region
variable {r r' : Region Expr} {drift : Option Nat} {start stop : Nat} {new : List (Token Expr)}

/-- A region of expressions at rest, without values; only the view at `drift` may differ from its
token. -/
structure Bare (drift : Option Nat) (r : Region Expr) : Prop where
  steady : r.Steady Expr.IsLanguage (fun _ => True) drift
  numbered : r.Numbered
  bare : ∀ t ∈ r.tokens, t.isValue = false

/-- The print, if there is one, has the texts of the row and no values either. -/
def PrintsTexts (r : Region Expr) : Prop :=
  ∀ ps, r.printed = some ps →
    ps.map (Token.text {}) = r.tokens.map (Token.text {}) ∧ ∀ u ∈ ps, u.isValue = false

theorem texts_of_bare (h : ∀ t ∈ r.tokens, t.isValue = false) :
    r.texts = r.tokens.map (Token.text {}) :=
  List.map_congr_left fun t ht => Token.text_of_not_isValue (h t ht) _ _

/-- Reading a bare row without zeros prints its texts. -/
theorem printsTexts_reparse (hl : Expr.IsLanguage r.language) (hs : r.syncing = false)
    (hr : r.restoring = false) (hbare : ∀ t ∈ r.tokens, t.isValue = false)
    (hzero : ∀ t ∈ r.tokens, '0' ∉ t.text {}) :
    wp (sync reparse) (fun _ r' => r'.PrintsTexts) (fun _ _ => True) r := by
  rw [wp_sync, if_neg (by simp [hs]), wp_reparse,
    if_neg (show ¬ r.underSync.restoring = true by simp [underSync, hr])]
  by_cases hempty : r.tokens = []
  · rw [if_pos (by simp [underSync, hempty])]
    rintro ps ⟨⟩
    have htokens : r.underSync.emptied.endSync.tokens = [] := hempty
    exact ⟨by rw [htokens], by simp⟩
  rw [if_neg (by simpa [underSync] using hempty)]
  have hcopied : r.underSync.copied = (r.tokens, r.cells) := Token.detachAll_of_bare hbare r.cells
  obtain ⟨p, hp⟩ := hl
  have hlanguage : r.underSync.language = Expr.language p := hp
  rw [hcopied, hlanguage]
  cases hparse : (Expr.language p).parse r.cells r.tokens with
  | none => rintro ps ⟨⟩
  | some e =>
    simp only
    split_ifs
    · obtain ⟨-, hprinted, -⟩ := reprint_some (r := r.underSync.taking e) rfl
      have hread := reread_reprint (r.underSync.taking e)
      intro ps hps
      cases hprinted.symm.trans hps
      have hprint : ((r.underSync.taking e).language.printed (r.underSync.taking e).cells e).tokens =
          e.row := by
        rw [show (r.underSync.taking e).language = Expr.language p from hp, Expr.printed_tokens]
      rw [hprint, show ((r.underSync.took e).endSync).tokens = r.tokens from hread.tokens]
      exact Expr.texts_row_of_parse hbare hzero hparse

namespace Bare

theorem showing (h : r.Bare none) : r.Showing := by
  refine ⟨h.numbered, List.ext_getElem? fun i => ?_⟩
  have hlen := h.steady.projected.length_eq
  by_cases hi : i < r.tokens.length
  · have hv : r.views[i]? = some (r.views.get ⟨i, hlen ▸ hi⟩) := List.getElem?_eq_getElem _
    have ht : r.tokens[i]? = some (r.tokens.get ⟨i, hi⟩) := List.getElem?_eq_getElem hi
    have htext := h.steady.shows i _ _ hv ht (by simp) (h.bare _ (List.mem_of_getElem? ht))
    rw [texts, List.getElem?_map, List.getElem?_map, hv, ht]
    exact congrArg some htext
  · rw [List.getElem?_eq_none (by simp; omega), List.getElem?_eq_none (by simp; omega)]

theorem splice (h : r.Bare drift) (hdrift : DriftIn drift start stop)
    (hnew : ∀ t ∈ new, t.isValue = false) (hle : start ≤ stop) (hin : stop ≤ r.tokens.length) :
    wp (Region.splice start stop new) (fun _ r' => r'.Bare none ∧
      r'.tokens = r.tokens.take start ++ new ++ r.tokens.drop stop) (fun _ _ => False) r := by
  have hbare : ∀ t ∈ (r.spliced start stop new).tokens, t.isValue = false := fun t ht =>
    (mem_spliced ht).elim (h.bare t) (hnew t)
  -- the row embeds nothing but texts now, so it reads
  have hready : (r.spliced start stop new).Ready Expr.IsLanguage fun t => Expr.embedsText t :=
    h.steady.inStep.of_spliced (Expr.textOnly_of_bare hbare)
  have hreads := hready.reparse Expr.language_tame.toPrints
  have hnumbers := Renumbers.act ⟨.refl r, h.numbered⟩ (.splice start stop new)
  have hsplice : wp (Region.splice start stop new) (fun _ r' =>
      r'.InStep Expr.IsLanguage (fun t => Expr.embedsText t) ∧
        (r.spliced start stop new).KeepsRow r') (fun _ _ => False) r := by
    rw [wp_splice, if_neg (by omega), if_pos h.steady.inStep.autoReparse]
    exact wp_mono hreads (fun _ _ h => h) fun _ _ => Expr.language_tame.not_miscounts
  refine wp_mono (wp_and hsplice hnumbers) ?_ fun _ _ h => h.1
  rintro - r' ⟨⟨hstep, hrow⟩, hnumbered⟩
  have hmoves : r.Moves r' := .silent (.splice new .refl hle hin) hrow
  refine ⟨⟨⟨?_, hmoves.projected h.steady.projected, ?_⟩, hnumbered.distinct, ?_⟩, hrow.tokens⟩
  · exact hstep.mono fun _ _ => trivial
  · exact (h.steady.shows.spliced h.steady.projected.length_eq hdrift hle hin).keepsRow hrow
  · exact fun t ht => hbare t (hrow.tokens ▸ ht)

/-- Bringing a bare row in line with a print of its texts keeps the texts. -/
theorem updateToPrinted (h : r.Bare none) (hprints : r.PrintsTexts) :
    wp Region.updateToPrinted (fun _ r' => r'.Bare none ∧ r'.texts = r.texts) (fun _ _ => False) r := by
  have hstep := h.steady.inStep.updateToPrinted
  have halign : wp Act.align.run (fun _ r' => r'.InStep Expr.IsLanguage fun _ => True)
      (fun err _ => Language.Miscounts Expr.IsLanguage (fun _ => True) err) r :=
    wp_mono hstep (fun _ _ h => h.1) fun _ _ h => h.elim
  have hsteady := h.steady.act halign
  have hnumbers := Renumbers.act ⟨.refl r, h.numbered⟩ .align
  obtain ⟨_, r', hok, -⟩ := exists_of_wp hstep
  have hrun : Act.align.run r = .ok () r' := hok
  rw [wp, hrun] at hsteady hnumbers
  rw [wp, hok]
  cases hp : r.printed with
  | none =>
    obtain rfl : r' = r := by
      have hpure : wp Region.updateToPrinted (fun _ s => s = r) (fun _ _ => False) r := by
        simp only [Region.updateToPrinted, wp_bind, wp_get, hp, wp_pure]
      rwa [wp, hok] at hpure
    exact ⟨h, rfl⟩
  | some ps =>
    obtain ⟨htexts, hps⟩ := hprints ps hp
    obtain ⟨hrow, -⟩ := h.numbered.updateToPrinted h.steady.inStep.syncing hp hok
    -- a token that was not replaced is the same as the printed one, and that is no value
    have hps' : r'.tokens = ps := by
      refine List.ext_getElem hrow.length_eq fun i hi hi' => ?_
      exact (hrow.get hi hi').elim id fun hsame =>
        Token.eq_of_same hsame (hps _ (List.getElem_mem hi'))
    have hbare : ∀ u ∈ r'.tokens, u.isValue = false := hps' ▸ hps
    refine ⟨⟨hsteady, hnumbers.distinct, hbare⟩, ?_⟩
    rw [texts_of_bare hbare, texts_of_bare h.bare, hps', htexts]

theorem modifyView (h : r.Bare drift) {drift' : Option Nat} {index : Nat} {f : View → View}
    (hf : View.Edit f)
    (hsteady : (r.modifyView index f).Steady Expr.IsLanguage (fun _ => True) drift') :
    (r.modifyView index f).Bare drift' :=
  ⟨hsteady, (Renumbers.modifyView ⟨.refl r, h.numbered⟩ index hf).distinct, h.bare⟩

theorem text_eq (h : r.Bare drift) {index : Nat} {t : Token Expr} (ht : r.tokens[index]? = some t) :
    r.texts[index]? = some (t.text {}) := by
  rw [texts_of_bare h.bare, List.getElem?_map, ht]
  rfl

theorem text_of_texts (h : r.Bare drift) {index : Nat} {t : Token Expr} {s : Text}
    (ht : r.tokens[index]? = some t) (hs : r.texts[index]? = some s) (cells : Cells) :
    t.text cells = s := by
  rw [Token.text_of_not_isValue (h.bare t (List.mem_of_getElem? ht)) cells {}]
  exact Option.some.inj ((h.text_eq ht).symm.trans hs)

theorem editable (h : r.Bare drift) {index : Nat} {v : View} (hv : r.views[index]? = some v) :
    v.editable = true := by
  have hin : index < r.tokens.length :=
    h.steady.projected.length_eq ▸ (List.getElem?_eq_some_iff.1 hv).1
  have ht : r.tokens[index]? = some (r.tokens.get ⟨index, hin⟩) := List.getElem?_eq_getElem hin
  rw [(h.steady.projected.projects hv ht).editable, h.bare _ (List.mem_of_getElem? ht)]
  rfl

end Bare

end Region

namespace Editor
variable {e : Editor Expr} {drift : Option Nat} {index start stop : Nat} {new : List (Token Expr)}

/-- Keys are answered with the token items, on whichever side they act. -/
theorem items_of_keys (hl : Expr.IsLanguage e.region.language) (s : Supplier) (endRight : Bool) :
    (s.offer { endRight := endRight } e).items = Expr.tokenItems := by
  obtain ⟨p, hp⟩ := hl
  have hcalls : (s.offer { endRight := endRight } e).items = e.region.language.tokenItems e.region.cells
      (s.context { endRight := endRight } e.region) { endRight := endRight } ++ [] := rfl
  rw [hcalls, hp]
  rfl

theorem items_typing (hl : Expr.IsLanguage e.region.language) (s : Supplier) :
    (s.offer .typing e).items = Expr.tokenItems :=
  items_of_keys hl s false

theorem looseItems_eq (hl : Expr.IsLanguage e.region.language) : e.looseItems = Expr.tokenItems := by
  obtain ⟨p, hp⟩ := hl
  rw [looseItems, hp]
  rfl

theorem wp_onCells_pure {α : Type} {f : StateM Cells α} {a : α}
    (hf : f.run e.region.cells = (a, e.region.cells)) {post : α → Editor Expr → Prop}
    {fail : EditError → Editor Expr → Prop} :
    wp (onRegion (Region.onCells f)) post fail e ↔ post a e := by
  rw [wp_onRegion, Region.wp_onCells, hf]

/-- Completing with the only item for a text puts in a token that stands for it. -/
theorem exists_stands_of_completeMatch {offer : Offer Expr} {t : Text}
    (hitems : offer.items = Expr.tokenItems) (hword : t ≠ Expr.valueWord)
    (h : Item.hasSingleMatch offer.items t) : ∃ u, u.Stands t ∧
      ∀ {post : Unit → Editor Expr → Prop} {fail : EditError → Editor Expr → Prop},
        wp (complete offer.placement offer.target 0 [u])
          (fun move e' => post () (e'.closeMenu.run move)) fail e →
        wp (completeMatch offer t) post fail e := by
  rw [hitems] at h
  obtain ⟨item, u, hu, hmatching, heffect⟩ :=
    Expr.exists_stands_of_hasSingleMatch hword h (e.scope offer)
  exact ⟨u, hu, (wp_completeMatch (hitems ▸ hmatching) heffect).2⟩

/-- The row has got `pieces` in place of the texts from `start` up to `stop`. -/
structure Respliced (start stop : Nat) (pieces : List Text) (e e' : Editor Expr) : Prop where
  bare : e'.region.Bare none
  texts : e'.region.texts = e.region.texts.take start ++ pieces ++ e.region.texts.drop stop

section
variable {pieces : List Text} (h : e.region.Bare drift) (hdrift : DriftIn drift start stop)
  (hnew : List.Forall₂ Token.Stands pieces new) (hle : start ≤ stop) (hin : stop ≤ e.tokens.length)
include h hdrift hnew hle hin

theorem respliced_splice : wp (onRegion (Region.splice start stop new))
    (fun _ e' => e.Respliced start stop pieces e') (fun _ _ => False) e := by
  obtain ⟨hvalues, rfl⟩ := Token.Stands.all hnew
  rw [wp_onRegion]
  refine wp_mono (h.splice hdrift hvalues hle hin) (fun _ r' h' => ⟨h'.1, ?_⟩) fun _ _ h => h
  show r'.texts = _
  rw [Region.texts_of_bare h'.1.bare, Region.texts_of_bare h.bare, h'.2]
  simp

/-- Bringing the row in line with its print changes none of its texts. -/
theorem respliced_spliceUpdated
    (hzero : '0' ∉ (e.region.texts.take start ++ pieces ++ e.region.texts.drop stop).flatten) :
    wp (spliceUpdated start stop new) (fun _ e' => e.Respliced start stop pieces e')
      (fun _ _ => False) e := by
  have hprints : wp (onRegion (Region.splice start stop new)) (fun _ e' => e'.region.PrintsTexts)
      (fun _ _ => True) e := by
    obtain ⟨hvalues, rfl⟩ := Token.Stands.all hnew
    have hr := h.steady.inStep
    rw [wp_onRegion, Region.wp_splice, if_neg (by show ¬ (_ ∨ e.tokens.length < _); omega),
      if_pos hr.autoReparse]
    refine Region.printsTexts_reparse hr.language hr.syncing hr.restoring
      (fun t ht => (Region.mem_spliced ht).elim (h.bare t) (hvalues t)) fun t ht hmem => hzero ?_
    rw [Region.texts_of_bare h.bare, ← List.map_take, ← List.map_drop, ← List.map_append,
      ← List.map_append]
    exact List.mem_flatten.2 ⟨_, List.mem_map_of_mem ht, hmem⟩
  refine wp_seq (wp_mono (wp_and (respliced_splice h hdrift hnew hle hin) hprints)
    (fun _ _ h => h) fun _ _ h => h.1) ?_
  rintro - e' ⟨h', hprints'⟩
  rw [wp_onRegion]
  refine wp_mono (h'.bare.updateToPrinted hprints') (fun _ r hr => ⟨hr.1, ?_⟩) fun _ _ h => h
  exact hr.2.trans h'.texts

end

end Editor

end TokenEditor
