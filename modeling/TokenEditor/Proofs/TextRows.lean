import TokenEditor.Proofs.BareRows
import TokenEditor.Proofs.Reassociation
import TokenEditor.Proofs.Retyping

/-! # Rows of expressions whose values are texts

What an edit makes of such a row. The row is spliced, and if it reads it may be brought in line with
its print. Then integers lose leading zeros, and no other token gets another text (`Region.Spells`).
A value is never replaced: the printed one shows the same, so the token stays under the number of its
view. `Region.Rewrote` says both of an edit. -/

namespace TokenEditor

namespace Expr
variable {cells after : Cells} {t u : Token Expr} {ts us : List (Token Expr)} {p : Precedence}
  {e : Expr} {a : Bool}

/-- `u` is what is printed for `t`: a value that shows the same, or a token that reads the same up to
leading zeros. -/
structure PrintedFor (cells : Cells) (u t : Token Expr) : Prop where
  value : t.isValue = true → u.same cells t
  plain : t.isValue = false → u.isValue = false ∧ u.text {} = printedText {} t

theorem printedFor_of_alike (hu : Printable a u) (hne : tokenKind u ≠ .errorToken)
    (ht : embedsText t) (h : Alike cells u t) : PrintedFor cells u t := by
  refine ⟨fun hvalue => ?_, fun hplain => ?_⟩
  · cases t with
    | value v =>
      cases v with
      | text c => exact hu.same_of_alike (.value c) h hne
      | _ => cases ht
    | _ => cases hvalue
  · rcases hu hne with htidy | ⟨c, rfl⟩
    · exact ⟨htidy.isValue, text_of_alike htidy hne hplain h⟩
    · obtain ⟨v, rfl⟩ := exists_of_tokenKind_value h.kind.symm
      cases hplain

theorem PrintedFor.keeps (h : PrintedFor cells u t) (hk : cells.Keeps after)
    (hu : cells.Has u.cellsOf) (ht : cells.Has t.cellsOf) : PrintedFor after u t :=
  ⟨fun hvalue => Token.same_local.mono hk hu ht (h.value hvalue), h.plain⟩

theorem exists_printable (h : List.IsChain MayFollow (t :: us)) : ∀ u ∈ us, ∃ a, Printable a u := by
  induction us generalizing t with
  | nil => simp
  | cons w us ih =>
    obtain ⟨hw, hrest⟩ := List.isChain_cons_cons.1 h
    exact List.forall_mem_cons.2 ⟨⟨_, hw⟩, ih hrest⟩

/-- A print that is alike to a row of texts is printed for it. -/
theorem printedFor_row (he : e.Canonical p) (hts : TextOnly ts)
    (h : List.Forall₂ (Alike cells) e.row ts) : List.Forall₂ (PrintedFor cells) e.row ts := by
  have hprintable := exists_printable (isChain_row (t := plusToken) e rfl)
  have hne := kind_row_ne_error he
  generalize e.row = us at h hprintable hne
  induction h with
  | nil => exact .nil
  | cons halike _ ih =>
    obtain ⟨⟨a, hu⟩, hprintable⟩ := List.forall_mem_cons.1 hprintable
    obtain ⟨hune, hne⟩ := List.forall_mem_cons.1 hne
    obtain ⟨ht, hts⟩ := List.forall_mem_cons.1 hts
    exact .cons (printedFor_of_alike hu hune ht halike) (ih hts hprintable hne)

theorem printedText_of_isValue (h : t.isValue = true) : printedText cells t = t.text cells := by
  cases t with
  | value v => rfl
  | _ => cases h

theorem printedText_congr (h : t.isValue = false) (cells after : Cells) :
    printedText cells t = printedText after t := by
  unfold printedText
  rw [Token.text_of_not_isValue h cells after]

theorem PrintedFor.text_eq {w : Token Expr} (h : PrintedFor cells u t) (hw : w = u ∨ w.same cells u) :
    w.text cells = printedText cells t := by
  cases hvalue : t.isValue with
  | true =>
    have hsame : w.same cells t := by
      rcases hw with rfl | hw
      · exact h.value hvalue
      · exact Token.same_trans hw (h.value hvalue)
    rw [printedText_of_isValue hvalue]
    exact (Lexeme.mk.inj (lexeme_of_same hsame)).2
  | false =>
    obtain ⟨hplain, htext⟩ := h.plain hvalue
    obtain rfl : w = u := hw.elim id fun hsame => Token.eq_of_same hsame hplain
    rw [Token.text_of_not_isValue hplain cells {}, htext, printedText_congr hvalue]

end Expr

namespace Token
variable {u : Token Expr} {t : Text}

theorem Stands.textOnly (h : u.Stands t) : Expr.TextOnly [u] :=
  Expr.textOnly_of_bare (by simpa using h.isValue)

theorem Stands.has (h : u.Stands t) (cells : Cells) : cells.Has (rowCells [u]) := by
  cases u with
  | value v => cases h.isValue
  | _ => exact Cells.has_nil

end Token

/-! ### Edits of regions -/

namespace Region
variable {r r' : Region Expr} {drift : Option Nat} {start stop : Nat} {row new : List (Token Expr)}

/-- What is printed, if there is a print, is printed for the row. -/
def PrintsRow (r : Region Expr) : Prop :=
  ∀ ps, r.printed = some ps → List.Forall₂ (Expr.PrintedFor r.cells) ps r.tokens

/-- The texts are those of `row`, or those with which `row` is printed. -/
def Spells (row : List (Token Expr)) (r : Region Expr) : Prop :=
  r.texts = row.map (Token.text r.cells) ∨ r.texts = row.map (Expr.printedText r.cells)

theorem printsRow_reparse (h : r.Ready Expr.IsLanguage fun t => Expr.embedsText t)
    (hcells : r.cells.Has (rowCells r.tokens)) :
    wp (sync reparse) (fun _ r' => r'.PrintsRow ∧ r.cells.Keeps r'.cells) (fun _ _ => True) r := by
  rw [wp_sync, if_neg (by simp [h.syncing]), wp_reparse,
    if_neg (show ¬ r.underSync.restoring = true by simp [underSync, h.restoring])]
  by_cases hempty : r.tokens = []
  · rw [if_pos (by simp [underSync, hempty])]
    refine ⟨?_, r.keeps_dispose⟩
    rintro ps ⟨⟩
    rw [show r.underSync.emptied.endSync.tokens = [] from hempty]
    exact .nil
  rw [if_neg (by simpa [underSync] using hempty)]
  obtain ⟨hcopy, hsame⟩ := copied_spec (r := r.underSync) hcells
  obtain ⟨p, hp⟩ := h.language
  have hlanguage : r.underSync.language = Expr.language p := hp
  rw [hlanguage]
  cases hparse : (Expr.language p).parse r.underSync.copied.2 r.underSync.copied.1 with
  | none => exact ⟨by rintro ps ⟨⟩, hcopy.keeps⟩
  | some e =>
    simp only
    split_ifs
    · have hread := reread_reprint (r.underSync.taking e)
      refine ⟨fun ps hps => ?_, hcopy.keeps.trans hread.cells⟩
      obtain ⟨-, hprinted, -⟩ := reprint_some (r := r.underSync.taking e) rfl
      cases hprinted.symm.trans hps
      have hprint : ((r.underSync.taking e).language.printed (r.underSync.taking e).cells e).tokens =
          e.row := by
        rw [show (r.underSync.taking e).language = Expr.language p from hp, Expr.printed_tokens]
      rw [hprint, show ((r.underSync.took e).endSync).tokens = r.tokens from hread.tokens]
      -- the language has seen a copy, which is alike to the row
      have htext : Expr.TextOnly r.underSync.copied.1 :=
        mem_detachAll Expr.language_tame.toPrints h.row
      obtain ⟨hcanon, hspells⟩ := Expr.spells_of_parse htext hparse
      have halike := forall₂_trans (R := Expr.Alike r.underSync.copied.2)
        (fun _ _ _ => Expr.Alike.trans) hspells (hsame.imp fun _ _ => Expr.alike_of_same)
      have hus : r.underSync.copied.2.Has (rowCells e.row) := by
        rw [Expr.rowCells_row, Expr.cellsOf_parse hparse]
        exact hcopy.has
      have hts := hcopy.keeps.has hcells
      refine List.forall₂_iff_get.2 ⟨halike.length_eq, fun i hi hi' => ?_⟩
      exact ((Expr.printedFor_row hcanon h.row halike).get hi hi').keeps hread.cells
        (has_rowCells.1 hus _ (List.get_mem _ _)) (has_rowCells.1 hts _ (List.get_mem _ _))

/-- A region of expressions at rest whose values are texts of cells that are there. -/
structure Worded (drift : Option Nat) (r : Region Expr) : Prop where
  steady : r.Steady Expr.IsLanguage (fun _ => True) drift
  numbered : r.Numbered
  textOnly : Expr.TextOnly r.tokens
  cells : r.cells.Has (rowCells r.tokens)

theorem mem_numbered_iff {j : Nat} {id : ViewId} {t : Token Expr} :
    r.numbered[j]? = some (id, t) ↔ r.ids[j]? = some id ∧ r.tokens[j]? = some t := by
  rw [numbered, List.getElem?_zip_eq_some]

namespace Worded

theorem splice (h : r.Worded drift) (hdrift : DriftIn drift start stop) (hnew : Expr.TextOnly new)
    (hcells : r.cells.Has (rowCells new)) (hle : start ≤ stop) (hin : stop ≤ r.tokens.length) :
    wp (Region.splice start stop new) (fun _ r' => r'.Worded none ∧ r'.PrintsRow ∧
      r.cells.Keeps r'.cells ∧ r'.numbered = (r.spliced start stop new).numbered ∧
      r'.tokens = (r.spliced start stop new).tokens) (fun _ _ => False) r := by
  have hr := h.steady.inStep
  have htext : Expr.TextOnly (r.spliced start stop new).tokens := fun t ht =>
    (mem_spliced ht).elim (h.textOnly t) (hnew t)
  have hhas : r.cells.Has (rowCells (r.spliced start stop new).tokens) := has_rowCells.2 fun t ht =>
    (mem_spliced ht).elim (has_rowCells.1 h.cells t) (has_rowCells.1 hcells t)
  have hready : (r.spliced start stop new).Ready Expr.IsLanguage fun t => Expr.embedsText t :=
    hr.of_spliced htext
  have hreads := hready.reparse Expr.language_tame.toPrints
  have hnumbers := Renumbers.act ⟨.refl r, h.numbered⟩ (.splice start stop new)
  have hsplice : wp (Region.splice start stop new) (fun _ r' =>
      (r'.InStep Expr.IsLanguage (fun t => Expr.embedsText t) ∧
        (r.spliced start stop new).KeepsRow r') ∧ r'.PrintsRow ∧ r.cells.Keeps r'.cells)
      (fun _ _ => False) r := by
    rw [wp_splice, if_neg (by omega), if_pos hr.autoReparse]
    exact wp_mono (wp_and hreads (printsRow_reparse hready hhas)) (fun _ _ h => h)
      fun _ _ h => Expr.language_tame.not_miscounts h.1
  refine wp_mono (wp_and hsplice hnumbers) ?_ fun _ _ h => h.1
  rintro - r' ⟨⟨⟨hstep, hrow⟩, hprints, hkeeps⟩, hrenumbers⟩
  have hmoves : r.Moves r' := .silent (.splice new .refl hle hin) hrow
  refine ⟨⟨⟨?_, hmoves.projected h.steady.projected, ?_⟩, hrenumbers.distinct, ?_, ?_⟩, hprints, hkeeps,
    ?_, hrow.tokens⟩
  · exact hstep.mono fun _ _ => trivial
  · exact (h.steady.shows.spliced h.steady.projected.length_eq hdrift hle hin).keepsRow hrow
  · exact hrow.tokens ▸ htext
  · rw [hrow.tokens]
    exact hkeeps.has hhas
  · rw [Region.numbered, Region.numbered, ids, ids, hrow.tokens, hrow.views]

/-- What stands at a place after the row has been brought in line with its print: the printed token
or one the same as it, and under its old number if it is a value. -/
theorem alignedFrom_printed {ps : List (Token Expr)} {j : Nat} {old q : Token Expr} (hr : r.Numbered)
    (hold : r.tokens[j]? = some old) (hq : ps[j]? = some q) (h : Expr.PrintedFor r.cells q old) :
    ∃ w, (r.alignedFrom 0 ps).tokens[j]? = some w ∧ (w = q ∨ w.same r.cells q) ∧
      (old.isValue = true → w = old ∧ (r.alignedFrom 0 ps).ids[j]? = r.ids[j]?) := by
  have hplace := alignedFrom_at 0 hr hq (by rwa [Nat.zero_add])
  rw [Nat.zero_add] at hplace
  split_ifs at hplace with hsame
  · exact ⟨old, hplace.1, .inr hsame, fun _ => ⟨rfl, hplace.2⟩⟩
  · exact ⟨q, hplace.1, .inl rfl, fun hvalue => absurd (Token.same_symm (h.value hvalue)) hsame⟩

/-- Bringing the row in line with its print changes no text but that of an integer with leading
zeros, and leaves every value under its number. -/
theorem updateToPrinted (h : r.Worded none) (hprints : r.PrintsRow) :
    wp Region.updateToPrinted (fun _ r' => r'.cells = r.cells ∧ r'.Spells r.tokens ∧
      ∀ {j : Nat} {id : ViewId} {x : Expr}, r.numbered[j]? = some (id, .value x) →
        r'.numbered[j]? = some (id, .value x)) (fun _ _ => False) r := by
  cases hp : r.printed with
  | none =>
    simp only [Region.updateToPrinted, wp_bind, wp_get, hp, wp_pure]
    exact ⟨trivial, .inl rfl, id⟩
  | some ps =>
    have hprint := hprints ps hp
    rw [wp_updateToPrinted_some h.steady.inStep.syncing hp, if_pos hprint.length_eq]
    have hplace : ∀ {j : Nat} {old : Token Expr}, r.tokens[j]? = some old →
        ∃ q, Expr.PrintedFor r.cells q old ∧ ∃ w, (r.underSync.alignedFrom 0 ps).tokens[j]? = some w ∧
          (w = q ∨ w.same r.cells q) ∧ (old.isValue = true →
            w = old ∧ (r.underSync.alignedFrom 0 ps).ids[j]? = r.ids[j]?) := by
      intro j old hold
      obtain ⟨hj, rfl⟩ := List.getElem?_eq_some_iff.1 hold
      have hj' : j < ps.length := hprint.length_eq ▸ hj
      have hfor := hprint.get hj' hj
      exact ⟨_, hfor, alignedFrom_printed (r := r.underSync) (h.numbered.congr rfl rfl rfl) hold
        (List.getElem?_eq_getElem hj') hfor⟩
    have hcells : (r.underSync.alignedFrom 0 ps).endSync.cells = r.cells :=
      (relaid_alignedFrom 0 ps r.underSync).cells
    refine ⟨hcells, .inr (List.ext_getElem? fun j => ?_), fun {j id x} hx => ?_⟩
    · simp only [texts, List.getElem?_map, hcells]
      cases hold : r.tokens[j]? with
      | none =>
        have hnone : (r.underSync.alignedFrom 0 ps).tokens[j]? = none :=
          List.getElem?_eq_none (by
            rw [length_alignedFrom]; exact List.getElem?_eq_none_iff.1 hold)
        exact congrArg _ hnone
      | some old =>
        obtain ⟨q, hfor, w, hw, hsame, -⟩ := hplace hold
        exact (congrArg _ hw).trans (congrArg some (hfor.text_eq hsame))
    · obtain ⟨hid, hold⟩ := mem_numbered_iff.1 hx
      obtain ⟨q, -, w, hw, -, hkept⟩ := hplace hold
      obtain ⟨rfl, hids⟩ := hkept rfl
      exact mem_numbered_iff.2 ⟨hids.trans hid, hw⟩

end Worded

/-- `new` has come in place of the tokens from `start` up to `stop`. Nothing else has changed about
the row than how integers are written. -/
structure Rewrote (start stop : Nat) (new : List (Token Expr)) (r r' : Region Expr) : Prop where
  keeps : r.cells.Keeps r'.cells
  spells : r'.Spells (r.tokens.take start ++ new ++ r.tokens.drop stop)
  values : ∀ {j : Nat} {id : ViewId} {x : Expr},
    (r.spliced start stop new).numbered[j]? = some (id, .value x) →
      r'.numbered[j]? = some (id, .value x)

theorem Rewrote.setCaret {index caret : Nat} (h : r.Rewrote start stop new r') :
    r.Rewrote start stop new (r'.modifyView index (·.setCaret caret)) := by
  refine ⟨h.keeps, h.spells, fun hx => ?_⟩
  rw [numbered, ids_modifyView index (.setCaret caret)]
  exact h.values hx

end Region

namespace Editor
variable {e : Editor Expr} {drift : Option Nat} {start stop : Nat} {new : List (Token Expr)}

theorem rewrote_run {r : Region Expr} (h : r.Rewrote start stop new e.region) (m : Move) :
    r.Rewrote start stop new (e.run m).region :=
  run_region Region.Rewrote.setCaret h m

section
variable (h : e.region.Worded drift) (hdrift : DriftIn drift start stop) (hnew : Expr.TextOnly new)
  (hcells : e.region.cells.Has (rowCells new)) (hle : start ≤ stop) (hin : stop ≤ e.tokens.length)
include h hdrift hnew hcells hle hin

theorem rewrote_splice : wp (onRegion (Region.splice start stop new))
    (fun _ e' => e.region.Rewrote start stop new e'.region) (fun _ _ => False) e := by
  rw [wp_onRegion]
  refine wp_mono (h.splice hdrift hnew hcells hle hin) ?_ fun _ _ h => h
  rintro - r ⟨-, -, hkeeps, hnumbered, htokens⟩
  refine ⟨hkeeps, .inl (congrArg (List.map _) htokens), fun hx => ?_⟩
  show r.numbered[_]? = _
  rw [hnumbered, hx]

theorem rewrote_spliceUpdated : wp (spliceUpdated start stop new)
    (fun _ e' => e.region.Rewrote start stop new e'.region) (fun _ _ => False) e := by
  unfold spliceUpdated
  rw [wp_bind, wp_onRegion]
  refine wp_mono (h.splice hdrift hnew hcells hle hin) ?_ fun _ _ h => h
  rintro - r ⟨hworded, hprints, hkeeps, hnumbered, htokens⟩
  rw [wp_onRegion]
  refine wp_mono (hworded.updateToPrinted hprints) ?_ fun _ _ h => h
  rintro - r' ⟨hcells', hspells, hvalues⟩
  refine ⟨?_, ?_, fun hx => hvalues (by rw [hnumbered, hx])⟩
  · show e.region.cells.Keeps r'.cells
    rw [hcells']
    exact hkeeps
  · rw [htokens] at hspells
    exact hspells

end

section
variable {params : Params} {target index delta : Nat} {u : Token Expr} {t : Text}
  (h : e.region.Worded none)
include h

/-- A value put in where a value stands takes its place. -/
theorem rewrote_completeBeside (hu : Expr.embedsText u) (hcells : e.region.cells.Has u.cellsOf)
    (hin : target ≤ e.tokens.length) : wp (completeBeside params target 0 [u]) (fun _ e' =>
      e.region.Rewrote target (if u.isValue && (e.tokens[target]?).any Token.isValue then target + 1
        else target) [u] e'.region) (fun _ _ => False) e := by
  have hstop : (if u.isValue && (e.tokens[target]?).any Token.isValue then target + 1 else target) ≤
      e.tokens.length := by
    split_ifs with hover
    · obtain ⟨x, hx, -⟩ := (Option.any_eq_true _ _).1 (Bool.and_eq_true_iff.1 hover).2
      exact (List.getElem?_eq_some_iff.1 hx).1
    · exact hin
  unfold completeBeside
  rw [wp_bind, wp_get]
  refine wp_seq (rewrote_spliceUpdated h (.none _ _) (by simpa [Expr.TextOnly] using hu)
    (by simpa [rowCells] using hcells) (by split_ifs <;> omega) hstop) fun _ e' h' => ?_
  rw [wp_bind, wp_get]
  exact h'

theorem rewrote_completeReplacing (hu : u.Stands t) (hin : target < e.tokens.length) :
    wp (completeReplacing target 0 [u]) (fun _ e' =>
      e.region.Rewrote target (target + 1) [u] e'.region) (fun _ _ => False) e := by
  have hv : target < e.views.length := h.steady.projected.length_eq ▸ hin
  unfold completeReplacing
  rw [wp_bind, wp_get, List.getElem?_eq_getElem hv]
  refine wp_seq (rewrote_spliceUpdated h (.none _ _) hu.textOnly (hu.has _)
    (Nat.le_succ _) hin) fun _ e' h' => ?_
  rw [wp_bind, wp_get]
  exact h'

theorem rewrote_expandToError (hin : index + delta ≤ e.tokens.length) (t : Text) :
    wp (expandToError index t delta) (fun _ e' =>
      e.region.Rewrote (index + delta) (index + delta) [.error t] e'.region) (fun _ _ => False) e := by
  unfold expandToError
  refine wp_seq (rewrote_splice h (.none _ _) (Token.Stands.error t).textOnly
    ((Token.Stands.error t).has _) (Nat.le_refl _) hin) fun _ e' h' => ?_
  rw [wp_bind, wp_get]
  exact h'

end

end Editor

end TokenEditor
