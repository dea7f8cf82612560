import TokenEditor.Proofs.Restoring
import TokenEditor.Proofs.Sums

/-! # Printing the value over the row

`reprintToTokens` prints the value over the row. Where the region reads by itself, the printed row is
then read like any other, and what it reads as takes the place of the value. So the value is still
the one that was printed exactly if its print reads back (`reprintToTokens_presents_iff`), as it does
for canonical expressions. Under a synchronisation, where setting a value and acting on a changed
cell reprint, nothing is read. -/

namespace TokenEditor

namespace Language
variable {V : Type} [Payload V] {l : Language V} {before after : Cells} {v : V}

/-- What is read from a print is printed with as many tokens, and values that are the same are
printed with tokens that are. -/
structure Lawful (l : Language V) : Prop extends Structural l, Linear l where
  length_reprint : ∀ {cells : Cells} {v w : V}, l.parse cells (l.printed cells v).tokens = some w →
    (l.printed cells w).tokens.length = (l.printed cells v).tokens.length
  print_same : ∀ {cells : Cells} {v w : V}, Payload.same cells v w →
    SameRow cells (l.printed cells v).tokens (l.printed cells w).tokens

/-- The print of `v` is a row that reads as `v`. -/
def ReadsBack (l : Language V) (cells : Cells) (v : V) : Prop :=
  (l.printed cells v).tokens ≠ [] ∧
    ∃ w, l.parse cells (l.printed cells v).tokens = some w ∧ Payload.same cells w v

theorem readsBack_iff_of_keeps [LawfulPayload V] (hl : l.Structural) (hk : before.Keeps after)
    (hv : before.Has (Payload.cellsOf v)) : l.ReadsBack after v ↔ l.ReadsBack before v := by
  have hrow := hl.print_has hv
  unfold ReadsBack
  rw [hl.printed_keeps hk hv, hl.parse_keeps hk hrow]
  refine and_congr_right fun _ => exists_congr fun w => and_congr_right fun hw => ?_
  have hhas : before.Has (Payload.cellsOf w ++ Payload.cellsOf v) :=
    Cells.has_append.2 ⟨hl.parse_has hrow hw, hv⟩
  exact ⟨LawfulPayload.same_local _ _ _ _ fun c hc => (hk.text_eq c (hhas c hc)).symm,
    LawfulPayload.same_local _ _ _ _ fun c hc => hk.text_eq c (hhas c hc)⟩

end Language

theorem Expr.language_lawful (p : Precedence) : (Expr.language p).Lawful where
  toStructural := Expr.language_structural p
  toLinear := Expr.language_linear p
  length_reprint {cells v w} h := by
    rw [printed_tokens] at h
    rw [printed_tokens, printed_tokens]
    exact (spells_of_parse (textOnly_row v) h).2.length_eq
  print_same {cells v w} h := by
    rw [printed_tokens, printed_tokens]
    exact sameRow_row h

theorem Sum.language_lawful {style : Style} (hs : style.dropLast = false) :
    (Sum.language style).Lawful where
  toStructural := Sum.language_structural hs
  toLinear := Sum.language_linear hs
  length_reprint {_ v _} h := length_row_of_parse hs (embedsNote_row style v) h
  print_same {_ v w} h := sameRow_row style v w h

namespace Region
variable {V : Type} [Payload V] {r r' : Region V} {L : Language V → Prop} {cells : Cells} {v : V}

/-- What a host has at hand: some languages, and what uses cells of the store. -/
def goods (L : Language V → Prop) (cells : Cells) : Supply V where
  token t := cells.Has t.cellsOf
  value v := cells.Has (Payload.cellsOf v)
  language := L

/-- The regions that a host comes to by its calls. -/
inductive Attained (L : Language V → Prop) : Region V → Prop
  | new {l : Language V} (cells : Cells) (settings : Settings) : L l →
      Attained L (.new l cells settings)
  | call {r : Region V} {c : Call V} : Attained L r → c.Within (goods L r.cells) →
      Attained L (r.after c.run)

theorem Change.of_goods (hL : ∀ l, L l → l.Linear) (h : Change (goods L cells) r r') :
    Change (stock cells) r r' := by
  cases h with
  | splice hle hin hnew => exact .splice hle hin hnew
  | reprint => exact .reprint r
  | empty => exact .empty r
  | refuse => exact .refuse r
  | take hv => exact .take hv
  | setValue hv => exact .setValue r hv
  | setLanguage hl => exact .setLanguage r (hL _ hl)
  | flag valid syncing restoring autoReparse autoReprint => exact .flag r _ _ _ _ _
  | calm => exact .calm r
  | dispose => exact .dispose r

theorem Change.language (h : Change (goods L cells) r r') (hr : L r.language) : L r'.language := by
  cases h with
  | reprint => exact (reread_reprint r).language ▸ hr
  | setLanguage hl => exact hl
  | _ => exact hr

/-- In a region of a host all cells are in the store, and it is not being restored. -/
theorem Attained.stocked [LawfulPayload V] (hL : ∀ l, L l → l.Linear) (h : Attained L r) :
    L r.language ∧ r.Stocked ∧ r.restoring = false := by
  induction h with
  | @new l cells settings hl =>
    exact ⟨hl, ⟨hL l hl, Cells.has_nil, by rintro v ⟨⟩, Cells.has_nil⟩, rfl⟩
  | @call r c _ hc ih =>
    obtain ⟨hlanguage, hstocked, hrestoring⟩ := ih
    have hafter : r.cells.entries.length ≤ (r.after c.run).cells.entries.length ∧
        L (r.after c.run).language ∧ (r.after c.run).Stocked := by
      refine Call.invariant (I := fun r' =>
        r.cells.entries.length ≤ r'.cells.entries.length ∧ L r'.language ∧ r'.Stocked)
        hc ?_ ?_ ?_ ⟨Nat.le_refl _, hlanguage, hstocked⟩
      · rintro r₁ r₂ hchange ⟨hlen, hl, h₁⟩
        obtain ⟨hlen', h₂⟩ := h₁.change (hchange.of_goods hL) hlen
        exact ⟨Nat.le_trans hlen hlen', hchange.language hl, h₂⟩
      · rintro r₁ texts ⟨hlen, hl, h₁⟩
        have hgrow : r₁.cells.entries.length ≤ (r₁.makeCells texts).cells.entries.length := by
          simp [makeCells]
        exact ⟨Nat.le_trans hlen hgrow, hl, h₁.grow hgrow rfl rfl rfl rfl⟩
      · rintro r₁ x t ⟨hlen, hl, h₁⟩
        have hsame : r₁.cells.entries.length ≤ (r₁.setCellText x t).cells.entries.length := by
          simp [setCellText, Cells.setText]
        exact ⟨Nat.le_trans hlen hsame, hl, h₁.grow hsame rfl rfl rfl rfl⟩
    exact ⟨hafter.2.1, hafter.2.2, (Call.restoring_after hc r).trans hrestoring⟩

/-- The region shows `v`: its value, its row and its print are those of `v`. -/
def Presents (r : Region V) : Option V → Prop
  | none => r.value = none ∧ r.tokens = [] ∧ r.printed = some []
  | some v => ∃ w, r.value = some w ∧ Payload.same r.cells w v ∧
      r.tokens = (r.language.printed r.cells v).tokens ∧
      r.tree = some (r.language.printed r.cells w).tree ∧
      r.printed = some (r.language.printed r.cells w).tokens ∧
      SameRow r.cells (r.language.printed r.cells w).tokens r.tokens

theorem presents_setValid {valid : Bool} {v : Option V} :
    Presents { r with valid := valid } v ↔ r.Presents v := by
  cases v <;> rfl

/-- What a reading has made of the row: nothing, or a value that the region has taken. -/
inductive Took (before after : Region V) : Prop
  | refused : after.language.parse after.cells after.tokens = none → after.value = before.value →
      after.tree = none → after.printed = none → Took before after
  | value {v w : V} : after.language.parse after.cells after.tokens = some w →
      Payload.same after.cells v w → after.value = some v →
      after.tree = some (after.language.printed after.cells v).tree →
      after.printed = some (after.language.printed after.cells v).tokens → Took before after

section
variable [LawfulPayload V] (hl : r.language.Lawful) (hcells : r.cells.Has (Payload.cellsOf v))
  (ht : r.tokens = (r.language.printed r.cells v).tokens) (hne : r.tokens ≠ [])
  (hr : r.restoring = false)
include hl hcells ht hne hr

theorem wp_reparse_of_print :
    wp reparse (fun _ r' => r.Reread r' ∧ Took r r') (fun _ _ => False) r := by
  have hrow : r.cells.Has (rowCells r.tokens) := ht ▸ hl.print_has hcells
  obtain ⟨hcopy, hsame⟩ := copied_spec hrow
  rw [wp_reparse, if_neg (by simp [hr]), if_neg (by simpa using hne)]
  cases hparse : r.language.parse r.copied.2 r.copied.1 with
  | none =>
    refine ⟨reread_refused hrow, .refused ?_ rfl rfl rfl⟩
    show r.language.parse r.copied.2 r.tokens = none
    refine Option.eq_none_iff_forall_ne_some.2 fun w hw => ?_
    obtain ⟨u, hu, -⟩ := hl.parse_same hsame.symm hw
    cases hparse.symm.trans hu
  | some w =>
    have hrow' := hcopy.keeps.has hrow
    obtain ⟨u, hu, hwu⟩ := hl.parse_same hsame hparse
    -- the row is the print of a value, so what it reads as has as long a print
    have hprint : r.tokens = (r.language.printed r.copied.2 v).tokens := by
      rw [hl.printed_keeps hcopy.keeps hcells]
      exact ht
    have hlen : (r.language.printed r.copied.2 w).tokens.length = r.tokens.length := by
      rw [(hl.print_same hwu).length_eq, hl.length_reprint (hprint ▸ hu), ← hprint]
    have hkeeps := keeps_took r w
    have hhas : r.copied.2.Has (Payload.cellsOf w) := hl.parse_has hcopy.has hparse
    have hreread := reread_took hrow w
    have hprinted := hl.printed_keeps hkeeps hhas
    simp only
    rw [if_pos hlen]
    refine ⟨hreread, .value (w := u) ?_ ?_ rfl ?_ ?_⟩
    · rw [hreread.language, hreread.tokens, hl.parse_keeps hkeeps hrow', hu]
    · exact LawfulPayload.same_local.mono hkeeps hhas (hl.parse_has hrow' hu) hwu
    · rw [hreread.language, hprinted]
      rfl
    · rw [hreread.language, hprinted]
      rfl

theorem wp_sync_reparse_of_print (hs : r.syncing = false) :
    wp (sync reparse) (fun _ r' => r.Reread r' ∧ Took r r') (fun _ _ => False) r := by
  rw [wp_sync, if_neg (by simp [hs])]
  refine wp_mono (wp_reparse_of_print (r := r.underSync) hl hcells ht hne hr) (fun _ r' h => ?_)
    (fun _ _ h => h)
  obtain ⟨h, htook⟩ := h
  refine ⟨h.endSync hs, ?_⟩
  cases htook with
  | refused hparse hvalue htree hprinted => exact .refused hparse hvalue htree hprinted
  | value hparse hsame hvalue htree hprinted => exact .value hparse hsame hvalue htree hprinted

end

/-! ### Printing over the row -/

/-- The region with its value printed over the row, before this is read. -/
def overprinted (r : Region V) : Region V :=
  r.reprint.spliced 0 r.reprint.tokens.length r.valueRow

theorem wp_reprintToTokens {post : Unit → Region V → Prop} {fail : EditError → Region V → Prop} :
    wp reprintToTokens post fail r ↔
      if r.autoReparse then
        wp (sync reparse) (fun _ r' => post () { r' with valid := true }) fail r.overprinted
      else post () { r.overprinted with valid := true } := by
  simp only [reprintToTokens, wp_bind, wp_modify, wp_get, printed_reprint, Option.getD_some]
  rw [wp_splice, if_neg (by simp), (reread_reprint r).autoReparse]
  rfl

theorem tokens_overprinted (r : Region V) : r.overprinted.tokens = r.valueRow := by
  simp [overprinted, spliced]

theorem reread_overprinted (r : Region V) : r.overprinted.language = r.language ∧
    r.overprinted.value = r.value ∧ r.overprinted.syncing = r.syncing ∧
    r.overprinted.restoring = r.restoring ∧ r.cells.Keeps r.overprinted.cells :=
  have h := reread_reprint r
  ⟨h.language, value_reprint r, h.syncing, h.restoring, h.cells⟩

/-- The print of the value reads as the value, if there is one. -/
def ReadsBack (r : Region V) : Prop :=
  ∀ v, r.value = some v → r.language.ReadsBack r.cells v

theorem wp_read_overprinted_nil (hnil : r.valueRow = []) (hs : r.syncing = false)
    (hr : r.restoring = false) :
    wp (sync reparse) (fun _ r' => r'.tokens = r.valueRow ∧ (r'.Presents r.value ↔ r.ReadsBack))
      (fun _ _ => False) r.overprinted := by
  obtain ⟨-, -, hsyncing, hrestoring, -⟩ := reread_overprinted r
  have hrow := tokens_overprinted r
  have hempty : r.overprinted.underSync.tokens.isEmpty := by simp [underSync, hrow, hnil]
  rw [wp_sync, if_neg (by simp [hsyncing, hs]), wp_reparse,
    if_neg (by simp [underSync, hrestoring, hr]), if_pos hempty]
  refine ⟨hrow, ?_⟩
  cases hv : r.value with
  | none =>
    have hreads : r.ReadsBack := fun v hv' => by cases hv.symm.trans hv'
    exact ⟨fun _ => hreads, fun _ => ⟨rfl, hrow.trans hnil, rfl⟩⟩
  | some v =>
    rw [valueRow, hv] at hnil
    constructor
    · rintro ⟨w, ⟨⟩, -⟩
    · exact fun hreads => absurd hnil (hreads v hv).1

variable [LawfulPayload V]

/-- A region that has read the print of `v` shows `v` if that is what the print reads as. -/
theorem Took.presents_iff (h : Took r r') (hl : r'.language.Lawful)
    (ht : r'.tokens = (r'.language.printed r'.cells v).tokens) (hne : r'.tokens ≠ []) :
    r'.Presents (some v) ↔ r'.language.ReadsBack r'.cells v := by
  unfold Presents Language.ReadsBack
  rw [← ht]
  cases h with
  | refused hparse _ _ hprinted => simp [hparse, hprinted]
  | @value u w hparse hsame hvalue htree hprinted =>
    constructor
    · rintro ⟨u', hu', hsame', -⟩
      cases hvalue.symm.trans hu'
      exact ⟨hne, w, hparse, LawfulPayload.same_trans (LawfulPayload.same_symm hsame) hsame'⟩
    · rintro ⟨-, w', hw', hsame'⟩
      cases hparse.symm.trans hw'
      have huv := LawfulPayload.same_trans hsame hsame'
      exact ⟨u, hvalue, huv, ht, htree, hprinted, ht ▸ hl.print_same huv⟩

section
variable (hl : r.language.Lawful)
  (hvalue : ∀ v, r.value = some v → r.cells.Has (Payload.cellsOf v))
include hl hvalue

theorem presents_overprinted : r.overprinted.Presents r.value := by
  obtain ⟨hlanguage, hsame, -, -, hkeeps⟩ := reread_overprinted r
  have hrow := tokens_overprinted r
  cases hv : r.value with
  | none =>
    rw [valueRow, hv] at hrow
    exact ⟨hsame.trans hv, hrow, (reprint_none hv).2.1⟩
  | some v =>
    rw [valueRow, hv] at hrow
    have hprinted : r.overprinted.language.printed r.overprinted.cells v =
        r.language.printed r.cells v := by
      rw [hlanguage, hl.printed_keeps hkeeps (hvalue v hv)]
    refine ⟨v, hsame.trans hv, LawfulPayload.same_refl _ v, ?_, ?_, ?_, ?_⟩ <;> rw [hprinted]
    · exact hrow
    · exact (reprint_some hv).1
    · exact (reprint_some hv).2.1
    · rw [hrow]
      exact SameRow.refl _ _

theorem wp_read_overprinted (hv : r.value = some v) (hne : r.valueRow ≠ []) (hs : r.syncing = false)
    (hr : r.restoring = false) :
    wp (sync reparse) (fun _ r' => r'.tokens = r.valueRow ∧ (r'.Presents r.value ↔ r.ReadsBack))
      (fun _ _ => False) r.overprinted := by
  obtain ⟨hlanguage, -, hsyncing, hrestoring, hkeeps⟩ := reread_overprinted r
  have hrow := tokens_overprinted r
  have hcells := hvalue v hv
  have hprint : r.valueRow = (r.language.printed r.cells v).tokens := by rw [valueRow, hv]
  have hread := wp_sync_reparse_of_print (r := r.overprinted) (v := v) (hlanguage ▸ hl)
    (hkeeps.has hcells) (by rw [hlanguage, hl.printed_keeps hkeeps hcells, hrow, hprint])
    (hrow ▸ hne) (hrestoring.trans hr) (hsyncing.trans hs)
  refine wp_mono hread (fun _ r' h => ?_) (fun _ _ h => h)
  obtain ⟨hreread, htook⟩ := h
  have hkeeps' := hkeeps.trans hreread.cells
  have hlanguage' : r'.language = r.language := hreread.language.trans hlanguage
  have hrow' : r'.tokens = r.valueRow := hreread.tokens.trans hrow
  have hreads : r.ReadsBack ↔ r.language.ReadsBack r.cells v :=
    ⟨fun h => h v hv, fun h w hw => by cases hv.symm.trans hw; exact h⟩
  refine ⟨hrow', ?_⟩
  rw [hv, hreads, ← Language.readsBack_iff_of_keeps hl.toStructural hkeeps' hcells, ← hlanguage']
  refine htook.presents_iff (hlanguage' ▸ hl) ?_ (hrow' ▸ hne)
  rw [hrow', hprint, hlanguage', hl.printed_keeps hkeeps' hcells]

theorem wp_reprintToTokens_at_rest (hs : r.syncing = false) (hr : r.restoring = false) :
    wp reprintToTokens (fun _ r' => r'.valid = true ∧ r'.tokens = r.valueRow ∧
      (r'.Presents r.value ↔ r.autoReparse = false ∨ r.ReadsBack)) (fun _ _ => False) r := by
  rw [wp_reprintToTokens]
  cases hauto : r.autoReparse with
  | false =>
    rw [if_neg Bool.false_ne_true]
    exact ⟨rfl, tokens_overprinted r, fun _ => .inl rfl, fun _ => presents_overprinted hl hvalue⟩
  | true =>
    rw [if_pos rfl]
    have hread : wp (sync reparse) (fun _ r' => r'.tokens = r.valueRow ∧
        (r'.Presents r.value ↔ r.ReadsBack)) (fun _ _ => False) r.overprinted := by
      by_cases hnil : r.valueRow = []
      · exact wp_read_overprinted_nil hnil hs hr
      · obtain ⟨v, hv⟩ : ∃ v, r.value = some v := by
          refine Option.ne_none_iff_exists'.1 fun hnone => hnil ?_
          rw [valueRow, hnone]
        exact wp_read_overprinted hl hvalue hv hnil hs hr
    refine wp_mono hread (fun _ r' h => ⟨rfl, h.1, ?_⟩) (fun _ _ h => h)
    simpa [presents_setValid] using h.2

end

end Region

/-- The print of an expression reads back exactly if the expression is canonical. -/
theorem Expr.readsBack_iff_canonical {p : Precedence} {cells : Cells} {e : Expr} :
    (language p).ReadsBack cells e ↔ e.Canonical p := by
  unfold Language.ReadsBack
  rw [reads_printed_iff, printed_tokens]
  exact and_iff_right (row_ne_nil e)

/-- A reprint always succeeds, puts the print of the value in the place of the row and declares the
region valid. Value, row and print are then those of the value if the region does not read by
itself, or if the print reads back; otherwise the value is another, or there is no print. The
languages of expressions and of sums are lawful, and the prints of expressions read back exactly if
they are canonical. -/
theorem reprintToTokens_presents_iff {V : Type} [Payload V] [LawfulPayload V]
    {L : Language V → Prop} (hL : ∀ l, L l → l.Lawful) {r : Region V} (h : Region.Attained L r)
    (hs : r.syncing = false) :
    (∃ r', Region.reprintToTokens r = .ok () r' ∧ r'.valid = true ∧ r'.tokens = r.valueRow ∧
      (r'.Presents r.value ↔ r.autoReparse = false ∨ r.ReadsBack)) ∧
    (∀ p, (Expr.language p).Lawful ∧ ∀ cells e, (Expr.language p).ReadsBack cells e ↔ e.Canonical p) ∧
    ∀ style : Sum.Style, style.dropLast = false → (Sum.language style).Lawful := by
  refine ⟨?_, fun p => ⟨Expr.language_lawful p, fun _ _ => Expr.readsBack_iff_canonical⟩,
    fun _ => Sum.language_lawful⟩
  obtain ⟨hlanguage, hstocked, hr⟩ := h.stocked fun l hl => (hL l hl).toLinear
  obtain ⟨_, r', hrun, hends⟩ :=
    exists_of_wp (Region.wp_reprintToTokens_at_rest (hL _ hlanguage) hstocked.value hs hr)
  exact ⟨r', hrun, hends⟩

/-- The region with the value `-5`, which its print does not read as. -/
def negativeRegion : Region Expr :=
  (Region.new (Expr.language {}) {} {}).after (Region.Call.op (.setValue (some (.int (-5))))).run

/-- The print of `-5` does not read, so a reprint loses it, but leaves the region valid. -/
theorem reprintToTokens_presents_iff_negative :
    Region.Attained Expr.IsLanguage negativeRegion ∧
    negativeRegion.syncing = false ∧
    ∃ r', Region.reprintToTokens negativeRegion = .ok () r' ∧ r'.valid = true ∧
      r'.tokens = [.plain ['-', '5']] ∧ ¬ r'.Presents (some (.int (-5))) := by
  have hattained : Region.Attained Expr.IsLanguage negativeRegion := by
    refine .call (.new {} {} ⟨{}, rfl⟩) ⟨by rintro t ⟨⟩, ?_, by rintro l ⟨⟩⟩
    rintro v ⟨⟩
    exact Cells.has_nil
  have hs : negativeRegion.syncing = false := by decide +kernel
  have hvalue : negativeRegion.value = some (.int (-5)) := by decide +kernel
  have hauto : negativeRegion.autoReparse = true := by decide +kernel
  obtain ⟨⟨r', hok, hvalid, hrow, hiff⟩, hexpr, -⟩ :=
    reprintToTokens_presents_iff (by rintro _ ⟨p, rfl⟩; exact Expr.language_lawful p) hattained hs
  refine ⟨hattained, hs, r', hok, hvalid, ?_, fun hpresents => ?_⟩
  · rw [hrow, Region.valueRow, hvalue]
    decide +kernel
  · rw [← hvalue] at hpresents
    rcases hiff.1 hpresents with hoff | hreads
    · rw [hauto] at hoff
      cases hoff
    · have hlanguage : negativeRegion.language = Expr.language {} := Region.Call.language_after rfl _
      have hcanon := ((hexpr {}).2 _ _).1 (hlanguage ▸ hreads _ hvalue)
      exact absurd hcanon (by decide)

end TokenEditor
