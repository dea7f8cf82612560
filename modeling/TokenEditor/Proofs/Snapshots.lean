import TokenEditor.Proofs.Growth
import TokenEditor.Proofs.Guards
import TokenEditor.Proofs.Reprinting

/-! # Saved rows

A saved row shows what the row showed, on cells that no one else has. So nothing that is done
afterwards changes it, as long as the host leaves those cells alone: an editor only makes cells
(`Grown`), and the cells that were there when the row was saved are others. A restore puts the saved
tokens themselves into the row and reads them like a new editor would. -/

namespace TokenEditor
variable {V : Type}

/-- The listed cells are in the store, with the texts they had `before`. -/
structure Cells.Spares (before : Cells) (cs : List CellId) (after : Cells) : Prop where
  has : after.Has cs
  text_eq : ∀ c ∈ cs, after.text c = before.text c

theorem Cells.text_setText_of_ne {cells : Cells} {c d : CellId} (t : Text) (h : d ≠ c) :
    (cells.setText c t).text d = cells.text d := by
  simp [text, setText, List.getElem?_modify_ne _ _ h.symm]

/-- The row `copy`, made while the store grew from `before` to `after`, shows what `ts` shows. It is
on cells that were not there before, so on none that `ts` has, and on another one in every place. -/
structure Snapshot [Payload V] (before after : Cells) (ts copy : List (Token V)) : Prop where
  same : SameRow after copy ts
  fresh : ∀ c : Nat, c ∈ rowCells copy → before.entries.length ≤ c
  distinct : (rowCells copy).Nodup
  has : after.Has (rowCells copy)
  keeps : before.Keeps after

theorem Snapshot.of_copies [Payload V] {before after : Cells} {ts copy : List (Token V)}
    (h : before.Copies (rowCells ts) (rowCells copy) after) (hsame : SameRow after copy ts) :
    Snapshot before after ts copy where
  same := hsame
  fresh c hc := by
    rw [h.fresh, List.mem_range'_1] at hc
    exact hc.1
  distinct := h.fresh ▸ List.nodup_range'
  has := h.has
  keeps := h.keeps

theorem snapshot_detachAll [Payload V] [LawfulPayload V] {cells : Cells} {ts : List (Token V)}
    (h : cells.Has (rowCells ts)) : Snapshot cells ((Token.detachAll ts).run cells).2 ts
      ((Token.detachAll ts).run cells).1 :=
  have hdetaches := detachAll_detaches ts cells h
  .of_copies hdetaches.1 hdetaches.2

/-- Reading depends on what the tokens show, and the length of a print on what the value shows. -/
structure Language.Observes [Payload V] (l : Language V) : Prop where
  parse_keeps : ∀ {before after : Cells} {ts : List (Token V)}, before.Keeps after →
    before.Has (rowCells ts) → l.parse after ts = l.parse before ts
  parse_same : ∀ {cells : Cells} {ts us : List (Token V)} {v : V}, SameRow cells ts us →
    l.parse cells ts = some v → ∃ w, l.parse cells us = some w ∧ Payload.same cells v w
  parse_has : ∀ {cells : Cells} {ts : List (Token V)} {v : V}, cells.Has (rowCells ts) →
    l.parse cells ts = some v → cells.Has (Payload.cellsOf v)
  print_keeps : ∀ {before after : Cells} {v : V}, before.Keeps after →
    before.Has (Payload.cellsOf v) → l.print after v = l.print before v
  print_same : ∀ {cells : Cells} {v w : V}, Payload.same cells v w →
    SameRow cells (l.printed cells v).tokens (l.printed cells w).tokens

theorem Expr.observes {l : Language Expr} (hl : IsLanguage l) : l.Observes := by
  obtain ⟨p, rfl⟩ := hl
  have h := language_lawful p
  exact ⟨h.parse_keeps, h.parse_same, h.parse_has, h.print_keeps, h.print_same⟩

/-- Even a sum language that leaves out the last term when it prints. -/
theorem Sum.observes {l : Language Sum} (hl : IsLanguage l) : l.Observes := by
  obtain ⟨style, rfl⟩ := hl
  have h : (language {}).Structural := language_structural rfl
  exact ⟨h.parse_keeps, h.parse_same, h.parse_has, fun _ _ => rfl, sameRow_row style _ _⟩

namespace Region
variable [Payload V] {r r' : Region V}

/-- What the row reads as, if anything, is printed with as many tokens. -/
def Fits (r : Region V) : Prop :=
  ∀ v, r.tokens ≠ [] → r.language.parse r.copied.2 r.copied.1 = some v →
    (r.language.printed r.copied.2 v).tokens.length = r.tokens.length

theorem reading_fits_iff (hs : r.syncing = false) (hr : r.restoring = false) :
    wp (sync reparse) (fun _ _ => True) (fun _ _ => False) r ↔ r.underSync.Fits := by
  rw [wp_sync, if_neg (by simp [hs]), wp_reparse,
    if_neg (show ¬ r.underSync.restoring = true by simp [underSync, hr]), Fits]
  split_ifs with hempty
  · simp [List.isEmpty_iff.1 hempty]
  · have hne : r.underSync.tokens ≠ [] := by simpa using hempty
    cases r.underSync.language.parse r.underSync.copied.2 r.underSync.copied.1 with
    | none => simp
    | some v => simp [hne]

/-- Both rows read, as values that are the same in the later store, or neither does; and both prints
are as long as the row or neither is. -/
structure ReadsAlike (r r' : Region V) : Prop where
  readable : r'.readable = r.readable
  value : r.readable = true →
    Option.Rel (fun v w => Payload.same r'.read.cells v w = true) r.read.value r'.read.value
  fits : r'.Fits ↔ r.Fits

section
variable [LawfulPayload V] (hl : r.language.Observes) (hlanguage : r'.language = r.language)
  (htokens : r'.tokens = r.tokens) (hrow : r.cells.Has (rowCells r.tokens))
  (hk : r.copied.2.Keeps r'.cells)
include hl hlanguage htokens hrow hk

omit hl hlanguage in
theorem keeps_copied_again : r.copied.2.Keeps r'.copied.2 := by
  have hrow' : r'.cells.Has (rowCells r'.tokens) :=
    htokens ▸ hk.has ((copied_spec hrow).1.keeps.has hrow)
  exact hk.trans (copied_spec hrow').1.keeps

theorem parse_copied_again :
    Option.Rel (fun v w => Payload.same r'.copied.2 v w = true ∧
        r.copied.2.Has (Payload.cellsOf v) ∧ r'.copied.2.Has (Payload.cellsOf w))
      (r.language.parse r.copied.2 r.copied.1) (r'.language.parse r'.copied.2 r'.copied.1) := by
  obtain ⟨hcopy, hsame⟩ := copied_spec hrow
  obtain ⟨hcopy', hsame'⟩ := copied_spec (r := r') (htokens ▸ hk.has (hcopy.keeps.has hrow))
  have hgrown := keeps_copied_again htokens hrow hk
  have hcopies : SameRow r'.copied.2 r.copied.1 r'.copied.1 := by
    rw [htokens] at hsame'
    exact (hsame.keeps hgrown hcopy.has (hcopy.keeps.has hrow)).trans hsame'.symm
  have hkept := hl.parse_keeps hgrown hcopy.has
  rw [hlanguage]
  cases hparse : r.language.parse r.copied.2 r.copied.1 with
  | some v =>
    obtain ⟨w, hw, hvw⟩ := hl.parse_same hcopies (hkept.trans hparse)
    rw [hw]
    exact .some ⟨hvw, hl.parse_has hcopy.has hparse, hl.parse_has hcopy'.has hw⟩
  | none =>
    cases hparse' : r.language.parse r'.copied.2 r'.copied.1 with
    | none => exact .none
    | some w =>
      obtain ⟨v, hv, -⟩ := hl.parse_same hcopies.symm hparse'
      rw [hkept, hparse] at hv
      cases hv

theorem readsAlike_of_keeps : ReadsAlike r r' := by
  by_cases hempty : r.tokens = []
  · have hempty' : r'.tokens = [] := htokens.trans hempty
    refine ⟨by simp [readable, hempty, hempty'], fun _ => ?_, by simp [Fits, hempty, hempty']⟩
    have hread : r.read = r.emptied := if_pos (List.isEmpty_iff.2 hempty)
    have hread' : r'.read = r'.emptied := if_pos (List.isEmpty_iff.2 hempty')
    rw [hread, hread']
    exact .none
  have hne : r.tokens.isEmpty = false := by simpa using hempty
  have hne' : r'.tokens.isEmpty = false := htokens ▸ hne
  have hrel := parse_copied_again hl hlanguage htokens hrow hk
  generalize hv : r.language.parse r.copied.2 r.copied.1 = read at hrel
  generalize hw : r'.language.parse r'.copied.2 r'.copied.1 = read' at hrel
  cases hrel with
  | none =>
    refine ⟨by simp [readable, hne, hne', hv, hw], fun hreads => ?_, by simp [Fits, hv, hw]⟩
    simp [readable, hne, hv] at hreads
  | @some v w h =>
    obtain ⟨hsame, hhas, hhas'⟩ := h
    have hgrown := keeps_copied_again htokens hrow hk
    refine ⟨by simp [readable, hne, hne', hv, hw], fun _ => ?_, ?_⟩
    · have hread : r.read = r.took v := by simp [Region.read, hne, hv]
      have hread' : r'.read = r'.took w := by simp [Region.read, hne', hw]
      have hkept : r'.copied.2.Keeps (r'.took w).cells := (reread_reprint (r'.taking w)).cells
      rw [hread, hread', took, took, value_reprint, value_reprint]
      exact .some (LawfulPayload.same_local.mono hkept (hgrown.has hhas) hhas' hsame)
    · have hlength : (r'.language.printed r'.copied.2 w).tokens.length =
          (r.language.printed r.copied.2 v).tokens.length := by
        rw [hlanguage, ← (hl.print_same hsame).length_eq, Language.printed,
          hl.print_keeps hgrown hhas]
        rfl
      simp [Fits, hv, hw, hlength, htokens]

end

theorem language_read (r : Region V) : r.read.language = r.language := by
  unfold read
  split_ifs
  · rfl
  · split
    · rfl
    · exact (reread_reprint (r.taking _)).language

theorem keeps_copied_read (r : Region V) : r.copied.2.Keeps r.read.cells := by
  unfold read
  split_ifs with hempty
  · have hcopied : r.copied.2 = r.cells := by
      rw [copied, List.isEmpty_iff.1 hempty]
      rfl
    rw [hcopied]
    exact r.keeps_dispose
  · split
    · exact .refl _
    · exact (reread_reprint (r.taking _)).cells

/-! ### Replacing the row -/

/-- The region with `ts` in place of its row, about to read them. -/
def given (ts : List (Token V)) (r : Region V) : Region V :=
  (r.spliced 0 r.tokens.length ts).underSync

theorem tokens_given (ts : List (Token V)) (r : Region V) : (r.given ts).tokens = ts := by
  simp [given, spliced, underSync]

/-- Nothing is under way that keeps the region from reading. -/
structure Unmarked (r : Region V) : Prop where
  syncing : r.syncing = false
  restoring : r.restoring = false

theorem Act.unmarked (act : Act V) (h : r.Unmarked) :
    wp act.run (fun _ => Unmarked) (fun _ => Unmarked) r := by
  have costs : ∀ {n : Nat} {f : RegionM V Unit}, Costs n f r →
      wp f (fun _ => Unmarked) (fun _ => Unmarked) r := by
    intro n f hf
    have hends : ∀ r' : Region V, Spends n r r' → r'.Unmarked := fun r' hr =>
      ⟨hr.syncing.trans h.syncing, hr.restoring.trans h.restoring⟩
    exact wp_mono hf (fun _ => hends) fun _ => hends
  cases act with
  | splice start stop new => exact costs costs_splice
  | align => exact costs costs_updateToPrinted
  | setValue v => exact costs costs_setValue
  | restore saved => exact costs costs_restore
  | processChanges => exact costs costs_processChanges.discard
  | setLanguage l =>
    have hspends := Call.spends (c := .setLanguage l) trivial r
    exact after_iff.1 ⟨hspends.syncing.trans h.syncing, hspends.restoring.trans h.restoring⟩

variable {ts : List (Token V)} {post : Unit → Region V → Prop} {fail : EditError → Region V → Prop}

theorem wp_setTokens (hauto : r.autoReparse = true) : wp (setTokens ts) post fail r ↔
    wp (sync reparse) post fail (r.spliced 0 r.tokens.length ts) := by
  rw [setTokens, wp_bind, wp_get, wp_splice, if_neg (by simp), if_pos hauto]

theorem after_reading (h : r.Unmarked) :
    (r.spliced 0 r.tokens.length ts).after (sync reparse) = (r.given ts).read.endSync :=
  after_sync_reparse (r := r.spliced 0 r.tokens.length ts) h.syncing h.restoring

end Region

theorem exists_ok_iff {ε σ : Type} {f : EStateM ε σ Unit} {s : σ} :
    (∃ s', f s = .ok () s') ↔ wp f (fun _ _ => True) (fun _ _ => False) s := by
  unfold wp
  cases f s <;> simp

namespace Editor
variable [Payload V] {e : Editor V}

/-- Do something to the region that replaces its row. -/
def replacing (f : RegionM V Unit) : EditM V Unit := do
  modify fun e => { e.closeMenu with selection := none }
  onRegion f
  modify repairFocus

section
variable {f : RegionM V Unit} {ts : List (Token V)} (h : e.region.Unmarked)
  (hf : ∀ {post : Unit → Region V → Prop} {fail : EditError → Region V → Prop},
    wp f post fail e.region ↔ wp (Region.sync Region.reparse) post fail
      (e.region.spliced 0 e.region.tokens.length ts))
include h hf

theorem region_replacing : ∃ views,
    (e.after (replacing f)).region = { (e.region.given ts).read.endSync with views := views } := by
  refine (after_iff (P := fun e' => ∃ views,
    e'.region = { (e.region.given ts).read.endSync with views := views })).2 ?_
  rw [replacing, wp_bind, wp_modify, wp_bind, wp_onRegion]
  refine hf.2 (wp_mono ((Region.after_iff (P := fun r => r = (e.region.given ts).read.endSync)).1
    (Region.after_reading h)) ?_ ?_)
  · rintro _ r rfl
    refine run_region (P := fun r => ∃ views,
      r = { (e.region.given ts).read.endSync with views := views }) ?_ ⟨_, rfl⟩ .stay
    rintro _ _ _ ⟨views, rfl⟩
    exact ⟨_, rfl⟩
  · rintro _ r rfl
    exact ⟨_, rfl⟩

theorem replacing_ok_iff : (∃ e', replacing f e = .ok () e') ↔ (e.region.given ts).Fits := by
  rw [exists_ok_iff, replacing, wp_bind, wp_modify, wp_bind, wp_onRegion]
  exact hf.trans (Region.reading_fits_iff h.syncing h.restoring)

end

/-- A new editor with the language of `e`, on its store. -/
def anew (e : Editor V) (settings : Settings) : Editor V :=
  .new e.region.language e.region.cells settings

/-- The editor once the row `ts` has been restored, whether or not that fails. -/
def restored (ts : List (Token V)) (e : Editor V) : Editor V :=
  e.after (restore (some ts))

/-- Both editors are valid or neither is, and if they are their values are the same. -/
structure AgreesWith (e e' : Editor V) : Prop where
  valid : e'.region.valid = e.region.valid
  value : e.region.valid = true →
    Option.Rel (fun v w => Payload.same e'.region.cells v w = true) e.region.value e'.region.value

/-- To restore the row `ts` gives these tokens, read as a new editor with the language in use reads
them. It fails, too, exactly if the new editor does. -/
structure Reinstates (ts : List (Token V)) (e : Editor V) : Prop where
  tokens : (e.restored ts).tokens = ts
  language : (e.restored ts).region.language = e.region.language
  agrees : ∀ {settings : Settings}, settings.autoReparse = true →
    (e.restored ts).AgreesWith (((e.restored ts).anew settings).after (setTokens ts))
  goesWell : ∀ {settings : Settings}, settings.autoReparse = true →
    ((∃ e', restore (some ts) e = .ok () e') ↔
      ∃ e', setTokens ts ((e.restored ts).anew settings) = .ok () e')

theorem Reinstates.of_row [LawfulPayload V] {ts : List (Token V)} (hl : e.region.language.Observes)
    (hmarks : e.region.Unmarked) (hrow : e.region.cells.Has (rowCells ts)) : Reinstates ts e := by
  obtain ⟨views, hrestored⟩ := region_replacing (f := Region.restore (some ts)) hmarks
    (Region.wp_restore_some hmarks.restoring ts)
  change (e.restored ts).region = _ at hrestored
  have hlanguage : (e.restored ts).region.language = e.region.language := by
    rw [hrestored]
    exact (e.region.given ts).language_read
  have hcells : (e.restored ts).region.cells = (e.region.given ts).read.cells := by
    rw [hrestored]
    rfl
  have hvalid : (e.restored ts).region.valid = (e.region.given ts).readable := by
    rw [hrestored]
    exact (e.region.given ts).valid_read
  have alike : ∀ settings : Settings, (e.region.given ts).ReadsAlike
      (((e.restored ts).anew settings).region.given ts) := fun settings =>
    Region.readsAlike_of_keeps (r := e.region.given ts) hl hlanguage
      ((Region.tokens_given ts _).trans (Region.tokens_given ts _).symm)
      ((Region.tokens_given ts e.region).symm ▸ hrow) (hcells.symm ▸ Region.keeps_copied_read _)
  refine ⟨?_, hlanguage, fun {settings} hauto => ?_, fun {settings} hauto => ?_⟩
  · rw [Editor.tokens, hrestored]
    exact (Region.tokens_read _).trans (Region.tokens_given ts e.region)
  · obtain ⟨views', hfresh⟩ := region_replacing (f := Region.setTokens ts)
      (e := (e.restored ts).anew settings) ⟨rfl, rfl⟩ (Region.wp_setTokens hauto)
    change (((e.restored ts).anew settings).after (setTokens ts)).region = _ at hfresh
    refine ⟨?_, fun hreads => ?_⟩
    · rw [hfresh, hvalid, ← (alike settings).readable]
      exact Region.valid_read _
    · have hvalue := (alike settings).value (hvalid ▸ hreads)
      rw [hfresh, hrestored]
      exact hvalue
  · have hrestore := replacing_ok_iff hmarks (Region.wp_restore_some hmarks.restoring ts)
    have hfresh := replacing_ok_iff (f := Region.setTokens ts) (e := (e.restored ts).anew settings)
      ⟨rfl, rfl⟩ (Region.wp_setTokens hauto)
    exact hrestore.trans ((alike settings).fits.symm.trans hfresh.symm)

/-- The operation changes the texts of none of the listed cells: it is no change of such a text, and
what the host does with the store makes cells at most. -/
def Op.Spares (cs : List CellId) : Op V → Prop
  | setCellText c _ => c ∉ cs
  | op => op.Makes

variable [QuietPayload V] {L : Language V → Prop} {cs : List CellId}

theorem spares_after (hL : Language.Makes L) (h : e.Supplied L Item.Makes)
    (hcs : e.region.cells.Has cs) {op : Op V} (hop : op.Speaks L Item.Makes)
    (hspares : op.Spares cs) :
    e.region.cells.Spares cs (e.after op.run).region.cells := by
  unfold Op.Spares at hspares
  split at hspares
  · rename_i c t
    have hset : (e.after (Op.setCellText c t).run).region.cells = e.region.cells.setText c t := rfl
    rw [hset]
    refine ⟨fun d hd => ?_, fun d hd => ?_⟩
    · simpa [Cells.setText] using hcs d hd
    · refine Cells.text_setText_of_ne t ?_
      rintro rfl
      exact hspares hd
  · have hgrown : (e.after op.run).Grown L e.region.cells :=
      Grown.after hL ⟨.refl _, h⟩ hop hspares
    exact ⟨hgrown.keeps.has hcs, fun d hd => hgrown.keeps.text_eq d (hcs d hd)⟩

theorem spares_afterAll (hL : Language.Makes L) (h : e.Supplied L Item.Makes)
    (hcs : e.region.cells.Has cs) {ops : List (Op V)}
    (hops : ∀ op ∈ ops, op.Speaks L Item.Makes ∧ op.Spares cs) :
    e.region.cells.Spares cs (afterAll ops e).region.cells := by
  induction ops generalizing e with
  | nil => exact ⟨hcs, fun _ _ => rfl⟩
  | cons op ops ih =>
    obtain ⟨⟨hop, hspares⟩, hops⟩ := List.forall_mem_cons.1 hops
    have hfirst := spares_after hL h hcs hop hspares
    have hrest := ih (h.after hL.offers hop) hfirst.has hops
    exact ⟨hrest.has, fun d hd => (hrest.text_eq d hd).trans (hfirst.text_eq d hd)⟩

omit [QuietPayload V] in
theorem unmarked_afterAll (h : e.region.Unmarked) (ops : List (Op V)) :
    (afterAll ops e).region.Unmarked :=
  region_afterAll (fun _ hr => ⟨hr.syncing, hr.restoring⟩) (fun hr => ⟨hr.syncing, hr.restoring⟩)
    (fun {act _} hr => act.unmarked hr) ops h

/-- A row whose cells are left alone can be restored at any time. -/
theorem recalls [LawfulPayload V] (hL : Language.Makes L) (hobserves : ∀ l, L l → l.Observes)
    (h : e.Supplied L Item.Makes) (hmarks : e.region.Unmarked) {ts : List (Token V)}
    (hrow : e.region.cells.Has (rowCells ts)) {ops : List (Op V)}
    (hops : ∀ op ∈ ops, op.Speaks L Item.Makes ∧ op.Spares (rowCells ts)) :
    e.region.cells.Spares (rowCells ts) (afterAll ops e).region.cells ∧
      Reinstates ts (afterAll ops e) := by
  have hspares := spares_afterAll hL h hrow hops
  have hlater := h.afterAll hL.offers fun op hop => (hops op hop).1
  exact ⟨hspares, .of_row (hobserves _ hlater.language) (unmarked_afterAll hmarks ops) hspares.has⟩

/-! ### Saving -/

/-- What is saved by editors with languages of `L`. -/
structure SavesSnapshots (L : Language V → Prop) : Prop where
  /-- A copy of a token is a snapshot of it. -/
  token : ∀ {cells : Cells} {t : Token V}, cells.Has t.cellsOf →
    Snapshot cells (t.detach.run cells).2 [t] [(t.detach.run cells).1]
  /-- The saved row is a snapshot of the row, if the cells of the row are in the store. Whatever is
  done after that, failing or not, it shows what it did and can be restored, as long as its own cells
  are left alone. No cell that was there before is one of them. -/
  row : ∀ {l : Language V} {cells : Cells} {settings : Settings} {before : List (Op V)}, L l →
    (∀ op ∈ before, op.Speaks L Item.Makes) → ∀ {e : Editor V},
    afterAll before (.new l cells settings) = e → e.region.cells.Has (rowCells e.tokens) →
    ∃ saved e₁, save e = .ok saved e₁ ∧ Snapshot e.region.cells e₁.region.cells e.tokens saved ∧
      ∀ ops : List (Op V), (∀ op ∈ ops, op.Speaks L Item.Makes ∧ op.Spares (rowCells saved)) →
        e₁.region.cells.Spares (rowCells saved) (afterAll ops e₁).region.cells ∧
          Reinstates saved (afterAll ops e₁)

theorem SavesSnapshots.of_languages [LawfulPayload V] (hL : Language.Makes L)
    (hobserves : ∀ l, L l → l.Observes) : SavesSnapshots L where
  token {cells t} ht := by
    obtain ⟨hcopy, hsame⟩ := Token.detaches t cells ht
    refine .of_copies ?_ (.cons hsame .nil)
    simpa [rowCells] using hcopy
  row {l cells settings before} hl hbefore e he hrow := by
    have hsupplied : e.Supplied L Item.Makes :=
      he ▸ (Supplied.new hl cells settings).afterAll hL.offers hbefore
    have hmarks : e.region.Unmarked := he ▸ unmarked_afterAll ⟨rfl, rfl⟩ before
    have hsnapshot := snapshot_detachAll hrow
    refine ⟨_, _, rfl, hsnapshot, fun ops hops => recalls hL hobserves ?_ ?_ hsnapshot.has hops⟩
    · exact hsupplied.setRegion hsupplied.language
    · exact ⟨hmarks.syncing, hmarks.restoring⟩

end Editor

/-- A copy of a token shows what the token shows and shares no cell with it, and a saved row is made
of such copies. So it stays what it was, whatever becomes of the editor and of the cells that were
there when it was saved; and to restore it gives its tokens, valid or not and with the value that a
new editor would find. -/
theorem saved_rows_are_snapshots :
    Editor.SavesSnapshots Expr.IsLanguage ∧ Editor.SavesSnapshots Sum.IsLanguage :=
  ⟨.of_languages Expr.language_makes fun _ => Expr.observes,
    .of_languages Sum.language_makes fun _ => Sum.observes⟩

namespace Expr
open Editor

/-- A sum of two texts in one cell. -/
def doubled : Editor Expr :=
  afterAll [.setTokens [.value (text 0), plusToken, .value (text 0)]]
    (.new (language {}) ⟨[{ text := ['x'] }]⟩ {})

/-- The text is changed, a later item is put in, precedence is changed, and the row is retyped. -/
def aftermath : List (Op Expr) := [
  .setCellText 0 ['z'], .activateMenu, .answer laterItems, .pollMenu, .enter,
  .setLanguage (language ⟨2, 1⟩), .selectToken 0 .last, .backspace, .backspace,
  .typeText "(value".toList, .paste "1 2".toList, .dispose]

/-- The saved sum is on two cells, and both keep the old text. -/
theorem saved_rows_are_snapshots_doubled : ∃ saved e₁, save doubled = .ok saved e₁ ∧
    saved = [.value (text 3), plusToken, .value (text 4)] ∧
    SameRow e₁.region.cells saved doubled.tokens ∧
    (afterAll aftermath e₁).region.valid = false ∧
    (afterAll aftermath e₁).region.cells.text 0 = ['z'] ∧
    (afterAll aftermath e₁).region.cells.text 3 = ['x'] ∧
    (afterAll aftermath e₁).region.cells.text 4 = ['x'] ∧
    ((afterAll aftermath e₁).restored saved).tokens = saved ∧
    ((afterAll aftermath e₁).restored saved).region.valid = true := by
  have hbefore : ∀ op ∈ [Op.setTokens [.value (text 0), plusToken, .value (text 0)]],
      op.Speaks IsLanguage Item.Makes := by
    simp [Op.Speaks]
  have hrow : doubled.region.cells.Has (rowCells doubled.tokens) := by
    unfold Cells.Has
    decide +kernel
  obtain ⟨saved, e₁, hsave, hsnapshot, hlater⟩ :=
    saved_rows_are_snapshots.1.row (e := doubled) ⟨{}, rfl⟩ hbefore rfl hrow
  have hends : endsWith save (fun saved e₁ =>
      saved == [.value (text 3), plusToken, .value (text 4)] && e₁.region.cells.text 3 == ['x'] &&
        e₁.region.cells.text 4 == ['x'] && !(afterAll aftermath e₁).region.valid &&
        (afterAll aftermath e₁).region.cells.text 0 == ['z'] &&
        ((afterAll aftermath e₁).restored saved).region.valid) doubled := by
    decide +kernel
  obtain ⟨saved', e₁', hsave', htest⟩ := exists_of_endsWith hends
  cases hsave.symm.trans hsave'
  simp only [Bool.and_eq_true, beq_iff_eq, Bool.not_eq_true'] at htest
  obtain ⟨⟨⟨⟨⟨rfl, hleft⟩, hright⟩, hinvalid⟩, hchanged⟩, hvalid⟩ := htest
  have hops : ∀ op ∈ aftermath, op.Speaks IsLanguage Item.Makes ∧
      op.Spares (rowCells [.value (text 3), plusToken, .value (text 4)]) := by
    simpa [aftermath, Op.Speaks, Op.Spares, Op.Makes, IsLanguage, rowCells, Token.cellsOf,
      Payload.cellsOf, cellsOf, plusToken, Token.plain] using makes_laterItems
  obtain ⟨hspares, hreinstates⟩ := hlater aftermath hops
  exact ⟨_, e₁, hsave, rfl, hsnapshot.same, hinvalid, hchanged,
    (hspares.text_eq 3 (by decide)).trans hleft, (hspares.text_eq 4 (by decide)).trans hright,
    hreinstates.tokens, hvalid⟩

end Expr

end TokenEditor
