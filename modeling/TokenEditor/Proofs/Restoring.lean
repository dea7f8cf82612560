import TokenEditor.Proofs.Reassociation
import TokenEditor.Proofs.Subscriptions

/-! # Restoring an invalid region

An edit that leaves a row which does not read keeps the last value. `restore none` then prints this
value in the place of the row and reads nothing. So it brings back the row and the value of the last
valid state (`restore_prints_last_value`). They agree under the precedence of that state; under the
one in use now, which may have been changed while the region was invalid, they agree exactly if the
value is canonical under it. -/

namespace TokenEditor.Region
variable {V : Type} [Payload V] {r : Region V}

/-- The region without its value. -/
def unvalued (r : Region V) : Region V :=
  { r with value := none }

/-- Without a value any language will do. -/
theorem Settled.setLanguage {l : Language V} {K : TokenClass V} (h : r.unvalued.Settled l K)
    (l' : Language V) : ({ r with language := l', parses := 0 } : Region V).unvalued.Settled l' K :=
  ⟨rfl, h.autoReparse, h.autoReprint, h.fresh, h.views, h.row, by rintro v ⟨⟩⟩

theorem valid_read (r : Region V) : r.read.valid = r.readable := by
  cases h : r.readable with
  | true => rcases read_of_readable h with ⟨-, hread⟩ | ⟨v, -, hread⟩ <;> rw [hread] <;> rfl
  | false => rw [(read_of_not_readable h).2, refused]

theorem reparse_of_not_readable (hr : r.restoring = false) (h : r.readable = false) :
    reparse r = .ok () r.refused := by
  unfold readable at h
  obtain ⟨ht, hnone⟩ := Bool.or_eq_false_iff.1 h
  have hparse : r.language.parse r.copied.2 r.copied.1 = none := by simpa using hnone
  rw [reparse_eq, if_neg (by simp [hr]), if_neg (by simp [ht]), hparse]

theorem reparse_unvalued (hr : r.restoring = false) (h : r.readable = true) :
    reparse r.unvalued = reparse r := by
  have htokens : r.unvalued.tokens = r.tokens := rfl
  have hcopied : r.unvalued.copied = r.copied := rfl
  have hlanguage : r.unvalued.language = r.language := rfl
  have hrestoring : r.unvalued.restoring = false := hr
  rw [reparse_eq, reparse_eq, htokens, hcopied, hlanguage, hrestoring, hr]
  simp only [Bool.false_eq_true, if_false]
  split_ifs with ht
  · rfl
  · have hsome : (r.language.parse r.copied.2 r.copied.1).isSome := by simpa [readable, ht] using h
    obtain ⟨v, hv⟩ := Option.isSome_iff_exists.1 hsome
    rw [hv]
    rfl

theorem InSync.printed_eq_none {l : Language V} {K : TokenClass V} (h : r.InSync l K)
    (hvalid : r.valid = false) : r.printed = none := by
  have hiff := h.agrees.valid_iff
  rw [hvalid] at hiff
  have hrow : ¬ (r.tokens = [] ∨ (r.language.parse r.cells r.tokens).isSome = true) := by simpa using hiff
  have hparse : r.language.parse r.cells r.tokens = none := by
    simpa using fun hsome => hrow (.inr hsome)
  exact (h.agrees.unreadable (fun ht => hrow (.inl ht)) hparse).2

theorem valid_updateToPrinted (hs : r.syncing = false) :
    wp updateToPrinted (fun _ r' => r'.valid = r.valid) (fun _ r' => r'.valid = r.valid) r := by
  cases hp : r.printed with
  | none => simp [updateToPrinted, hp]
  | some ps =>
    rw [wp_updateToPrinted_some hs hp]
    split_ifs
    · exact (relaid_alignedFrom 0 ps r.underSync).valid
    · rfl

/-- The region with its value printed over the row, as a restore leaves it. -/
def restored (r : Region V) : Region V :=
  (r.setRestoring true).reprinted.setRestoring false

/-- Without a saved row a restore leaves a valid region alone, and prints the value of an invalid one
over the row. -/
theorem restore_none (hr : r.restoring = false) :
    restore none r = .ok () (if r.valid then r else r.restored) := by
  have hback : (r.setRestoring true).setRestoring false = r := by
    rw [setRestoring, setRestoring, ← hr]
  have hwp : wp (restore none) (fun _ r' => r' = if r.valid then r else r.restored)
      (fun _ _ => False) r := by
    rw [wp_restore, if_neg (by simp [hr])]
    simp only [putBack, wp_bind, wp_get, Option.isSome_none, Bool.false_eq_true, if_false,
      show (r.setRestoring true).valid = r.valid from rfl]
    cases r.valid with
    | true => simp [hback]
    | false =>
      simp only [Bool.false_eq_true, if_false]
      rw [wp_reprintToTokens_guarded (.inr rfl)]
      rfl
  obtain ⟨_, _, hrun, rfl⟩ := exists_of_wp hwp
  exact hrun

theorem tokens_restored (r : Region V) : r.restored.tokens = r.valueRow :=
  tokens_reprinted (r.setRestoring true)

theorem value_restored (r : Region V) : r.restored.value = r.value :=
  value_reprint (r.setRestoring true)

theorem language_restored (r : Region V) : r.restored.language = r.language :=
  (reread_reprint (r.setRestoring true)).language

end TokenEditor.Region

namespace TokenEditor.Expr
variable {p q : Precedence} {cells : Cells} {r r' : Region Expr} {v : Expr}

theorem reads_row_iff :
    (∃ w, parse p cells v.row = some w ∧ w.same cells v) ↔ v.Canonical p := by
  constructor
  · rintro ⟨w, hw, hsame⟩
    exact (canonical_of_same hsame).1 (spells_of_parse (textOnly_row v) hw).1
  · intro hv
    exact ⟨v, parse_row cells hv, same_refl cells v⟩

theorem reads_printed_iff : (∃ w, (language p).parse cells ((language p).printed cells v).tokens =
    some w ∧ Payload.same cells w v) ↔ v.Canonical p := by
  rw [printed_tokens, language_parse]
  exact reads_row_iff

theorem reprints_iff :
    (language p).Reprints textTokens cells v ↔ cells.Has v.cellsOf ∧ v.Canonical p := by
  constructor
  · intro h
    exact ⟨h.has, reads_printed_iff.1 h.reads⟩
  · rintro ⟨hhas, hv⟩
    have hprinted := printed_tokens p cells v
    exact ⟨hhas, hprinted ▸ row_ne_nil v, hprinted ▸ textOnly_row v, reads_printed_iff.2 hv⟩

/-! ### Regions between two valid states -/

/-- What holds of a region while its row is edited and its precedence changed: `q` is the precedence
in use, and `p` the one in use when the region was last valid. -/
structure Kept (p q : Precedence) (r : Region Expr) : Prop where
  laid : r.unvalued.Settled (language q) textTokens
  value : ∀ v, r.value = some v → r.cells.Has v.cellsOf ∧ v.Canonical p
  agrees : r.valid = true → p = q ∧ r.Agrees
  unprinted : r.valid = false → r.printed = none
  syncing : r.syncing = false
  restoring : r.restoring = false

namespace Kept

theorem inSync (h : Kept p q r) (hvalid : r.valid = true) : r.InSync (language q) textTokens := by
  obtain ⟨rfl, hagrees⟩ := h.agrees hvalid
  exact ⟨h.laid.setValue fun v hv => reprints_iff.2 (h.value v hv), hagrees, h.syncing, h.restoring⟩

theorem of_inSync (h : r.InSync (language q) textTokens) : Kept q q r :=
  ⟨h.settled.setValue (by rintro v ⟨⟩), fun v hv => reprints_iff.1 (h.settled.value v hv),
    fun _ => ⟨rfl, h.agrees⟩, h.printed_eq_none, h.syncing, h.restoring⟩

/-- The region once its row has been read: valid under the precedence in use, or refused, with the
value it had. -/
theorem of_reading (hlaid : r.unvalued.Settled (language q) textTokens)
    (hvalue : ∀ v, r.value = some v → r.cells.Has v.cellsOf ∧ v.Canonical p)
    (hs : r.syncing = false) (hr : r.restoring = false) :
    wp (Region.sync Region.reparse) (fun _ r' => Kept (if r'.valid then q else p) q r')
      (fun _ _ => False) r := by
  have hread := Region.InSync.of_settled (language_structural q) (language_faithful q) hlaid hs hr
  rw [Region.wp_sync, if_neg (by simp [Region.unvalued, hs])] at hread
  obtain ⟨_, r', hrun, hsync, hreread⟩ := exists_of_wp hread
  rw [show r.unvalued.underSync = r.underSync.unvalued from rfl] at hrun
  rw [Region.wp_sync, if_neg (by simp [hs]), wp]
  cases hreadable : r.underSync.readable with
  | true =>
    have hvalid : r'.valid = true := by
      rw [Region.reparse_unvalued (r := r.underSync) hr hreadable] at hrun
      have hafter := Region.after_reparse (r := r.underSync) hr
      rw [Region.after, hrun] at hafter
      rw [show r' = r.underSync.read from hafter, Region.valid_read, hreadable]
    rw [← Region.reparse_unvalued (r := r.underSync) hr hreadable, hrun]
    show Kept (if r'.valid then q else p) q r'.endSync
    rw [hvalid]
    exact of_inSync hsync
  | false =>
    rw [Region.reparse_of_not_readable (r := r.underSync.unvalued) hr hreadable] at hrun
    cases hrun
    rw [Region.reparse_of_not_readable (r := r.underSync) hr hreadable]
    refine ⟨hsync.settled, fun v hv => ?_, by rintro ⟨⟩, fun _ => rfl, rfl, hr⟩
    obtain ⟨hhas, hcanon⟩ := hvalue v hv
    exact ⟨hreread.cells.has hhas, hcanon⟩

theorem self (h : Kept p q r) : Kept (if r.valid then q else p) q r := by
  split_ifs with hvalid
  · obtain ⟨rfl, -⟩ := h.agrees hvalid
    exact h
  · exact h

theorem makeCells (h : Kept p q r) (texts : List Text) : Kept p q (r.makeCells texts) := by
  have hk : r.cells.Keeps (r.makeCells texts).cells := .of_append rfl
  refine ⟨h.laid.keeps (language_structural q) hk, fun v hv => ?_,
    fun hvalid => ⟨(h.agrees hvalid).1, ?_⟩, h.unprinted, h.syncing, h.restoring⟩
  · exact ⟨hk.has (h.value v hv).1, (h.value v hv).2⟩
  · have hgrown : (r.makeCells texts).InSync (language q) textTokens :=
      (h.inSync hvalid).keeps (language_structural q) hk
    exact hgrown.agrees

theorem splice (h : Kept p q r) {start stop : Nat} {new : List (Token Expr)}
    (hnew : textTokens.Row r.cells new) :
    Kept (if (r.after (Region.splice start stop new)).valid then q else p) q
      (r.after (Region.splice start stop new)) := by
  refine (Region.after_iff (P := fun r' => Kept (if r'.valid then q else p) q r')).2 ?_
  have hlaid : (r.spliced start stop new).unvalued.Settled (language q) textTokens :=
    h.laid.spliced hnew
  rw [Region.wp_splice, if_pos (show r.autoReparse = true from hlaid.autoReparse)]
  split
  · exact h.self
  · exact wp_mono (of_reading hlaid h.value h.syncing h.restoring) (fun _ _ h => h)
      (fun _ _ h => h.elim)

theorem setLanguage (h : Kept p q r) (q' : Precedence) :
    Kept (if (r.after (Region.setLanguage (language q'))).valid then q' else p) q'
      (r.after (Region.setLanguage (language q'))) := by
  refine (Region.after_iff (P := fun r' => Kept (if r'.valid then q' else p) q' r')).2 ?_
  have hread := of_reading (h.laid.setLanguage (language q')) h.value h.syncing h.restoring
  simp only [Region.setLanguage, wp_bind, wp_modify, wp_get]
  rw [if_pos (show r.autoReparse = true from h.laid.autoReparse)]
  refine wp_seq (wp_mono hread (fun _ _ h => h) fun _ _ h => h.elim) fun _ r' h' => ?_
  cases hvalid : r'.valid with
  | false => simpa [Region.updateToPrinted, h'.unprinted hvalid] using h'
  | true =>
    rw [hvalid] at h'
    -- a print of a valid row is as long as the row
    have haligned := wp_and ((h'.inSync hvalid).updateToPrinted (language_structural q'))
      (Region.valid_updateToPrinted h'.syncing)
    refine wp_mono haligned (fun _ r'' h'' => ?_) (fun _ r'' h'' => ?_)
    · rw [h''.2, hvalid]
      exact of_inSync h''.1
    · rw [h''.2, hvalid]
      exact of_inSync h''.1.2

end Kept

/-- The regions that come about by edits of the row and changes of the precedence, as long as no
token embeds more than a text. `q` is the precedence in use, and `p` the one in use when the region
was last valid. -/
inductive Edited : Precedence → Precedence → Region Expr → Prop
  | new (p : Precedence) (cells : Cells) {settings : Settings} : settings.autoReparse = true →
      settings.autoReprint = true → Edited p p (.new (language p) cells settings)
  | makeCells {p q : Precedence} {r : Region Expr} (texts : List Text) : Edited p q r →
      Edited p q (r.makeCells texts)
  | edit {p q : Precedence} {r : Region Expr} {op : Region.Op Expr} {start stop : Nat}
      {new : List (Token Expr)} : Edited p q r → op.edit? r = some (start, stop, new) →
      textTokens.Row r.cells new →
      Edited (if (r.after op.run).valid then q else p) q (r.after op.run)
  | setLanguage {p q : Precedence} {r : Region Expr} (q' : Precedence) : Edited p q r →
      Edited (if (r.after (Region.setLanguage (language q'))).valid then q' else p) q'
        (r.after (Region.setLanguage (language q')))

theorem Edited.kept (h : Edited p q r) : Kept p q r := by
  induction h with
  | new p cells hparse hprint =>
    exact .of_inSync ⟨⟨rfl, hparse, hprint, rfl, rfl, .nil, by rintro v ⟨⟩⟩,
      .of_empty rfl rfl rfl rfl rfl, rfl, rfl⟩
  | makeCells texts _ ih => exact ih.makeCells texts
  | edit _ hedit hnew ih =>
    rw [Region.Op.after_edit hedit]
    exact ih.splice hnew
  | setLanguage q' _ ih => exact ih.setLanguage q'

/-- The row reads under `p` as `v`. -/
def RowReads (p : Precedence) (v : Expr) (r : Region Expr) : Prop :=
  ∃ w, parse p r.cells r.tokens = some w ∧ w.same r.cells v

/-- A valid region with tokens has a value, as which its row reads. -/
theorem Kept.rowReads (h : Kept p q r) (hvalid : r.valid = true) (ht : r.tokens ≠ []) :
    ∃ v, r.value = some v ∧ RowReads q v r := by
  have hagrees := (h.inSync hvalid).agrees
  have hlanguage : r.language = language q := h.laid.language
  have hsome := (hagrees.valid_iff.1 hvalid).resolve_left ht
  obtain ⟨w, hw⟩ := Option.isSome_iff_exists.1 hsome
  obtain ⟨v, hv, hsame, -⟩ := hagrees.readable w ht hw
  rw [hlanguage, language_parse] at hw
  exact ⟨v, hv, w, hw, same_symm hsame⟩

/-- Restoring without a saved row always succeeds. It leaves a valid region alone, and puts the print
of its last value in the place of an invalid row. The value is canonical under the precedence of the
last valid state, and what the row reads as under it; under the precedence in use the row reads as
the value exactly if the value is canonical under that, too. -/
theorem restore_prints_last_value (h : Edited p q r) :
    ∃ r', Region.restore none r = .ok () r' ∧ r'.valid = true ∧ r'.language = language q ∧
      r'.value = r.value ∧ (r.valid = true → r' = r) ∧
      ((r'.tokens = [] ∧ r'.value = none) ∨
        ∃ v, r'.value = some v ∧ v.Canonical p ∧ RowReads p v r' ∧
          (RowReads q v r' ↔ v.Canonical q) ∧
          (r.valid = false → r'.tokens = ((language q).printed r'.cells v).tokens)) := by
  have hkept := h.kept
  have hlanguage : r.language = language q := hkept.laid.language
  refine ⟨_, Region.restore_none hkept.restoring, ?_⟩
  cases hvalid : r.valid with
  | true =>
    rw [if_pos rfl]
    refine ⟨hvalid, hlanguage, rfl, fun _ => rfl, ?_⟩
    by_cases ht : r.tokens = []
    · exact .inl ⟨ht, ((hkept.inSync hvalid).agrees.empty ht).1⟩
    · obtain ⟨v, hv, hreads⟩ := hkept.rowReads hvalid ht
      obtain ⟨rfl, -⟩ := hkept.agrees hvalid
      have hcanon := (hkept.value v hv).2
      exact .inr ⟨v, hv, hcanon, hreads, ⟨fun _ => hcanon, fun _ => hreads⟩, by rintro ⟨⟩⟩
  | false =>
    rw [if_neg Bool.false_ne_true]
    refine ⟨rfl, (Region.language_restored r).trans hlanguage, Region.value_restored r,
      by rintro ⟨⟩, ?_⟩
    have hrow := Region.tokens_restored r
    unfold Region.valueRow at hrow
    cases hv : r.value with
    | none =>
      rw [hv] at hrow
      exact .inl ⟨hrow, (Region.value_restored r).trans hv⟩
    | some v =>
      rw [hv, hlanguage] at hrow
      have hrow : r.restored.tokens = v.row := hrow.trans (printed_tokens q r.cells v)
      have hcanon := (hkept.value v hv).2
      refine .inr ⟨v, (Region.value_restored r).trans hv, hcanon, ?_, ?_, fun _ => ?_⟩
      · rw [RowReads, hrow]
        exact reads_row_iff.2 hcanon
      · rw [RowReads, hrow]
        exact reads_row_iff
      · rw [hrow, printed_tokens]

/-- `a + b * c`. -/
def mixture : List (Token Expr) :=
  [.identifier ['a'], plusToken, .identifier ['b'], mulToken, .identifier ['c']]

/-- The region in which `a + b * c` was followed by one more `+`, and sums were then made to bind
tighter than products. -/
def unfinishedRegion : Region Expr :=
  (((Region.new (language {}) {} {}).after (Region.Op.setTokens mixture).run).after
    (Region.Op.insert 5 plusToken).run).after (Region.setLanguage (language ⟨2, 1⟩))

theorem edited_unfinishedRegion : Edited {} ⟨2, 1⟩ unfinishedRegion := by
  have hrow : ∀ {cells : Cells} {ts : List (Token Expr)}, rowCells ts = [] → TextOnly ts →
      textTokens.Row cells ts := fun hcells htext => ⟨hcells ▸ Cells.has_nil, htext⟩
  have h₁ : Edited _ {} ((Region.new (language {}) {} {}).after (Region.Op.setTokens mixture).run) :=
    .edit (.new {} {} rfl rfl) rfl (hrow rfl (by decide))
  have h₂ : Edited _ {} (((Region.new (language {}) {} {}).after
      (Region.Op.setTokens mixture).run).after (Region.Op.insert 5 plusToken).run) :=
    .edit h₁ rfl (hrow rfl (by decide))
  have h₃ := h₂.setLanguage ⟨2, 1⟩
  rw [ite_self, ite_self, if_neg (by decide +kernel)] at h₃
  exact h₃

/-- A sum of `a` and `b * c` is put back in the row, which by now reads as a product. -/
theorem restore_prints_last_value_unfinished :
    Edited {} ⟨2, 1⟩ unfinishedRegion ∧ unfinishedRegion.valid = false ∧
    ∃ r', Region.restore none unfinishedRegion = .ok () r' ∧ r'.valid = true ∧ r'.tokens = mixture ∧
      r'.value = some (plus (var ['a']) (mul (var ['b']) (var ['c']))) ∧
      ¬ RowReads ⟨2, 1⟩ (plus (var ['a']) (mul (var ['b']) (var ['c']))) r' := by
  have hvalue : unfinishedRegion.value = some (plus (var ['a']) (mul (var ['b']) (var ['c']))) := by
    decide +kernel
  have hvalid : unfinishedRegion.valid = false := by decide +kernel
  obtain ⟨r', hok, hvalid', -, hlast, -, hends⟩ := restore_prints_last_value edited_unfinishedRegion
  rw [hvalue] at hlast
  refine ⟨edited_unfinishedRegion, hvalid, r', hok, hvalid', ?_⟩
  rcases hends with ⟨-, hnone⟩ | ⟨v, hv, -, -, hiff, hrow⟩
  · rw [hlast] at hnone
    cases hnone
  · cases hv.symm.trans hlast
    exact ⟨(hrow hvalid).trans (printed_tokens _ _ _), hlast, fun hreads =>
      absurd (hiff.1 hreads) (by decide)⟩

/-- After a change of precedence on an invalid region, the restored row does not read as the restored
value. -/
theorem restore_none_may_disagree : ∃ p q r r', Edited p q r ∧ Region.restore none r = .ok () r' ∧
    ¬ (r'.valid = true ∧ (r'.tokens = [] ∧ r'.value = none ∨
      ∃ v, r'.value = some v ∧ RowReads q v r')) := by
  have hends : endsWith (Region.restore none) (fun _ r' => r'.tokens == mixture &&
      r'.value == some (plus (var ['a']) (mul (var ['b']) (var ['c'])))) unfinishedRegion := by
    decide +kernel
  obtain ⟨_, r', hok, hafter⟩ := exists_of_endsWith hends
  simp only [Bool.and_eq_true, beq_iff_eq] at hafter
  obtain ⟨hrow, hvalue⟩ := hafter
  refine ⟨{}, ⟨2, 1⟩, unfinishedRegion, r', edited_unfinishedRegion, hok, ?_⟩
  rintro ⟨-, ⟨hnil, -⟩ | ⟨v, hv, w, hw, hsame⟩⟩
  · rw [hrow] at hnil
    cases hnil
  · cases hv.symm.trans hvalue
    have hprint : mixture = (plus (var ['a']) (mul (var ['b']) (var ['c']))).row := rfl
    rw [hrow, hprint] at hw
    exact absurd (reads_row_iff.1 ⟨w, hw, hsame⟩) (by decide)

end TokenEditor.Expr
