import TokenEditor.Proofs.Commentless
import TokenEditor.Proofs.Offsets
import TokenEditor.Proofs.Retyping

/-! # Deleting in comments

What is typed into a comment goes into its token, which keeps its mark. Deleting knows nothing of
comments: what is left of the text is resolved like that of any other token, the mark included.

`backspace_ends_comment`: behind the mark a character typed into a comment leaves a comment, and
backspace leaves none. Texts that are no token of the language become an error token, be it the text
that the comment had before a character was typed into it. This holds for every language that has no
use for comments, after any operations, whether they went well or not. -/

namespace TokenEditor

namespace Region
variable {V : Type} [Payload V] {r : Region V} {start stop : Nat} {new : List (Token V)}
  {L : Language V → Prop}

/-- The region reads by itself, and nothing is under way that keeps it from it. -/
abbrev AtRest (r : Region V) : Prop :=
  r.Ready (fun _ => True) fun _ => True

namespace AtRest

omit [Payload V] in
theorem of_flags (ha : r.autoReparse = true) (hs : r.syncing = false) (hr : r.restoring = false) :
    r.AtRest :=
  ⟨trivial, ha, hs, hr, fun _ _ => trivial⟩

theorem reparse (h : r.AtRest) : wp (sync reparse) (fun _ => AtRest) (fun _ => AtRest) r := by
  rw [wp_sync, if_neg (by simp [h.syncing]), wp_reparse,
    if_neg (show ¬ r.underSync.restoring = true by simp [Region.underSync, h.restoring])]
  have htook : ∀ v, (r.underSync.took v).endSync.AtRest := by
    intro v
    have hread := reread_reprint (r.underSync.taking v)
    exact of_flags (hread.autoReparse.trans h.autoReparse) rfl (hread.restoring.trans h.restoring)
  split_ifs
  · exact of_flags h.autoReparse rfl h.restoring
  · split
    · exact of_flags h.autoReparse rfl h.restoring
    · split_ifs <;> exact htook _

theorem splice (h : r.AtRest) (start stop : Nat) (new : List (Token V)) :
    wp (splice start stop new) (fun _ => AtRest) (fun _ => AtRest) r := by
  rw [wp_splice, if_pos h.autoReparse]
  split_ifs
  · exact h
  · exact reparse (of_flags h.autoReparse h.syncing h.restoring)

theorem updateToPrinted (h : r.AtRest) :
    wp updateToPrinted (fun _ => AtRest) (fun _ => AtRest) r := by
  cases hp : r.printed with
  | none =>
    simp only [Region.updateToPrinted, wp_bind, wp_get, hp]
    exact h
  | some ps =>
    rw [wp_updateToPrinted_some h.syncing hp]
    have hrel := relaid_alignedFrom 0 ps r.underSync
    split_ifs
    · exact of_flags (hrel.autoReparse.trans h.autoReparse) rfl (hrel.restoring.trans h.restoring)
    · exact h

theorem reprintToTokens (h : r.AtRest) :
    wp (sync reprintToTokens) (fun _ => AtRest) (fun _ => AtRest) r :=
  wp_mono (Ready.reprintToTokens (Language.prints_any _) h) (fun _ _ h => h.toReady)
    (fun _ _ h => h.elim)

theorem restore (h : r.AtRest) (saved : Option (List (Token V))) :
    wp (restore saved) (fun _ => AtRest) (fun _ => AtRest) r := by
  rw [wp_restore, if_neg (by simp [h.restoring])]
  cases saved with
  | some ts =>
    simp only [putBack, setTokens, wp_bind, wp_get, Option.isSome_some, if_true]
    rw [wp_splice_guarded (.inr rfl) (by simp [setRestoring])]
    exact reparse (of_flags h.autoReparse h.syncing rfl)
  | none =>
    simp only [putBack, wp_bind, wp_get, Option.isSome_none, Bool.false_eq_true, if_false]
    cases hv : (r.setRestoring true).valid with
    | true => exact of_flags h.autoReparse h.syncing rfl
    | false =>
      simp only [Bool.false_eq_true, if_false]
      rw [wp_reprintToTokens_guarded (.inr rfl)]
      have hread := reread_reprint (r.setRestoring true)
      exact of_flags (hread.autoReparse.trans h.autoReparse) (hread.syncing.trans h.syncing) rfl

/-- However an act ends, the region comes to rest. -/
theorem act (h : r.AtRest) (act : Act V) : wp act.run (fun _ => AtRest) (fun _ => AtRest) r := by
  cases act with
  | splice start stop new => exact h.splice start stop new
  | align => exact h.updateToPrinted
  | setValue v =>
    simp only [Act.run, setValue, wp_bind, wp_modify, wp_get, wp_ite, wp_pure]
    split_ifs
    · exact reprintToTokens (of_flags h.autoReparse h.syncing h.restoring)
    · exact of_flags h.autoReparse h.syncing h.restoring
  | restore saved => exact h.restore saved
  | processChanges =>
    simp only [Act.run, wp_discard, processChanges, wp_bind, wp_get, wp_ite, wp_set, wp_pure]
    split_ifs
    · exact reprintToTokens (of_flags h.autoReparse h.syncing h.restoring)
    · exact of_flags h.autoReparse h.syncing h.restoring
    · exact h
  | setLanguage l =>
    simp only [Act.run, setLanguage, wp_bind, wp_modify, wp_get, wp_ite, if_pos h.autoReparse]
    exact wp_mono (reparse (of_flags h.autoReparse h.syncing h.restoring))
      (fun _ _ h => h.updateToPrinted) (fun _ _ h => h)

end AtRest

omit [Payload V] in
theorem Ready.modifyView {C : Token V → Prop} (h : r.Ready L C) (index : Nat) (f : View → View) :
    (r.modifyView index f).Ready L C :=
  h.congr rfl rfl rfl rfl rfl

theorem Ready.splice_row (h : r.Ready L fun _ => True) (start stop : Nat) (new : List (Token V)) :
    wp (splice start stop new) (fun _ r' => r'.Ready L (fun _ => True) ∧
      r'.tokens = r.tokens.take start ++ new ++ r.tokens.drop stop) (fun _ _ => True) r := by
  have hspliced : (r.spliced start stop new).Ready L fun _ => True :=
    h.spliced start stop fun _ _ => trivial
  rw [wp_splice, if_pos h.autoReparse]
  split_ifs
  exact wp_mono (hspliced.reparse (Language.prints_any L)) (fun _ _ h' => ⟨h'.1.toReady, h'.2.tokens⟩)
    (fun _ _ _ => trivial)

theorem legible_of_detachAll {ts : List (Token V)} {cells : Cells}
    (h : ∀ t ∈ ((Token.detachAll ts).run cells).1, t.Legible) : ∀ t ∈ ts, t.Legible := by
  induction ts generalizing cells with
  | nil => exact fun _ ht => absurd ht List.not_mem_nil
  | cons t ts ih =>
    obtain ⟨hhead, htail⟩ := List.forall_mem_cons.1 h
    refine List.forall_mem_cons.2 ⟨?_, ih htail⟩
    cases t with
    | value v => exact ⟨rfl, rfl⟩
    | _ => exact hhead

/-- The region with its row spliced, which then does not read. -/
def misread (start stop : Nat) (new : List (Token V)) (r : Region V) : Region V :=
  (r.spliced start stop new).underSync.refused.endSync

theorem Ready.misread (h : r.Ready L fun _ => True) (start stop : Nat) (new : List (Token V)) :
    (r.misread start stop new).Ready L fun _ => True :=
  ⟨h.language, h.autoReparse, rfl, h.restoring, fun _ _ => trivial⟩

theorem Numbered.misread (h : r.Numbered) (hle : start ≤ stop) (new : List (Token V)) :
    (r.misread start stop new).Numbered :=
  (h.spliced hle).congr rfl rfl rfl

theorem tokens_misread {i : Nat} (hr : r.Numbered) (hin : i < r.tokens.length) (t : Token V) :
    (r.misread i (i + 1) [t]).tokens = r.tokens.set i t :=
  (spliced_one hr hin).1

theorem views_misread {i : Nat} (hr : r.Numbered) (hin : i < r.tokens.length) (t : Token V) :
    (r.misread i (i + 1) [t]).views[i]? = some (View.ofToken r.cells r.nextView t) := by
  have hlen : i < r.views.length := by
    have hids := hr.length_eq
    rw [ids, List.length_map] at hids
    omega
  have hviews : (r.misread i (i + 1) [t]).views =
      r.views.take i ++ View.ofToken r.cells r.nextView t :: r.views.drop (i + 1) := by
    simp [misread, underSync, refused, endSync, spliced, View.ofTokens]
  have htake : (r.views.take i).length = i := List.length_take_of_le (Nat.le_of_lt hlen)
  rw [hviews, List.getElem?_append_right (Nat.le_of_eq htake), htake, Nat.sub_self]
  rfl

theorem wp_splice_illegible {C : Token V → Prop} {t : Token V} {post : Unit → Region V → Prop}
    {fail : EditError → Region V → Prop} (h : r.Ready Language.Commentless C) (hle : start ≤ stop)
    (hin : stop ≤ r.tokens.length) (ht : t ∈ r.tokens.take start ++ new ++ r.tokens.drop stop)
    (hill : ¬ t.Legible) :
    wp (splice start stop new) post fail r ↔ post () (r.misread start stop new) := by
  have hsync : ¬ (r.spliced start stop new).syncing = true := by simp [Region.spliced, h.syncing]
  have hrestoring : ¬ (r.spliced start stop new).underSync.restoring = true := by
    simp [Region.spliced, underSync, h.restoring]
  have hempty : ¬ (r.spliced start stop new).underSync.tokens.isEmpty = true :=
    fun hnil => List.ne_nil_of_mem ht (List.isEmpty_iff.1 hnil)
  have hparse : r.language.parse (r.spliced start stop new).underSync.copied.2
      (r.spliced start stop new).underSync.copied.1 = none := by
    refine Option.eq_none_iff_forall_ne_some.2 fun v hv => hill ?_
    exact legible_of_detachAll (h.language.reads hv) t ht
  rw [wp_splice, if_neg (by omega), if_pos h.autoReparse, wp_sync, if_neg hsync, wp_reparse,
    if_neg hrestoring, if_neg hempty]
  rw [show (r.spliced start stop new).underSync.language = r.language from rfl, hparse]
  rfl

end Region

namespace Editor
variable {V : Type} [Payload V] {e : Editor V}

theorem atRest_afterAll (h : e.region.AtRest) (ops : List (Op V)) :
    (afterAll ops e).region.AtRest :=
  region_afterAll (fun _ hr => hr.modifyView _ _)
    (fun hr => .of_flags hr.autoReparse hr.syncing hr.restoring) (fun {act _} hr => hr.act act) ops h

theorem numbered_afterAll (h : e.region.Numbered) (ops : List (Op V)) :
    (afterAll ops e).region.Numbered := by
  induction ops generalizing e with
  | nil => exact h
  | cons op ops ih =>
    have hlater : e.region.Later (e.after op.run).region := .edit op .refl
    exact ih (hlater.renumbers h).distinct

omit [Payload V] in
theorem views_modifyView {i : Nat} {v : View} (hv : e.views[i]? = some v) (f : View → View) :
    (e.modifyView i f).views[i]? = some (f v) := by
  have hv' : e.region.views[i]? = some v := hv
  simp [views, modifyView, Region.modifyView, hv']

omit [Payload V] in
theorem tokens_run (m : Move) : (e.run m).tokens = e.tokens :=
  run_region (P := fun r => r.tokens = e.tokens) (fun h => h) rfl m

omit [Payload V] in
theorem language_run (m : Move) : (e.run m).region.language = e.region.language :=
  run_region (P := fun r => r.language = e.region.language) (fun h => h) rfl m

omit [Payload V] in
theorem tokens_keepCaret (caret : Nat) : (e.keepCaret caret).tokens = e.tokens := by
  unfold keepCaret
  split
  · split_ifs <;> rfl
  · rfl

/-! ### The comments in a row -/

/-- The comments of a row. -/
def commentsOf (ts : List (Token V)) : List (Token V) :=
  ts.filter Token.isComment

section
omit [Payload V]
variable {ts : List (Token V)}

theorem commentsOf_eq_nil (h : ∀ t ∈ ts, t.isComment = false) : commentsOf ts = [] :=
  List.filter_eq_nil_iff.2 fun t ht => by simp [h t ht]

theorem commentsOf_put {new : List (Token V)} (h : ∀ t ∈ new, t.isComment = false) (start stop : Nat) :
    commentsOf (ts.take start ++ new ++ ts.drop stop) = commentsOf (ts.take start ++ ts.drop stop) := by
  have hnew : new.filter Token.isComment = [] := commentsOf_eq_nil h
  simp [commentsOf, hnew]

theorem commentsOf_set {i : Nat} {t : Token V} (ht : t.isComment = false) (hin : i < ts.length) :
    commentsOf (ts.set i t) = commentsOf (ts.eraseIdx i) := by
  rw [List.set_eq_take_append_cons_drop, if_pos hin, List.append_cons,
    commentsOf_put (by simpa using ht), List.eraseIdx_eq_take_drop_succ]

theorem eraseIdx_eraseIdx_of_lt {j k : Nat} (h : j < k) :
    (ts.eraseIdx j).eraseIdx (k - 1) = (ts.eraseIdx k).eraseIdx j := by
  refine List.ext_getElem? fun n => ?_
  simp only [List.getElem?_eraseIdx]
  grind

end

theorem prints_commentless :
    Language.Prints Language.Commentless fun t : Token V => t.isComment = false where
  detach t cells ht := by
    cases t with
    | comment mark body => cases ht
    | _ => rfl
  printed _ hl := hl.prints

/-- A splice that brings in no comments, and then brings the row in line with its print: a row with
comments does not read, and one without is printed without. -/
theorem comments_spliceUpdated (h : e.region.Ready Language.Commentless fun _ => True)
    {start stop : Nat} {new : List (Token V)} (hnew : ∀ t ∈ new, t.isComment = false) :
    wp (spliceUpdated start stop new) (fun _ e' => (commentsOf e'.tokens).Sublist
      (commentsOf (e.tokens.take start ++ e.tokens.drop stop))) (fun _ _ => True) e := by
  simp only [spliceUpdated, wp_bind, wp_onRegion]
  by_cases hin : stop < start ∨ e.region.tokens.length < stop
  · rw [Region.wp_splice, if_pos hin]
    trivial
  by_cases hrow : ∀ t ∈ (e.region.spliced start stop new).tokens, t.isComment = false
  · have hready : (e.region.spliced start stop new).Ready Language.Commentless
        fun t => t.isComment = false := h.of_spliced hrow
    rw [Region.wp_splice, if_neg hin, if_pos h.autoReparse]
    refine wp_mono (hready.reparse prints_commentless) (fun _ r hr => ?_) (fun _ _ _ => trivial)
    refine wp_mono hr.1.updateToPrinted (fun _ r' hr' => ?_) (fun _ _ _ => trivial)
    show (commentsOf r'.tokens).Sublist _
    rw [commentsOf_eq_nil hr'.1.row]
    exact List.nil_sublist _
  · push Not at hrow
    obtain ⟨t, ht, hcomment⟩ := hrow
    rw [Region.wp_splice_illegible h (by omega) (by omega) ht fun hlegible => hcomment hlegible.1]
    simp only [Region.updateToPrinted, wp_bind, wp_get]
    show (commentsOf (e.tokens.take start ++ new ++ e.tokens.drop stop)).Sublist _
    rw [commentsOf_put hnew]

/-- The comments besides the token at `index` are among `others`. -/
structure Spares (others : List (Token V)) (index : Nat) (e : Editor V) : Prop where
  ready : e.region.Ready Language.Commentless fun _ => True
  others : (commentsOf (e.tokens.eraseIdx index)).Sublist others

namespace Spares
variable {others : List (Token V)} {k : Nat}

theorem removeBefore (h : e.Spares others k) (kind : ContextKind) (index : Nat) :
    wp (removeBefore kind k index) (fun _ => Spares others (k - 1)) (fun _ _ => True) e := by
  simp only [Editor.removeBefore, wp_ite, wp_throw, wp_bind, wp_onRegion, Region.remove,
    Region.wp_tokenAt, wp_pure]
  split_ifs with hkind hbefore
  split
  · refine wp_mono (h.ready.splice_row index (index + 1) []) (fun _ r' hr' => ⟨hr'.1, ?_⟩)
      (fun _ _ _ => trivial)
    have hrow : r'.tokens = e.tokens.eraseIdx index := by
      rw [hr'.2, List.append_nil, List.eraseIdx_eq_take_drop_succ]
      rfl
    show (commentsOf (r'.tokens.eraseIdx (k - 1))).Sublist others
    rw [hrow, eraseIdx_eraseIdx_of_lt (by omega)]
    exact ((List.eraseIdx_sublist _ _).filter _).trans h.others
  · trivial

theorem completeReplacing (h : e.Spares others k) {new : List (Token V)}
    (hnew : ∀ t ∈ new, t.isComment = false) (selected : Nat) :
    wp (completeReplacing k selected new) (fun _ e' => (commentsOf e'.tokens).Sublist others)
      (fun _ _ => True) e := by
  simp only [Editor.completeReplacing, wp_bind, wp_get]
  split
  · trivial
  · simp only [wp_bind, wp_get, wp_pure]
    refine wp_mono (comments_spliceUpdated h.ready hnew) (fun _ _ h' => h'.trans ?_) (fun _ _ h => h)
    rw [← List.eraseIdx_eq_take_drop_succ]
    exact h.others

theorem applyEffect {offer : Offer V} (h : e.Spares others offer.target)
    (hplacement : offer.placement = .replace) (removals : List Nat) {new : Insertion V}
    (hnew : ∀ t ∈ new.tokens, t.isComment = false) :
    wp (applyEffect offer (.plain removals (some new)))
      (fun _ e' => (commentsOf e'.tokens).Sublist others) (fun _ _ => True) e := by
  induction removals generalizing offer e with
  | nil =>
    show wp (Editor.applyEffect offer (.insert new)) _ _ e
    rw [applyEffect_insert, hplacement]
    exact h.completeReplacing hnew new.selected
  | cons index removals ih =>
    rw [Effect.plain, applyEffect_remove _ _ fun _ => rfl]
    refine wp_seq (h.removeBefore offer.kind index) fun _ e' h' => ?_
    refine ih ?_ hplacement
    exact h'

theorem completeMatch (h : e.Spares others k) {offer : Offer V} {t : Text}
    (hitems : offer.items = e.looseItems) (hplacement : offer.placement = .replace)
    (htarget : offer.target = k) (hmatch : Item.hasSingleMatch offer.items t) :
    wp (completeMatch offer t) (fun _ e' => (commentsOf e'.tokens).Sublist others) (fun _ _ => True)
      e := by
  obtain ⟨item, hmatching⟩ := List.length_eq_one_iff.1 (beq_iff_eq.1 hmatch)
  have hitem : item ∈ e.region.language.tokenItems {} .nowhere .typing := by
    have hloose : item ∈ offer.items := Item.mem_of_mem_matching (t := t) (by simp [hmatching])
    rwa [hitems, looseItems, Language.looseItems, h.ready.language.items] at hloose
  obtain ⟨removals, new, heffect, hnew⟩ :=
    h.ready.language.puts item hitem (e.scope offer) t e.region.cells
  simp only [Editor.completeMatch, applyMatch, hmatching, applyItem, wp_bind, wp_get, wp_onRegion,
    Region.wp_onCells, heffect]
  generalize ((item.effect (e.scope offer) t).run e.region.cells).2 = cells
  have hcells : Spares others offer.target { e with region := { e.region with cells := cells } } :=
    htarget ▸ ⟨h.ready.congr rfl rfl rfl rfl rfl, h.others⟩
  refine wp_mono (hcells.applyEffect hplacement removals hnew) (fun move e' h' => ?_) fun _ _ h => h
  simp only [wp_pure, wp_modify]
  rw [tokens_run]
  exact h'

end Spares

theorem comments_becameEmpty (h : e.region.Ready Language.Commentless fun _ => True) {i : Nat}
    {t : Token V} (ht : e.tokens[i]? = some t) :
    wp (becameEmpty i) (fun _ e' => (commentsOf e'.tokens).Sublist (commentsOf (e.tokens.eraseIdx i)))
      (fun _ _ => True) e := by
  have ht' : e.region.tokens[i]? = some t := ht
  have hrest : ∀ {ts}, ts = e.tokens.take i ++ e.tokens.drop (i + 1) →
      (commentsOf ts).Sublist (commentsOf (e.tokens.eraseIdx i)) := by
    rintro _ rfl
    rw [List.eraseIdx_eq_take_drop_succ]
  have hdelete : wp (deleteToken i 0) (fun _ e' => (commentsOf e'.tokens).Sublist
      (commentsOf (e.tokens.eraseIdx i))) (fun _ _ => True) e := by
    have hshift : shifted? i 0 = some i := by simp [shifted?]
    simp only [deleteToken, shifted, hshift, wp_bind, wp_discard, wp_onRegion, Region.remove,
      Region.wp_tokenAt, ht', wp_pure, wp_get]
    refine wp_mono (h.splice_row i (i + 1) []) (fun _ r' hr' => ?_) (fun _ _ _ => trivial)
    have hrow := hrest (hr'.2.trans (by rw [List.append_nil]; rfl))
    split_ifs <;> exact hrow
  have hreplace : wp (replaceToken i (.error [])) (fun _ e' => (commentsOf e'.tokens).Sublist
      (commentsOf (e.tokens.eraseIdx i))) (fun _ _ => True) e := by
    simp only [replaceToken, wp_bind, wp_discard, wp_onRegion, Region.wp_replace, ht', wp_pure, wp_get]
    refine wp_mono (h.splice_row i (i + 1) [.error []]) (fun _ r' hr' => ?_) (fun _ _ _ => trivial)
    show (commentsOf r'.tokens).Sublist _
    rw [hr'.2, commentsOf_put (by simp [Token.isComment])]
    exact hrest rfl
  simp only [becameEmpty, wp_bind, wp_get, ht, wp_ite, wp_modify, tokens_run]
  split_ifs <;> assumption

omit [Payload V] in
theorem looseItems_congr {e' : Editor V} (hl : e.region.language.Commentless)
    (h : e'.region.language = e.region.language) : e'.looseItems = e.looseItems := by
  simp only [looseItems, Language.looseItems, h, hl.items e'.region.cells, hl.items e.region.cells]

omit [Payload V] in
theorem items_typing_eq_looseItems (hl : e.region.language.Commentless) (s : Supplier) :
    (s.offer .typing e).items = e.looseItems := by
  have hcalls : (s.offer .typing e).items = e.region.language.tokenItems e.region.cells
      (s.context .typing e.region) .typing ++ [] := rfl
  rw [hcalls, List.append_nil, looseItems, Language.looseItems, hl.items,
    hl.items e.region.cells .nowhere]

/-! ### The caret in a comment -/

/-- The caret stands in a comment behind the mark; the menu is closed, and nothing is selected. -/
structure InComment (i : Nat) (v : View) (mark body : Text) (e : Editor V) : Prop where
  ready : e.region.Ready Language.Commentless fun _ => True
  numbered : e.region.Numbered
  closed : e.menu.active = false
  unselected : e.selection = none
  focused : e.focusedView? = some (i, v)
  token : e.tokens[i]? = some (.comment mark body)
  projects : v.Projects (.comment mark body : Token V)
  shows : v.text = mark ++ body
  inside : mark.length < v.caret

theorem after?_append (mark body : Text) : Text.after? mark (mark ++ body) = some body := by
  rw [Text.after?, if_pos (List.isPrefixOf_iff_prefix.2 (List.prefix_append mark body)),
    List.drop_left]

/-- A comment whose view still begins with the mark stays a comment. -/
theorem wp_replaceComment {i : Nat} {v : View} {mark body body' : Text} {post : Move → Editor V → Prop}
    {fail : EditError → Editor V → Prop} (hready : e.region.Ready Language.Commentless fun _ => True)
    (ht : e.tokens[i]? = some (.comment mark body)) (hv : e.views[i]? = some v)
    (htext : v.text = mark ++ body') :
    wp (replaceComment i) post fail e ↔ post (Move.toToken i (.offset v.caret))
      { e with region := e.region.misread i (i + 1) [.comment mark body'] } := by
  have ht' : e.region.tokens[i]? = some (.comment mark body) := ht
  have hin := (List.getElem?_eq_some_iff.1 ht').1
  simp only [replaceComment, wp_bind, wp_onRegion, Region.wp_tokenAt, ht', wp_get, hv, htext,
    after?_append, wp_discard, Region.wp_replace, wp_pure]
  rw [Region.wp_splice_illegible (t := .comment mark body') hready (Nat.le_succ i) hin (by simp)]
  rintro ⟨⟨⟩, -⟩

omit [Payload V] in
theorem inComment_run (hready : e.region.Ready Language.Commentless fun _ => True)
    (hnumbered : e.region.Numbered) (hclosed : e.menu.active = false) (hsel : e.selection = none)
    {i caret : Nat} {v : View} {mark body : Text} (ht : e.tokens[i]? = some (.comment mark body))
    (hv : e.views[i]? = some v) (hprojects : v.Projects (.comment mark body : Token V))
    (hshows : v.text = mark ++ body) (hinside : mark.length < caret) (hle : caret ≤ v.text.length) :
    (e.run (Move.toToken i (.offset caret))).InComment i { v with caret := caret } mark body := by
  have hregion := run_region (P := fun r => r.Ready Language.Commentless (fun _ => True) ∧ r.Numbered)
    (fun {_ index caret} hr => ⟨hr.1.modifyView index _,
      hr.2.congr (Region.ids_modifyView index (.setCaret caret)) rfl rfl⟩) ⟨hready, hnumbered⟩
    (Move.toToken i (.offset caret))
  have hfocused := focusedView?_run (m := Move.toToken i (.offset caret)) hnumbered hv rfl
  rw [Position.within, Nat.min_eq_left hle] at hfocused
  exact ⟨hregion.1, hregion.2, active_run hclosed rfl, selection_run hsel _, hfocused,
    by rwa [tokens_run], ⟨hprojects.editable, hprojects.focusable, hprojects.glue, hle⟩, hshows, hinside⟩

namespace InComment
variable {i : Nat} {v : View} {mark body : Text} (h : e.InComment i v mark body)
include h

omit [Payload V] in
theorem caret_le : v.caret ≤ mark.length + body.length := by
  have hle := h.projects.caret
  rwa [h.shows, List.length_append] at hle

omit [Payload V] in
theorem lt_length : i < e.region.tokens.length :=
  (List.getElem?_eq_some_iff.1 h.token).1

omit [Payload V] in
theorem text_insert (c : Char) : (v.insert [c]).text =
    mark ++ body.insertAt (v.caret - mark.length) [c] := by
  have hinside := h.inside
  have hle := h.caret_le
  have hsplit := Text.insertAt_append (t := body) (k := v.caret - mark.length) mark [] [c] (by omega)
  rw [List.append_nil, List.append_nil, Nat.add_sub_cancel' (by omega), ← h.shows] at hsplit
  exact hsplit

omit [Payload V] in
theorem items_typing (f : View → View) :
    ((Supplier.token i).offer .typing (e.modifyView i f)).items = e.looseItems :=
  items_typing_eq_looseItems (e := e.modifyView i f) h.ready.language _

/-- Typing changes the token, which keeps its mark, and the caret stays in it. -/
theorem typeChar (c : Char) : wp (typeChar c) (fun _ e' => e'.looseItems = e.looseItems ∧
    e'.tokens = e.tokens.set i (.comment mark (body.insertAt (v.caret - mark.length) [c])) ∧
    ∃ v', e'.InComment i v' mark (body.insertAt (v.caret - mark.length) [c]) ∧ v'.caret = v.caret + 1)
    (fun _ _ => False) e := by
  obtain ⟨hindex, hv⟩ := Steady.of_focusedView? h.focused
  have htext := h.text_insert c
  have hle : v.caret + 1 ≤ (v.insert [c]).text.length := by
    rw [show (v.insert [c]).text = v.text.insertAt v.caret [c] from rfl, Text.length_insertAt]
    exact Nat.succ_le_succ h.projects.caret
  generalize body.insertAt (v.caret - mark.length) [c] = body' at htext ⊢
  have hready₁ : (e.modifyView i (·.insert [c])).region.Ready Language.Commentless fun _ => True :=
    h.ready.modifyView i _
  have hv₁ := views_modifyView hv (·.insert [c])
  have hnumbered₁ : (e.modifyView i (·.insert [c])).region.Numbered :=
    h.numbered.congr (Region.ids_modifyView i (.insert [c])) rfl rfl
  refine wp_typeChar_of_typeWith fun retype => ?_
  unfold typeWith clearSelection
  simp only [wp_bind, wp_get, h.unselected, wp_pure, hindex]
  unfold typeAt
  rw [wp_bind, wp_get, typingTarget_of_unglued (by rw [h.projects.glue]; rfl) hv]
  simp only [wp_bind, wp_set, hv, Option.any_some, h.projects.editable, Token.isValue, Bool.not_false,
    Bool.not_true, Bool.false_eq_true, if_false, wp_modify, h.token, Token.isComment, if_true]
  rw [wp_replaceComment hready₁ h.token hv₁ htext, tokens_run]
  have hready₂ := hready₁.misread i (i + 1) [.comment mark body']
  have hnumbered₂ := hnumbered₁.misread (Nat.le_succ i) [.comment mark body']
  have hrow := Region.tokens_misread hnumbered₁ h.lt_length (.comment mark body')
  have hview := Region.views_misread hnumbered₁ h.lt_length (.comment mark body')
  have hlanguage : ((e.modifyView i (·.insert [c])).region.misread i (i + 1)
    [.comment mark body']).language = e.region.language := rfl
  -- the caret goes into the view of the new token
  generalize (e.modifyView i (·.insert [c])).region.misread i (i + 1) [.comment mark body'] = r
    at hready₂ hnumbered₂ hrow hview hlanguage ⊢
  have htoken : r.tokens[i]? = some (.comment mark body') := by
    rw [hrow]
    exact List.getElem?_set_self h.lt_length
  have hnew := inComment_run (e := { e.modifyView i (·.insert [c]) with region := r }) hready₂ hnumbered₂
    h.closed h.unselected htoken hview (View.projects_ofToken _ _ _) rfl (Nat.lt_succ_of_lt h.inside)
    (hle.trans (Nat.le_of_eq (congrArg List.length htext)))
  exact ⟨looseItems_congr h.ready.language ((language_run _).trans hlanguage), hrow, _, hnew, rfl⟩

/-- Backspace takes a character from the view, and what is left is resolved like the text of any
token. -/
theorem wp_backspace {post : Unit → Editor V → Prop} {fail : EditError → Editor V → Prop}
    {rest : Text} (hrest : v.text.eraseIdx (v.caret - 1) = rest) : wp backspace post fail e ↔
    if rest = [] then wp (becameEmpty i) post fail (e.modifyView i View.eraseBefore)
    else if Item.hasSingleMatch e.looseItems rest then
      wp (completeMatch ((Supplier.token i).offer .typing (e.modifyView i View.eraseBefore)) rest)
        (fun _ e' => post () (e'.keepCaret (v.caret - 1))) fail (e.modifyView i View.eraseBefore)
    else wp (markUnresolved i rest (v.caret - 1)) post fail (e.modifyView i View.eraseBefore) := by
  obtain ⟨hindex, hv⟩ := Steady.of_focusedView? h.focused
  have hcaret : v.caret ≠ 0 := by
    have hinside := h.inside
    omega
  have hne : v.text ≠ [] := by
    intro hnil
    have hle := h.projects.caret
    rw [hnil] at hle
    exact hcaret (Nat.le_zero.1 hle)
  have herase : v.eraseBefore = { v with text := rest, caret := v.caret - 1 } := by
    rw [View.eraseBefore, if_neg hcaret, hrest]
  have hv₁ := views_modifyView hv View.eraseBefore
  rw [herase] at hv₁
  have ht₁ : (e.modifyView i View.eraseBefore).tokens[i]? = some (.comment mark body) := h.token
  -- the text is shorter than that of the token
  have hshort : rest ≠ mark ++ body := by
    intro heq
    have hle := h.projects.caret
    have hlen := congrArg List.length hrest
    rw [List.length_eraseIdx_of_lt (by omega), heq, ← h.shows] at hlen
    have hpos := List.length_pos_of_ne_nil hne
    omega
  have hclosed : (e.modifyView i View.eraseBefore).menu.active = false := h.closed
  unfold backspace deleteChar
  simp only [wp_bind, wp_get, h.unselected, Option.isSome_none, Bool.false_eq_true, if_false, hindex, hv,
    h.projects.editable, Token.isValue, Bool.not_false, Bool.not_true, Bool.false_or, if_true,
    List.isEmpty_iff, hne, beq_iff_eq, hcaret, wp_modify]
  unfold afterDelete
  simp only [wp_bind, wp_get, hv₁, ht₁, Token.text, beq_iff_eq, hshort, if_false, List.isEmpty_iff,
    typingOffer_of_closed hclosed, h.items_typing, wp_ite, wp_modify]

theorem backspace_unresolved {rest : Text} (hrest : v.text.eraseIdx (v.caret - 1) = rest)
    (hne : rest ≠ []) (hsingle : Item.hasSingleMatch e.looseItems rest = false) :
    wp backspace (fun _ e' => e'.tokens = e.tokens.set i (.error rest)) (fun _ _ => False) e := by
  have hready : (e.modifyView i View.eraseBefore).region.Ready Language.Commentless fun _ => True :=
    h.ready.modifyView i _
  have hnumbered : (e.modifyView i View.eraseBefore).region.Numbered :=
    h.numbered.congr (Region.ids_modifyView i .eraseBefore) rfl rfl
  have ht : (e.modifyView i View.eraseBefore).region.tokens[i]? = some (.comment mark body) := h.token
  have ht' : (e.modifyView i View.eraseBefore).tokens[i]? = some (.comment mark body) := h.token
  rw [h.wp_backspace hrest, if_neg hne, if_neg (by simp [hsingle])]
  simp only [markUnresolved, wp_bind, wp_get, ht', wp_discard, wp_onRegion, Region.wp_replace, ht,
    wp_modify, tokens_selectToken]
  rw [Region.wp_splice_illegible (t := .error rest) hready (Nat.le_succ i) h.lt_length (by simp)
    (by rintro ⟨-, ⟨⟩⟩)]
  exact Region.tokens_misread hnumbered h.lt_length (.error rest)

/-- Whatever is left, it is no comment any more, and no other comment has come in. -/
theorem backspace_sheds : wp backspace (fun _ e' => (commentsOf e'.tokens).Sublist
    (commentsOf (e.tokens.eraseIdx i))) (fun _ _ => True) e := by
  have hready : (e.modifyView i View.eraseBefore).region.Ready Language.Commentless fun _ => True :=
    h.ready.modifyView i _
  have hspares : (e.modifyView i View.eraseBefore).Spares (commentsOf (e.tokens.eraseIdx i)) i :=
    ⟨hready, .refl _⟩
  by_cases hne : v.text.eraseIdx (v.caret - 1) = []
  · rw [h.wp_backspace rfl, if_pos hne]
    exact comments_becameEmpty hready h.token
  cases hsingle : Item.hasSingleMatch e.looseItems (v.text.eraseIdx (v.caret - 1)) with
  | false =>
    refine wp_mono (h.backspace_unresolved rfl hne hsingle) (fun _ e' hrow => ?_) (fun _ _ h => h.elim)
    have hin : i < e.tokens.length := h.lt_length
    rw [hrow, commentsOf_set (by rfl) hin]
  | true =>
    rw [h.wp_backspace rfl, if_neg hne, if_pos hsingle]
    have hitems := h.items_typing View.eraseBefore
    refine wp_mono (hspares.completeMatch hitems rfl rfl (hitems ▸ hsingle)) (fun _ e' hrow => ?_)
      (fun _ _ h => h)
    rw [tokens_keepCaret]
    exact hrow

end InComment

/-- Backspace ends the comment at `i` and leaves `rest` of it. A text that none of the items, or more
than one, stands for becomes an error token; and whenever backspace goes well, the comments of the row
are comments that stood beside this one. -/
structure EndsComment (i : Nat) (rest : Text) (items : List (Item V)) (e : Editor V) : Prop where
  unresolved : rest ≠ [] → Item.hasSingleMatch items rest = false →
    ∃ e', backspace e = .ok () e' ∧ e'.tokens = e.tokens.set i (.error rest)
  gone : ∀ e', backspace e = .ok () e' →
    (commentsOf e'.tokens).Sublist (commentsOf (e.tokens.eraseIdx i))

theorem InComment.endsComment {i : Nat} {v : View} {mark body rest : Text}
    (h : e.InComment i v mark body) (hrest : v.text.eraseIdx (v.caret - 1) = rest) :
    e.EndsComment i rest e.looseItems := by
  refine ⟨fun hne hsingle => ?_, fun e' hrun => ?_⟩
  · obtain ⟨_, e', hrun, hrow⟩ := exists_of_wp (h.backspace_unresolved hrest hne hsingle)
    exact ⟨e', hrun, hrow⟩
  · have hsheds := h.backspace_sheds
    rwa [wp, hrun] at hsheds

/-- Behind the mark of a comment a typed character leaves the comment with one more character, and
backspace leaves no comment, also right after the character was typed. -/
theorem backspace_ends_comment {l : Language V} {cells : Cells} {settings : Settings}
    (hauto : settings.autoReparse = true) {ops : List (Op V)}
    (he : afterAll ops (Editor.new l cells settings) = e) (hl : e.region.language.Commentless)
    (hclosed : e.menu.active = false) (hsel : e.selection = none) {i : Nat} {v : View}
    {mark body : Text} (hfocus : e.focusedView? = some (i, v))
    (ht : e.tokens[i]? = some (.comment mark body)) (hshows : v.text = mark ++ body)
    (hinside : mark.length < v.caret) (c : Char) :
    e.EndsComment i (v.text.eraseIdx (v.caret - 1)) e.looseItems ∧
    ∃ e₁, typeChar c e = .ok () e₁ ∧
      e₁.tokens = e.tokens.set i (.comment mark (body.insertAt (v.caret - mark.length) [c])) ∧
      e₁.EndsComment i v.text e.looseItems := by
  have hnew : (Editor.new l cells settings).region.AtRest := .of_flags hauto rfl rfl
  have hrest : e.region.AtRest := he ▸ atRest_afterAll hnew ops
  have hnumbered : e.region.Numbered := he ▸ numbered_afterAll (.new l cells settings) ops
  have hprojected : e.region.Projected :=
    he ▸ projected_afterAll (e := Editor.new l cells settings) List.Forall₂.nil ops
  have hprojects := hprojected.projects (Steady.of_focusedView? hfocus).2 ht
  have hin : e.InComment i v mark body :=
    ⟨⟨hl, hrest.autoReparse, hrest.syncing, hrest.restoring, hrest.row⟩, hnumbered, hclosed, hsel,
      hfocus, ht, hprojects, hshows, hinside⟩
  refine ⟨hin.endsComment rfl, ?_⟩
  obtain ⟨_, e₁, hrun, hitems, hrow, v₁, hin₁, hcaret₁⟩ := exists_of_wp (hin.typeChar c)
  refine ⟨e₁, hrun, hrow, hitems ▸ hin₁.endsComment ?_⟩
  -- the character before the caret is the one that was typed
  have herased := View.text_eraseBefore_insert c hprojects.caret
  have hcaret : (v.insert [c]).caret ≠ 0 := Nat.succ_ne_zero v.caret
  rw [View.eraseBefore, if_neg hcaret] at herased
  rw [hin₁.shows, ← hin.text_insert c, hcaret₁]
  exact herased

theorem backspace_ends_comment_slashes :
    (∃ e e₁ e₂ : Editor Expr, afterAll [.setTokens [.comment ['/', '/'] ['a', 'b']], .selectToken 0 .last]
        (Editor.new (Expr.language {}) {} {}) = e ∧
      typeChar 'c' e = .ok () e₁ ∧ e₁.tokens = [.comment ['/', '/'] ['a', 'b', 'c']] ∧
      backspace e₁ = .ok () e₂ ∧ e₂.tokens = [.error ['/', '/', 'a', 'b']]) ∧
    ∃ e e' : Editor Sum, afterAll [.setTokens [.identifier ['x'], .comment ['#'] ['a', 'b']],
        .selectToken 1 (.offset 2)] (Editor.new (Sum.language {}) {} {}) = e ∧
      backspace e = .ok () e' ∧ e'.tokens = [.identifier ['x'], .error ['#', 'b']] := by
  constructor
  · have htest : (fun e : Editor Expr => e.menu.active = false ∧ e.selection = none ∧
        e.focusedView? = some (0, ⟨0, ['/', '/', 'a', 'b'], 4, true, true, .none⟩) ∧
        e.tokens = [.comment ['/', '/'] ['a', 'b']] ∧
        Item.hasSingleMatch e.looseItems ['/', '/', 'a', 'b'] = false)
        (afterAll [.setTokens [.comment ['/', '/'] ['a', 'b']], .selectToken 0 .last]
          (Editor.new (Expr.language {}) {} {})) := by
      decide +kernel
    have hlanguage : (afterAll [.setTokens [.comment ['/', '/'] ['a', 'b']], .selectToken 0 .last]
        (Editor.new (Expr.language {}) {} {})).region.language = Expr.language {} :=
      language_afterAll (by simp)
    generalize he : afterAll [.setTokens [.comment ['/', '/'] ['a', 'b']], .selectToken 0 .last]
      (Editor.new (Expr.language {}) {} {}) = e at htest hlanguage
    obtain ⟨hclosed, hsel, hfocus, htokens, hsingle⟩ := htest
    have hl : e.region.language.Commentless := hlanguage ▸ Expr.commentless {}
    obtain ⟨-, e₁, hrun, hrow, hends⟩ := backspace_ends_comment rfl he hl hclosed hsel hfocus
      (by rw [htokens]; rfl) rfl (by decide) 'c'
    obtain ⟨e₂, hrun₂, hrow₂⟩ := hends.unresolved (by simp) hsingle
    exact ⟨e, e₁, e₂, rfl, hrun, by rw [hrow, htokens]; rfl, hrun₂, by rw [hrow₂, hrow, htokens]; rfl⟩
  · have htest : (fun e : Editor Sum => e.menu.active = false ∧ e.selection = none ∧
        e.focusedView? = some (1, ⟨1, ['#', 'a', 'b'], 2, true, true, .none⟩) ∧
        Item.hasSingleMatch e.looseItems ['#', 'b'] = false)
        (afterAll [.setTokens [.identifier ['x'], .comment ['#'] ['a', 'b']], .selectToken 1 (.offset 2)]
          (Editor.new (Sum.language {}) {} {})) := by
      decide +kernel
    have htokens : (afterAll [.setTokens [.identifier ['x'], .comment ['#'] ['a', 'b']],
        .selectToken 1 (.offset 2)] (Editor.new (Sum.language {}) {} {})).tokens =
          [.identifier ['x'], .comment ['#'] ['a', 'b']] := by
      with_unfolding_all rfl
    have hlanguage : (afterAll [.setTokens [.identifier ['x'], .comment ['#'] ['a', 'b']],
        .selectToken 1 (.offset 2)] (Editor.new (Sum.language {}) {} {})).region.language =
          Sum.language {} := language_afterAll (by simp)
    generalize he : afterAll [.setTokens [.identifier ['x'], .comment ['#'] ['a', 'b']],
      .selectToken 1 (.offset 2)] (Editor.new (Sum.language {}) {} {}) = e at htest htokens hlanguage
    obtain ⟨hclosed, hsel, hfocus, hsingle⟩ := htest
    have hl : e.region.language.Commentless := hlanguage ▸ Sum.commentless {}
    obtain ⟨hends, -⟩ := backspace_ends_comment rfl he hl hclosed hsel hfocus (by rw [htokens]; rfl) rfl
      (by decide) 'c'
    obtain ⟨e', hrun, hrow⟩ := hends.unresolved (by simp) hsingle
    exact ⟨e, e', rfl, hrun, by rw [hrow, htokens]; rfl⟩

end Editor

end TokenEditor
