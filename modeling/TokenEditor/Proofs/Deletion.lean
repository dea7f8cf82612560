import TokenEditor.Proofs.Insertion

/-! # Delete keys take one character

`delete_takes_adjacent`: a delete key takes the character next to the caret from the text, or nothing
at all, however the row is rebuilt around it.

`caret_after_delete`: the caret stays where the character was, with one exception. When what is left
of the token is completed, the completion may hand the focus over to a neighbour glued to the token,
and then the offset of the caret within the token is applied to the neighbour. `leap` is the way that
the caret goes wrong. -/

namespace TokenEditor

namespace Editor

/-- The text of the token at `index`; empty if there is none. -/
def textAt {V : Type} [Payload V] (index : Nat) (e : Editor V) : Text :=
  (e.region.texts[index]?).getD []

/-- The key takes a character: the next one of the focused token or, at the edge of that, the next one
of a neighbour glued to it. An empty token has no such edge. -/
def takes {V : Type} [Payload V] (backward : Bool) (e : Editor V) : Bool :=
  match e.focusedView? with
  | none => false
  | some (index, v) =>
    !(e.textAt index).isEmpty &&
      if backward then
        0 < v.caret || (0 < index && gluedAt (index - 1) e.tokens && !(e.textAt (index - 1)).isEmpty)
      else
        v.caret < (e.textAt index).length ||
          (gluedAt index e.tokens && !(e.textAt (index + 1)).isEmpty)

/-- The text without the character that the key takes, with the caret at `n`. -/
def deletedText {V : Type} [Payload V] (backward : Bool) (n : Nat) (e : Editor V) : Text :=
  if e.takes backward then e.shownText.eraseIdx (if backward then n - 1 else n) else e.shownText

/-- Where the character was. -/
def deletedOffset {V : Type} [Payload V] (backward : Bool) (n : Nat) (e : Editor V) : Nat :=
  if backward && e.takes true then n - 1 else n

/-- The key acts at the edge of the view. -/
def atEdge (backward : Bool) (v : View) : Bool :=
  if backward then v.caret == 0 else v.caretAtEnd

/-- The view without the character that the key takes from it. -/
def erased (backward : Bool) (v : View) : View :=
  if backward then v.eraseBefore else v.eraseAfter

/-- How far completing the view `w` at `index` puts its caret in the wrong place: where the completion
hands the focus over to a neighbour, the caret gets the same offset there. -/
def slip (index : Nat) (w : View) (e : Editor Expr) : Int :=
  if (Expr.singleKind? w.text).isNone then 0
  else if w.caret = 0 then
    if 0 < index ∧ gluedAt (index - 1) e.tokens then -(e.textAt (index - 1)).length else 0
  else if w.caretAtEnd ∧ gluedAt index e.tokens ∧ w.text.length ≤ (e.textAt (index + 1)).length then
    w.text.length
  else 0

/-- How far the caret misses the place where the character was, when the key has led from `e` to
`e'`. -/
def leap (backward : Bool) (e e' : Editor Expr) : Int :=
  match e.focusedView? with
  | none => 0
  | some (index, v) =>
    if v.text.isEmpty || atEdge backward v then 0 else slip index (erased backward v) e'

open TokenEditor.Expr (valueWord)

variable {e e' : Editor Expr} {drift : Option Nat} {index : Nat} {before after : List Text}
  {t : Text} {v w : View} {backward : Bool}

theorem lands_deleteToken (h : e.region.Bare drift)
    (hdrift : DriftIn drift before.length (before.length + 1))
    (hsplit : e.region.texts = before ++ t :: after) :
    wp (deleteToken before.length 0) (fun move e' =>
      e'.Lands (before ++ after).flatten before.flatten.length move) (fun _ _ => False) e := by
  have hin := lt_of_texts hsplit
  have hat : e.region.tokens[before.length]? = some (e.region.tokens.get ⟨_, hin⟩) :=
    List.getElem?_eq_getElem hin
  have hremove : wp (discard (onRegion (Region.remove before.length))) (fun _ e' =>
      e.Respliced before.length (before.length + 1) [] e') (fun _ _ => False) e := by
    rw [wp_discard, wp_onRegion, Region.remove, wp_bind, Region.wp_tokenAt, hat]
    exact (wp_bind _ _).2 (wp_onRegion.1 (respliced_splice h hdrift .nil (Nat.le_succ _) hin))
  unfold deleteToken shifted
  simp only [shifted?_zero, pure_bind]
  refine wp_seq hremove fun _ e' h' => ?_
  have htexts : e'.region.texts = before ++ after := by
    rw [h'.texts_over hsplit]
    simp
  rw [wp_bind, wp_get]
  split_ifs with hempty hnever hindex
  · -- the last token is gone
    have hnil : before ++ after = [] := by
      rw [← htexts, Region.texts, List.map_eq_nil_iff]
      exact List.isEmpty_iff.1 hempty
    refine .placeholder rfl (List.isEmpty_iff.1 hempty) ?_ ?_
    · rw [hnil]
      rfl
    · rw [(List.append_eq_nil_iff.1 hnil).1]
      rfl
  · omega
  · obtain ⟨init, l, rfl⟩ : ∃ init l, before = init ++ [l] :=
      ⟨_, _, (List.dropLast_append_getLast (List.ne_nil_of_length_pos hindex)).symm⟩
    have htexts' : e'.region.texts = init ++ l :: after := by simpa using htexts
    have hlands := lands_select_append h'.bare htexts' .last
    simpa [Position.within] using hlands
  · obtain rfl : before = [] := List.eq_nil_of_length_eq_zero (by omega)
    cases after with
    | nil =>
      have hnil : e'.tokens = [] := by
        rw [List.append_nil, Region.texts, List.map_eq_nil_iff] at htexts
        exact htexts
      simp [hnil] at hempty
    | cons a after => exact lands_select_append h'.bare htexts .first

/-- A token that has lost its last character leaves nothing behind, or an empty token. -/
theorem reads_becameEmpty (h : e.region.Bare drift)
    (hdrift : DriftIn drift before.length (before.length + 1))
    (hsplit : e.region.texts = before ++ t :: after) :
    wp (becameEmpty before.length) (fun _ e' =>
      e'.Reads (before ++ after).flatten before.flatten.length) (fun _ _ => False) e := by
  have hin := lt_of_texts hsplit
  have hat : e.tokens[before.length]? = some (e.tokens.get ⟨_, hin⟩) := List.getElem?_eq_getElem hin
  have hreplace : wp (replaceToken before.length (.error [])) (fun move e' =>
      e'.Lands (before ++ after).flatten before.flatten.length move) (fun _ _ => False) e := by
    unfold replaceToken
    rw [wp_bind, wp_discard, wp_onRegion, Region.wp_replace,
      show e.region.tokens[before.length]? = _ from hat]
    refine wp_mono (wp_onRegion.1 (respliced_splice h hdrift (.cons (.error []) .nil) (Nat.le_succ _)
      hin)) (fun _ r h' => ?_) fun _ _ h => h
    have htexts := h'.texts_over hsplit
    rw [List.append_assoc] at htexts
    have hlands := lands_select_append h'.bare htexts .first
    simpa [Position.within] using hlands
  unfold becameEmpty
  rw [wp_bind, wp_get, hat]
  generalize (if before.length = 0 then none else e.tokens[before.length - 1]?) = prev
  simp only
  split
  · exact reads_thenRun (lands_deleteToken h hdrift hsplit)
  · exact reads_thenRun hreplace

theorem CaretIn.deleteWhole (h : e.CaretIn before after v) :
    wp (deleteWhole before.length) (fun _ e' =>
      e'.Reads (before ++ after).flatten before.flatten.length) (fun _ _ => False) e := by
  unfold Editor.deleteWhole
  rw [wp_bind, wp_modify]
  exact reads_thenRun (lands_deleteToken (e := e.closeMenu) h.bare (.none _ _) h.texts)

/-! ### Merging -/

theorem lands_mergeFrom {init rest : List Text} {l r : Text} (h : e.region.Bare none)
    (hsplit : e.region.texts = init ++ l :: r :: rest) {l' r' : Text}
    (hmerged : (l', r') = if gluedAt init.length e.tokens then
      (if backward then (l.dropLast, r) else (l, r.drop 1)) else (l, r))
    (hword : l' ++ r' ≠ valueWord) : wp (mergeFrom init.length backward) (fun move e' =>
      e'.Lands (init ++ (l' ++ r') :: rest).flatten (init.flatten.length + l'.length) move)
      (fun _ _ => False) e := by
  have hright : init.length + 1 < e.tokens.length := by
    rw [length_of_texts hsplit, List.length_cons, List.length_cons]
    omega
  have hleft : init.length < e.tokens.length := Nat.lt_of_succ_lt hright
  refine wp_seq (Steady.tokenAt hleft) ?_
  rintro a e₁ ⟨ha, rfl⟩
  refine wp_seq (Steady.tokenAt hright) ?_
  rintro b e₂ ⟨hb, rfl⟩
  have hl := h.text_of_texts (s := l) ha (by simp [hsplit]) e₂.region.cells
  have hr := h.text_of_texts (s := r) hb (by simp [hsplit]) e₂.region.cells
  have htexts : mergedTexts e₂.region.cells a b backward = (l', r') := by
    rw [hmerged, mergedTexts, gluedAt, ha, hb, hl, hr]
  obtain ⟨resolved, u, hrun, hu, hresolved⟩ :=
    Expr.exists_stands_of_resolve hword e₂.region.cells
  have hitems := looseItems_eq h.steady.inStep.language
  rw [wp_bind, wp_get, htexts]
  simp only [hitems]
  rw [wp_bind, wp_onCells_pure hrun, hresolved]
  refine wp_seq (respliced_splice h (.none _ _) (.cons hu .nil) (by omega) hright)
    fun _ e' h' => ?_
  have hspliced : e'.region.texts = init ++ (l' ++ r') :: rest := by
    have hdrop : (init ++ l :: r :: rest).drop (init.length + 1 + 1) = rest := by
      rw [show init ++ l :: r :: rest = (init ++ [l, r]) ++ rest by simp, List.drop_left' (by simp)]
    rw [h'.texts, hsplit, hdrop]
    simp
  have hlands := lands_select_append h'.bare hspliced (.offset l'.length)
  simpa [Position.within] using hlands

theorem reads_deleteAcross {init rest : List Text} {l r : Text} (h : e.region.Bare none)
    (hsplit : e.region.texts = init ++ l :: r :: rest)
    (hindex : index = if backward then init.length + 1 else init.length) {l' r' : Text}
    (hmerged : (l', r') = if gluedAt init.length e.tokens then
      (if backward then (l.dropLast, r) else (l, r.drop 1)) else (l, r))
    (hword : l' ++ r' ≠ valueWord) : wp (deleteAcross index backward) (fun _ e' =>
      e'.Reads (init ++ (l' ++ r') :: rest).flatten (init.flatten.length + l'.length))
      (fun _ _ => False) e := by
  have hright : init.length + 1 < e.tokens.length := by
    rw [length_of_texts hsplit, List.length_cons, List.length_cons]
    omega
  have hleft : init.length < e.tokens.length := Nat.lt_of_succ_lt hright
  have ha : e.tokens[init.length]? = some (e.tokens.get ⟨_, hleft⟩) := List.getElem?_eq_getElem hleft
  have hb : e.tokens[init.length + 1]? = some (e.tokens.get ⟨_, hright⟩) :=
    List.getElem?_eq_getElem hright
  have hplain : (e.tokens.get ⟨_, hleft⟩).isValue = false ∧ (e.tokens.get ⟨_, hright⟩).isValue = false :=
    ⟨h.bare _ (List.mem_of_getElem? ha), h.bare _ (List.mem_of_getElem? hb)⟩
  have hmerge := lands_mergeFrom h hsplit hmerged hword
  unfold deleteAcross
  rw [wp_bind, wp_get]
  cases backward with
  | true =>
    obtain rfl : index = init.length + 1 := hindex
    have hshift : shifted? (init.length + 1) (-1) = some init.length := by
      rw [shifted?, if_pos (by omega)]
      exact congrArg some (by omega)
    have hcan : e.canDelete (init.length + 1) (-1) := by simpa [canDelete, hshift] using hleft
    have hboth : e.canMerge (init.length + 1) (-1) := by
      simp only [canMerge, hshift, ha, hb, hplain.1, hplain.2]
      rfl
    simp only [if_true, hcan, hboth, mergeTokens, shifted, hshift, pure_bind]
    rw [wp_bind]
    exact wp_mono hmerge (fun _ _ h => h.closeMenu.reads) fun _ _ h => h
  | false =>
    obtain rfl : index = init.length := hindex
    have hshift : shifted? init.length 1 = some (init.length + 1) := by
      rw [shifted?, if_pos (by omega)]
      rfl
    have hcan : e.canDelete init.length 1 := by simpa [canDelete, hshift] using hright
    have hboth : e.canMerge init.length 1 := by
      simp only [canMerge, hshift, ha, hb, hplain.1, hplain.2]
      rfl
    simp only [Bool.false_eq_true, if_false, hcan, hboth, if_true, mergeTokens, pure_bind]
    rw [wp_bind]
    exact wp_mono hmerge (fun _ _ h => h.closeMenu.reads) fun _ _ h => h

theorem wp_deleteAcross_of_alone {post : Unit → Editor Expr → Prop}
    (h : e.canDelete index (if backward then -1 else 1) = false) (hpost : post () e) :
    wp (deleteAcross index backward) post (fun _ _ => False) e := by
  unfold deleteAcross
  rw [wp_bind, wp_get]
  simpa [h] using hpost

/-- Keeping the caret puts it at the same offset in whatever has the focus, if that is long enough. -/
theorem keepCaret_of_focusedView? (hfocus : e.focusedView? = some (index, v)) (k : Nat) :
    (e.keepCaret k).tokens = e.tokens ∧ (e.keepCaret k).region.texts = e.region.texts ∧
      (e.keepCaret k).focusedView? =
        some (index, if k ≤ v.text.length then { v with caret := k } else v) := by
  unfold keepCaret
  rw [hfocus]
  simp only
  split_ifs with hk
  · obtain ⟨hindex, hv⟩ := Steady.of_focusedView? hfocus
    obtain ⟨id, hid⟩ := exists_focus hfocus
    refine ⟨rfl, rfl, ?_⟩
    have hfound : e.region.viewPosition? id = some index := by
      rwa [focusedIndex?, hid] at hindex
    have hindex' : (e.modifyView index fun v => v.setCaret k).focusedIndex? = some index := by
      rw [focusedIndex?, show (e.modifyView index fun v => v.setCaret k).focus = .token id from hid]
      exact (viewPosition?_modifyView (.setCaret k) id).trans hfound
    have hview : (e.modifyView index fun v => v.setCaret k).views[index]? = some (v.setCaret k) := by
      have hv' : e.region.views[index]? = some v := hv
      show (e.region.views.modify index _)[index]? = _
      simp [hv']
    rw [focusedView?, hindex']
    have hcaret : v.setCaret k = { v with caret := k } := by rw [View.setCaret, Nat.min_eq_left hk]
    simp only [hview, Option.map_some, hcaret]
  · exact ⟨rfl, rfl, hfocus⟩

/-- The text is `t`, and the caret misses `n` by `d`. -/
structure Misses (t : Text) (n : Nat) (d : Int) (e : Editor Expr) : Prop where
  text : e.shownText = t
  caret : ∃ k, e.offset? = some k ∧ (k : Int) = n + d

theorem Reads.misses {n : Nat} (h : e.Reads t n) : e.Misses t n 0 :=
  ⟨h.text, n, h.caret, by simp⟩

theorem kept_run (h : e.region.Bare none) (hsplit : e.region.texts = before ++ t :: after) {m : Move}
    {position : Position} (hm : m.target = .token before.length position) (k : Nat) :
    ((e.run m).keepCaret k).tokens = e.tokens ∧
      ((e.run m).keepCaret k).region.texts = e.region.texts ∧
      ((e.run m).keepCaret k).Reads (before ++ t :: after).flatten
        (before.flatten.length + if k ≤ t.length then k else position.within t) := by
  have hin := lt_of_texts hsplit
  have hin' : before.length < e.views.length := h.showing.length_eq ▸ hin
  have hv : e.views[before.length]? = some (e.views.get ⟨_, hin'⟩) := List.getElem?_eq_getElem hin'
  generalize e.views.get ⟨_, hin'⟩ = v at hv
  have hvtext : v.text = t := by
    have htext := h.showing.text_eq hv
    rw [hsplit] at htext
    simpa using htext.symm
  have hregion := (run_token hin' hm).1
  have htokens : (e.run m).tokens = e.tokens := (congrArg Region.tokens hregion).trans tokens_selectToken
  have htexts : (e.run m).region.texts = e.region.texts := by rw [hregion, texts_selectToken]
  have hkept := keepCaret_of_focusedView? (focusedView?_run h.numbered hv hm) k
  obtain ⟨htokens', htexts', hfocus⟩ := hkept
  refine ⟨htokens'.trans htokens, htexts'.trans htexts, ?_⟩
  have hne : ((e.run m).keepCaret k).tokens ≠ [] := by
    rw [htokens', htokens]
    exact List.ne_nil_of_length_pos (Nat.zero_lt_of_lt hin)
  have hreads := reads_of_focusedView? hne hfocus
  rw [htexts', htexts, hsplit] at hreads
  have hbefore : (before ++ t :: after).take before.length = before := by simp
  rw [hbefore] at hreads
  refine ⟨hreads.text, hreads.caret.trans ?_⟩
  subst hvtext
  split_ifs <;> rfl

/-- A completed token gets its caret back in whatever has the focus by then. -/
theorem misses_keepCaret (h : e.region.Bare none) (hsplit : e.region.texts = before ++ w.text :: after)
    (hne : w.text ≠ []) (hcaret : w.caret ≤ w.text.length) (hkind : (Expr.singleKind? w.text).isSome)
    {m : Move} (hm : m.target = (if w.caret = 0 then e.select before.length .first
      else if w.caretAtEnd then e.select before.length .last
      else Move.toToken before.length (.offset w.caret)).target) :
    ((e.run m).keepCaret w.caret).Misses (before ++ w.text :: after).flatten
      (before.flatten.length + w.caret)
      (slip before.length w ((e.run m).keepCaret w.caret)) := by
  have hin := lt_of_texts hsplit
  have hcomplete : (Expr.singleKind? w.text).isNone = false := by
    rw [Option.isNone_eq_false_iff]
    exact hkind
  -- the focus stays in the token itself
  have hself : ∀ position : Position, m.target = .token before.length position →
      (slip before.length w ((e.run m).keepCaret w.caret)) = 0 →
      ((e.run m).keepCaret w.caret).Misses (before ++ w.text :: after).flatten
        (before.flatten.length + w.caret)
        (slip before.length w ((e.run m).keepCaret w.caret)) := by
    intro position hm hslip
    have hreads := (kept_run h hsplit hm w.caret).2.2
    rw [if_pos hcaret] at hreads
    rw [hslip]
    exact hreads.misses
  by_cases hfirst : w.caret = 0
  · rw [if_pos hfirst] at hm
    rcases List.eq_nil_or_concat' before with rfl | ⟨init, l, rfl⟩
    · exact hself .first hm (by simp [slip, hcomplete, hfirst])
    have hlen : (init ++ [l]).length = init.length + 1 := by simp
    rw [hlen] at hin hm
    rw [select_first_eq h.steady.projected hin] at hm
    cases hglued : gluedAt init.length e.tokens with
    | false =>
      rw [hglued] at hm
      refine hself .first (by rw [hm, hlen]; rfl) ?_
      have hmid : m.target = .token (init ++ [l]).length .first := by rw [hm, hlen]; rfl
      have htokens := (kept_run h hsplit hmid w.caret).1
      rw [slip, hlen, htokens]
      simp [hcomplete, hfirst, hglued]
    | true =>
      -- the focus goes to the left neighbour, and its caret to the start
      rw [hglued] at hm
      have hsplit' : e.region.texts = init ++ l :: (w.text :: after) := by simpa using hsplit
      obtain ⟨htokens, htexts, hreads⟩ := kept_run h hsplit' hm w.caret
      have hslip : slip (init ++ [l]).length w ((e.run m).keepCaret w.caret) = -(l.length : Int) := by
        have htext : ((e.run m).keepCaret w.caret).textAt init.length = l := by
          rw [textAt, htexts, hsplit']
          simp
        rw [slip, hlen, htokens, Nat.add_sub_cancel, htext]
        simp [hcomplete, hfirst, hglued]
      refine ⟨by simpa using hreads.text, _, hreads.caret, ?_⟩
      rw [hslip, hfirst, if_pos (Nat.zero_le _), List.flatten_append, List.length_append,
        List.flatten_singleton]
      omega
  · rw [if_neg hfirst] at hm
    by_cases hlast : w.caretAtEnd
    · rw [if_pos hlast, select_last_eq h.steady.projected hin] at hm
      have hend : w.caret = w.text.length := beq_iff_eq.1 hlast
      cases hglued : gluedAt before.length e.tokens with
      | false =>
        rw [hglued] at hm
        refine hself .last hm ?_
        have htokens := (kept_run h hsplit hm w.caret).1
        rw [slip, htokens]
        simp [hfirst, hglued]
      | true =>
        -- the focus goes to the right neighbour, and its caret as far as this token reaches
        rw [hglued] at hm
        obtain ⟨r, rest, rfl⟩ : ∃ r rest, after = r :: rest := by
          cases after with
          | cons r rest => exact ⟨r, rest, rfl⟩
          | nil =>
            have hnone : e.tokens[before.length + 1]? = none :=
              List.getElem?_eq_none (length_of_texts hsplit).le
            rw [gluedAt, hnone] at hglued
            cases h' : e.tokens[before.length]? <;> simp [h'] at hglued
        have hsplit' : e.region.texts = (before ++ [w.text]) ++ r :: rest := by simpa using hsplit
        have hm' : m.target = .token (before ++ [w.text]).length .first := by
          rw [hm, List.length_append]
          rfl
        obtain ⟨htokens, htexts, hreads⟩ := kept_run h hsplit' hm' w.caret
        have htext : ((e.run m).keepCaret w.caret).textAt (before.length + 1) = r := by
          rw [textAt, htexts, hsplit']
          simp
        refine ⟨by simpa using hreads.text, _, hreads.caret, ?_⟩
        rw [slip, htokens, htext, hend]
        by_cases hfits : w.text.length ≤ r.length
        · simp [hcomplete, hne, hlast, hglued, hfits]
        · simp [hcomplete, hne, hlast, hglued, hfits, Position.within]
    · rw [if_neg hlast] at hm
      refine hself (.offset w.caret) hm ?_
      simp [slip, hcomplete, hfirst, hlast]

/-- A character has been taken from the view of a token with the text `t`. -/
structure Cut (before after : List Text) (t : Text) (w : View) (e : Editor Expr) : Prop where
  bare : e.region.Bare (some before.length)
  texts : e.region.texts = before ++ t :: after
  view : e.views[before.length]? = some w
  caret : w.caret ≤ w.text.length
  shorter : w.text.length < t.length
  menu : e.menu.active = false
  zero : '0' ∉ (before ++ w.text :: after).flatten
  word : ¬ valueWord <:+: (before ++ w.text :: after).flatten

theorem Cut.afterDelete (h : e.Cut before after t w) :
    wp (afterDelete before.length) (fun _ e' => e'.Misses (before ++ w.text :: after).flatten
      (before.flatten.length + w.caret) (slip before.length w e')) (fun _ _ => False) e := by
  have hin := lt_of_texts h.texts
  have htoken : e.tokens[before.length]? = some (e.tokens.get ⟨_, hin⟩) := List.getElem?_eq_getElem hin
  generalize e.tokens.get ⟨_, hin⟩ = token at htoken
  have htext := h.bare.text_of_texts (s := t) htoken (by simp [h.texts]) e.region.cells
  have hne : t ≠ w.text := by
    rintro rfl
    exact absurd h.shorter (Nat.lt_irrefl _)
  have hword : w.text ≠ valueWord := by
    intro heq
    exact h.word ⟨before.flatten, after.flatten, by simp [heq]⟩
  have hoffer := typingOffer_of_closed h.menu (.token before.length)
  have hitems := items_typing h.bare.steady.inStep.language (.token before.length)
  unfold Editor.afterDelete
  rw [wp_bind, wp_get, h.view, htoken]
  simp only [hoffer]
  split
  · -- the token has lost its last character
    rename_i hempty
    have hnil : w.text = [] := List.isEmpty_iff.1 hempty
    have hcaret : w.caret = 0 := by simpa [hnil] using h.caret
    refine wp_mono (reads_becameEmpty h.bare (.self _) h.texts) (fun _ e' h' => ?_) fun _ _ h => h
    have hslip : slip before.length w e' = 0 := by simp [slip, hnil, Expr.singleKind?_nil]
    rw [hslip, hcaret]
    refine Reads.misses ⟨h'.text.trans ?_, h'.caret⟩
    simp [hnil]
  rename_i hempty
  split
  · rename_i hsame
    rw [htext] at hsame
    exact absurd (beq_iff_eq.1 hsame).symm hne
  split
  · rename_i hsingle
    obtain ⟨u, hu, hcomplete⟩ := exists_stands_of_completeMatch (e := e) hitems hword hsingle
    have hkind := (Expr.hasSingleMatch_iff hword).1 (hitems ▸ hsingle)
    rw [wp_bind]
    refine hcomplete (wp_mono (wp_completeReplacing h.bare (.self _) h.texts h.view hu h.zero) ?_
      fun _ _ h => h)
    rintro _ e' ⟨hbare, htexts, rfl⟩
    exact misses_keepCaret (e := e'.closeMenu) hbare htexts (by simpa using hempty) h.caret hkind rfl
  · rename_i hsingle
    have hkind : Expr.singleKind? w.text = none := by
      rw [hitems, Expr.hasSingleMatch_iff hword] at hsingle
      simpa using hsingle
    refine wp_mono (reads_markUnresolved h.bare (.self _) h.texts hne h.caret) (fun _ e' h' => ?_)
      fun _ _ h => h
    have hslip : slip before.length w e' = 0 := by simp [slip, hkind]
    rw [hslip]
    exact h'.misses

/-! ### Delete keys -/

/-- The character that a delete key takes from a view with the caret inside, and its place in a text
in which `n` characters stand before the view. -/
theorem exists_erased (n : Nat) (hcaret : v.caret ≤ v.text.length)
    (hinside : atEdge backward v = false) :
    ∃ k, k < v.text.length ∧ (erased backward v).text = v.text.eraseIdx k ∧
      (if backward then n + v.caret - 1 else n + v.caret) = n + k ∧
      (erased backward v).caret = k := by
  cases backward with
  | true =>
    have hpos : v.caret ≠ 0 := by simpa [atEdge] using hinside
    refine ⟨v.caret - 1, by omega, ?_, ?_, ?_⟩
    · simp [erased, View.eraseBefore, hpos]
    · rw [if_pos rfl]
      omega
    · simp [erased, View.eraseBefore, hpos]
  | false =>
    have hne : v.caret ≠ v.text.length := by simpa [atEdge, View.caretAtEnd] using hinside
    exact ⟨v.caret, by omega, rfl, rfl, rfl⟩

section
variable (h : e.CaretIn before after v) (hfocus : e.focusedView? = some (before.length, v))
include h

theorem CaretIn.textAt_eq : e.textAt before.length = v.text := by
  rw [textAt, h.texts]
  simp

theorem CaretIn.shownText_eq : e.shownText = (before ++ v.text :: after).flatten := by
  have hne : e.tokens ≠ [] := List.ne_nil_of_length_pos (Nat.zero_lt_of_lt (lt_of_texts h.texts))
  rw [shownText_of_ne_nil hne, h.texts]

include hfocus

theorem CaretIn.reads : e.Reads (before ++ v.text :: after).flatten
    (before.flatten.length + v.caret) := by
  have hne : e.tokens ≠ [] := List.ne_nil_of_length_pos (Nat.zero_lt_of_lt (lt_of_texts h.texts))
  have hreads := reads_of_focusedView? hne hfocus
  have hbefore : (before ++ v.text :: after).take before.length = before := by simp
  rwa [h.texts, hbefore] at hreads

theorem CaretIn.takes_of_inside (hne : v.text ≠ []) (hinside : atEdge backward v = false) :
    e.takes backward = true := by
  cases backward with
  | true =>
    have hpos : 0 < v.caret := Nat.pos_of_ne_zero (by simpa [atEdge] using hinside)
    simp [takes, hfocus, h.textAt_eq, hne, hpos]
  | false =>
    have hlt : v.caret < v.text.length :=
      Nat.lt_of_le_of_ne h.caret_le (by simpa [atEdge, View.caretAtEnd] using hinside)
    simp [takes, hfocus, h.textAt_eq, hne, hlt]

theorem CaretIn.deleteInside (hne : v.text ≠ []) (hinside : atEdge backward v = false)
    (hzero : '0' ∉ e.shownText)
    (hword : ¬ valueWord <:+: e.deletedText backward (before.flatten.length + v.caret)) :
    wp (do
      modify (modifyView before.length (erased backward))
      Editor.afterDelete before.length : EditM Expr Unit)
      (fun _ e' => e'.Misses (e.deletedText backward (before.flatten.length + v.caret))
        (e.deletedOffset backward (before.flatten.length + v.caret))
        (slip before.length (erased backward v) e')) (fun _ _ => False) e := by
  have hedit : View.Edit (erased backward) := by
    cases backward
    · exact .eraseAfter
    · exact .eraseBefore
  have htakes := h.takes_of_inside hfocus hne hinside
  obtain ⟨k, hk, htext, hoffset, hkcaret⟩ :=
    exists_erased before.flatten.length h.caret_le hinside
  have hdeleted : e.deletedText backward (before.flatten.length + v.caret) =
      (before ++ (erased backward v).text :: after).flatten := by
    have herase := Text.eraseIdx_append before.flatten after.flatten hk
    rw [deletedText, htakes, if_pos rfl, hoffset, h.shownText_eq, htext]
    simpa using herase
  have hplace : e.deletedOffset backward (before.flatten.length + v.caret) =
      before.flatten.length + (erased backward v).caret := by
    cases backward with
    | true =>
      rw [deletedOffset, htakes, hkcaret, ← hoffset]
      rfl
    | false =>
      rw [hkcaret, ← hoffset]
      rfl
  rw [hdeleted] at hword
  rw [wp_bind, wp_modify, hdeleted, hplace]
  refine Cut.afterDelete ⟨h.bare.modifyView hedit (h.bare.steady.edit hedit), h.texts, ?_, ?_, ?_,
    h.menu, fun hmem => hzero ?_, hword⟩
  · have hv : e.region.views[before.length]? = some v := h.view
    show (e.region.views.modify before.length (erased backward))[before.length]? = _
    simp [hv]
  · rw [htext, hkcaret, List.length_eraseIdx_of_lt hk]
    omega
  · rw [htext, List.length_eraseIdx_of_lt hk]
    omega
  · rw [← hdeleted, deletedText, htakes, if_pos rfl] at hmem
    exact List.mem_of_mem_eraseIdx hmem

theorem CaretIn.backspaceAtEdge (hne : v.text ≠ []) (hedge : v.caret = 0)
    (hword : ¬ valueWord <:+: e.deletedText true before.flatten.length) :
    wp (deleteAcross before.length true) (fun _ e' =>
      e'.Reads (e.deletedText true before.flatten.length) (e.deletedOffset true before.flatten.length))
      (fun _ _ => False) e := by
  obtain rfl | ⟨init, l, rfl⟩ := List.eq_nil_or_concat' before
  · -- there is no token before it
    have htakes : e.takes true = false := by simp [takes, hfocus, hedge]
    have hreads := h.reads hfocus
    rw [hedge, ← h.shownText_eq] at hreads
    have hcan : e.canDelete 0 (if true then -1 else 1) = false := by simp [canDelete, shifted?]
    rw [deletedText, deletedOffset, htakes]
    exact wp_deleteAcross_of_alone hcan hreads
  have hsplit : e.region.texts = init ++ l :: v.text :: after := by simpa using h.texts
  have hleft : e.textAt init.length = l := by simp [textAt, hsplit]
  have htakes : e.takes true = (gluedAt init.length e.tokens && !l.isEmpty) := by
    have htext : e.textAt (init.length + 1) = v.text := by simpa using h.textAt_eq
    simp [takes, hfocus, htext, hne, hedge, hleft]
  have hshown : e.shownText = init.flatten ++ l ++ (v.text ++ after.flatten) := by
    rw [h.shownText_eq]
    simp
  -- what is left of the token before it
  obtain ⟨l', hl', htext, hoffset⟩ : ∃ l', l' = (if gluedAt init.length e.tokens then l.dropLast else l) ∧
      e.deletedText true (init ++ [l]).flatten.length = (init ++ (l' ++ v.text) :: after).flatten ∧
      e.deletedOffset true (init ++ [l]).flatten.length = init.flatten.length + l'.length := by
    refine ⟨_, rfl, ?_⟩
    rw [deletedText, deletedOffset, htakes, hshown]
    by_cases hglued : gluedAt init.length e.tokens = true
    · by_cases hnil : l = []
      · simp [hnil]
      · have hpos : 0 < l.length := List.length_pos_iff.2 hnil
        have herase := Text.eraseIdx_append init.flatten (v.text ++ after.flatten)
          (show l.length - 1 < l.length by omega)
        rw [List.eraseIdx_length_sub_one] at herase
        have hplace : (init ++ [l]).flatten.length - 1 = init.flatten.length + (l.length - 1) := by
          simp only [List.flatten_append, List.flatten_singleton, List.length_append]
          omega
        rw [hplace]
        simpa [hglued, hnil] using herase
    · simp [hglued]
  rw [htext] at hword ⊢
  rw [hoffset]
  refine reads_deleteAcross h.bare hsplit (by simp) ?_ fun heq => hword ?_
  · rw [hl', if_pos rfl]
    split <;> rfl
  · exact ⟨init.flatten, after.flatten, by simp [heq]⟩

theorem CaretIn.deleteAtEdge (hne : v.text ≠ []) (hedge : v.caret = v.text.length)
    (hword : ¬ valueWord <:+: e.deletedText false (before.flatten.length + v.text.length)) :
    wp (deleteAcross before.length false) (fun _ e' =>
      e'.Reads (e.deletedText false (before.flatten.length + v.text.length))
        (before.flatten.length + v.text.length)) (fun _ _ => False) e := by
  cases after with
  | nil =>
    -- there is no token after it
    have hlen : e.region.tokens.length = before.length + 1 := by
      simpa using congrArg List.length h.texts
    have hglued : gluedAt before.length e.tokens = false := by simp [gluedAt, tokens, hlen]
    have htakes : e.takes false = false := by simp [takes, hfocus, h.textAt_eq, hedge, hglued]
    have hreads := h.reads hfocus
    rw [hedge, ← h.shownText_eq] at hreads
    have hcan : e.canDelete before.length (if false then -1 else 1) = false := by
      simp only [Bool.false_eq_true, if_false, canDelete, shifted?, tokens, hlen]
      rw [if_pos (by omega)]
      simp
    rw [deletedText, htakes]
    exact wp_deleteAcross_of_alone hcan hreads
  | cons r rest =>
    have hright : e.textAt (before.length + 1) = r := by simp [textAt, h.texts]
    have htakes : e.takes false = (gluedAt before.length e.tokens && !r.isEmpty) := by
      simp [takes, hfocus, h.textAt_eq, hne, hedge, hright]
    have hshown : e.shownText = (before.flatten ++ v.text) ++ r ++ rest.flatten := by
      rw [h.shownText_eq]
      simp
    -- what is left of the token after it
    obtain ⟨r', hr', htext⟩ : ∃ r', r' = (if gluedAt before.length e.tokens then r.drop 1 else r) ∧
        e.deletedText false (before.flatten.length + v.text.length) =
          (before ++ (v.text ++ r') :: rest).flatten := by
      refine ⟨_, rfl, ?_⟩
      rw [deletedText, htakes, hshown]
      by_cases hglued : gluedAt before.length e.tokens = true
      · by_cases hnil : r = []
        · simp [hnil]
        · have hpos : 0 < r.length := List.length_pos_iff.2 hnil
          have herase := Text.eraseIdx_append (before.flatten ++ v.text) rest.flatten hpos
          rw [Nat.add_zero, List.length_append, List.eraseIdx_zero] at herase
          simpa [hglued, hnil] using herase
      · simp [hglued]
    rw [htext] at hword ⊢
    refine reads_deleteAcross h.bare h.texts (by simp) ?_ fun heq => hword ?_
    · rw [hr', if_neg Bool.false_ne_true]
      split <;> rfl
    · exact ⟨before.flatten, rest.flatten, by simp [heq]⟩

theorem CaretIn.wp_deleteChar (hsel : e.selection = none) {post : Unit → Editor Expr → Prop} :
    wp (deleteChar backward) post (fun _ _ => False) e ↔
      wp (if v.text.isEmpty then Editor.deleteWhole before.length
        else if atEdge backward v then deleteAcross before.length backward
        else do
          modify (modifyView before.length (erased backward))
          Editor.afterDelete before.length) post (fun _ _ => False) e := by
  obtain ⟨hindex, hv⟩ := Steady.of_focusedView? hfocus
  have heditable : v.editable = true := h.bare.editable hv
  unfold deleteChar
  rw [wp_bind, wp_get, hsel, hindex]
  simp only [hv, heditable, Bool.not_true, Bool.false_or]
  cases backward <;> rfl

theorem CaretIn.misses_deleteChar (hsel : e.selection = none) (hzero : '0' ∉ e.shownText)
    (hword : ¬ valueWord <:+: e.deletedText backward (before.flatten.length + v.caret)) :
    wp (deleteChar backward) (fun _ e' =>
      e'.Misses (e.deletedText backward (before.flatten.length + v.caret))
        (e.deletedOffset backward (before.flatten.length + v.caret)) (leap backward e e'))
      (fun _ _ => False) e := by
  rw [h.wp_deleteChar hfocus hsel]
  simp only [leap, hfocus]
  by_cases hnil : v.text = []
  · have hcaret : v.caret = 0 := by simpa [hnil] using h.caret_le
    have htakes : ∀ b, e.takes b = false := fun b => by simp [takes, hfocus, h.textAt_eq, hnil]
    rw [if_pos (List.isEmpty_iff.2 hnil)]
    refine wp_mono h.deleteWhole (fun _ e' h' => ?_) fun _ _ h => h
    rw [deletedText, deletedOffset, htakes, htakes, h.shownText_eq, hnil, hcaret]
    simpa using h'.misses
  have hempty : v.text.isEmpty = false := by simpa using hnil
  rw [hempty, if_neg Bool.false_ne_true]
  cases hedge : atEdge backward v with
  | false => exact h.deleteInside hfocus hnil hedge hzero hword
  | true =>
    rw [if_pos rfl]
    cases backward with
    | true =>
      have hcaret : v.caret = 0 := by simpa [atEdge] using hedge
      rw [hcaret] at hword ⊢
      exact wp_mono (h.backspaceAtEdge hfocus hnil hcaret hword) (fun _ _ h => h.misses) fun _ _ h => h
    | false =>
      have hcaret : v.caret = v.text.length := by simpa [atEdge, View.caretAtEnd] using hedge
      rw [hcaret] at hword ⊢
      exact wp_mono (h.deleteAtEdge hfocus hnil hcaret hword) (fun _ _ h => h.misses) fun _ _ h => h

end

theorem misses_delete {p : Expr.Precedence} {cells : Cells} {settings : Settings}
    (hauto : settings.autoReparse = true)
    (h : Reached Expr.Speaks (Editor.new (Expr.language p) cells settings) e)
    (hmenu : e.menu.active = false) (hsel : e.selection = none)
    (hplain : ∀ t ∈ e.tokens, t.isValue = false) (hlive : e.focusedView?.isSome)
    {n : Nat} (hn : e.offset? = some n) (hzero : '0' ∉ e.shownText)
    (hword : ¬ valueWord <:+: e.deletedText backward n) :
    ∃ e', (if backward then backspace else delete) e = .ok () e' ∧
      e'.Misses (e.deletedText backward n) (e.deletedOffset backward n) (leap backward e e') := by
  obtain ⟨hsteady, hnumbered⟩ := Expr.orderly hauto h
  have hbare : e.region.Bare none := ⟨hsteady.region, hnumbered, hplain⟩
  obtain ⟨⟨index, v⟩, hfocus⟩ := Option.isSome_iff_exists.1 hlive
  obtain ⟨before, after, rfl, hcaret⟩ := CaretIn.of_view hbare hmenu (Steady.of_focusedView? hfocus).2
  obtain rfl : before.flatten.length + v.caret = n :=
    Option.some.inj ((hcaret.reads hfocus).caret.symm.trans hn)
  obtain ⟨_, e', hrun, hmisses⟩ :=
    exists_of_wp (hcaret.misses_deleteChar hfocus hsel hzero hword)
  refine ⟨e', ?_, hmisses⟩
  cases backward <;> exact hrun

/-- A delete key takes the character next to the caret from the text, or leaves the text as it is. -/
theorem delete_takes_adjacent (backward : Bool) {p : Expr.Precedence} {cells : Cells}
    {settings : Settings}
    (hauto : settings.autoReparse = true)
    (h : Reached Expr.Speaks (Editor.new (Expr.language p) cells settings) e)
    (hmenu : e.menu.active = false) (hsel : e.selection = none)
    (hplain : ∀ t ∈ e.tokens, t.isValue = false) (hlive : e.focusedView?.isSome)
    {n : Nat} (hn : e.offset? = some n) (hzero : '0' ∉ e.shownText)
    (hword : ¬ valueWord <:+: e.deletedText backward n) :
    ∃ e', (if backward then backspace else delete) e = .ok () e' ∧
      e'.shownText = e.deletedText backward n := by
  obtain ⟨e', hrun, hmisses⟩ := misses_delete hauto h hmenu hsel hplain hlive hn hzero hword
  exact ⟨e', hrun, hmisses.text⟩

/-- In `ab(c)`, backspace before the `c` takes the parenthesis glued to it. -/
theorem delete_takes_adjacent_glued : ∃ e e' : Editor Expr,
    [Op.paste "ab(c)".toList, .selectToken 2 .first].forM Op.run
      (Editor.new (Expr.language {}) {} {}) = .ok () e ∧
    e.shownText = "ab(c)".toList ∧ e.offset? = some 3 ∧ backspace e = .ok () e' ∧
      e'.shownText = "abc)".toList := by
  have hends : endsWith ([Op.paste "ab(c)".toList, .selectToken 2 .first].forM Op.run)
      (fun _ e => e.shownText == "ab(c)".toList && e.offset? == some 3 && !e.menu.active &&
        e.selection.isNone && (e.tokens.all fun t => !t.isValue) && e.focusedView?.isSome &&
        e.takes true)
      (Editor.new (Expr.language {}) {} {}) := by
    decide +kernel
  obtain ⟨_, e, hrun, htest⟩ := exists_of_endsWith hends
  simp only [Bool.and_eq_true, beq_iff_eq, Bool.not_eq_true', Option.isNone_iff_eq_none,
    List.all_eq_true] at htest
  obtain ⟨⟨⟨⟨⟨⟨htext, hoffset⟩, hmenu⟩, hsel⟩, hplain⟩, hlive⟩, htakes⟩ := htest
  have hdeleted : e.deletedText true 3 = "abc)".toList := by
    rw [deletedText, htakes, htext]
    rfl
  obtain ⟨e', hkey, htext'⟩ := delete_takes_adjacent true rfl (Reached.refl.forM (by simp) hrun)
    hmenu hsel hplain hlive hoffset (by rw [htext]; decide) (by rw [hdeleted]; decide)
  exact ⟨e, e', hrun, htext, hoffset, hkey, htext'.trans hdeleted⟩

/-- The caret stays where the character was, up to the leap over a neighbour that the completed rest of
the token is glued to. -/
theorem caret_after_delete (backward : Bool) {p : Expr.Precedence} {cells : Cells}
    {settings : Settings}
    (hauto : settings.autoReparse = true)
    (h : Reached Expr.Speaks (Editor.new (Expr.language p) cells settings) e)
    (hmenu : e.menu.active = false) (hsel : e.selection = none)
    (hplain : ∀ t ∈ e.tokens, t.isValue = false) (hlive : e.focusedView?.isSome)
    {n : Nat} (hn : e.offset? = some n) (hzero : '0' ∉ e.shownText)
    (hword : ¬ valueWord <:+: e.deletedText backward n) :
    ∃ e' k, (if backward then backspace else delete) e = .ok () e' ∧ e'.offset? = some k ∧
      (k : Int) = e.deletedOffset backward n + leap backward e e' := by
  obtain ⟨e', hrun, hmisses⟩ := misses_delete hauto h hmenu hsel hplain hlive hn hzero hword
  obtain ⟨k, hk, heq⟩ := hmisses.caret
  exact ⟨e', k, hrun, hk, heq⟩

/-- In `ab()`, backspace behind the `b` leaves the caret behind the parenthesis, not before it. -/
theorem caret_after_delete_leaps : ∃ e e' : Editor Expr,
    [Op.paste "ab()".toList, .selectToken 0 .last].forM Op.run
      (Editor.new (Expr.language {}) {} {}) = .ok () e ∧
    e.shownText = "ab()".toList ∧ e.offset? = some 2 ∧ backspace e = .ok () e' ∧
      e.deletedOffset true 2 = 1 ∧ leap true e e' = 1 ∧ e'.offset? = some 2 := by
  have hends : endsWith ([Op.paste "ab()".toList, .selectToken 0 .last].forM Op.run)
      (fun _ e => e.shownText == "ab()".toList && e.offset? == some 2 && !e.menu.active &&
        e.selection.isNone && (e.tokens.all fun t => !t.isValue) && e.focusedView?.isSome &&
        e.takes true && endsWith backspace (fun _ e' => leap true e e' == 1) e)
      (Editor.new (Expr.language {}) {} {}) := by
    decide +kernel
  obtain ⟨_, e, hrun, htest⟩ := exists_of_endsWith hends
  simp only [Bool.and_eq_true, beq_iff_eq, Bool.not_eq_true', Option.isNone_iff_eq_none,
    List.all_eq_true] at htest
  obtain ⟨⟨⟨⟨⟨⟨⟨htext, hoffset⟩, hmenu⟩, hsel⟩, hplain⟩, hlive⟩, htakes⟩, hleap⟩ := htest
  obtain ⟨_, e₁, hkey₁, hleap⟩ := exists_of_endsWith hleap
  have hdeleted : e.deletedText true 2 = "a()".toList := by
    rw [deletedText, htakes, htext]
    rfl
  have hplace : e.deletedOffset true 2 = 1 := by
    rw [deletedOffset, htakes]
    rfl
  obtain ⟨e', k, hkey, hk, heq⟩ := caret_after_delete true rfl (Reached.refl.forM (by simp) hrun)
    hmenu hsel hplain hlive hoffset (by rw [htext]; decide) (by rw [hdeleted]; decide)
  obtain rfl : e₁ = e' := by
    have hsame := hkey₁.symm.trans hkey
    injection hsame
  have hleap' : leap true e e₁ = 1 := beq_iff_eq.1 hleap
  rw [hplace, hleap'] at heq
  obtain rfl : k = 2 := by omega
  exact ⟨e, e₁, hrun, htext, hoffset, hkey, hplace, hleap', hk⟩

end Editor

end TokenEditor
