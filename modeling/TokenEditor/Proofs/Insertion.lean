import TokenEditor.Proofs.BareRows

/-! # Typing is insertion of text

`typing_inserts`: whatever a character does to the row of an expression editor, the text is the old
one with the character put in at the caret, and the caret is behind it. The character may split a
token, complete it, start one beside it or leave an error; each of these replaces a stretch of the row
by pieces with the right text (`Respliced`) and gives a move that leads behind the character
(`Lands`). -/

namespace TokenEditor.Editor
open TokenEditor.Expr (valueWord)

variable {e e' : Editor Expr} {drift : Option Nat} {index : Nat} {before after left right : List Text}
  {t side : Text} {c : Char} {v : View} {u : Token Expr}

/-- Of texts that stand behind one another, those up to an index and from it on. -/
theorem Respliced.texts_between {pieces : List Text} (hsplit : e.region.texts = left ++ right)
    (h : e.Respliced left.length left.length pieces e') :
    e'.region.texts = left ++ pieces ++ right := by
  rw [h.texts, hsplit]
  simp

theorem Respliced.texts_over {pieces : List Text} (hsplit : e.region.texts = before ++ t :: after)
    (h : e.Respliced before.length (before.length + 1) pieces e') :
    e'.region.texts = before ++ pieces ++ after := by
  rw [h.texts, hsplit]
  simp

theorem length_of_texts (hsplit : e.region.texts = left ++ right) :
    e.tokens.length = left.length + right.length := by
  have hlen := congrArg List.length hsplit
  rwa [Region.length_texts, List.length_append] at hlen

theorem lt_of_texts {e : Editor Expr} (hsplit : e.region.texts = before ++ t :: after) :
    before.length < e.tokens.length := by
  rw [length_of_texts hsplit, List.length_cons]
  omega

theorem lands_select_append (h : e.region.Bare none) (hsplit : e.region.texts = before ++ t :: after)
    (position : Position) : e.Lands (before ++ t :: after).flatten
      (before.flatten.length + position.within t) (e.select before.length position) := by
  have hlands := lands_select (lt_of_texts hsplit) h.showing position
  rwa [hsplit, spot_append] at hlands

theorem lands_toToken (h : e.region.Bare none) (hsplit : e.region.texts = before ++ t :: after)
    (position : Position) : e.Lands (before ++ t :: after).flatten
      (before.flatten.length + position.within t) (.toToken before.length position) := by
  refine .token rfl (lt_of_texts hsplit) h.showing (by rw [hsplit]) ?_
  rw [hsplit, spot_append]

theorem wp_completeReplacing (h : e.region.Bare drift)
    (hdrift : DriftIn drift before.length (before.length + 1))
    (hsplit : e.region.texts = before ++ t :: after) (hv : e.views[before.length]? = some v)
    (hu : u.Stands v.text) (hzero : '0' ∉ (before ++ v.text :: after).flatten) :
    wp (completeReplacing before.length 0 [u]) (fun move e' => e'.region.Bare none ∧
      e'.region.texts = before ++ v.text :: after ∧
      move = (if v.caret = 0 then e'.select before.length .first
        else if v.caretAtEnd then e'.select before.length .last
        else Move.toToken before.length (.offset v.caret)).reopening e.menu.active)
      (fun _ _ => False) e := by
  have hzero' : '0' ∉ (e.region.texts.take before.length ++ [v.text] ++
      e.region.texts.drop (before.length + 1)).flatten := by
    rw [hsplit]
    simpa using hzero
  unfold completeReplacing
  rw [wp_bind, wp_get, hv]
  simp only
  refine wp_seq (respliced_spliceUpdated h hdrift (.cons hu .nil) (Nat.le_succ _)
    (lt_of_texts hsplit) hzero') fun _ e' h' => ?_
  have htexts := h'.texts_over hsplit
  rw [List.append_assoc, List.singleton_append] at htexts
  have hin : before.length < e'.views.length := h'.bare.showing.length_eq ▸ lt_of_texts htexts
  have hw : e'.views[before.length]? = some (e'.views.get ⟨_, hin⟩) := List.getElem?_eq_getElem hin
  generalize e'.views.get ⟨_, hin⟩ = w at hw
  have hwtext : w.text = v.text := by
    have htext := h'.bare.showing.text_eq hw
    rw [htexts] at htext
    simpa using htext.symm
  rw [wp_bind, wp_get]
  refine ⟨h'.bare, htexts, ?_⟩
  simp [hw, h'.bare.editable hw, hwtext, h.editable hv]

theorem lands_completeReplacing (h : e.region.Bare drift)
    (hdrift : DriftIn drift before.length (before.length + 1))
    (hsplit : e.region.texts = before ++ t :: after) (hv : e.views[before.length]? = some v)
    (hu : u.Stands v.text) (hzero : '0' ∉ (before ++ v.text :: after).flatten)
    (hcaret : v.caret ≤ v.text.length) :
    wp (completeReplacing before.length 0 [u]) (fun move e' =>
      e'.Lands (before ++ v.text :: after).flatten (before.flatten.length + v.caret) move)
      (fun _ _ => False) e := by
  refine wp_mono (wp_completeReplacing h hdrift hsplit hv hu hzero) ?_ fun _ _ h => h
  rintro _ e' ⟨hbare, htexts, rfl⟩
  refine Lands.reopening ?_ _
  split_ifs with hfirst hlast
  · rw [hfirst]
    exact lands_select_append hbare htexts .first
  · rw [beq_iff_eq.1 hlast]
    exact lands_select_append hbare htexts .last
  · have hlands := lands_toToken hbare htexts (.offset v.caret)
    rwa [Position.within, Nat.min_eq_left hcaret] at hlands

theorem lands_between {e' : Editor Expr} (hsplit : e.region.texts = left ++ right)
    (h : e.Respliced left.length left.length [side] e') :
    e'.Lands (left ++ side :: right).flatten (left.flatten.length + side.length)
      (e'.select left.length .last) := by
  have htexts := h.texts_between hsplit
  rw [List.append_assoc, List.singleton_append] at htexts
  exact lands_select_append h.bare htexts .last

theorem lands_completeBeside (h : e.region.Bare none) (hsplit : e.region.texts = left ++ right)
    (hu : u.Stands side) (hzero : '0' ∉ (left ++ side :: right).flatten) (params : Params) :
    wp (completeBeside params left.length 0 [u]) (fun move e' =>
      e'.Lands (left ++ side :: right).flatten (left.flatten.length + side.length) move)
      (fun _ _ => False) e := by
  have hzero' : '0' ∉ (e.region.texts.take left.length ++ [side] ++
      e.region.texts.drop left.length).flatten := by
    rw [hsplit]
    simpa using hzero
  have hin : left.length ≤ e.tokens.length := length_of_texts hsplit ▸ Nat.le_add_right _ _
  have hover : ([u].head?.any Token.isValue && (e.tokens[left.length]?).any Token.isValue) = false := by
    simp [hu.isValue]
  unfold completeBeside
  rw [wp_bind, wp_get]
  simp only [hover, Bool.false_eq_true, if_false]
  refine wp_seq (respliced_spliceUpdated h (.none _ _) (.cons hu .nil) (Nat.le_refl _) hin hzero')
    fun _ e' h' => ?_
  exact (lands_between hsplit h').reopening _

theorem lands_completeFilling (h : e.region.Bare none) (hempty : e.tokens = []) (hu : u.Stands t)
    (hzero : '0' ∉ t) : wp (completeFilling 0 [u]) (fun move e' => e'.Lands t t.length move)
      (fun _ _ => False) e := by
  have hsplit : e.region.texts = [] ++ [] := by
    rw [Region.texts, show e.region.tokens = [] from hempty]
    rfl
  have hzero' : '0' ∉ (e.region.texts.take 0 ++ [t] ++ e.region.texts.drop 0).flatten := by
    rw [hsplit]
    simpa using hzero
  unfold completeFilling
  rw [wp_bind, wp_get, hempty]
  refine wp_seq (respliced_spliceUpdated h (.none _ _) (.cons hu .nil) (Nat.le_refl 0) (Nat.zero_le _)
    hzero') fun _ e' h' => ?_
  simpa using (lands_between hsplit h').reopening e.menu.active

theorem lands_expandToError (h : e.region.Bare none) (hsplit : e.region.texts = left ++ right)
    {delta : Nat} (hdelta : index + delta = left.length) (side : Text) :
    wp (expandToError index side delta) (fun move e' =>
      e'.Lands (left ++ side :: right).flatten (left.flatten.length + side.length) move)
      (fun _ _ => False) e := by
  have hin : left.length ≤ e.tokens.length := length_of_texts hsplit ▸ Nat.le_add_right _ _
  unfold expandToError
  rw [hdelta]
  exact wp_seq (respliced_splice h (.none _ _) (.cons (.error side) .nil) (Nat.le_refl _) hin)
    fun _ e' h' => lands_between hsplit h'

/-- The text of a view is kept as an error token, unless the token has it already. -/
theorem reads_markUnresolved (h : e.region.Bare drift)
    (hdrift : DriftIn drift before.length (before.length + 1))
    (hsplit : e.region.texts = before ++ t :: after) {s : Text} (hne : t ≠ s) {k : Nat}
    (hk : k ≤ s.length) : wp (markUnresolved before.length s k)
      (fun _ e' => e'.Reads (before ++ s :: after).flatten (before.flatten.length + k))
      (fun _ _ => False) e := by
  have hin := lt_of_texts hsplit
  have hat : e.region.tokens[before.length]? = some (e.region.tokens.get ⟨_, hin⟩) :=
    List.getElem?_eq_getElem hin
  have hreplace : wp (do
      discard (onRegion (Region.replace before.length (.error s)))
      modify (selectToken before.length (.offset k)) : EditM Expr Unit)
      (fun _ e' => e'.Reads (before ++ s :: after).flatten (before.flatten.length + k))
      (fun _ _ => False) e := by
    rw [wp_bind, wp_discard, wp_onRegion, Region.wp_replace, hat]
    refine wp_mono (wp_onRegion.1 (respliced_splice h hdrift (.cons (.error s) .nil) (Nat.le_succ _) hin))
      (fun _ r h' => ?_) fun _ _ h => h
    have htexts := h'.texts_over hsplit
    rw [List.append_assoc, List.singleton_append] at htexts
    have hreads := reads_selectToken (lt_of_texts htexts) h'.bare.showing (.offset k)
    rwa [htexts, spot_append, Position.within, Nat.min_eq_left hk] at hreads
  unfold markUnresolved
  rw [wp_bind, wp_get]
  split
  · rename_i current hcurrent
    have hcurrent' : current ≠ s := by
      rintro rfl
      exact hne (h.text_of_texts hcurrent (by simp [hsplit]) {}).symm
    simp only [hcurrent', if_false]
    exact hreplace
  · exact hreplace

theorem reads_typeBeside (h : e.region.Bare drift) (hdrift : DriftIn drift index (index + 1))
    (hmenu : e.menu.active = false) (hown : e.region.texts[index]? = some t)
    (hsplit : e.region.texts = left ++ right) {delta : Nat} (hdelta : index + delta = left.length)
    (hword : side ≠ valueWord) (hzero : '0' ∉ (left ++ side :: right).flatten) :
    wp (typeBeside index delta (some t) side) (fun _ e' =>
      e'.Reads (left ++ side :: right).flatten (left.flatten.length + side.length))
      (fun _ _ => False) e := by
  unfold typeBeside
  simp only [wp_bind, wp_get, wp_modify, hmenu, Bool.false_eq_true, if_false]
  have hbare : (e.modifyView index fun v =>
      v.setText t (if delta = 0 then 0 else t.length)).region.Bare none := by
    refine h.modifyView (.setText t _) (h.steady.restoreText hdrift (.setText t _) ?_)
    intro v token _ htoken _
    exact (h.text_of_texts htoken hown _).symm
  have hsplit' : (e.modifyView index fun v =>
      v.setText t (if delta = 0 then 0 else t.length)).region.texts = left ++ right := hsplit
  generalize (e.modifyView index fun v => v.setText t (if delta = 0 then 0 else t.length)) = e₁
    at hbare hsplit'
  have hitems := items_typing hbare.steady.inStep.language (.side index delta)
  split_ifs with hsingle
  · obtain ⟨u, hu, hcomplete⟩ := exists_stands_of_completeMatch (e := e₁) hitems hword hsingle
    refine hcomplete ?_
    have htarget : ((Supplier.side index delta).offer .typing e₁).target = left.length := hdelta
    rw [htarget]
    exact wp_mono (lands_completeBeside hbare hsplit' hu hzero .typing)
      (fun _ _ h => h.closeMenu.reads) fun _ _ h => h
  · exact reads_thenRun (lands_expandToError hbare hsplit' hdelta side)

/-! ### Typing into a token -/

/-- The text with the character typed. -/
abbrev typedText (before after : List Text) (v : View) (c : Char) : Text :=
  (before ++ v.text.insertAt v.caret [c] :: after).flatten

theorem typedText_eq (h : v.caret ≤ v.text.length) : typedText before after v c =
    Text.insertAt (before ++ v.text :: after).flatten (before.flatten.length + v.caret) [c] := by
  have hinsert := Text.insertAt_append before.flatten after.flatten [c] h
  simpa using hinsert.symm

/-- A character has been typed into a view that showed its token. -/
structure Entered (before after : List Text) (v : View) (c : Char) (e : Editor Expr) : Prop where
  bare : e.region.Bare (some before.length)
  texts : e.region.texts = before ++ v.text :: after
  view : e.views[before.length]? = some (v.insert [c])
  caret : v.caret ≤ v.text.length
  menu : e.menu.active = false
  zero : '0' ∉ typedText before after v c
  word : ¬ valueWord <:+: typedText before after v c

/-- It is typed: what was to happen has happened. -/
abbrev Inserted (before after : List Text) (v : View) (c : Char) (e : Editor Expr) : Prop :=
  e.Reads (typedText before after v c) (before.flatten.length + v.caret + 1)

namespace Entered
variable (h : e.Entered before after v c)
include h

theorem ne_valueWord {s : Text} (hs : s <:+: v.text.insertAt v.caret [c]) : s ≠ valueWord := by
  rintro rfl
  refine h.word (hs.trans ?_)
  exact ⟨before.flatten, after.flatten, by simp⟩

theorem spliceAndSelect {a b d : Token Expr} (ha : a.Stands (v.text.take v.caret)) (hb : b.Stands [c])
    (hd : d.Stands (v.text.drop v.caret)) :
    wp (spliceAndSelect before.length (before.length + 1) [a, b, d] (before.length + 1) .last)
      (fun _ e' => Inserted before after v c e') (fun _ _ => False) e := by
  have hflat : (before ++ [v.text.take v.caret, [c], v.text.drop v.caret] ++ after).flatten =
      typedText before after v c := by
    simp [Text.insertAt]
  have hzero : '0' ∉ (e.region.texts.take before.length ++
      [v.text.take v.caret, [c], v.text.drop v.caret] ++
      e.region.texts.drop (before.length + 1)).flatten := by
    have htake : e.region.texts.take before.length = before := by simp [h.texts]
    have hdrop : e.region.texts.drop (before.length + 1) = after := by simp [h.texts]
    rw [htake, hdrop, hflat]
    exact h.zero
  unfold Editor.spliceAndSelect
  refine wp_seq (respliced_spliceUpdated h.bare (.self _) (.cons ha (.cons hb (.cons hd .nil)))
    (Nat.le_succ _) (lt_of_texts h.texts) hzero) fun _ e' h' => ?_
  have htexts : e'.region.texts =
      (before ++ [v.text.take v.caret]) ++ [c] :: (v.text.drop v.caret :: after) := by
    rw [h'.texts_over h.texts]
    simp
  have hreads := (lands_select_append h'.bare htexts .last).reads
  have hoffset : (before ++ [v.text.take v.caret]).flatten.length + Position.within [c] .last =
      before.flatten.length + v.caret + 1 := by
    have hlen : (v.text.take v.caret).length = v.caret := List.length_take_of_le h.caret
    rw [List.flatten_append, List.length_append, List.flatten_singleton, hlen]
    rfl
  rw [hoffset, ← htexts, h'.texts_over h.texts, hflat, List.length_append,
    List.length_singleton] at hreads
  exact hreads

theorem afterType (hc : c ≠ ' ') : wp (afterType before.length) (fun split e' =>
    if split then Inserted before after v c e' else e' = e) (fun _ _ => False) e := by
  have htake : (v.insert [c]).text.take ((v.insert [c]).caret - 1) = v.text.take v.caret := by
    simp [View.insert, Text.insertAt, h.caret]
  have hdrop : (v.insert [c]).text.drop ((v.insert [c]).caret - 1) = c :: v.text.drop v.caret := by
    simp [View.insert, Text.insertAt, h.caret]
  have hinsert : v.text.insertAt v.caret [c] = v.text.take v.caret ++ [c] ++ v.text.drop v.caret := rfl
  obtain ⟨a, harun, ha⟩ := Expr.exists_stands_of_tokenOrError
    (h.ne_valueWord (s := v.text.take v.caret) ⟨[], [c] ++ v.text.drop v.caret, by simp [hinsert]⟩)
    e.region.cells
  obtain ⟨b, hbrun, hb⟩ := Expr.exists_stands_of_tokenOrError
    (h.ne_valueWord (s := [c]) ⟨v.text.take v.caret, v.text.drop v.caret, by simp [hinsert]⟩)
    e.region.cells
  obtain ⟨d, hdrun, hd⟩ := Expr.exists_stands_of_tokenOrError
    (h.ne_valueWord (s := v.text.drop v.caret) ⟨v.text.take v.caret ++ [c], [], by simp [hinsert]⟩)
    e.region.cells
  have hitems := looseItems_eq h.bare.steady.inStep.language
  unfold Editor.afterType
  rw [wp_bind, wp_get, h.view]
  simp only [htake, hdrop, hitems, List.take_succ_cons, List.take_zero, List.drop_succ_cons,
    List.drop_zero]
  rw [if_neg (show ¬ (v.insert [c]).caret = 0 from Nat.succ_ne_zero _),
    if_neg (fun hspace => hc (by simpa using hspace.1))]
  split_ifs
  · rw [wp_bind, wp_onCells_pure harun, wp_bind, wp_onCells_pure hbrun, wp_bind, wp_onCells_pure hdrun,
      wp_bind]
    exact h.spliceAndSelect ha hb hd
  · rfl

omit h in
/-- The caret stands at the end only if it stood there before the character. -/
theorem caret_of_caretAtEnd (hend : (v.insert [c]).caretAtEnd) : v.caret = v.text.length := by
  have hlen : v.caret + 1 = (v.text.insertAt v.caret [c]).length := by
    simpa [View.caretAtEnd, View.insert] using hend
  rw [Text.length_insertAt, List.length_singleton] at hlen
  omega

theorem resolveTyped (retype : Char → EditM Expr Unit) :
    wp (resolveTyped retype before.length) (fun _ e' => Inserted before after v c e')
      (fun _ _ => False) e := by
  have hin := lt_of_texts h.texts
  have htoken : e.tokens[before.length]? = some (e.tokens.get ⟨_, hin⟩) := List.getElem?_eq_getElem hin
  generalize e.tokens.get ⟨_, hin⟩ = token at htoken
  have hown : e.region.texts[before.length]? = some v.text := by simp [h.texts]
  have hcurrent := h.bare.text_of_texts htoken hown e.region.cells
  have hoffer := typingOffer_of_closed h.menu (.token before.length)
  have hitems := items_typing h.bare.steady.inStep.language (.token before.length)
  have hcaret : (v.insert [c]).caret = v.caret + 1 := rfl
  have htext : (v.insert [c]).text = v.text.insertAt v.caret [c] := rfl
  have hlen : (v.text.insertAt v.caret [c]).length = v.text.length + 1 := Text.length_insertAt _ _ _
  unfold Editor.resolveTyped
  rw [wp_bind, wp_get, h.view, htoken]
  simp only [hoffer, hcurrent]
  split
  · -- the text is a token
    rename_i hshould
    have hsingle := (Bool.and_eq_true_iff.1 hshould).1
    obtain ⟨u, hu, hcomplete⟩ := exists_stands_of_completeMatch (e := e) hitems
      (h.ne_valueWord (List.infix_refl _)) hsingle
    refine hcomplete ?_
    refine wp_mono (lands_completeReplacing h.bare (.self _) h.texts h.view hu h.zero
      (by rw [hcaret, htext, hlen]; have := h.caret; omega)) (fun _ _ h => h.closeMenu.reads)
      fun _ _ h => h
  split
  · -- the character goes behind the token
    rename_i hfront
    simp only [Bool.and_eq_true, beq_iff_eq] at hfront
    have hend := caret_of_caretAtEnd hfront.1.1
    have hinsert : v.text.insertAt v.caret [c] = v.text ++ [c] := by
      rw [Text.insertAt, hend]
      simp
    have hflat : ((before ++ [v.text]) ++ [c] :: after).flatten = typedText before after v c := by
      simp [hinsert]
    have hside : (v.insert [c]).text.drop ((v.insert [c]).text.length - 1) = [c] := by
      rw [htext, hinsert]
      simp
    rw [hfront.2, hside]
    have hsplit : e.region.texts = (before ++ [v.text]) ++ after := by
      rw [h.texts]
      simp
    refine wp_mono (reads_typeBeside h.bare (.self _) h.menu hown hsplit (by simp)
      (h.ne_valueWord ⟨v.text, [], by simp [hinsert]⟩) (by rw [hflat]; exact h.zero))
      (fun _ e' h' => ⟨h'.text.trans hflat, h'.caret.trans ?_⟩) fun _ _ h => h
    simp [hend]
  split
  · -- the caret is at the end, so what stands before the character is the text of the token
    rename_i hfront hcut
    simp only [Bool.and_eq_true] at hfront hcut
    exact absurd ⟨hcut.1, by simp [View.dropLast_insert c hcut.1.1]⟩ hfront
  split
  · -- the character goes before the token
    rename_i hback
    simp only [Bool.and_eq_true, beq_iff_eq] at hback
    have hstart : v.caret = 0 := by
      have := hback.1.1
      rw [hcaret] at this
      omega
    have hinsert : v.text.insertAt v.caret [c] = c :: v.text := by
      rw [Text.insertAt, hstart]
      simp
    have hflat : (before ++ [c] :: (v.text :: after)).flatten = typedText before after v c := by
      simp [hinsert]
    have hside : (v.insert [c]).text.take 1 = [c] := by
      rw [htext, hinsert]
      rfl
    rw [hback.2, hside]
    refine wp_mono (reads_typeBeside h.bare (.self _) h.menu hown h.texts rfl
      (h.ne_valueWord ⟨[], v.text, by simp [hinsert]⟩) (by rw [hflat]; exact h.zero))
      (fun _ e' h' => ⟨h'.text.trans hflat, h'.caret.trans ?_⟩) fun _ _ h => h
    simp [hstart]
  · have hne : v.text ≠ (v.insert [c]).text := by
      intro heq
      have := congrArg List.length heq
      rw [htext, hlen] at this
      omega
    exact reads_markUnresolved h.bare (.self _) h.texts hne
      (by rw [hcaret, htext, hlen]; have := h.caret; omega)

end Entered

theorem Bare.selectToken (h : e.region.Bare drift) (position : Position) :
    (e.selectToken index position).region.Bare drift := by
  have hcaret : ∀ caret, (e.region.modifyView index fun v => v.setCaret caret).Bare drift :=
    fun caret => h.modifyView (.setCaret caret) (h.steady.setCaret caret)
  unfold Editor.selectToken
  split
  · exact h
  · simp only
    split_ifs
    · exact hcaret _
    · exact hcaret _

/-- The caret is in the token at `index`, whose text stands between `before` and `after`. -/
structure CaretIn (before after : List Text) (v : View) (e : Editor Expr) : Prop where
  bare : e.region.Bare none
  texts : e.region.texts = before ++ v.text :: after
  view : e.views[before.length]? = some v
  menu : e.menu.active = false

theorem CaretIn.of_view (h : e.region.Bare none) (hmenu : e.menu.active = false)
    (hv : e.views[index]? = some v) :
    ∃ before after, before.length = index ∧ e.CaretIn before after v := by
  have htext := h.showing.text_eq hv
  obtain ⟨hin, hat⟩ := List.getElem?_eq_some_iff.1 htext
  have hlen : (e.region.texts.take index).length = index := List.length_take_of_le (Nat.le_of_lt hin)
  refine ⟨e.region.texts.take index, e.region.texts.drop (index + 1), hlen, h, ?_, by rwa [hlen], hmenu⟩
  rw [← hat, ← List.drop_eq_getElem_cons hin, List.take_append_drop]

theorem CaretIn.caret_le (h : e.CaretIn before after v) : v.caret ≤ v.text.length := by
  have hin := lt_of_texts h.texts
  exact (h.bare.steady.projected.projects h.view (List.getElem?_eq_getElem hin)).caret

/-- Typing goes to the same place in the text, be it the end of the neighbour. -/
theorem CaretIn.typingTarget (h : e.CaretIn before after v) :
    ∃ before' after' v', (e.typingTarget before.length).1 = before'.length ∧
      (e.typingTarget before.length).2.CaretIn before' after' v' ∧
      (e.typingTarget before.length).2.tokens = e.tokens ∧
      (before' ++ v'.text :: after') = before ++ v.text :: after ∧
      before'.flatten.length + v'.caret = before.flatten.length + v.caret := by
  have hstay : ∃ before' after' v', (before.length, e).1 = before'.length ∧
      (before.length, e).2.CaretIn before' after' v' ∧ (before.length, e).2.tokens = e.tokens ∧
      (before' ++ v'.text :: after') = before ++ v.text :: after ∧
      before'.flatten.length + v'.caret = before.flatten.length + v.caret :=
    ⟨before, after, v, rfl, h, rfl, rfl, rfl⟩
  unfold Editor.typingTarget
  split
  · rename_i hzero
    rwa [hzero] at hstay
  · rename_i i hi
    replace hi : before.length = i + 1 := hi
    have hv : e.views[i + 1]? = some v := hi ▸ h.view
    simp only
    split_ifs with hglued
    · obtain ⟨hglued, hleft⟩ := Bool.and_eq_true_iff.1 hglued
      obtain ⟨w, hw, -⟩ := (Option.any_eq_true _ _).1 hleft
      have hcaret : v.caret = 0 := by
        simp only [hv, Option.any_some, Bool.and_eq_true, beq_iff_eq] at hglued
        exact hglued.1
      -- the caret moves to the end of the neighbour
      have hfocused := focusedView?_selectToken h.bare.numbered hw .last
      obtain ⟨-, hview⟩ := Steady.of_focusedView? hfocused
      obtain ⟨before', after', hlen, h'⟩ := CaretIn.of_view (Bare.selectToken h.bare .last)
        (active_selectToken h.menu .last) hview
      have htexts : before' ++ w.text :: after' = before ++ v.text :: after := by
        rw [← h'.texts, texts_selectToken, h.texts]
      refine ⟨before', after', _, hlen.symm, h', tokens_selectToken, htexts, ?_⟩
      have hinit : before' ++ [w.text] = before := by
        have happend : (before' ++ [w.text]) ++ after' = before ++ v.text :: after := by
          rw [List.append_assoc, List.singleton_append, htexts]
        exact (List.append_inj happend (by rw [List.length_append, List.length_singleton, hlen, hi])).1
      rw [← hinit, hcaret]
      simp [Position.within]
    · rwa [hi] at hstay

theorem CaretIn.typeAt (h : e.CaretIn before after v) (hcomment : ∀ t ∈ e.tokens, t.isComment = false)
    (hc : c ≠ ' ') (hzero : '0' ∉ typedText before after v c)
    (hword : ¬ valueWord <:+: typedText before after v c) (retype : Char → EditM Expr Unit) :
    wp (typeAt retype before.length c) (fun _ e' => Inserted before after v c e')
      (fun _ _ => False) e := by
  obtain ⟨before', after', v', hindex, h', htokens, htexts, hoffset⟩ := h.typingTarget
  have htyped : typedText before' after' v' c = typedText before after v c := by
    rw [typedText_eq h'.caret_le, typedText_eq h.caret_le, htexts, hoffset]
  have hinserted : ∀ e', Inserted before' after' v' c e' → Inserted before after v c e' :=
    fun e' h'' => ⟨h''.text.trans htyped, h''.caret.trans (by rw [hoffset])⟩
  rw [← htyped] at hzero hword
  unfold Editor.typeAt
  rw [wp_bind, wp_get]
  generalize e.typingTarget before.length = target at hindex h' htokens
  obtain ⟨index, e₁⟩ := target
  simp only at hindex h' htokens ⊢
  subst hindex
  have hentered : (e₁.modifyView before'.length fun v => v.insert [c]).Entered before' after' v' c := by
    refine ⟨h'.bare.modifyView (.insert [c]) (h'.bare.steady.edit (.insert [c])), h'.texts, ?_,
      h'.caret_le, h'.menu, hzero, hword⟩
    have hv : e₁.region.views[before'.length]? = some v' := h'.view
    show (e₁.region.views.modify before'.length _)[before'.length]? = _
    simp [hv]
  have hplain : ((e₁.tokens[before'.length]?).any Token.isComment) = false := by
    rw [Option.any_eq_false]
    intro t ht
    simpa using hcomment t (htokens ▸ List.mem_of_getElem? ht)
  rw [wp_bind, wp_set]
  simp only [h'.view, Option.any_some, h'.bare.editable h'.view, Bool.not_true, Bool.false_eq_true,
    if_false, wp_bind, wp_modify, hplain, hc]
  refine wp_mono (hentered.afterType hc) (fun split e₂ hsplit => ?_) fun _ _ h => h
  cases split with
  | true => exact hinserted e₂ hsplit
  | false =>
    cases hsplit
    exact wp_mono (hentered.resolveTyped retype) (fun _ => hinserted) fun _ _ h => h

theorem reads_typeInPlaceholder (h : e.region.Bare none) (hmenu : e.menu.active = false)
    (hempty : e.tokens = []) (hfocus : e.focus = .placeholder) (hc : Text.isBlank c = false)
    (hzero : '0' ∉ e.placeholder ++ [c]) (hword : e.placeholder ++ [c] ≠ valueWord) :
    wp (typeInPlaceholder c) (fun _ e' => e'.Reads (e.placeholder ++ [c]) (e.placeholder.length + 1))
      (fun _ _ => False) e := by
  have hlen : e.placeholder.length + 1 = (e.placeholder ++ [c]).length := by simp
  unfold typeInPlaceholder
  rw [wp_bind, wp_get]
  simp only [hc, Bool.false_and, Bool.false_eq_true, if_false, wp_bind, wp_set]
  rw [hlen]
  generalize e.placeholder ++ [c] = t at hzero hword
  have hclosed : ({ e with placeholder := t } : Editor Expr).menu.active = false := hmenu
  rw [typingOffer_of_closed hclosed]
  have hitems : (Supplier.placeholder.offer .typing { e with placeholder := t }).items =
      Expr.tokenItems := items_typing h.steady.inStep.language .placeholder
  split
  · rename_i hshould
    have hsingle := (Bool.and_eq_true_iff.1 hshould).1
    rw [wp_bind, wp_set]
    obtain ⟨u, hu, hcomplete⟩ := exists_stands_of_completeMatch
      (e := { e with placeholder := [] }) hitems hword hsingle
    refine hcomplete ?_
    exact wp_mono (lands_completeFilling h hempty hu hzero) (fun _ _ h => h.closeMenu.reads)
      fun _ _ h => h
  · split
    · rw [wp_bind, wp_set]
      have hcount : ({ e with placeholder := t } : Editor Expr).tokens.length = 0 :=
        congrArg List.length hempty
      rw [hcount]
      refine wp_seq (respliced_splice (e := { e with placeholder := [] }) h (.none _ _)
        (.cons (.error t) .nil) (Nat.le_refl 0) (Nat.zero_le _)) fun _ e' h' => ?_
      have htexts : e'.region.texts = [] ++ t :: [] := by
        have hnone : e.region.texts = [] := by
          rw [Region.texts, show e.region.tokens = [] from hempty]
          rfl
        rw [h'.texts, show ({ e with placeholder := [] } : Editor Expr).region.texts = [] from hnone]
        rfl
      have hreads := reads_selectToken (lt_of_texts htexts) h'.bare.showing .last
      rw [htexts, spot_append] at hreads
      simpa [Position.within] using hreads
    · exact reads_of_placeholder (e := { e with placeholder := t }) hempty hfocus

/-! ### All characters -/

/-- Typing puts the character into the text where the caret is, and the caret behind it. -/
theorem typing_inserts {p : Expr.Precedence} {cells : Cells} {settings : Settings}
    (hauto : settings.autoReparse = true)
    (h : Reached Expr.Speaks (Editor.new (Expr.language p) cells settings) e)
    (hmenu : e.menu.active = false) (hsel : e.selection = none)
    (hplain : ∀ t ∈ e.tokens, t.isValue = false ∧ t.isComment = false)
    {n : Nat} (hn : e.offset? = some n) (hc : Text.isBlank c = false)
    (hzero : '0' ∉ e.shownText.insertAt n [c])
    (hword : ¬ valueWord <:+: e.shownText.insertAt n [c]) :
    ∃ e', typeChar c e = .ok () e' ∧ e'.shownText = e.shownText.insertAt n [c] ∧
      e'.offset? = some (n + 1) := by
  obtain ⟨hsteady, hnumbered⟩ := Expr.orderly hauto h
  have hbare : e.region.Bare none := ⟨hsteady.region, hnumbered, fun t ht => (hplain t ht).1⟩
  have hspace : c ≠ ' ' := by
    rintro rfl
    cases hc
  have htyped : wp (typeChar c)
      (fun _ e' => e'.Reads (e.shownText.insertAt n [c]) (n + 1)) (fun _ _ => False) e := by
    refine wp_typeChar_of_typeWith fun retype => ?_
    unfold typeWith clearSelection
    simp only [wp_bind, wp_get, hsel, wp_pure]
    obtain ⟨index, v, hfocus, rfl⟩ | ⟨hnone, hfocus, hempty, rfl⟩ := offset?_eq_some hn
    · obtain ⟨hindex, hv⟩ := Steady.of_focusedView? hfocus
      obtain ⟨before, after, hlen, hcaret⟩ := CaretIn.of_view hbare hmenu hv
      have hne : e.tokens ≠ [] := List.ne_nil_of_length_pos (Nat.zero_lt_of_lt (lt_of_texts hcaret.texts))
      have htake : e.region.texts.take index = before := by
        rw [hcaret.texts, ← hlen]
        simp
      have hshown : e.shownText.insertAt ((e.region.texts.take index).flatten.length + v.caret) [c] =
          typedText before after v c := by
        rw [htake, shownText_of_ne_nil hne, hcaret.texts, typedText_eq hcaret.caret_le]
      rw [hshown] at hzero hword ⊢
      rw [hindex, htake, ← hlen]
      exact hcaret.typeAt (fun t ht => (hplain t ht).2) hspace hzero hword retype
    · have hshown : e.shownText.insertAt e.placeholder.length [c] = e.placeholder ++ [c] := by
        rw [shownText_of_nil hempty, Text.insertAt]
        simp
      rw [hshown] at hzero hword ⊢
      rw [hnone]
      exact reads_typeInPlaceholder hbare hmenu hempty hfocus hc hzero
        fun heq => hword (heq ▸ List.infix_refl _)
  obtain ⟨_, e', hrun, hreads⟩ := exists_of_wp htyped
  exact ⟨e', hrun, hreads.text, hreads.caret⟩

/-- In `a+12`, a character in the middle of the number splits it. -/
theorem typing_inserts_split : ∃ e e' : Editor Expr,
    [Op.paste "a+12".toList, .selectToken 2 (.offset 1)].forM Op.run
      (Editor.new (Expr.language {}) {} {}) = .ok () e ∧
    e.shownText = "a+12".toList ∧ e.offset? = some 3 ∧ typeChar '!' e = .ok () e' ∧
      e'.shownText = "a+1!2".toList ∧ e'.offset? = some 4 := by
  have hends : endsWith ([Op.paste "a+12".toList, .selectToken 2 (.offset 1)].forM Op.run)
      (fun _ e => e.shownText == "a+12".toList && e.offset? == some 3 && !e.menu.active &&
        e.selection.isNone && e.tokens.all fun t => !t.isValue && !t.isComment)
      (Editor.new (Expr.language {}) {} {}) := by
    decide +kernel
  obtain ⟨_, e, hrun, htest⟩ := exists_of_endsWith hends
  simp only [Bool.and_eq_true, beq_iff_eq, Bool.not_eq_true', Option.isNone_iff_eq_none,
    List.all_eq_true] at htest
  obtain ⟨⟨⟨⟨htext, hoffset⟩, hmenu⟩, hsel⟩, hplain⟩ := htest
  have hreached : Reached Expr.Speaks (Editor.new (Expr.language {}) {} {}) e :=
    Reached.refl.forM (by simp) hrun
  obtain ⟨e', htyped, htext', hoffset'⟩ := typing_inserts rfl hreached hmenu hsel hplain hoffset
    (c := '!') (by decide) (by rw [htext]; decide) (by rw [htext]; decide)
  rw [htext] at htext'
  exact ⟨e, e', hrun, htext, hoffset, htyped, htext', hoffset'⟩

end TokenEditor.Editor
