import TokenEditor.Proofs.Steady
import TokenEditor.Proofs.Typing

/-! # Keys leave no view adrift

The operations of an editor with mild languages, one lemma for each function. What a function may
assume is that at most the view at its index drifts; what it leaves is an editor without drift. Every
function that reads the text of a view either replaces the token by what the text resolves to, or
gives the view its old text back. -/

namespace TokenEditor

theorem Item.hasMatch_of_hasSingleMatch {V : Type} {items : List (Item V)} {t : Text}
    (h : hasSingleMatch items t) : hasMatch items t := by
  unfold hasSingleMatch at h
  unfold hasMatch
  cases hm : matching items t with
  | nil => simp [hm] at h
  | cons => rfl

namespace View
variable {v : View} (c : Char)

theorem text_eraseBefore_insert (h : v.caret ≤ v.text.length) :
    (v.insert [c]).eraseBefore.text = v.text := by
  have hcaret : (v.insert [c]).caret = v.caret + 1 := rfl
  unfold eraseBefore
  rw [if_neg (by omega)]
  show ((v.text.take v.caret ++ [c]) ++ v.text.drop v.caret).eraseIdx v.caret = v.text
  have htake : (v.text.take v.caret).length ≤ v.caret := List.length_take_le _ _
  rw [List.append_assoc, List.eraseIdx_append_of_length_le htake]
  simp [Nat.min_eq_left h]

theorem dropLast_insert (hend : (v.insert [c]).caretAtEnd) :
    (v.insert [c]).text.dropLast = v.text := by
  have hlen : v.caret + 1 = (v.text.insertAt v.caret [c]).length := by
    simpa [caretAtEnd, View.insert] using hend
  rw [Text.length_insertAt, List.length_singleton] at hlen
  show (v.text.insertAt v.caret [c]).dropLast = v.text
  rw [Text.insertAt, List.take_of_length_le (by omega), List.drop_of_length_le (by omega)]
  simp

end View

namespace Editor

theorem shifted?_zero (index : Nat) : shifted? index 0 = some index := by
  simp [shifted?]

/-- What is selected is there. -/
def SelectionFits {V : Type} (e : Editor V) : Prop :=
  ∀ s, e.selection = some s → s.start ≤ s.stop ∧ s.stop ≤ e.tokens.length

variable {V : Type} [Payload V] {L : Language V → Prop} {C : Token V → Prop}
  {drift : Option Nat} {e e' : Editor V} {index start stop : Nat}
  (ht : Language.Mild L C)
include ht

namespace Steady

omit ht [Payload V] in
theorem tokenAt (hin : index < e.tokens.length) {fail : EditError → Editor V → Prop} :
    wp (onRegion (Region.tokenAt index)) (fun t e' => e.tokens[index]? = some t ∧ e' = e) fail e := by
  have hat : e.region.tokens[index]? = some (e.region.tokens.get ⟨index, hin⟩) :=
    List.getElem?_eq_getElem hin
  rw [wp_onRegion, Region.wp_tokenAt, hat]
  exact ⟨hat, rfl⟩

theorem resolve (h : e.Steady L C drift) {items : List (Item V)} (hitems : ∀ i ∈ items, i.Puts C)
    (t : Text) {fail : EditError → Editor V → Prop} :
    wp (onRegion (Region.onCells (Item.resolve items t)))
      (fun resolved e' => (∀ u ∈ resolved.getD [.error t], C u) ∧ e'.Steady L C drift ∧
        e'.tokens = e.tokens) fail e := by
  rw [wp_onRegion, Region.wp_onCells]
  refine ⟨?_, h.setCells _, rfl⟩
  cases hres : ((Item.resolve items t).run e.region.cells).1 with
  | none => simpa using ht.plain (.error t) rfl
  | some ts => exact Item.mem_resolve hitems hres

theorem mergeFrom (h : e.Steady L C none) {left : Nat} (hin : left + 1 < e.tokens.length)
    (backward : Bool) : Recovers L C (mergeFrom left backward : EditM V Move) e := by
  refine wp_seq (tokenAt (Nat.lt_of_succ_lt hin)) ?_
  rintro a e₁ ⟨-, rfl⟩
  refine wp_seq (tokenAt hin) ?_
  rintro b e₂ ⟨-, rfl⟩
  rw [wp_bind, wp_get]
  refine wp_seq (h.resolve ht (h.puts_looseItems ht) _) ?_
  rintro resolved e' ⟨hnew, h', hlen⟩
  exact Recovers.bind (h'.splice ht (.none _ _) hnew (by omega) (by rw [hlen]; exact hin))
    fun _ _ h => h

theorem mergeTokens (h : e.Steady L C none) (index : Nat) (backward : Bool)
    (hmerge : e.canMerge index (if backward then -1 else 1)) :
    Recovers L C (mergeTokens index backward : EditM V Move) e := by
  -- going backward the left one of the two is the neighbour, going forward the token itself
  unfold canMerge at hmerge
  unfold Editor.mergeTokens
  split at hmerge
  · cases hmerge
  rename_i other hother
  split at hmerge
  · rename_i a b ha hb
    have hindex := (List.getElem?_eq_some_iff.1 ha).1
    have hin := (List.getElem?_eq_some_iff.1 hb).1
    cases backward with
    | true =>
      have hleft : shifted? index (-1) = some other := hother
      simp only [if_true, shifted, hleft, pure_bind]
      unfold shifted? at hleft
      split_ifs at hleft with hpos
      cases hleft
      exact h.mergeFrom ht (by omega) true
    | false =>
      have hright : shifted? index 1 = some other := hother
      unfold shifted? at hright
      split_ifs at hright
      cases hright
      simp only [Bool.false_eq_true, if_false, pure_bind]
      exact h.mergeFrom ht (by omega) false
  · cases hmerge

theorem replaceComment (h : e.Steady L C drift) (hdrift : DriftIn drift index (index + 1))
    {mark body : Text} (hat : e.tokens[index]? = some (.comment mark body)) :
    Recovers L C (replaceComment index : EditM V Move) e := by
  have hin : index < e.tokens.length := (List.getElem?_eq_some_iff.1 hat).1
  obtain ⟨v, hv⟩ : ∃ v, e.views[index]? = some v :=
    ⟨_, List.getElem?_eq_getElem (h.length_eq ▸ hin)⟩
  have hat' : e.region.tokens[index]? = some (.comment mark body) := hat
  unfold Editor.replaceComment
  rw [Recovers, wp_bind, wp_onRegion, Region.wp_tokenAt, hat']
  simp only [wp_bind, wp_get]
  rw [hv]
  simp only
  split
  · exact (h.replace ht hdrift hin (ht.plain _ rfl)).discard.bind fun _ _ h => h
  · rw [wp_bind, wp_get, wp_bind, wp_onRegion, Region.wp_onCells]
    have hnew := ht.tokenize _ h.region.inStep.language v.text e.region.cells
    exact Recovers.bind ((h.setCells _).spliceUpdated ht hdrift hnew (Nat.le_succ _) hin)
      fun _ _ h => h.afterInsertion _ _

theorem spliceAndSelect (h : e.Steady L C drift)
    (hdrift : DriftIn drift start stop) {new : List (Token V)}
    (hnew : ∀ t ∈ new, C t) (hle : start ≤ stop) (hin : stop ≤ e.tokens.length) (target : Nat)
    (position : Position) : Recovers L C (spliceAndSelect start stop new target position) e :=
  (h.spliceUpdated ht hdrift hnew hle hin).bind fun _ _ h => h.run ht _

theorem tokenOrError (h : e.Steady L C drift) {items : List (Item V)}
    (hitems : ∀ i ∈ items, i.Puts C) (t : Text) {fail : EditError → Editor V → Prop} :
    wp (onRegion (Region.onCells (Item.tokenOrError items t)))
      (fun u e' => C u ∧ e'.Steady L C drift ∧ e'.tokens = e.tokens) fail e :=
  ⟨Item.mem_tokenOrError hitems (ht.plain _ rfl) _, h.setCells _, rfl⟩

theorem afterType (h : e.Steady L C drift) (hdrift : DriftIn drift index (index + 1))
    (hin : index < e.tokens.length) :
    wp (afterType index) (fun split e' => if split then e'.Steady L C none else e' = e)
      (fun err _ => Language.Miscounts L C err) e := by
  have hitems := h.puts_looseItems ht
  unfold Editor.afterType
  rw [wp_bind, wp_get]
  split
  · rfl
  split
  · rfl
  simp only
  split
  · refine wp_seq (h.tokenOrError ht hitems _) ?_
    rintro a e₁ ⟨ha, h₁, hlen₁⟩
    refine wp_seq (h₁.tokenOrError ht hitems _) ?_
    rintro b e₂ ⟨hb, h₂, hlen₂⟩
    rw [wp_bind]
    exact h₂.spliceAndSelect ht hdrift (by simp [ha, hb]) (Nat.le_succ _)
      (by rw [hlen₂, hlen₁]; exact hin) _ _
  · split
    · refine wp_seq (h.tokenOrError ht hitems _) ?_
      rintro a e₁ ⟨ha, h₁, hlen₁⟩
      refine wp_seq (h₁.tokenOrError ht hitems _) ?_
      rintro b e₂ ⟨hb, h₂, hlen₂⟩
      refine wp_seq (h₂.tokenOrError ht hitems _) ?_
      rintro c e₃ ⟨hc, h₃, hlen₃⟩
      rw [wp_bind]
      exact h₃.spliceAndSelect ht hdrift (by simp [ha, hb, hc]) (Nat.le_succ _)
        (by rw [hlen₃, hlen₂, hlen₁]; exact hin) _ _
    · rfl

theorem afterPaste (h : e.Steady L C drift) (hdrift : DriftIn drift start stop)
    (hle : start ≤ stop) (hin : stop ≤ e.tokens.length) (text : Text) :
    Recovers L C (afterPaste start stop text) e := by
  have hnew := ht.tokenize _ h.region.inStep.language text e.region.cells
  unfold Editor.afterPaste
  rw [Recovers, wp_bind, wp_get, wp_bind, wp_onRegion, Region.wp_onCells]
  exact Recovers.bind ((h.setCells _).spliceUpdated ht hdrift hnew hle hin) fun _ _ h =>
    (h.afterInsertion _ _).thenRun ht

/-! ### Typing -/

theorem clearSelection (h : e.Steady L C none) (hsel : e.SelectionFits) :
    Recovers L C (clearSelection : EditM V Unit) e := by
  unfold Editor.clearSelection
  rw [Recovers, wp_bind, wp_get]
  split
  · exact h
  · rename_i s hs
    obtain ⟨hle, hin⟩ := hsel s hs
    have hclosed : Steady L C none ({ e with selection := none } : Editor V).closeMenu :=
      closeMenu (h.aside rfl rfl rfl)
    rw [wp_bind, wp_set]
    refine Recovers.bind (hclosed.splice ht (.none _ _) (by simp) hle hin) fun _ e' h' => ?_
    rw [Recovers, wp_bind, wp_get]
    simp only
    split_ifs
    · exact h'.reportEmptied.thenRun ht
    · exact h'.run ht _
    · exact h'.run ht _

theorem typeInPlaceholder (h : e.Steady L C none) (c : Char) :
    Recovers L C (typeInPlaceholder c : EditM V Unit) e := by
  unfold Editor.typeInPlaceholder
  rw [Recovers, wp_bind, wp_get]
  split
  · exact h
  have htyped : Steady L C none { e with placeholder := e.placeholder ++ [c] } := h.aside rfl rfl rfl
  have hcleared : Steady L C none { e with placeholder := [] } := h.aside rfl rfl rfl
  have hfits : ∀ e' : Editor V, Fits none e (e'.typingOffer .placeholder) := by
    intro e'
    unfold typingOffer
    split <;> rfl
  rw [wp_bind, wp_set]
  simp only
  split
  · rw [wp_bind, wp_set]
    exact hcleared.completeMatch ht (hfits _) ((htyped.proposes ht).typingOffer _) (.inl rfl)
  · split
    · rw [wp_bind, wp_set]
      refine Recovers.bind (hcleared.splice ht (.none _ _) (by simpa using ht.plain _ rfl)
        (Nat.le_refl _) (Nat.le_refl _)) fun _ _ h => h.selectToken _ _
    · exact htyped

theorem typeBeside (h : e.Steady L C drift) (hin : index < e.tokens.length) {delta : Nat}
    (hdelta : delta ≤ 1) {ownText : Option Text} (sideText : Text)
    (hown : match ownText with
      | none => drift = none
      | some t => DriftIn drift index (index + 1) ∧
        ∀ token, e.tokens[index]? = some token → t = token.text e.region.cells) :
    Recovers L C (typeBeside index delta ownText sideText : EditM V Unit) e := by
  have hrest : ∀ (params : Params) (e' : Editor V), e'.Steady L C none →
      index < e'.tokens.length → Recovers L C (do
        let e ← MonadState.get
        let offer := (Supplier.side index delta).offer params e
        if Item.hasSingleMatch offer.items sideText then Editor.completeMatch offer sideText
        else do
          let move ← Editor.expandToError index sideText delta
          modify (Editor.run move) : EditM V Unit) e' := by
    intro params e' h' hin'
    rw [Recovers, wp_bind, wp_get]
    simp only
    split
    · exact h'.completeMatch ht (fits_side params hin' hdelta) ((h'.proposes ht).offer _ _) (.inl rfl)
    · exact (h'.expandToError ht sideText (by omega)).thenRun ht
  unfold Editor.typeBeside
  rw [Recovers, wp_bind, wp_get]
  cases ownText with
  | none =>
    cases hown
    exact hrest _ e h hin
  | some t =>
    obtain ⟨hdrift, htext⟩ := hown
    have hshows : Steady L C none
        (e.modifyView index fun v => v.setText t (if delta = 0 then 0 else t.length)) :=
      h.setRegion (h.region.restoreText hdrift (.setText t _)
        fun v token _ htoken _ => htext token htoken)
    rw [wp_bind, wp_modify]
    exact hrest _ _ hshows hin

theorem typeAtValue (h : e.Steady L C none) (hin : index < e.tokens.length) (c : Char) :
    Recovers L C (typeAtValue index c : EditM V Unit) e := by
  unfold Editor.typeAtValue
  rw [Recovers, wp_bind, wp_get]
  have hdelta : (if (e.views[index]?).any (fun v => v.caret == 0) then 0 else 1) ≤ 1 := by
    split <;> omega
  generalize (if (e.views[index]?).any (fun v => v.caret == 0) then 0 else 1) = delta at hdelta
  simp only
  split
  · exact (h.expandToError ht [] (by omega)).thenRun ht
  · exact h.typeBeside ht hin hdelta [c] rfl

theorem markUnresolved (h : e.Steady L C drift) (hdrift : DriftIn drift index (index + 1))
    {v : View} (hv : e.views[index]? = some v) (caret : Nat) :
    Recovers L C (markUnresolved index v.text caret : EditM V Unit) e := by
  have hin : index < e.tokens.length := h.length_eq ▸ (List.getElem?_eq_some_iff.1 hv).1
  have hreplace : Recovers L C (do
      Functor.discard (onRegion (Region.replace index (.error v.text)))
      modify (Editor.selectToken index (.offset caret)) : EditM V Unit) e :=
    (h.replace ht hdrift hin (ht.plain _ rfl)).discard.bind fun _ _ h => h.selectToken _ _
  unfold Editor.markUnresolved
  rw [Recovers, wp_bind, wp_get]
  split
  · rename_i current hcurrent
    split
    · rename_i hsame
      have hshows : e.region.Steady L C none := by
        refine h.region.settle hdrift fun w token hw htoken _ => ?_
        cases hv.symm.trans hw
        cases hcurrent.symm.trans htoken
        exact hsame.symm
      exact selectToken (h.setRegion hshows) _ _
    · exact hreplace
  · exact hreplace

/-- A character has been typed into the view of a token, which the view showed before. -/
structure Typed (index : Nat) (c : Char) (v : View) (token : Token V) (e : Editor V) : Prop where
  view_eq : e.views[index]? = some (v.insert [c])
  token_eq : e.tokens[index]? = some token
  text : v.text = token.text e.region.cells
  caret : v.caret ≤ v.text.length

section
variable {c : Char} {v : View} {token : Token V}

/-- With the caret at its end the text without the character is that of the token, so the character
is never typed again. -/
theorem resolveTyped (h : e.Steady L C (some index)) (htyped : Typed index c v token e)
    (retype : Char → EditM V Unit) : Recovers L C (resolveTyped retype index) e := by
  obtain ⟨hv, htoken, htext, -⟩ := htyped
  have hin : index < e.tokens.length := (List.getElem?_eq_some_iff.1 htoken).1
  have hown : ∀ t, t = token.text e.region.cells → ∀ token', e.tokens[index]? = some token' →
      t = token'.text e.region.cells := by
    rintro t rfl token' htoken'
    cases htoken.symm.trans htoken'
    rfl
  unfold Editor.resolveTyped
  rw [Recovers, wp_bind, wp_get, hv, htoken]
  simp only
  split
  · rename_i hshould
    have hsingle := (Bool.and_eq_true_iff.1 hshould).1
    exact h.completeMatch ht (fits_typingOffer hin (.self index)) ((h.proposes ht).typingOffer _)
      (.inr (Item.hasMatch_of_hasSingleMatch hsingle))
  split
  · rename_i hfront
    simp only [Bool.and_eq_true, beq_iff_eq] at hfront
    exact h.typeBeside ht hin (Nat.le_refl 1) _ ⟨.self index, hown _ hfront.2⟩
  split
  · -- the caret is at the end, so what stands before the character is the text of the token
    rename_i hfront hcut
    simp only [Bool.and_eq_true] at hfront hcut
    have hsame := View.dropLast_insert c hcut.1.1
    exact absurd ⟨hcut.1, by simp [hsame, htext]⟩ hfront
  split
  · rename_i hback
    simp only [Bool.and_eq_true, beq_iff_eq] at hback
    exact h.typeBeside ht hin (Nat.zero_le 1) _ ⟨.self index, hown _ hback.2⟩
  · exact h.markUnresolved ht (.self index) hv _

theorem typeSpace (h : e.Steady L C (some index)) (htyped : Typed index c v token e)
    (retype : Char → EditM V Unit) : Recovers L C (typeSpace retype index) e := by
  have hin : index < e.tokens.length := (List.getElem?_eq_some_iff.1 htyped.token_eq).1
  unfold Editor.typeSpace
  rw [Recovers, wp_bind, wp_get, htyped.view_eq]
  simp only
  split
  · have hback : Steady L C none (e.modifyView index View.eraseBefore) := by
      refine h.setRegion (h.region.restoreText (.self index)
        .eraseBefore fun w t hw ht _ => ?_)
      cases htyped.view_eq.symm.trans hw
      cases htyped.token_eq.symm.trans ht
      exact (View.text_eraseBefore_insert c htyped.caret).trans htyped.text
    rw [wp_bind, wp_modify]
    refine (hback.expandToError ht [] ?_).thenRun ht
    show index + _ ≤ e.tokens.length
    split <;> omega
  · exact h.resolveTyped ht htyped retype

end

omit ht in
theorem typingTarget (h : e.Steady L C none) (hin : index < e.tokens.length) :
    (e.typingTarget index).2.Steady L C none ∧
      (e.typingTarget index).1 < (e.typingTarget index).2.tokens.length := by
  unfold Editor.typingTarget
  split
  · exact ⟨h, hin⟩
  · simp only
    split_ifs
    · refine ⟨h.selectToken _ .last, ?_⟩
      rw [tokens_selectToken]
      omega
    · exact ⟨h, hin⟩

theorem typeAt (h : e.Steady L C none) (hin : index < e.tokens.length)
    (retype : Char → EditM V Unit) (c : Char) : Recovers L C (typeAt retype index c) e := by
  unfold Editor.typeAt
  rw [Recovers, wp_bind, wp_get]
  obtain ⟨h', hin'⟩ := h.typingTarget hin
  generalize e.typingTarget index = target at h' hin'
  obtain ⟨index, e'⟩ := target
  simp only at h' hin' ⊢
  rw [wp_bind, wp_set]
  split
  · exact h'.typeAtValue ht hin' c
  rename_i hedit
  obtain ⟨v, hv, hedit⟩ := (Option.any_eq_true _ _).1 (by simpa using hedit)
  obtain ⟨token, htoken⟩ : ∃ token, e'.tokens[index]? = some token :=
    ⟨_, List.getElem?_eq_getElem hin'⟩
  have hprojects := h'.region.projected.projects hv htoken
  have hplain : token.isValue = false := by
    have := hprojects.editable
    simpa [hedit] using this
  have hinserted : Steady L C (some index) (e'.modifyView index fun v => v.insert [c]) :=
    h'.setRegion (h'.region.edit (.insert [c]))
  have htyped : Typed index c v token (e'.modifyView index fun v => v.insert [c]) := by
    refine ⟨?_, htoken, h'.region.shows index v token hv htoken (by simp) hplain, hprojects.caret⟩
    show (e'.views.modify index _)[index]? = _
    simp [hv]
  rw [wp_bind, wp_modify]
  split
  · rename_i hcomment
    rw [htoken] at hcomment
    cases token with
    | comment mark body => exact (hinserted.replaceComment ht (.self index) htoken).thenRun ht
    | _ => cases hcomment
  · -- a token that was not split still has the view into which the character was typed
    refine wp_seq (hinserted.afterType ht (.self index) hin') fun split e'' hsplit => ?_
    cases split with
    | true => exact hsplit
    | false =>
      cases hsplit
      simp only [Bool.false_eq_true, if_false]
      split
      · exact hinserted.typeSpace ht htyped retype
      · exact hinserted.resolveTyped ht htyped retype

theorem typeWith (h : e.Steady L C none) (hsel : e.SelectionFits) (retype : Char → EditM V Unit)
    (c : Char) : Recovers L C (typeWith retype c) e := by
  refine Recovers.bind (h.clearSelection ht hsel) fun _ e' h' => ?_
  rw [Recovers, wp_bind, wp_get]
  split
  · exact h'.typeInPlaceholder ht c
  · rename_i hindex
    exact h'.typeAt ht (h'.lt_of_focusedIndex? hindex) retype c

theorem typeChar (h : e.Steady L C none) (hsel : e.SelectionFits) (c : Char) :
    Recovers L C (typeChar c : EditM V Unit) e :=
  wp_typeChar_of_typeWith fun retype => h.typeWith ht hsel retype c

theorem becameEmpty (h : e.Steady L C drift) (hdrift : DriftIn drift index (index + 1))
    (hin : index < e.tokens.length) : Recovers L C (becameEmpty index : EditM V Unit) e := by
  have hat : e.tokens[index]? = some (e.tokens.get ⟨index, hin⟩) := List.getElem?_eq_getElem hin
  unfold Editor.becameEmpty
  rw [Recovers, wp_bind, wp_get, hat]
  generalize (if index = 0 then none else e.tokens[index - 1]?) = prev
  simp only
  split
  · exact (h.deleteToken ht (shifted?_zero index) hin hdrift).thenRun ht
  · exact (h.replaceToken ht hdrift hin (ht.plain (.error []) rfl)).thenRun ht

omit ht in
theorem keepCaret (h : e.Steady L C none) (caret : Nat) : (e.keepCaret caret).Steady L C none := by
  unfold Editor.keepCaret
  split
  · split_ifs
    · exact h.setRegion (h.region.setCaret caret)
    · exact h
  · exact h

theorem afterDelete (h : e.Steady L C drift) (hdrift : DriftIn drift index (index + 1))
    {v : View} (hv : e.views[index]? = some v) :
    Recovers L C (afterDelete index : EditM V Unit) e := by
  have hin : index < e.tokens.length := h.length_eq ▸ (List.getElem?_eq_some_iff.1 hv).1
  obtain ⟨token, htoken⟩ : ∃ token, e.tokens[index]? = some token :=
    ⟨_, List.getElem?_eq_getElem hin⟩
  unfold Editor.afterDelete
  rw [Recovers, wp_bind, wp_get, hv, htoken]
  simp only
  split
  · exact h.becameEmpty ht hdrift hin
  split
  · rename_i hsame
    refine h.setRegion (h.region.settle hdrift fun w t hw ht _ => ?_)
    cases hv.symm.trans hw
    cases htoken.symm.trans ht
    exact beq_iff_eq.1 hsame
  split
  · rename_i hsingle
    exact (h.completeMatch ht (fits_typingOffer hin hdrift) ((h.proposes ht).typingOffer _)
      (.inr (Item.hasMatch_of_hasSingleMatch hsingle))).bind fun _ _ h => h.keepCaret _
  · exact h.markUnresolved ht hdrift hv _

theorem deleteWhole (h : e.Steady L C none) (hin : index < e.tokens.length) :
    Recovers L C (deleteWhole index : EditM V Unit) e := by
  unfold Editor.deleteWhole
  rw [Recovers, wp_bind, wp_modify]
  exact (h.closeMenu.deleteToken ht (shifted?_zero index) hin (.none _ _)).thenRun ht

theorem deleteAcross (h : e.Steady L C none) (backward : Bool) :
    Recovers L C (deleteAcross index backward : EditM V Unit) e := by
  unfold Editor.deleteAcross
  rw [Recovers, wp_bind, wp_get]
  have hmerge := h.mergeTokens ht index backward
  generalize (if backward then (-1 : Int) else 1) = delta at hmerge
  simp only
  split
  · rename_i hcan
    obtain ⟨target, htarget, hin⟩ := (Option.any_eq_true _ _).1 hcan
    split
    · rename_i hboth
      exact (hmerge hboth).bind fun move _ h => h.closeMenu.run ht move
    · exact (h.deleteToken ht htarget (of_decide_eq_true hin) (.none _ _)).bind fun move _ h =>
        h.closeMenu.run ht move
  · exact h

theorem deleteChar (h : e.Steady L C none) (hsel : e.SelectionFits) (backward : Bool) :
    Recovers L C (deleteChar backward : EditM V Unit) e := by
  unfold Editor.deleteChar
  rw [Recovers, wp_bind, wp_get]
  split
  · exact h.clearSelection ht hsel
  split
  · split
    · exact h.aside rfl rfl rfl
    · exact h
  rename_i index hindex
  have hin := h.lt_of_focusedIndex? hindex
  split
  · exact h
  rename_i v hv
  have hedit : View.Edit (if backward then View.eraseBefore else View.eraseAfter) := by
    cases backward
    · exact .eraseAfter
    · exact .eraseBefore
  generalize (if backward then View.eraseBefore else View.eraseAfter) = erase at hedit ⊢
  generalize (if backward then v.caret == 0 else v.caretAtEnd) = atEdge
  simp only
  split
  · exact h.deleteWhole ht hin
  split
  · exact h.deleteAcross ht backward
  · have herased : Steady L C (some index) (e.modifyView index erase) :=
      h.setRegion (h.region.edit hedit)
    have hv' : (e.modifyView index erase).views[index]? = some (erase v) := by
      show (e.views.modify index erase)[index]? = _
      simp [hv]
    rw [wp_bind, wp_modify]
    exact herased.afterDelete ht (.self index) hv'

theorem deleteCurrent (h : e.Steady L C none) (hsel : e.SelectionFits) :
    Recovers L C (deleteCurrent : EditM V Unit) e := by
  unfold Editor.deleteCurrent
  rw [Recovers, wp_bind, wp_get]
  split
  · exact h.clearSelection ht hsel
  split
  · exact h
  · rename_i hindex
    exact h.deleteWhole ht (h.lt_of_focusedIndex? hindex)

omit ht [Payload V] in
theorem of_focusedView? {v : View} (hfocus : e.focusedView? = some (index, v)) :
    e.focusedIndex? = some index ∧ e.views[index]? = some v := by
  unfold focusedView? at hfocus
  split at hfocus
  · cases hfocus
  · rename_i i hi
    obtain ⟨w, hw, heq⟩ := Option.map_eq_some_iff.1 hfocus
    cases heq
    exact ⟨hi, hw⟩

theorem paste (h : e.Steady L C none) (hsel : e.SelectionFits) (text : Text) :
    Recovers L C (paste text : EditM V Unit) e := by
  refine Recovers.bind (h.clearSelection ht hsel) fun _ e' h' => ?_
  have hclosed := h'.closeMenu
  rw [Recovers, wp_bind, wp_modify, wp_bind, wp_get]
  generalize e'.closeMenu = e'' at hclosed
  split
  · have hcleared : Steady L C none { e'' with placeholder := [] } := hclosed.aside rfl rfl rfl
    rw [wp_bind, wp_set]
    exact hcleared.afterPaste ht (.none _ _) (Nat.le_refl _) (Nat.le_refl _) _
  · rename_i index v hfocus
    have hin := hclosed.lt_of_focusedIndex? (of_focusedView? hfocus).1
    split
    · exact hclosed.afterPaste ht (.none _ _) (Nat.le_succ _) hin _
    · exact hclosed.afterPaste ht (.none _ _) (Nat.le_refl _) (by split <;> omega) _

omit ht in
/-- The menu offers something for a place that is there. -/
theorem fits_menuOffer (h : e.Steady L C none) : e.Fits none e.menuOffer := by
  have hsupplier : e.Fits none (e.menuSupplier.1.offer e.menuSupplier.2 e) := by
    unfold menuSupplier
    split
    · rfl
    · rename_i index v hfocus
      have hin := h.lt_of_focusedIndex? (of_focusedView? hfocus).1
      split
      · exact fits_side _ hin (by split <;> omega)
      · split
        · exact fits_side _ hin (Nat.le_refl 1)
        · exact fits_token _ hin (.none _ _)
  exact hsupplier

theorem enter (h : e.Steady L C none) : Recovers L C (enter : EditM V Unit) e := by
  unfold Editor.enter
  rw [Recovers, wp_bind, wp_get]
  split
  · split
    · rename_i item text hchoice
      exact h.acceptItem ht h.fits_menuOffer ((h.proposes ht).menuOffer item (Item.mem_of_chosen hchoice)) _
    · exact h.closeMenu
  split
  · exact h
  rename_i index v hfocus
  have hin := h.lt_of_focusedIndex? (of_focusedView? hfocus).1
  split
  · exact h
  simp only
  split
  · exact h
  split
  · exact h.completeMatch ht (fits_token _ hin (.none _ _)) ((h.proposes ht).offer _ _) (.inl rfl)
  · exact h

omit ht in
theorem selectRange (h : e.Steady L C none) (hle : start ≤ stop) (hin : stop ≤ e.tokens.length) :
    Recovers L C (selectRange start stop : EditM V Unit) e := by
  unfold Editor.selectRange
  rw [Recovers, wp_bind, wp_get, if_neg (by omega)]
  exact h.aside rfl rfl rfl

theorem setTokens (h : e.Steady L C none) {new : List (Token V)} (hnew : ∀ t ∈ new, C t) :
    Recovers L C (setTokens new) e := by
  have hclosed : Steady L C none { e.closeMenu with selection := none } :=
    h.closeMenu.aside rfl rfl rfl
  unfold Editor.setTokens
  rw [Recovers, wp_bind, wp_modify]
  refine Recovers.bind (wp_onRegion.2 ?_) fun _ _ h => h.repairFocus
  rw [Region.setTokens, wp_bind, wp_get]
  exact wp_onRegion.1 (hclosed.splice ht (.none _ _) hnew (Nat.zero_le _) (Nat.le_refl _))

theorem setValue (h : e.Steady L C none) (v : Option V) : Recovers L C (setValue v) e := by
  unfold Editor.setValue
  rw [Recovers, wp_bind, wp_modify]
  refine Recovers.bind (h.closeMenu.act (.setValue v) ?_) fun _ _ h => h.repairFocus
  exact wp_mono (h.region.inStep.setValue ht.toPrints v) (fun _ _ h => h) fun _ _ h => h.elim

theorem setLanguage (h : e.Steady L C none) {l : Language V} (hl : L l) :
    Recovers L C (setLanguage l) e := by
  have hdropped : e.closeMenu.dropOwed.Steady L C none :=
    ⟨h.region, fun i hi => h.closeMenu.items i hi.of_dropOwed⟩
  have hact := h.region.inStep.setLanguage ht.toPrints hl
  unfold Editor.setLanguage
  rw [Recovers, wp_bind, wp_modify]
  exact Recovers.bind (hdropped.act (.setLanguage l) hact) fun _ _ h => h.repairFocus

theorem restore (h : e.Steady L C none) {saved : Option (List (Token V))}
    (hsaved : ∀ ts, saved = some ts → ∀ t ∈ ts, C t) : Recovers L C (restore saved) e := by
  have hclosed : Steady L C none { e.closeMenu with selection := none } :=
    h.closeMenu.aside rfl rfl rfl
  have hact := h.region.inStep.restore ht.toPrints hsaved
  unfold Editor.restore
  rw [Recovers, wp_bind, wp_modify]
  exact Recovers.bind (hclosed.act (.restore saved) hact) fun _ _ h => h.repairFocus

theorem processChanges (h : e.Steady L C none) :
    Recovers L C (processChanges : EditM V Bool) e := by
  have hact : wp Region.Act.processChanges.run (fun _ r => r.InStep L C)
      (fun err _ => Language.Miscounts L C err) e.region :=
    (wp_discard _).2 (wp_mono (h.region.inStep.processChanges ht.toPrints) (fun _ _ h => h)
      fun _ _ h => h.elim)
  have hchanged := (wp_discard _).1 (wp_onRegion.1 (h.act .processChanges hact))
  unfold Editor.processChanges
  refine Recovers.bind (wp_onRegion.2 hchanged) fun changed e' h' => ?_
  cases changed with
  | true => exact h'.repairFocus
  | false => exact h'

omit ht in
theorem send (h : e.Steady L C none) (id : Nat) {items : List (Item V)}
    (hitems : ∀ i ∈ items, i.Puts C) : (e.send id items).2.Steady L C none :=
  ⟨(region_send e id items).1.symm ▸ h.region, (h.supplied.send id hitems).items⟩

end Steady

/-! ### All operations -/

omit ht in
/-- The operation names places that are there, and brings in languages of `L`, tokens of `C` and
answers of items in `I` only. Edits of the row that the host makes by hand are left out, and a text
is to be typed character by character, without a limit of its own. -/
def Op.Allowed (L : Language V → Prop) (C : Token V → Prop) (I : Item V → Prop) (e : Editor V) :
    Op V → Prop
  | setTokens new => ∀ t ∈ new, C t
  | restore saved => ∀ ts, saved = some ts → ∀ t ∈ ts, C t
  | setLanguage l => L l
  | selectRange start stop => start ≤ stop ∧ stop ≤ e.tokens.length
  | answer items | send _ items => ∀ i ∈ items, I i
  | typeWithin _ _ | typeText _ | focusPlaceholder | deleteToken _ _ | replaceToken _ _ | mergeTokens _ _
  | expandToError _ _ _ | replaceComment _ | afterType _ | afterPaste _ _ _ => False
  | _ => True

omit ht [Payload V] in
theorem Op.Allowed.isIntent {I : Item V → Prop} {op : Op V} (h : op.Allowed L C I e) :
    op.IsIntent := by
  cases op <;> trivial

omit ht [Payload V] in
theorem Op.Allowed.speaks {I J : Item V → Prop} {op : Op V} (h : op.Allowed L C I e)
    (hI : ∀ i, I i → J i) : op.Speaks L J := by
  cases op with
  | setLanguage l => exact h
  | answer items => exact fun i hi => hI i (h i hi)
  | send id items => exact fun i hi => hI i (h i hi)
  | _ => trivial

omit ht [Payload V] in
/-- The operation deletes what is selected. -/
def Op.TakesSelection : Op V → Prop
  | typeChar _ | backspace | delete | deleteCurrent | paste _ | clearSelection => True
  | _ => False

theorem Op.recovers {I : Item V → Prop} (hI : ∀ i, I i → i.Puts C) (h : e.Steady L C none)
    {op : Op V} (hsel : op.TakesSelection → e.SelectionFits)
    (hop : op.Allowed L C I e) : Recovers L C op.run e := by
  cases op with
  | setTokens new => exact h.setTokens ht hop
  | setValue v => exact h.setValue ht v
  | setLanguage l => exact h.setLanguage ht hop
  | processChanges => exact (h.processChanges ht).discard
  | restore saved => exact h.restore ht hop
  | selectToken index position => exact h.selectToken index position
  | move m => exact h.run ht m
  | typeChar c => exact h.typeChar ht (hsel trivial) c
  | backspace => exact h.deleteChar ht (hsel trivial) true
  | delete => exact h.deleteChar ht (hsel trivial) false
  | deleteCurrent => exact h.deleteCurrent ht (hsel trivial)
  | paste t => exact h.paste ht (hsel trivial) t
  | enter => exact h.enter ht
  | activateMenu => exact h.activateMenu ht
  | closeMenu => exact h.closeMenu
  | pollMenu => exact h.pollMenu
  | selectRange start stop => exact h.selectRange hop.1 hop.2
  | expandSelection =>
    obtain ⟨s, hs⟩ := exists_expandSelection e
    show (e.expandSelection.2).Steady L C none
    exact hs ▸ h.aside rfl rfl rfl
  | shrinkSelection =>
    obtain ⟨s, hs⟩ := exists_shrinkSelection e
    show (e.shrinkSelection.2).Steady L C none
    exact hs ▸ h.aside rfl rfl rfl
  | clearSelection => exact h.clearSelection ht (hsel trivial)
  | answer items =>
    exact answerOwed_induct (fun id _ h => h.send id fun i hi => hI i (hop i hi))
      (fun _ h => h.aside rfl rfl rfl) h
  | send id items => exact h.send id fun i hi => hI i (hop i hi)
  | dropSender id => exact ⟨h.region, fun i hi => h.items i hi.of_dropSender⟩
  | onCells f => exact h.setCells _
  | setCellText c t => exact h.setRegion (h.region.setCells _ _ _)
  | save => exact h.setCells _
  | dispose => exact h.closeMenu.setRegion (h.region.setCells _ _ _)
  | setHideTokens hide => exact h.aside rfl rfl rfl
  | typeWithin | typeText | focusPlaceholder | deleteToken | replaceToken | mergeTokens
  | expandToError | replaceComment | afterType | afterPaste => exact hop.elim

end Editor

end TokenEditor
