import TokenEditor.Proofs.Histories

/-! # The caret in the text

What the user sees is the texts of the tokens one after the other, with the caret somewhere in it;
where one token ends and the next begins plays no part. `shownText` and `offset?` are this view of an
editor. A move that `select` gives may go to a neighbour of the token it was asked for, but it leads
to the same offset (`lands_select`). -/

namespace TokenEditor

namespace Text
variable {t : Text} {k : Nat}

theorem insertAt_append (a b piece : Text) (h : k ≤ t.length) :
    (a ++ t ++ b).insertAt (a.length + k) piece = a ++ t.insertAt k piece ++ b := by
  have htake : (a ++ t ++ b).take (a.length + k) = a ++ t.take k := by
    rw [List.append_assoc, List.take_length_add_append, List.take_append_of_le_length h]
  have hdrop : (a ++ t ++ b).drop (a.length + k) = t.drop k ++ b := by
    rw [List.append_assoc, List.drop_length_add_append, List.drop_append_of_le_length h]
  rw [insertAt, htake, hdrop]
  simp only [insertAt, List.append_assoc]

theorem eraseIdx_append (a b : Text) (h : k < t.length) :
    (a ++ t ++ b).eraseIdx (a.length + k) = a ++ t.eraseIdx k ++ b := by
  rw [List.append_assoc, List.eraseIdx_append_of_length_le (Nat.le_add_right _ _),
    Nat.add_sub_cancel_left, List.eraseIdx_append_of_lt_length h, List.append_assoc]

end Text

/-- The offset of a position in a text. -/
def Position.within (t : Text) : Position → Nat
  | .first => 0
  | .last => t.length
  | .offset n => min n t.length

/-- The offset of a position in one of the texts, in all of them put together. -/
def spot (texts : List Text) (index : Nat) (position : Position) : Nat :=
  (texts.take index).flatten.length + position.within ((texts[index]?).getD [])

theorem spot_append (before after : List Text) (t : Text) (position : Position) :
    spot (before ++ t :: after) before.length position =
      before.flatten.length + position.within t := by
  simp [spot]

theorem spot_last (texts : List Text) {index : Nat} (h : index < texts.length) :
    spot texts index .last = spot texts (index + 1) .first := by
  simp only [spot, Position.within, List.getElem?_eq_getElem h, Option.getD_some, Nat.add_zero]
  rw [List.take_succ_eq_append_getElem h, List.flatten_append, List.length_append]
  simp

/-- The tokens at `index` and `index + 1` stand without a space between them. -/
def gluedAt {V : Type} (index : Nat) (ts : List (Token V)) : Bool :=
  match ts[index]?, ts[index + 1]? with
  | some a, some b => a.glue.right || b.glue.left
  | _, _ => false

namespace Region
variable {V : Type} {r : Region V}

theorem Numbered.viewPosition? (h : r.Numbered) {index : Nat} {v : View}
    (hv : r.views[index]? = some v) : r.viewPosition? v.id = some index := by
  obtain ⟨hin, hat⟩ := List.getElem?_eq_some_iff.1 hv
  refine List.findIdx?_eq_some_iff_getElem.2 ⟨hin, by simp [hat], fun j hj => ?_⟩
  -- no view before it has its number
  have hne : r.ids.get ⟨j, by simp [ids]; omega⟩ ≠ r.ids.get ⟨index, by simpa [ids] using hin⟩ := by
    intro heq
    have := (List.Nodup.get_inj_iff h.nodup).1 heq
    simp at this
    omega
  simpa [ids, hat] using hne

variable [Payload V]

/-- The text of each token. -/
def texts (r : Region V) : List Text :=
  r.tokens.map (Token.text r.cells)

@[simp] theorem length_texts : r.texts.length = r.tokens.length := by
  simp [texts]

/-- Every view shows its token, values included, and has a number of its own. -/
structure Showing (r : Region V) : Prop where
  numbered : r.Numbered
  texts_eq : r.views.map View.text = r.texts

namespace Showing

theorem length_eq (h : r.Showing) : r.views.length = r.tokens.length := by
  simpa using congrArg List.length h.texts_eq

theorem text_eq (h : r.Showing) {index : Nat} {v : View} (hv : r.views[index]? = some v) :
    r.texts[index]? = some v.text := by
  rw [← h.texts_eq, List.getElem?_map, hv]
  rfl

end Showing

end Region

namespace Editor
variable {V : Type}

section
variable {e : Editor V} {index : Nat} (h : e.region.Projected)
include h

/-- A token that takes no focus is glued on both sides, so it hands the caret over anyway. -/
theorem handsOver_eq {a b : Token V} (ha : e.tokens[index]? = some a)
    (hb : e.tokens[index + 1]? = some b) {i : Nat} (hi : i = index ∨ i = index + 1) :
    Move.handsOver ((e.views[i]?).all View.focusable) a b = gluedAt index e.tokens := by
  have hfocusable : (e.views[i]?).all View.focusable = false → a.glue.right || b.glue.left := by
    intro hnone
    cases hv : e.views[i]? with
    | none => simp [hv] at hnone
    | some v =>
      rw [hv] at hnone
      rcases hi with rfl | rfl
      · have hview := (h.projects hv ha).focusable
        simp_all
      · have hview := (h.projects hv hb).focusable
        simp_all
  rw [gluedAt, ha, hb, Move.handsOver]
  cases hall : (e.views[i]?).all View.focusable with
  | true => simp
  | false => simp [hfocusable hall]

theorem select_first_eq (hin : index + 1 < e.tokens.length) : e.select (index + 1) .first =
    if gluedAt index e.tokens then Move.toToken index .last else Move.toToken (index + 1) .first := by
  have ha : e.tokens[index]? = some (e.tokens.get ⟨index, Nat.lt_of_succ_lt hin⟩) :=
    List.getElem?_eq_getElem _
  have hb : e.tokens[index + 1]? = some (e.tokens.get ⟨index + 1, hin⟩) := List.getElem?_eq_getElem hin
  have hover := handsOver_eq h ha hb (i := index + 1) (.inr rfl)
  simp only [select, Move.select, ha, hb, hover]

theorem select_last_eq (hin : index < e.tokens.length) : e.select index .last =
    if gluedAt index e.tokens then Move.toToken (index + 1) .first else Move.toToken index .last := by
  have ha : e.tokens[index]? = some (e.tokens.get ⟨index, hin⟩) := List.getElem?_eq_getElem _
  cases hb : e.tokens[index + 1]? with
  | none => simp [select, Move.select, ha, hb, gluedAt]
  | some b =>
    have hover := handsOver_eq h ha hb (i := index) (.inl rfl)
    simp only [select, Move.select, ha, hb, hover]

end

/-! ### Where moves lead -/

section
variable {e : Editor V} {index : Nat} {position : Position} {v : View} {m : Move}

theorem focusedView?_congr {e' : Editor V} (hregion : e'.region = e.region)
    (hfocus : e'.focus = e.focus) : e'.focusedView? = e.focusedView? := by
  unfold focusedView? focusedIndex? views
  rw [hregion, hfocus]

theorem focusedView?_selectToken (hn : e.region.Numbered) (hv : e.views[index]? = some v)
    (position : Position) : (e.selectToken index position).focusedView? =
      some (index, { v with caret := position.within v.text }) := by
  have hfound : ∀ caret, (e.region.modifyView index fun v => v.setCaret caret).viewPosition? v.id =
      some index := by
    intro caret
    rw [viewPosition?_modifyView (.setCaret caret)]
    exact hn.viewPosition? hv
  have hview : ∀ caret, (e.region.modifyView index fun v => v.setCaret caret).views[index]? =
      some (v.setCaret caret) := by
    intro caret
    have hv' : e.region.views[index]? = some v := hv
    simp [Region.modifyView, hv']
  have hcaret : ∀ caret : Nat, v.setCaret caret = { v with caret := min caret v.text.length } :=
    fun _ => rfl
  unfold selectToken
  rw [hv]
  simp only
  split_ifs <;> cases position <;>
    simp [focusedView?, focusedIndex?, closeMenu, modifyView, views, hfound, hview, hcaret,
      Position.within]

theorem cells_selectToken : (e.selectToken index position).region.cells = e.region.cells := by
  unfold selectToken
  split
  · rfl
  · simp only
    split_ifs <;> rfl

theorem typingOffer_of_closed (hmenu : e.menu.active = false) (s : Supplier) :
    e.typingOffer s = s.offer .typing e := by
  rw [typingOffer, hmenu]
  rfl

theorem active_selectToken (hmenu : e.menu.active = false) (position : Position) :
    (e.selectToken index position).menu.active = false := by
  unfold selectToken
  split
  · exact hmenu
  · simp only
    split_ifs
    · exact hmenu
    · rfl

theorem active_run (hmenu : e.menu.active = false) (hm : m.reopen = false) :
    (e.run m).menu.active = false := by
  have hmoved : (e.moved m).menu.active = false := by
    unfold moved
    split
    · exact active_selectToken hmenu _
    · exact hmenu
    · exact hmenu
  have hfocused : (e.moved m).refocused.menu.active = false := by
    unfold refocused
    split_ifs
    · exact hmoved
    · exact active_selectToken hmoved _
    · exact hmoved
  rw [run_eq, hm, Bool.false_and, if_neg Bool.false_ne_true, repairFocus_eq]
  split
  · split_ifs <;> exact hfocused
  · exact hfocused

/-- A move to a token that is there finds it, and opening the menu again changes nothing about it. -/
theorem run_token (hin : index < e.views.length) (hm : m.target = .token index position) :
    (e.run m).region = (e.selectToken index position).region ∧
      (e.run m).focus = (e.selectToken index position).focus := by
  have hmoved : e.moved m = e.selectToken index position := by
    rw [moved, hm]
  have hrepaired : (e.selectToken index position).repairFocus.region =
        (e.selectToken index position).region ∧
      (e.selectToken index position).repairFocus.focus = (e.selectToken index position).focus := by
    have hfound : (e.selectToken index position).refocused = e.selectToken index position := by
      rw [refocused, focusLost_selectToken hin]
      rfl
    rw [repairFocus_eq, hfound]
    split
    · split_ifs <;> exact ⟨rfl, rfl⟩
    · exact ⟨rfl, rfl⟩
  rw [run_eq, hmoved]
  generalize (e.selectToken index position).repairFocus = e' at hrepaired
  split_ifs
  · have hfocus := (focus_pollMenu (e'.opened e'.menuSupplier.1 e'.menuSupplier.2)).1
    rw [activateMenu_eq, region_pollMenu, region_opened, hfocus]
    exact ⟨hrepaired.1, ((focus_promise e' _).1).trans hrepaired.2⟩
  · exact hrepaired

theorem placeholder_activateMenu : e.activateMenu.placeholder = e.placeholder := by
  have hpoll : ∀ e : Editor V, e.pollMenu.2.placeholder = e.placeholder := by
    intro e
    unfold pollMenu
    split
    · rfl
    · dsimp only
      split <;> rfl
  have hpromise : ∀ calls, (e.promise calls).2.placeholder = e.placeholder := by
    intro calls
    unfold promise
    split
    · rfl
    · split <;> rfl
  rw [activateMenu_eq, hpoll]
  exact hpromise _

theorem run_placeholder (hempty : e.tokens = []) (hm : m.target = .placeholder) :
    (e.run m).tokens = [] ∧ (e.run m).focus = .placeholder ∧ (e.run m).placeholder = [] := by
  have hrepaired : (e.moved m).repairFocus.region = e.region ∧
      (e.moved m).repairFocus.focus = .placeholder ∧ (e.moved m).repairFocus.placeholder = [] := by
    have hmoved : e.moved m = e.focusPlaceholder := by
      rw [moved, hm]
    have hthere : e.focusPlaceholder.refocused = e.focusPlaceholder := by
      have hfound : e.focusPlaceholder.focusLost = false := by
        show (!e.tokens.isEmpty) = false
        simp [hempty]
      rw [refocused, hfound]
      rfl
    rw [hmoved, repairFocus_eq, hthere]
    split
    · split_ifs <;> exact ⟨rfl, rfl, rfl⟩
    · exact ⟨rfl, rfl, rfl⟩
  rw [run_eq]
  generalize (e.moved m).repairFocus = e' at hrepaired
  obtain ⟨hregion, hfocus, hplaceholder⟩ := hrepaired
  have htokens : e'.tokens = [] := (congrArg Region.tokens hregion).trans hempty
  split_ifs
  · refine ⟨?_, ?_, placeholder_activateMenu.trans hplaceholder⟩
    · rw [tokens, activateMenu_eq, region_pollMenu, region_opened]
      exact htokens
    · rw [activateMenu_eq, (focus_pollMenu _).1]
      exact ((focus_promise e' _).1).trans hfocus
  · exact ⟨htokens, hfocus, hplaceholder⟩

theorem focusedView?_run (hn : e.region.Numbered) (hv : e.views[index]? = some v)
    (hm : m.target = .token index position) : (e.run m).focusedView? =
      some (index, { v with caret := position.within v.text }) := by
  have hin := (List.getElem?_eq_some_iff.1 hv).1
  obtain ⟨hregion, hfocus⟩ := run_token hin hm
  rw [focusedView?_congr hregion hfocus, focusedView?_selectToken hn hv]

end

variable [Payload V] {e e' : Editor V} {index : Nat} {position : Position} {v : View} {m : Move}
  {t : Text} {n : Nat}

/-- What stands in the editor: the texts of the tokens, or what was typed into the placeholder. -/
def shownText (e : Editor V) : Text :=
  if e.tokens.isEmpty then e.placeholder else e.region.texts.flatten

/-- Where the caret stands in the text, unless the focus names nothing that is there. -/
def offset? (e : Editor V) : Option Nat :=
  match e.focus with
  | .token _ => e.focusedView?.map fun (index, v) => (e.region.texts.take index).flatten.length + v.caret
  | .placeholder => if e.tokens.isEmpty then some e.placeholder.length else none

/-- The text is `t`, and the caret stands at `n`. -/
structure Reads (t : Text) (n : Nat) (e : Editor V) : Prop where
  text : e.shownText = t
  caret : e.offset? = some n

omit [Payload V] in
theorem exists_focus (h : e.focusedView? = some (index, v)) : ∃ id, e.focus = .token id := by
  cases hfocus : e.focus with
  | token id => exact ⟨id, rfl⟩
  | placeholder =>
    unfold focusedView? focusedIndex? at h
    rw [hfocus] at h
    cases h

theorem offset?_of_focusedView? (h : e.focusedView? = some (index, v)) :
    e.offset? = some ((e.region.texts.take index).flatten.length + v.caret) := by
  obtain ⟨id, hfocus⟩ := exists_focus h
  rw [offset?, hfocus]
  simp only [h, Option.map_some]

/-- Either a token has the caret, or the placeholder of an empty region. -/
theorem offset?_eq_some (h : e.offset? = some n) :
    (∃ index v, e.focusedView? = some (index, v) ∧
      n = (e.region.texts.take index).flatten.length + v.caret) ∨
    (e.focusedIndex? = none ∧ e.focus = .placeholder ∧ e.tokens = [] ∧ n = e.placeholder.length) := by
  unfold offset? at h
  split at h
  · obtain ⟨⟨index, v⟩, hv, rfl⟩ := Option.map_eq_some_iff.1 h
    exact .inl ⟨index, v, hv, rfl⟩
  · rename_i hfocus
    split_ifs at h with hempty
    cases h
    refine .inr ⟨?_, hfocus, List.isEmpty_iff.1 hempty, rfl⟩
    rw [focusedIndex?, hfocus]

theorem shownText_of_ne_nil (h : e.tokens ≠ []) : e.shownText = e.region.texts.flatten := by
  rw [shownText, if_neg (by simpa using h)]

theorem shownText_of_nil (h : e.tokens = []) : e.shownText = e.placeholder := by
  rw [shownText, h]
  rfl

theorem reads_of_focusedView? (hne : e.tokens ≠ []) (h : e.focusedView? = some (index, v)) :
    e.Reads e.region.texts.flatten ((e.region.texts.take index).flatten.length + v.caret) :=
  ⟨shownText_of_ne_nil hne, offset?_of_focusedView? h⟩

theorem reads_of_placeholder (hempty : e.tokens = []) (hfocus : e.focus = .placeholder) :
    e.Reads e.placeholder e.placeholder.length := by
  refine ⟨shownText_of_nil hempty, ?_⟩
  rw [offset?, hfocus]
  simp [hempty]

theorem texts_congr (htokens : e'.tokens = e.tokens) (hcells : e'.region.cells = e.region.cells) :
    e'.region.texts = e.region.texts := by
  unfold Region.texts
  rw [hcells]
  exact congrArg _ htokens

theorem texts_selectToken : (e.selectToken index position).region.texts = e.region.texts :=
  texts_congr tokens_selectToken cells_selectToken

/-- Carrying out the move makes the editor read `t` with the caret at `n`. -/
inductive Lands (t : Text) (n : Nat) (m : Move) (e : Editor V) : Prop
  | token {index : Nat} {position : Position} : m.target = .token index position →
      index < e.tokens.length → e.region.Showing → e.region.texts.flatten = t →
      spot e.region.texts index position = n → Lands t n m e
  | placeholder : m.target = .placeholder → e.tokens = [] → t = [] → n = 0 → Lands t n m e

theorem reads_selectToken (hin : index < e.tokens.length) (h : e.region.Showing)
    (position : Position) : (e.selectToken index position).Reads e.region.texts.flatten
      (spot e.region.texts index position) := by
  have hin' : index < e.views.length := h.length_eq ▸ hin
  have hv : e.views[index]? = some (e.views.get ⟨index, hin'⟩) := List.getElem?_eq_getElem hin'
  have hne : (e.selectToken index position).tokens ≠ [] := by
    rw [tokens_selectToken]
    exact List.ne_nil_of_length_pos (Nat.zero_lt_of_lt hin)
  have hreads := reads_of_focusedView? hne (focusedView?_selectToken h.numbered hv position)
  rw [texts_selectToken] at hreads
  rw [spot, h.text_eq hv]
  exact hreads

theorem Lands.reads (h : e.Lands t n m) : (e.run m).Reads t n := by
  cases h with
  | @token index position hm hin hshown ht hn =>
    obtain ⟨hregion, hfocus⟩ := run_token (show index < e.views.length from hshown.length_eq ▸ hin) hm
    have hreads := reads_selectToken hin hshown position
    have htokens : (e.run m).tokens = (e.selectToken index position).tokens :=
      congrArg Region.tokens hregion
    rw [ht, hn] at hreads
    refine ⟨?_, ?_⟩
    · have hne : (e.selectToken index position).tokens ≠ [] := by
        rw [tokens_selectToken]
        exact List.ne_nil_of_length_pos (Nat.zero_lt_of_lt hin)
      rw [shownText_of_ne_nil (htokens ▸ hne), hregion, ← shownText_of_ne_nil hne]
      exact hreads.text
    · obtain ⟨id, hid⟩ : ∃ id, (e.selectToken index position).focus = .token id := by
        have hin' : index < e.views.length := hshown.length_eq ▸ hin
        exact exists_focus (focusedView?_selectToken hshown.numbered
          (List.getElem?_eq_getElem hin') position)
      have hcaret := hreads.caret
      rw [offset?, hid] at hcaret
      rw [offset?, hfocus, hid, focusedView?_congr hregion hfocus, hregion]
      exact hcaret
  | placeholder hm hempty ht hn =>
    obtain ⟨htokens, hfocus, hplaceholder⟩ := run_placeholder hempty hm
    subst ht hn
    have hreads := reads_of_placeholder htokens hfocus
    rwa [hplaceholder] at hreads

theorem Lands.closeMenu (h : e.Lands t n m) : e.closeMenu.Lands t n m := by
  cases h with
  | token hm hin hshown ht hn => exact .token hm hin hshown ht hn
  | placeholder hm hempty ht hn => exact .placeholder hm hempty ht hn

theorem Lands.reopening (h : e.Lands t n m) (reopen : Bool) : e.Lands t n (m.reopening reopen) := by
  cases h with
  | token hm hin hshown ht hn => exact .token hm hin hshown ht hn
  | placeholder hm hempty ht hn => exact .placeholder hm hempty ht hn

theorem reads_thenRun {f : EditM V Move} {fail : EditError → Editor V → Prop}
    (hf : wp f (fun m e' => e'.Lands t n m) fail e) : wp (do
      let move ← f
      modify (Editor.run move)) (fun _ e' => e'.Reads t n) fail e :=
  (wp_bind _ _).2 (wp_mono hf (fun _ _ h => h.reads) fun _ _ h => h)

/-- Handing the caret over to a neighbour leaves it where it is in the text. -/
theorem lands_select (hin : index < e.tokens.length) (h : e.region.Showing) (position : Position) :
    e.Lands e.region.texts.flatten (spot e.region.texts index position) (e.select index position) := by
  have hlen : e.region.texts.length = e.tokens.length := Region.length_texts
  have hself : ∀ p : Position, spot e.region.texts index p = spot e.region.texts index position →
      e.Lands e.region.texts.flatten (spot e.region.texts index position) (Move.toToken index p) :=
    fun p hp => .token rfl hin h rfl hp
  have hfirst : spot e.region.texts index position = spot e.region.texts index .first →
      e.Lands e.region.texts.flatten (spot e.region.texts index position)
        (e.select index .first) := by
    intro hspot
    unfold select Move.select
    simp only
    split
    · exact hself .first hspot.symm
    · rename_i i _
      have hself' := hself .first hspot.symm
      split
      · split_ifs
        · refine .token rfl (Nat.lt_of_succ_lt hin) h rfl ?_
          rw [spot_last _ (by omega), hspot]
        · exact hself'
      · exact hself'
  unfold select Move.select
  cases position with
  | first => exact hfirst rfl
  | last =>
    simp only
    split
    · rename_i a b _ hb
      split_ifs
      · refine .token rfl (List.getElem?_eq_some_iff.1 hb).1 h rfl ?_
        rw [← spot_last _ (by omega)]
      · exact hself .last rfl
    · exact hself .last rfl
  | offset k =>
    cases k with
    | zero => exact hfirst (by simp [spot, Position.within])
    | succ k => exact hself (.offset (k + 1)) rfl

end Editor

end TokenEditor
