import Mathlib.Data.Prod.Lex
import Mathlib.Logic.Relation
import TokenEditor.Proofs.Mismatch
import TokenEditor.Proofs.Rounds

/-! # When typing comes to rest

A character is typed again and again as long as what stands before it can be completed. An item that
puts tokens in replaces a drifted view by views that show their tokens, and one that removes tokens
leaves fewer of them; so such rounds come to an end (`Underway.descends`). An item that asks for
neither leaves everything as it was, and the next round does the same.
`typing_rests_iff`: typing comes to rest unless it gets to an editor that a round does not change. -/

namespace TokenEditor

namespace Region
variable {V : Type} [Payload V] {r r' r'' : Region V} {start stop index target target' : Nat}
  {new : List (Token V)}

/-- A view with another text than its token, which is no value. -/
def isDrifted (p : View × Token V) : Bool :=
  !p.2.isValue && p.1.text != p.2.text {}

/-- How many views have drifted from their tokens. -/
def drifts (r : Region V) : Nat :=
  (r.views.zip r.tokens).countP isDrifted

theorem countP_ofTokens (cells : Cells) (id : ViewId) (ts : List (Token V)) :
    ((View.ofTokens cells id ts).zip ts).countP isDrifted = 0 := by
  induction ts generalizing id with
  | nil => rfl
  | cons t ts ih =>
    have hnew : isDrifted (View.ofToken cells id t, t) = false := by
      cases hvalue : t.isValue with
      | true => simp [isDrifted, hvalue]
      | false => simp [isDrifted, View.ofToken, Token.text_of_not_isValue hvalue cells {}]
    rw [View.ofTokens, List.zip_cons_cons, List.countP_cons, ih, hnew]
    rfl

/-- A splice takes the drifted views of the tokens that it replaces out of the count. -/
theorem drifts_spliced (h : r.Projected) (hle : start ≤ stop) (new : List (Token V)) :
    (r.spliced start stop new).drifts +
      (((r.views.zip r.tokens).drop start).take (stop - start)).countP isDrifted = r.drifts := by
  have hlen := h.length_eq
  have htake : (r.views.zip r.tokens).take start = (r.views.take start).zip (r.tokens.take start) :=
    List.take_zipWith
  have hdrop : (r.views.zip r.tokens).drop stop = (r.views.drop stop).zip (r.tokens.drop stop) :=
    List.drop_zipWith
  have hzip : (r.spliced start stop new).views.zip (r.spliced start stop new).tokens =
      (r.views.zip r.tokens).take start ++ (View.ofTokens r.cells r.nextView new).zip new ++
        (r.views.zip r.tokens).drop stop := by
    rw [htake, hdrop]
    show (r.views.take start ++ View.ofTokens r.cells r.nextView new ++ r.views.drop stop).zip
      (r.tokens.take start ++ new ++ r.tokens.drop stop) = _
    rw [List.zip_append (by simp [hlen]), List.zip_append (by simp [hlen])]
  unfold drifts
  rw [hzip]
  generalize r.views.zip r.tokens = z
  have hparts : z = z.take start ++ ((z.drop start).take (stop - start) ++ z.drop stop) := by
    have hmid : z.drop stop = (z.drop start).drop (stop - start) := by
      rw [List.drop_drop, Nat.add_sub_cancel' hle]
    rw [hmid, List.take_append_drop, List.take_append_drop]
  have hcount := congrArg (List.countP isDrifted) hparts
  simp only [List.countP_append] at hcount
  rw [List.countP_append, List.countP_append, countP_ofTokens, hcount]
  omega

theorem drifts_spliced_lt (h : r.Projected) {v : View} {t : Token V} (hv : r.views[index]? = some v)
    (ht : r.tokens[index]? = some t) (hdrifted : isDrifted (v, t)) (new : List (Token V)) :
    (r.spliced index (index + 1) new).drifts < r.drifts := by
  have hcount := drifts_spliced h (Nat.le_add_right index 1) new
  have hat : (r.views.zip r.tokens)[index]? = some (v, t) := by
    rw [List.getElem?_zip_eq_some]
    exact ⟨hv, ht⟩
  have hone : (((r.views.zip r.tokens).drop index).take (index + 1 - index)).countP isDrifted = 1 := by
    obtain ⟨hlt, hget⟩ := List.getElem?_eq_some_iff.1 hat
    rw [List.drop_eq_getElem_cons hlt, hget, Nat.add_sub_cancel_left]
    simp [hdrifted]
  omega

theorem Moves.drifts_le (h : r.Moves r') (hr : r.Projected) : r'.drifts ≤ r.drifts := by
  induction h with
  | refl => exact Nat.le_refl _
  | splice new hm hle _ ih =>
    have hcount := drifts_spliced (hm.projected hr) hle new
    omega
  | silent _ hk ih =>
    unfold drifts
    rwa [hk.views, hk.tokens]

theorem drifts_setCaret (r : Region V) (index caret : Nat) :
    (r.modifyView index (·.setCaret caret)).drifts = r.drifts := by
  have htexts : ∀ r : Region V, r.drifts = ((r.views.map View.text).zip r.tokens).countP
      (fun p => !p.2.isValue && p.1 != p.2.text {}) := by
    intro r
    rw [List.zip_map_left, List.countP_map]
    rfl
  have hsame : (r.views.modify index (·.setCaret caret)).map View.text = r.views.map View.text := by
    refine List.ext_getElem? fun j => ?_
    rw [List.getElem?_map, List.getElem?_map, List.getElem?_modify]
    cases r.views[j]? with
    | none => rfl
    | some v => by_cases hij : index = j <;> simp [hij, View.setCaret]
  rw [htexts, htexts]
  show ((r.views.modify index _).map View.text |>.zip r.tokens).countP _ = _
  rw [hsame]

/-- The row was edited, and the language is the same. -/
structure Edits (r r' : Region V) : Prop where
  moves : r.Moves r'
  language : r'.language = r.language

theorem Edits.refl (r : Region V) : r.Edits r := ⟨.refl, rfl⟩

theorem Edits.trans (h : r.Edits r') (h' : r'.Edits r'') : r.Edits r'' :=
  ⟨h.moves.trans h'.moves, h'.language.trans h.language⟩

theorem Edits.of_passes (h : r.Passes .edits r') : r.Edits r' := ⟨.of_passes h, h.language_eq⟩

theorem edits_setCells (r : Region V) (cells : Cells) : r.Edits { r with cells := cells } :=
  ⟨.of_keepsRow ⟨rfl, rfl, rfl⟩, rfl⟩

/-- `n` tokens before the one at `target` are gone; that one is now at `target'`. -/
structure Removed (n target target' : Nat) (r r' : Region V) : Prop where
  edits : r.Edits r'
  length : r'.tokens.length + n = r.tokens.length
  view : r'.views[target']? = r.views[target]?
  token : r'.tokens[target']? = r.tokens[target]?

theorem removed_setCells (target : Nat) (r : Region V) (cells : Cells) :
    r.Removed 0 target target { r with cells := cells } :=
  ⟨r.edits_setCells cells, rfl, rfl, rfl⟩

theorem Removed.trans {n m target'' : Nat} (h : r.Removed n target target' r')
    (h' : r'.Removed m target' target'' r'') : r.Removed (n + m) target target'' r'' :=
  ⟨h.edits.trans h'.edits, by have := h.length; have := h'.length; omega, h'.view.trans h.view,
    h'.token.trans h.token⟩

theorem removed_remove (hlt : index < target) :
    wp (remove index) (fun _ r' => r.Removed 1 target (target - 1) r') (fun _ _ => True) r := by
  have hpasses : Undergoes .edits (splice index (index + 1) ([] : List (Token V))) := .splice nofun
  have herase : (r.spliced index (index + 1) []).tokens = r.tokens.eraseIdx index ∧
      (r.spliced index (index + 1) []).views = r.views.eraseIdx index := by
    simp [spliced, View.ofTokens, List.eraseIdx_eq_take_drop_succ]
  have hat : ∀ {α : Type} (l : List α), (l.eraseIdx index)[target - 1]? = l[target]? := by
    intro α l
    rw [List.getElem?_eraseIdx, if_neg (by omega), Nat.sub_add_cancel (by omega)]
  unfold remove
  rw [wp_bind, wp_tokenAt]
  split
  · refine (wp_bind _ _).2 (wp_mono (wp_and (hpasses r) (wp_splice_row index (index + 1) [] r)) ?_
      fun _ _ _ => trivial)
    rintro _ r' ⟨hpass, -, hin, hkeeps⟩
    refine ⟨.of_passes hpass, ?_, ?_, ?_⟩
    · rw [hkeeps.tokens, herase.1, List.length_eraseIdx_of_lt hin]
      omega
    · rw [hkeeps.views, herase.2, hat]
    · rw [hkeeps.tokens, herase.1, hat]
  · trivial

theorem respliced_drifts (h : r.Projected) {v : View} {t : Token V} (hv : r.views[index]? = some v)
    (ht : r.tokens[index]? = some t) (hdrifted : isDrifted (v, t)) :
    wp (splice index (index + 1) new) (fun _ r' => r'.Projected ∧ r'.drifts < r.drifts)
      (fun _ _ => True) r := by
  have hpasses : Undergoes .edits (splice index (index + 1) new) := .splice fun _ _ => trivial
  refine wp_mono (wp_and (hpasses r) (wp_splice_row index (index + 1) new r)) ?_ fun _ _ _ => trivial
  rintro _ r' ⟨hpass, -, -, hkeeps⟩
  have hlt := drifts_spliced_lt h hv ht hdrifted new
  refine ⟨(Moves.of_passes hpass).projected h, ?_⟩
  unfold drifts
  rwa [hkeeps.views, hkeeps.tokens]

/-- Counts the drifted views, and then the tokens. -/
def rank (r : Region V) : Nat ×ₗ Nat :=
  toLex (r.drifts, r.tokens.length)

theorem rank_lt_of_drifts (h : r'.drifts < r.drifts) : r'.rank < r.rank :=
  Prod.Lex.toLex_lt_toLex.2 (.inl h)

theorem rank_lt_of_length (hle : r'.drifts ≤ r.drifts) (h : r'.tokens.length < r.tokens.length) :
    r'.rank < r.rank := by
  rcases Nat.lt_or_eq_of_le hle with hlt | heq
  · exact rank_lt_of_drifts hlt
  · exact Prod.Lex.toLex_lt_toLex.2 (.inr ⟨heq, h⟩)

end Region

namespace Effect
variable {V : Type}

/-- What fails ends the effect. -/
def Direct : Effect V → Prop
  | done _ | fail _ => True
  | look _ next => ∀ scope cells, (next scope cells).Direct
  | complete _ _ next => (∀ err, next (.error err) = fail err) ∧ ∀ move, (next (.ok move)).Direct
  | remove _ next => (∀ err, next (.error err) = fail err) ∧ ∀ t, (next (.ok t)).Direct

/-- What fails ends the effect; and where it ends without a call it leaves everything alone. That the
cells are what they were so far is `same`. -/
def Frugal (same : Prop) : Effect V → Prop
  | done move => same ∧ move = .stay
  | fail _ => True
  | look change next =>
    ∀ scope cells, (next scope cells).Frugal (same ∧ change scope cells = cells)
  | complete selected tokens next => (complete selected tokens next).Direct
  | remove index next => (remove index next).Direct

end Effect

/-- Token items complete and remove tokens, in any order and number, hand on what fails, and leave
everything alone if they do neither. -/
def Language.Frugal {V : Type} (l : Language V) : Prop :=
  ∀ {cells context params}, ∀ i ∈ l.tokenItems cells context params, ∀ scope t cells',
    (i.effect scope t cells').1.Frugal ((i.effect scope t cells').2 = cells')

/-- The menu is closed, and nothing is left of it. -/
def Menu.isBlank {V : Type} (m : Menu V) : Bool :=
  !m.active && m.pending.isNone && m.received.isNone

namespace Editor
variable {V : Type} [Payload V] {c : Char} {l : Language V} {e e' : Editor V} {i index : Nat}
  {v : View} {t : Token V}

/-! ### Between rounds -/

/-- What holds of an editor between two rounds of typing. -/
structure Underway (l : Language V) (e : Editor V) : Prop where
  projected : e.region.Projected
  language : e.region.language = l
  selection : e.selection = none

omit [Payload V] in
theorem Underway.congr (h : e.Underway l) (hregion : e'.region = e.region)
    (hselection : e'.selection = e.selection) : e'.Underway l :=
  ⟨hregion ▸ h.projected, hregion ▸ h.language, hselection.trans h.selection⟩

section
omit [Payload V]
variable {P : Region V → Prop}
  (hP : ∀ {r : Region V} {index caret : Nat}, P r → P (r.modifyView index (·.setCaret caret)))
include hP

theorem selectToken_region (h : P e.region) (index : Nat) (position : Position) :
    P (e.selectToken index position).region := by
  unfold selectToken
  split
  · exact h
  · dsimp only
    split_ifs <;> exact hP h

/-- What survives moves of the carets holds after any move. -/
theorem run_region (h : P e.region) (m : Move) : P (e.run m).region := by
  have hmoved : P (e.moved m).region := by
    unfold moved
    split
    · exact selectToken_region hP h _ _
    · exact h
    · exact h
  have hfocused : P (e.moved m).refocused.region := by
    unfold refocused
    split_ifs
    · exact hmoved
    · exact selectToken_region hP hmoved _ _
    · exact hmoved
  have hrepaired : P (e.moved m).repairFocus.region := by
    rw [repairFocus_eq]
    split
    · split_ifs <;> exact hfocused
    · exact hfocused
  rw [run_eq]
  split_ifs
  · rwa [activateMenu_eq, region_pollMenu, region_opened]
  · exact hrepaired

end

omit [Payload V] in
theorem selection_run (h : e.selection = none) (m : Move) : (e.run m).selection = none := by
  have hmoved : (e.moved m).selection = none := by
    unfold moved
    split
    · exact selection_selectToken.trans h
    · exact h
    · exact h
  have hfocused : (e.moved m).refocused.selection = none := by
    unfold refocused
    split_ifs
    · exact hmoved
    · exact selection_selectToken.trans hmoved
    · exact hmoved
  have hrepaired : (e.moved m).repairFocus.selection = none := by
    rw [repairFocus_eq, hfocused]
    exact hfocused
  rw [run_eq]
  split_ifs
  · rw [activateMenu_eq, (focus_pollMenu _).2]
    exact (focus_promise _ _).2.trans hrepaired
  · exact hrepaired

theorem rank_setCaret {rank : Nat ×ₗ Nat} {r : Region V} {index caret : Nat} (h : r.rank = rank) :
    (r.modifyView index (·.setCaret caret)).rank = rank := by
  rw [← h, Region.rank, Region.drifts_setCaret]
  rfl

theorem rank_run (e : Editor V) (m : Move) : (e.run m).region.rank = e.region.rank :=
  run_region (P := fun r => r.rank = e.region.rank) rank_setCaret rfl m

namespace Underway

omit [Payload V] in
theorem run (h : e.Underway l) (m : Move) : (e.run m).Underway l := by
  have hregion : (e.run m).region.Projected ∧ (e.run m).region.language = l :=
    run_region (P := fun r => r.Projected ∧ r.language = l)
      (fun hr => ⟨hr.1.modifyView _ (.setCaret _), hr.2⟩) ⟨h.projected, h.language⟩ m
  exact ⟨hregion.1, hregion.2, selection_run h.selection m⟩

theorem edits (h : e.Underway l) {r : Region V} (hr : e.region.Edits r) :
    ({ e with region := r } : Editor V).Underway l :=
  ⟨hr.moves.projected h.projected, hr.language.trans h.language, h.selection⟩

theorem clearSelection (hp : e.region.Projected) (hl : e.region.language = l) :
    wp clearSelection (fun _ e' => e'.Underway l) (fun _ _ => True) e := by
  unfold Editor.clearSelection
  rw [wp_bind, wp_get]
  split
  · rename_i hnone
    exact ⟨hp, hl, hnone⟩
  · rename_i s _
    have hstart : { e with selection := none }.closeMenu.Underway l := ⟨hp, hl, rfl⟩
    have hpasses : Region.Undergoes .edits (Region.splice s.start s.stop ([] : List (Token V))) :=
      .splice nofun
    rw [wp_bind, wp_set, wp_bind, wp_onRegion]
    refine wp_mono (hpasses _) (fun _ r hr => ?_) fun _ _ _ => trivial
    have hspliced := hstart.edits (.of_passes hr)
    generalize ({ { e with selection := none }.closeMenu with region := r } : Editor V) = e₁ at hspliced
    rw [wp_bind, wp_get]
    dsimp only
    split_ifs
    · have hemptied : { e₁ with emptied := e₁.emptied + 1 }.Underway l := hspliced.congr rfl rfl
      exact hemptied.run _
    · exact hspliced.run _
    · exact hspliced.run _

omit [Payload V] in
theorem typingTarget (h : e.Underway l) (index : Nat) : (e.typingTarget index).2.Underway l := by
  have hselect : ∀ i, (e.selectToken i .last).Underway l := by
    intro i
    have hregion := selectToken_region (P := fun r => r.Projected ∧ r.language = l)
      (fun hr => ⟨hr.1.modifyView _ (.setCaret _), hr.2⟩) ⟨h.projected, h.language⟩ i .last
    exact ⟨hregion.1, hregion.2, selection_selectToken.trans h.selection⟩
  unfold Editor.typingTarget
  split
  · exact h
  · dsimp only
    split_ifs
    · exact hselect _
    · exact h

end Underway

theorem removed_removeBefore (kind : ContextKind) (target index : Nat) (e : Editor V) :
    wp (removeBefore kind target index) (fun _ e' => e.region.Removed 1 target (target - 1) e'.region)
      (fun _ _ => True) e := by
  unfold removeBefore
  split_ifs with hkind hout
  · trivial
  · trivial
  · rw [wp_onRegion]
    exact Region.removed_remove (Nat.lt_of_not_le hout)

theorem edits_applyEffect (offer : Offer V) (effect : Effect V) (e : Editor V) :
    wp (applyEffect offer effect) (fun _ e' => ∃ r, e' = { e with region := r } ∧ e.region.Edits r)
      (fun _ e' => ∃ r, e' = { e with region := r } ∧ e.region.Edits r) e := by
  let I (e' : Editor V) : Prop := ∃ r, e' = { e with region := r } ∧ e.region.Edits r
  have onRegion : ∀ {α : Type} {f : RegionM V α}, Region.Undergoes .edits f → ∀ {e' : Editor V}, I e' →
      wp (onRegion f) (fun _ => I) (fun _ => I) e' := by
    rintro α f hf _ ⟨r, rfl, hr⟩
    rw [wp_onRegion]
    exact wp_mono (hf r) (fun _ r' h => ⟨r', rfl, hr.trans (.of_passes h)⟩) fun _ r' h =>
      ⟨r', rfl, hr.trans (.of_passes h)⟩
  have spliceUpdated : ∀ {start stop : Nat} {new : List (Token V)} {e' : Editor V}, I e' →
      wp (spliceUpdated start stop new) (fun _ => I) (fun _ => I) e' := fun h =>
    wp_seq (onRegion (.splice fun _ _ => trivial) h) fun _ _ h => onRegion .updateToPrinted h
  refine wp_applyEffect (I := I) ?_ (fun placement target selected tokens h => ?_)
    (fun kind target index h => ?_) offer effect ⟨e.region, rfl, .refl _⟩
  · rintro _ cells ⟨r, rfl, hr⟩
    exact ⟨_, rfl, hr.trans (r.edits_setCells cells)⟩
  · cases placement with
    | replace =>
      unfold complete completeReplacing
      rw [wp_bind, wp_get]
      split
      · exact h
      · exact wp_seq (spliceUpdated h) fun _ _ h => h
    | beside params => exact (wp_bind _ _).2 (wp_seq (spliceUpdated h) fun _ _ h => h)
    | fill => exact (wp_bind _ _).2 (wp_seq (spliceUpdated h) fun _ _ h => h)
  · unfold removeBefore
    split_ifs
    · exact h
    · exact h
    · exact onRegion .remove h

theorem Drifted.isDrifted (h : e.Drifted i v t) (hp : e.region.Projected) : Region.isDrifted (v, t) := by
  have hplain : t.isValue = false := by
    have heditable := (hp.projects h.view h.token).editable
    rw [h.editable] at heditable
    simpa using heditable.symm
  have hne := h.ne
  rw [Token.text_of_not_isValue hplain _ {}] at hne
  simp [Region.isDrifted, hplain, hne]

section
variable {r : Region V} {offer : Offer V} {n target : Nat} (hplace : offer.placement = .replace)
  (hp : r.Projected) (hv : r.views[target]? = some v) (ht : r.tokens[target]? = some t)
  (hdrifted : Region.isDrifted (v, t))
include hplace hp hv ht hdrifted

/-- What comes after a completion of the drifted view does not matter. -/
theorem rank_applyEffect_complete (h : r.Removed n target offer.target e.region) (selected : Nat)
    (tokens : List (Token V)) (next : Move → Effect V) :
    wp (complete offer.placement offer.target selected tokens >>= fun move =>
      applyEffect offer (next move)) (fun _ e' => e'.region.rank < r.rank) (fun _ _ => True) e := by
  have hp₁ := h.edits.moves.projected hp
  have hle := h.edits.moves.drifts_le hp
  have hv₁ : e.views[offer.target]? = some v := h.view.trans hv
  have haligned : Region.Undergoes .edits (Region.updateToPrinted : RegionM V Unit) := .updateToPrinted
  have hcompleted : wp (complete offer.placement offer.target selected tokens)
      (fun _ e₁ => e₁.region.Projected ∧ e₁.region.drifts < r.drifts) (fun _ _ => True) e := by
    simp only [hplace, complete, completeReplacing, spliceUpdated]
    rw [wp_bind, wp_get, hv₁]
    simp only [wp_bind, wp_onRegion]
    refine wp_mono (Region.respliced_drifts hp₁ hv₁ (h.token.trans ht) hdrifted) ?_
      fun _ _ _ => trivial
    rintro _ r₂ ⟨hp₂, hlt⟩
    refine wp_mono (haligned r₂) (fun _ r₃ hr₃ => ?_) fun _ _ _ => trivial
    have hmoves := Region.Moves.of_passes hr₃
    have hlast := hmoves.drifts_le hp₂
    exact ⟨hmoves.projected hp₂, by show r₃.drifts < _; omega⟩
  refine wp_seq hcompleted fun move e₁ h₁ => ?_
  refine wp_mono (edits_applyEffect offer (next move) e₁) ?_ fun _ _ _ => trivial
  rintro _ _ ⟨r', rfl, hr'⟩
  exact Region.rank_lt_of_drifts (Nat.lt_of_le_of_lt (hr'.moves.drifts_le h₁.1) h₁.2)

/-- By induction on the effect, as long as it removes tokens. -/
theorem rank_applyEffect_direct {effect : Effect V} (heffect : effect.Direct)
    (h : r.Removed (n + 1) target offer.target e.region) :
    wp (applyEffect offer effect) (fun _ e' => e'.region.rank < r.rank) (fun _ _ => True) e := by
  induction effect generalizing offer e n with
  | done move =>
    have hlength := h.length
    exact Region.rank_lt_of_length (h.edits.moves.drifts_le hp) (by omega)
  | fail err => trivial
  | look change next ih =>
    rw [applyEffect, wp_bind, wp_get, wp_bind, wp_onRegion]
    exact ih _ _ (n := n) hplace (heffect _ _) (h.trans (Region.removed_setCells _ _ _))
  | complete selected tokens next _ =>
    rw [applyEffect_complete _ _ _ heffect.1]
    exact rank_applyEffect_complete hplace hp hv ht hdrifted h _ _ fun move => next (.ok move)
  | remove index next ih =>
    rw [applyEffect_remove _ _ heffect.1]
    refine wp_seq (removed_removeBefore _ _ _ e) fun t e₁ h₁ => ?_
    have hnext := h.trans h₁
    exact ih (.ok t) hplace (heffect.2 t) hnext

/-- An effect that calls for something brings the rank down. -/
theorem rank_applyEffect {same : Prop} {effect : Effect V} (heffect : effect.Frugal same) {cells : Cells}
    (hsame : same → cells = r.cells) (htarget : offer.target = target)
    (he : e.region = { r with cells := cells }) :
    wp (applyEffect offer effect) (fun move e' => e'.region = r ∧ move = .stay ∨ e'.region.rank < r.rank)
      (fun _ _ => True) e := by
  have hremoved : r.Removed 0 target offer.target e.region := by
    rw [he, htarget]
    exact r.removed_setCells target cells
  induction effect generalizing same cells e with
  | done move =>
    obtain ⟨hcells, rfl⟩ := heffect
    rw [hsame hcells] at he
    exact .inl ⟨he, rfl⟩
  | fail err => trivial
  | look change next ih =>
    rw [applyEffect, wp_bind, wp_get, wp_bind, wp_onRegion]
    refine ih _ _ (heffect (e.scope offer) e.region.cells) (fun h => h.2.trans ?_) ?_
      (hremoved.trans (Region.removed_setCells _ _ _))
    · rw [he]
      exact hsame h.1
    · exact congrArg (fun r' : Region V =>
        { r' with cells := change (e.scope offer) e.region.cells }) he
  | complete selected tokens next _ =>
    rw [applyEffect_complete _ _ _ heffect.1]
    exact wp_mono (rank_applyEffect_complete hplace hp hv ht hdrifted hremoved _ _ fun move =>
      next (.ok move)) (fun _ _ h => .inr h) fun _ _ h => h
  | remove index next _ =>
    rw [applyEffect_remove _ _ heffect.1]
    refine wp_seq (removed_removeBefore _ _ _ e) fun t e₁ h₁ => ?_
    have hplace' : ({ offer with target := offer.target - 1 } : Offer V).placement = .replace := hplace
    have hnext : r.Removed (0 + 1) target (offer.target - 1) e₁.region := hremoved.trans h₁
    exact wp_mono (rank_applyEffect_direct hplace' hp hv ht hdrifted (heffect.2 t) hnext)
      (fun _ _ h => .inr h) fun _ _ h => h

end

/-- An item leaves the editor alone, or brings the rank down. -/
theorem Underway.applyItem (h : e.Underway l) (hl : l.Frugal) (hdrifted : e.Drifted i v t)
    {item : Item V} (hitem : item ∈ ((Supplier.token i).offer .typing e).items) (text : Text) :
    wp (applyItem ((Supplier.token i).offer .typing e) item text) (fun move e' => e'.Underway l ∧
      (e' = e ∧ move = .stay ∨ e'.region.rank < e.region.rank)) (fun _ _ => True) e := by
  have hitem' : item ∈ l.tokenItems e.region.cells ((Supplier.token i).context .typing e.region) .typing := by
    rw [← h.language]
    simpa [Supplier.offer, Supplier.calls, Language.answer, Params.typing] using hitem
  have hfrugal := hl item hitem' (e.scope ((Supplier.token i).offer .typing e)) text e.region.cells
  unfold Editor.applyItem
  rw [wp_bind, wp_get, wp_bind, wp_onRegion, Region.wp_onCells]
  refine wp_mono (wp_and (edits_applyEffect _ _ _) (rank_applyEffect rfl h.projected hdrifted.view
    hdrifted.token (hdrifted.isDrifted h.projected) hfrugal id rfl rfl)) ?_ fun _ _ _ => trivial
  rintro move _ ⟨⟨r, rfl, hr⟩, hrank⟩
  refine ⟨h.edits ((e.region.edits_setCells _).trans hr), ?_⟩
  rcases hrank with ⟨rfl, rfl⟩ | hlt
  · exact .inl ⟨rfl, rfl⟩
  · exact .inr hlt

theorem Underway.completes (h : e.Underway l) (hl : l.Frugal) (hc : e.Completes i e') :
    e'.Underway l ∧
      (e' = e ∨ e' = e.closeMenu.run .stay ∨ e'.region.rank < e.region.rank) := by
  obtain ⟨v, t, hdrifted, hrun⟩ := hc
  have hwp : wp (completeMatch ((Supplier.token i).offer .typing e) v.text) (fun _ e' => e'.Underway l ∧
      (e' = e ∨ e' = e.closeMenu.run .stay ∨ e'.region.rank < e.region.rank)) (fun _ _ => True) e := by
    unfold completeMatch applyMatch
    split
    · exact ⟨h, .inl rfl⟩
    · rename_i item rest hmatching
      have hitem : item ∈ ((Supplier.token i).offer .typing e).items :=
        Item.mem_of_mem_matching (hmatching ▸ List.mem_cons_self)
      simp only [bind_assoc, pure_bind]
      refine wp_seq (h.applyItem hl hdrifted hitem v.text) ?_
      rintro move e₁ ⟨h₁, ⟨rfl, rfl⟩ | hlt⟩
      · have hclosed : e₁.closeMenu.Underway l := h₁.congr rfl rfl
        exact ⟨hclosed.run _, .inr (.inl rfl)⟩
      · have hclosed : e₁.closeMenu.Underway l := h₁.congr rfl rfl
        refine ⟨hclosed.run _, .inr (.inr ?_)⟩
        rw [rank_run]
        exact hlt
  rw [wp, hrun] at hwp
  exact hwp

/-! ### Rounds bring the rank down -/

/-- Counts the drifted views, then the tokens, then those before the focus; and last the menu counts if
it is open. -/
def rank (e : Editor V) : (Nat ×ₗ Nat) ×ₗ Nat ×ₗ Nat :=
  toLex (e.region.rank, toLex (e.focusedIndex?.getD 0, if e.menu.isBlank then 0 else 1))

theorem rank_lt_of_region (h : e'.region.rank < e.region.rank) : e'.rank < e.rank :=
  Prod.Lex.toLex_lt_toLex.2 (.inl h)

theorem rank_lt_of_focus (hregion : e'.region.rank = e.region.rank)
    (h : e'.focusedIndex?.getD 0 < e.focusedIndex?.getD 0) : e'.rank < e.rank :=
  Prod.Lex.toLex_lt_toLex.2 (.inr ⟨hregion, Prod.Lex.toLex_lt_toLex.2 (.inl h)⟩)

section
omit [Payload V]

theorem focusLost_of_focusedIndex? (h : e.focusedIndex? = some index) : e.focusLost = false := by
  unfold focusedIndex? at h
  unfold focusLost
  split at h
  · rename_i id hfocus
    simp [h]
  · cases h

theorem run_stay (hfocus : e.focusedIndex? = some index) (hsel : e.selection = none) :
    e.run .stay = e := by
  have hlost : ¬ (e.focusLost = true) := by simp [focusLost_of_focusedIndex? hfocus]
  have hfocused : e.refocused = e := if_neg hlost
  have hrepaired : e.repairFocus = e := by rw [repairFocus_eq, hfocused, hsel]
  exact (run_eq .stay e).trans hrepaired

theorem closeMenu_of_isBlank (h : e.menu.isBlank) : e.closeMenu = e := by
  obtain ⟨region, settings, focus, placeholder, selection, ⟨active, pending, received⟩, channels, owed,
    emptied⟩ := e
  simp only [Menu.isBlank, Bool.and_eq_true, Bool.not_eq_true', Option.isNone_iff_eq_none] at h
  obtain ⟨⟨rfl, rfl⟩, rfl⟩ := h
  rfl

/-- The view at an index has the focus, or one before it that goes by the same number. -/
theorem focusedIndex?_selectToken (hv : e.views[index]? = some v) (position : Position) :
    ∃ j ≤ index, (e.selectToken index position).focusedIndex? = some j := by
  have hthere : ∃ j ≤ index, e.region.viewPosition? v.id = some j := by
    obtain ⟨j, hj⟩ := Option.isSome_iff_exists.1
      (isSome_viewPosition?_iff.2 ⟨v, List.mem_of_getElem? hv, rfl⟩)
    refine ⟨j, ?_, hj⟩
    obtain ⟨hlt, hget⟩ := List.getElem?_eq_some_iff.1 hv
    obtain ⟨_, -, hfirst⟩ := List.findIdx?_eq_some_iff_getElem.1 hj
    by_contra hgt
    have hnot := hfirst index (Nat.lt_of_not_le hgt)
    rw [show e.region.views[index] = v from hget] at hnot
    simp at hnot
  have hsame : ∀ caret, ((e.modifyView index (·.setCaret caret)).region.viewPosition? v.id) =
      e.region.viewPosition? v.id := fun caret => viewPosition?_modifyView (.setCaret caret) v.id
  obtain ⟨j, hle, hj⟩ := hthere
  refine ⟨j, hle, ?_⟩
  unfold selectToken
  rw [hv]
  dsimp only
  split_ifs <;> exact (hsame _).trans hj

theorem typingTarget_eq (index : Nat) : e.typingTarget index = (index, e) ∨
    ∃ i v, index = i + 1 ∧ e.views[i]? = some v ∧ e.typingTarget index = (i, e.selectToken i .last) := by
  cases index with
  | zero => exact .inl rfl
  | succ i =>
    unfold typingTarget
    dsimp only
    split_ifs with hglued
    · rw [Bool.and_eq_true] at hglued
      obtain ⟨v, hv, -⟩ := (Option.any_eq_true _ _).1 hglued.2
      exact .inr ⟨i, v, rfl, hv, rfl⟩
    · exact .inl rfl

end

omit [Payload V] in
/-- What is typed before a token with a space on its left does not go to its neighbour. -/
theorem typingTarget_of_unglued {index : Nat} {v : View} (hglue : v.glue.left = false)
    (hv : e.views[index]? = some v) : e.typingTarget index = (index, e) := by
  unfold typingTarget
  split
  · rfl
  · simp [hv, hglue]

/-- A round that comes to typing again has changed nothing, or brought the rank down. -/
theorem Underway.descends (h : e.Underway l) (hl : l.Frugal) (ha : e.Again e') :
    e' = e ∨ e'.rank < e.rank := by
  obtain @⟨e₁, e₀, index, i, hclear, hindex, htarget, hcompletes⟩ := ha
  obtain rfl : e₁ = e := by
    have hwp : wp Editor.clearSelection (fun _ e₁ => e₁ = e) (fun _ _ => True) e := by
      unfold Editor.clearSelection
      rw [wp_bind, wp_get, h.selection]
      rfl
    rwa [wp, hclear] at hwp
  rcases typingTarget_eq (e := e₁) index with hstays | ⟨j, v, rfl, hv, hmoved⟩
  · obtain ⟨rfl, rfl⟩ : index = i ∧ e₁ = e₀ := by
      rw [hstays] at htarget
      exact Prod.mk.inj htarget
    rcases (h.completes hl hcompletes).2 with rfl | rfl | hlt
    · exact .inl rfl
    · rw [run_stay (e := e₁.closeMenu) hindex h.selection]
      cases hblank : e₁.menu.isBlank with
      | true => exact .inl (closeMenu_of_isBlank hblank)
      | false =>
        have hmenu : (if e₁.closeMenu.menu.isBlank then 0 else 1) < if e₁.menu.isBlank then 0 else 1 := by
          rw [hblank]
          exact Nat.zero_lt_one
        exact .inr (Prod.Lex.toLex_lt_toLex.2
          (.inr ⟨rfl, Prod.Lex.toLex_lt_toLex.2 (.inr ⟨rfl, hmenu⟩)⟩))
    · exact .inr (rank_lt_of_region hlt)
  · -- the focus has gone to the token before
    obtain ⟨rfl, rfl⟩ : j = i ∧ e₁.selectToken j .last = e₀ := by
      rw [hmoved] at htarget
      exact Prod.mk.inj htarget
    have h₀ : (e₁.selectToken j .last).Underway l := by
      have htarget := h.typingTarget (j + 1)
      rwa [hmoved] at htarget
    have hregion : (e₁.selectToken j .last).region.rank = e₁.region.rank :=
      selectToken_region (P := fun r => r.rank = e₁.region.rank) rank_setCaret rfl j .last
    obtain ⟨k, hle, hk⟩ := focusedIndex?_selectToken hv .last
    have hbefore : (e₁.selectToken j .last).focusedIndex?.getD 0 < e₁.focusedIndex?.getD 0 := by
      rw [hk, hindex]
      exact Nat.lt_succ_of_le hle
    rcases (h₀.completes hl hcompletes).2 with rfl | rfl | hlt
    · exact .inr (rank_lt_of_focus hregion hbefore)
    · rw [run_stay (e := (e₁.selectToken j .last).closeMenu) hk h₀.selection]
      exact .inr (rank_lt_of_focus hregion hbefore)
    · exact .inr (rank_lt_of_region (hregion ▸ hlt))

theorem Again.underway (hp : e.region.Projected) (hfrugal : e.region.language.Frugal)
    (ha : e.Again e') : e'.Underway e.region.language := by
  obtain @⟨e₁, e₀, index, i, hclear, -, htarget, hcompletes⟩ := ha
  have h₁ := Underway.clearSelection hp rfl
  rw [wp, hclear] at h₁
  have h₀ := h₁.typingTarget index
  rw [htarget] at h₀
  exact (h₀.completes hfrugal hcompletes).1

/-! ### Coming to rest -/

/-- Typing `c` at `e` comes to typing `c` at `e'`, whatever that does. -/
def Retypes (c : Char) (e e' : Editor V) : Prop :=
  ∀ retype, typeWith retype c e = retype c e'

/-- Typing ends by itself: from some limit on it gives one and the same result, whatever is done to
give it up. -/
def ComesToRest (c : Char) (e : Editor V) : Prop :=
  ∃ limit r, ∀ giveUp n, limit ≤ n → typeWithin giveUp n c e = r

/-- A round that is over does not tell ways of retyping apart. -/
theorem round_again {r r' : EStateM.Result EditError (Editor V) Unit} {retype retype' : Char → EditM V Unit}
    (h : typeWith retype c e = r) (h' : typeWith retype' c e = r') (hne : r ≠ r') :
    ∃ e', Again e e' ∧ Retypes c e e' := by
  rcases round_typeWith c e with ⟨result, hover⟩ | hagain
  · beta_reduce at hover
    rw [hover] at h h'
    exact absurd (h.symm.trans h') hne
  · exact hagain

theorem Retypes.again (h : Retypes c e e') : e.Again e' := by
  obtain ⟨e'', hagain, hretypes⟩ := round_again (h fun _ => pure ()) (h fun _ => throw .stalled) nofun
  have hsame := (hretypes fun _ => pure ()).symm.trans (h fun _ => pure ())
  obtain rfl : e'' = e' := by cases hsame; rfl
  exact hagain

theorem Retypes.comesToRest_iff (h : Retypes c e e') : ComesToRest c e ↔ ComesToRest c e' := by
  constructor
  · rintro ⟨limit, r, hlimit⟩
    exact ⟨limit, r, fun giveUp n hn =>
      (h (typeWithin giveUp n)).symm.trans (hlimit giveUp (n + 1) (by omega))⟩
  · rintro ⟨limit, r, hlimit⟩
    refine ⟨limit + 1, r, fun giveUp n hn => ?_⟩
    obtain ⟨m, rfl⟩ : ∃ m, n = m + 1 := ⟨n - 1, by omega⟩
    exact (h (typeWithin giveUp m)).trans (hlimit giveUp m (by omega))

theorem comesToRest_iff_of_path {e₁ : Editor V} (h : Relation.ReflTransGen (Retypes c) e e₁) :
    ComesToRest c e ↔ ComesToRest c e₁ := by
  induction h with
  | refl => exact Iff.rfl
  | tail _ hretypes ih => exact ih.trans hretypes.comesToRest_iff

theorem Retypes.not_comesToRest (h : Retypes c e e) : ¬ ComesToRest c e := by
  have hgives : ∀ giveUp n, typeWithin giveUp n c e = giveUp e := by
    intro giveUp n
    induction n with
    | zero => rfl
    | succ n ih => exact (h (typeWithin giveUp n)).trans ih
  rintro ⟨limit, r, hlimit⟩
  have hok := (hlimit (pure ()) limit (Nat.le_refl _)).symm.trans (hgives _ limit)
  have hfails := (hlimit (throw .stalled) limit (Nat.le_refl _)).symm.trans (hgives _ limit)
  cases hok.symm.trans hfails

theorem comesToRest_of_not_retypes (h : ¬ ∃ e', Retypes c e e') : ComesToRest c e := by
  rcases round_typeWith c e with ⟨r, hover⟩ | ⟨e', -, hretype⟩
  · refine ⟨1, r, fun giveUp n hn => ?_⟩
    obtain ⟨m, rfl⟩ : ∃ m, n = m + 1 := ⟨n - 1, by omega⟩
    exact hover (typeWithin giveUp m)
  · exact absurd ⟨e', hretype⟩ h

/-- By induction on the rank, which every round brings down that is not the last or a loop. -/
theorem Underway.comesToRest (h : e.Underway l) (hl : l.Frugal)
    (hloop : ¬ ∃ e₁, Relation.ReflTransGen (Retypes c) e e₁ ∧ Retypes c e₁ e₁) : ComesToRest c e := by
  have hwf : WellFounded fun e' e : Editor V => e'.rank < e.rank := InvImage.wf rank wellFounded_lt
  induction e using hwf.induction with
  | _ e ih =>
    by_cases hagain : ∃ e', Retypes c e e'
    · obtain ⟨e', hretypes⟩ := hagain
      rcases h.descends hl hretypes.again with rfl | hlt
      · exact absurd ⟨e', .refl, hretypes⟩ hloop
      · have h' := hretypes.again.underway h.projected (h.language ▸ hl)
        rw [h.language] at h'
        exact hretypes.comesToRest_iff.2
          (ih e' hlt h' fun ⟨e₁, hpath, hself⟩ => hloop ⟨e₁, hpath.head hretypes, hself⟩)
    · exact comesToRest_of_not_retypes hagain

theorem projected_afterAll (h : e.region.Projected) (ops : List (Op V)) :
    (afterAll ops e).region.Projected :=
  region_afterAll (fun hf hr => hr.modifyView _ hf) (fun hr => hr) (fun {act r} hr =>
    wp_mono (act.moves r) (fun _ _ hm => hm.projected hr) fun _ _ hm => hm.projected hr) ops h

/-- In every editor that any operations have led to, failing or not, typing comes to rest unless it gets
to an editor in which it comes back to that very editor. -/
theorem typing_rests_iff (l : Language V) (cells : Cells) (settings : Settings) (ops : List (Op V))
    (he : afterAll ops (Editor.new l cells settings) = e) (hfrugal : e.region.language.Frugal) (c : Char) :
    ComesToRest c e ↔ ¬ ∃ e₁, Relation.ReflTransGen (Retypes c) e e₁ ∧ Retypes c e₁ e₁ := by
  have hnew : (Editor.new l cells settings).region.Projected := List.Forall₂.nil
  have hp : e.region.Projected := he ▸ projected_afterAll hnew ops
  constructor
  · rintro hrests ⟨e₁, hpath, hself⟩
    exact hself.not_comesToRest ((comesToRest_iff_of_path hpath).1 hrests)
  · intro hloop
    by_cases hagain : ∃ e', Retypes c e e'
    · obtain ⟨e', hretypes⟩ := hagain
      have h' := hretypes.again.underway hp hfrugal
      exact hretypes.comesToRest_iff.2 (h'.comesToRest hfrugal
        fun ⟨e₁, hpath, hself⟩ => hloop ⟨e₁, hpath.head hretypes, hself⟩)
    · exact comesToRest_of_not_retypes hagain

theorem retypes_of_differ {e'' : Editor V}
    (h : typeWith (fun _ => throw .stalled) c e = .error .stalled e')
    (h' : typeWith (fun _ => pure ()) c e = .ok () e'') : Retypes c e e' := by
  obtain ⟨e₁, -, hretypes⟩ := round_again h h' nofun
  have hsame : (throw .stalled : EditM V Unit) e₁ = .error .stalled e' := (hretypes _).symm.trans h
  injection hsame with _ hsame
  exact hsame ▸ hretypes

/-- A round that has not brought the rank down has changed nothing. -/
theorem Underway.eq_of_rank_eq (h : e.Underway l) (hl : l.Frugal) (hretypes : Retypes c e e')
    (hrank : e'.rank = e.rank) : e' = e :=
  (h.descends hl hretypes.again).resolve_right (hrank ▸ lt_irrefl e.rank)

theorem language_afterAll {ops : List (Op V)} (hops : ∀ op ∈ ops, ∀ l, op ≠ .setLanguage l) :
    (afterAll ops e).region.language = e.region.language := by
  have hspeaks : ∀ op ∈ ops, op.Speaks (fun l => l = e.region.language) fun _ => True := by
    intro op hop
    cases op with
    | setLanguage l => exact absurd rfl (hops _ hop l)
    | answer items => exact fun _ _ => trivial
    | send id items => exact fun _ _ => trivial
    | _ => trivial
  have hsupplied : e.Supplied (fun l => l = e.region.language) fun _ => True :=
    ⟨rfl, fun _ _ => trivial⟩
  exact (hsupplied.afterAll (fun l _ => l.offers_any) hspeaks).language

/-- The sums with a single item, which stands for `ab` and asks for nothing. -/
def idleSums : Language Sum :=
  { Sum.language {} with
    tokenItems := fun _ _ _ => [Item.exact ['a', 'b'] fun _ _ => pure (.plain [] none)] }

theorem idleSums_frugal : idleSums.Frugal := by
  intro cells context params i hi scope t cells'
  obtain rfl : i = _ := List.mem_singleton.1 hi
  exact ⟨rfl, rfl⟩

/-- Typing was given up, at an editor with `test`. -/
def stallsWith (test : Editor V → Bool) : EStateM.Result EditError (Editor V) Unit → Bool
  | .error .stalled e => test e
  | _ => false

omit [Payload V] in
theorem exists_of_stallsWith {test : Editor V → Bool} {r : EStateM.Result EditError (Editor V) Unit}
    (h : stallsWith test r) : ∃ e, r = .error .stalled e ∧ test e := by
  unfold stallsWith at h
  split at h
  · exact ⟨_, rfl, h⟩
  · cases h

/-- Once the view of `a` reads `ab`, typing another character there never comes to rest. -/
theorem typing_rests_iff_idle : ∃ e : Editor Sum,
    afterAll [.setTokens [.error ['a']], .selectToken 0 .last, .typeChar 'b']
      (Editor.new idleSums {} {}) = e ∧ e.views.map View.text = [['a', 'b']] ∧
      Retypes 'c' e e ∧ ¬ ComesToRest 'c' e := by
  have htest : (fun e : Editor Sum => e.views.map View.text == [['a', 'b']] && e.selection.isNone &&
      stallsWith (fun e' => decide (e'.rank = e.rank)) (typeWith (fun _ => throw .stalled) 'c' e) &&
      endsWith (typeWith (fun _ => pure ()) 'c') (fun _ _ => true) e)
      (afterAll [.setTokens [.error ['a']], .selectToken 0 .last, .typeChar 'b']
        (Editor.new idleSums {} {})) = true := by
    decide +kernel
  have hlanguage : (afterAll [.setTokens [.error ['a']], .selectToken 0 .last, .typeChar 'b']
      (Editor.new idleSums {} {})).region.language = idleSums := language_afterAll (by simp)
  have hprojected : (afterAll [.setTokens [.error ['a']], .selectToken 0 .last, .typeChar 'b']
      (Editor.new idleSums {} {})).region.Projected :=
    projected_afterAll (e := Editor.new idleSums {} {}) List.Forall₂.nil _
  generalize he : afterAll [.setTokens [.error ['a']], .selectToken 0 .last, .typeChar 'b']
    (Editor.new idleSums {} {}) = e at htest hlanguage hprojected
  have hrests := typing_rests_iff idleSums {} {} _ he (by rw [hlanguage]; exact idleSums_frugal) 'c'
  simp only [Bool.and_eq_true, beq_iff_eq, Option.isNone_iff_eq_none] at htest
  obtain ⟨⟨⟨htexts, hselection⟩, hstalls⟩, hends⟩ := htest
  obtain ⟨e', hrun, hrank⟩ := exists_of_stallsWith hstalls
  obtain ⟨⟨⟩, e'', hends, -⟩ := exists_of_endsWith hends
  have hretypes := retypes_of_differ hrun hends
  have hunderway : e.Underway idleSums := ⟨hprojected, hlanguage, hselection⟩
  obtain rfl := hunderway.eq_of_rank_eq idleSums_frugal hretypes (of_decide_eq_true hrank)
  exact ⟨e', rfl, htexts, hretypes, fun hrest => hrests.1 hrest ⟨e', .refl, hretypes⟩⟩

end Editor

end TokenEditor
