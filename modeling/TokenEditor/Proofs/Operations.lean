import TokenEditor.Proofs.Steps

/-! # The operations of an editor, step by step

Every operation of an editor is a path of steps, whether it ends well or fails (`Op.leads`). An
operation that is an intent of the user, called on an editor in order, leaves one in order. The
lemmas follow the definitions: one for each function, under the assumptions that its callers
establish. -/

namespace TokenEditor.Editor
variable {V : Type} [Payload V] {T : Terms V} {p : Prop} {start e : Editor V}

namespace Walks

theorem spliceUpdated (start' stop : Nat) (new : List (Token V)) :
    Walks T p start (spliceUpdated start' stop new) :=
  (splice start' stop new).bind fun _ => act .align (.inl trivial)

theorem completeReplacing (target selected : Nat) (new : List (Token V)) :
    Walks T p start (completeReplacing target selected new) := by
  refine get.bind fun e => ?_
  split
  · exact throw (by simp)
  · exact (spliceUpdated _ _ _).bind fun _ => get.bind fun _ => pure _

theorem completeBeside (params : Params) (target selected : Nat) (new : List (Token V)) :
    Walks T p start (completeBeside params target selected new) :=
  get.bind fun _ => (spliceUpdated _ _ _).bind fun _ => get.bind fun _ => pure _

theorem completeFilling (selected : Nat) (new : List (Token V)) :
    Walks T p start (completeFilling selected new) :=
  get.bind fun _ => (spliceUpdated _ _ _).bind fun _ => get.bind fun _ => pure _

theorem complete (placement : Placement) (target selected : Nat) (new : List (Token V)) :
    Walks T p start (complete placement target selected new) := by
  cases placement with
  | replace => exact completeReplacing target selected new
  | beside params => exact completeBeside params target selected new
  | fill => exact completeFilling selected new

theorem removeBefore (kind : ContextKind) (target index : Nat) :
    Walks T p start (removeBefore kind target index : EditM V (Token V)) := by
  unfold Editor.removeBefore
  split_ifs
  · exact throw (by simp)
  · exact throw (by simp)
  · exact remove index

/-- By induction on the effect. After a call that failed it ends with that error, or goes on from
where the call has left the editor. -/
theorem applyEffect (offer : Offer V) {effect : Effect V} (hon : T.HandsOn → effect.HandsOn)
    (hsincere : T.Sincere → effect.Sincere) : Walks T p start (applyEffect offer effect) := by
  induction effect generalizing offer with
  | done move => exact pure move
  | fail err => exact fun e he => ⟨e, he, .inl ⟨rfl, hsincere⟩⟩
  | look change next ih =>
    exact get.bind fun e => onCells.bind fun _ =>
      ih _ _ offer (fun hT => hon hT _ _) fun hT => hsincere hT _ _
  | complete selected tokens next ih =>
    refine (complete _ _ _ _).observing (fun move => ?_) fun err => ?_
    · exact ih _ offer (fun hT => (hon hT).2 _) fun hT => (hsincere hT).1 move
    · by_cases hpass : next (.error err) = .fail err
      · exact .inl (by rw [hpass]; rfl)
      · exact .inr ⟨fun hT hmismatch => hpass ((hon hT).1 err hmismatch),
          ih _ offer (fun hT => (hon hT).2 _) fun hT => ((hsincere hT).2 err).resolve_left hpass⟩
  | remove index next ih =>
    refine (removeBefore _ _ _).observing (fun t => ?_) fun err => ?_
    · exact ih _ _ (fun hT => (hon hT).2 _) fun hT => (hsincere hT).1 t
    · by_cases hpass : next (.error err) = .fail err
      · exact .inl (by rw [hpass]; rfl)
      · exact .inr ⟨fun hT hmismatch => hpass ((hon hT).1 err hmismatch),
          ih _ _ (fun hT => (hon hT).2 _) fun hT => ((hsincere hT).2 err).resolve_left hpass⟩

theorem applyItem (offer : Offer V) {item : Item V} (hitem : T.items item) (t : Text) :
    Walks T p start (applyItem offer item t) := by
  refine get.bind fun e => fun e' he => ?_
  rw [wp_bind, wp_onRegion]
  exact applyEffect offer (fun hT => hT item hitem _ t _) (fun hT => hT item hitem _ t _) _
    (he.step (.cells _ _ _) rfl)

theorem reportEmptied : Walks T p start (reportEmptied : EditM V Move) :=
  Leads.bind (.modifies fun _ h => h.setEmptied _) fun _ => pure _

theorem shifted (index : Nat) (delta : Int) : Walks T p start (shifted index delta : EditM V Nat) := by
  unfold Editor.shifted
  split
  · exact pure _
  · exact get.bind fun _ => throw (by simp)

theorem deleteToken (index : Nat) (delta : Int) :
    Walks T p start (deleteToken index delta : EditM V Move) := by
  refine (shifted index delta).bind fun target => (remove target).discard.bind fun _ =>
    get.bind fun e => ?_
  split_ifs
  · exact reportEmptied
  all_goals exact pure _

theorem replaceToken (index : Nat) (t : Token V) : Walks T p start (replaceToken index t) :=
  (replace index t).discard.bind fun _ => get.bind fun _ => pure _

theorem mergeTokens (index : Nat) (backward : Bool) :
    Walks T p start (mergeTokens index backward : EditM V Move) := by
  have hrest : ∀ left, Walks T p start (mergeFrom left backward : EditM V Move) := fun left =>
    (tokenAt left).bind fun _ => (tokenAt (left + 1)).bind fun _ => get.bind fun _ =>
      onCells.bind fun _ => (splice _ _ _).bind fun _ => get.bind fun _ => pure _
  unfold Editor.mergeTokens
  split_ifs
  · exact (shifted index (-1)).bind hrest
  · exact (pure index).bind hrest

theorem expandToError (index : Nat) (text : Text) (delta : Nat) :
    Walks T p start (expandToError index text delta : EditM V Move) :=
  (splice _ _ _).bind fun _ => get.bind fun _ => pure _

theorem afterInsertion (start' count : Nat) :
    Walks T p start (afterInsertion start' count : EditM V Move) := by
  refine get.bind fun e => ?_
  split_ifs
  · exact reportEmptied
  · exact pure _

theorem replaceComment (index : Nat) : Walks T p start (replaceComment index : EditM V Move) := by
  refine (tokenAt index).bind fun t => get.bind fun e => ?_
  split
  · split
    · exact (replace _ _).discard.bind fun _ => pure _
    · exact get.bind fun _ => onCells.bind fun _ => (spliceUpdated _ _ _).bind fun _ =>
        afterInsertion _ _
  · exact pure _

end Walks

theorem Leads.thenRun {P : Editor V → Prop} {f : EditM V Move}
    (hf : Leads T p start P (Via T p start) f) :
    Leads T p start P (Rests T p start) (do
      let move ← f
      modify (Editor.run move)) :=
  hf.bind fun move => .modifies fun _ he => he.run move

namespace Settles

theorem pure {α : Type} (a : α) : Settles T p start (pure a : EditM V α) := fun _ h => h

theorem read {α : Type} {g : Editor V → EditM V α}
    (h : ∀ e, Via T p start e → Settles T p start (g e)) : Settles T p start (get >>= g) :=
  .get_bind fun e he => h e he.toVia e he

theorem completeMatch {offer : Offer V} (hitems : ∀ i ∈ offer.items, T.items i) (t : Text) :
    Settles T p start (completeMatch offer t) := by
  unfold Editor.completeMatch applyMatch
  split
  · exact pure _
  · rename_i item _ hmatching
    have hitem : item ∈ offer.items := Item.mem_of_mem_matching (t := t) (by simp [hmatching])
    simp only [bind_assoc, pure_bind]
    exact (Walks.applyItem offer (hitems item hitem) t).of_rests.bind fun move =>
      .modifies fun _ he => he.closeMenu.run move

theorem acceptItem (offer : Offer V) {item : Item V} (hitem : T.items item) (t : Text) :
    Settles T p start (acceptItem offer item t) := by
  refine (Walks.applyItem offer hitem t).of_rests.bind fun move => .modifies fun e he => ?_
  simp only
  split_ifs
  · exact (he.setPlaceholder []).closeMenu.run move
  · exact he.closeMenu.run move

theorem spliceAndSelect (start' stop : Nat) (new : List (Token V)) (index : Nat)
    (position : Position) : Leads T p start (Via T p start) (Rests T p start)
      (spliceAndSelect start' stop new index position) :=
  (Walks.spliceUpdated _ _ _).bind fun _ => .modifies fun _ he => he.run _

theorem afterType (index : Nat) : Settles T p start (afterType index : EditM V Bool) := by
  refine Leads.bind (fun _ h => h) fun e => ?_
  split
  · exact pure _
  · split_ifs
    · exact pure _
    · simp only
      split_ifs
      · exact Walks.onCells.of_rests.bind fun _ => Walks.onCells.bind fun _ =>
          (spliceAndSelect _ _ _ _ _).bind fun _ => pure _
      · exact Walks.onCells.of_rests.bind fun _ => Walks.onCells.bind fun _ =>
          Walks.onCells.bind fun _ => (spliceAndSelect _ _ _ _ _).bind fun _ => pure _
      · exact pure _

theorem afterPaste (start' stop : Nat) (text : Text) :
    Leads T p start (Via T p start) (Rests T p start) (afterPaste start' stop text) :=
  Walks.get.bind fun _ => Walks.onCells.bind fun _ => (Walks.spliceUpdated _ _ _).bind fun _ =>
    (Walks.afterInsertion _ _).thenRun

theorem clearSelection : Settles T p start (clearSelection : EditM V Unit) := by
  refine .get_bind fun e he => ?_
  split
  · exact he
  · rename_i s _
    have hclosed := he.toVia.deselect.closeMenu
    rw [wp_bind, wp_set]
    refine Leads.bind (Walks.splice s.start s.stop []) (fun _ => Walks.get.bind fun e' => ?_) _ hclosed
    simp only
    split_ifs
    · exact Walks.reportEmptied.thenRun
    · exact (Walks.pure _).thenRun
    · exact (Walks.pure _).thenRun

end Settles

/-- A splice that does not shorten the row, followed by the selection of a token put in, keeps an
editor in order without a repair. -/
theorem Rests.spliceThenSelect (h : Rests T p start e) {start' stop index : Nat}
    {new : List (Token V)} (position : Position) (hgrow : stop ≤ start' + new.length)
    (hto : index < start' + new.length) :
    wp (do
      onRegion (Region.splice start' stop new)
      modify (Editor.selectToken index position))
      (fun _ e' => Rests T p start e') (Fails T p start) e := by
  have hvia := wp_onRegion.1 (Walks.splice start' stop new e h.toVia)
  rw [wp_bind, wp_onRegion]
  refine wp_mono (wp_and hvia (Region.wp_splice_row start' stop new e.region)) ?_ fun _ _ h => h.1
  rintro - r ⟨hr, hle, hin, hrow⟩
  have hlen : r.tokens.length = start' + new.length + (e.region.tokens.length - stop) := by
    rw [hrow.tokens, Region.length_spliced new hle hin]
  refine ⟨hr.selectToken index position, fun hp => ⟨focusLost_selectToken ?_, fun s _ => ?_,
    fun hq s hs => ?_⟩⟩
  · have hviews : r.views.length = r.tokens.length := (hr.loose hp).views.length_eq
    show index < r.views.length
    omega
  · rw [tokens_selectToken]
    show 0 < r.tokens.length
    omega
  · rw [tokens_selectToken]
    have hsel : ({ e with region := r } : Editor V).selection = some s :=
      selection_selectToken.symm.trans hs
    have hfits : s.stop ≤ e.region.tokens.length := (h.placed hp).selection hq s hsel
    show s.stop ≤ r.tokens.length
    omega

theorem Rests.replaceThenSelect (h : Rests T p start e) (index : Nat) (t : Token V)
    (position : Position) :
    wp (do
      discard (onRegion (Region.replace index t))
      modify (Editor.selectToken index position))
      (fun _ e' => Rests T p start e') (Fails T p start) e := by
  simp only [wp_bind, wp_discard, wp_onRegion, Region.wp_replace]
  split
  · exact wp_onRegion.1 ((wp_bind _ _).1 (h.spliceThenSelect position (by simp) (by simp)))
  · exact .of_via h.toVia (by simp)

/-- Wherever an operation has got to, the items proposed there are those of `T`. -/
abbrev Supplies (T : Terms V) (p : Prop) (start : Editor V) : Prop :=
  ∀ e, Via T p start e → e.Proposes T.items

theorem supplies_any : Supplies .any p start :=
  fun _ _ => ⟨fun _ _ _ _ => trivial, fun _ _ _ => trivial⟩

namespace Settles

/-! ### Typing -/

section
variable (hitems : Supplies T p start)
include hitems

theorem typeInPlaceholder (c : Char) : Settles T p start (typeInPlaceholder c : EditM V Unit) := by
  refine .get_bind fun e he => ?_
  split
  · exact he
  · have htyped := he.setPlaceholder (e.placeholder ++ [c])
    have hcleared := htyped.setPlaceholder []
    rw [wp_bind, wp_set]
    simp only
    split
    · rw [wp_bind, wp_set]
      exact completeMatch ((hitems _ htyped.toVia).typingOffer _) _ _ hcleared
    · split
      · rw [wp_bind, wp_set]
        exact hcleared.spliceThenSelect .last (by simp) (by simp)
      · exact htyped

theorem typeBeside (index delta : Nat) (ownText : Option Text) (sideText : Text) :
    Settles T p start (typeBeside index delta ownText sideText : EditM V Unit) := by
  have hrest : ∀ params : Params, Settles T p start (do
      let e ← MonadState.get
      let offer := (Supplier.side index delta).offer params e
      if Item.hasSingleMatch offer.items sideText then Editor.completeMatch offer sideText
      else do
        let move ← expandToError index sideText delta
        modify (run move) : EditM V Unit) := by
    refine fun params => .read fun e he => ?_
    simp only
    split_ifs
    · exact completeMatch ((hitems e he).offer _ _) _
    · exact (Walks.expandToError _ _ _).of_rests.thenRun
  refine Leads.bind (fun _ h => h) fun e => ?_
  simp only
  split
  · exact Leads.bind (.modifies fun _ he => he.modifyView index (.setText _ _)) fun _ => hrest _
  · exact (pure _).bind fun _ => hrest _

theorem typeAtValue (index : Nat) (c : Char) :
    Settles T p start (typeAtValue index c : EditM V Unit) := by
  refine Leads.bind (fun _ h => h) fun e => ?_
  by_cases hc : c = ' '
  · simp only [if_pos hc]
    exact (Walks.expandToError _ _ _).of_rests.thenRun
  · simp only [if_neg hc]
    exact typeBeside hitems _ _ _ _

omit hitems in
theorem markUnresolved (index : Nat) (text : Text) (caret : Nat) :
    Settles T p start (markUnresolved index text caret : EditM V Unit) := by
  refine .get_bind fun e he => ?_
  split
  · split_ifs
    · exact he.selectToken _ _
    · exact he.replaceThenSelect _ _ _
  · exact he.replaceThenSelect _ _ _

variable {retype : Char → EditM V Unit} (hretype : ∀ c, Settles T p start (retype c))
include hretype

theorem completeThenRetype (index : Nat) (front : Text) (last : Option Char) :
    Settles T p start (completeThenRetype retype index front last) := by
  refine Leads.bind (.modifies fun _ he => he.modifyView index (.setText _ _)) fun _ =>
    read fun e he => (completeMatch ((hitems e he).offer _ _) _).bind fun _ => ?_
  split
  · exact hretype _
  · exact pure _

theorem resolveTyped (index : Nat) : Settles T p start (resolveTyped retype index) := by
  refine .read fun e he => ?_
  split
  · simp only
    split_ifs
    · exact completeMatch ((hitems e he).typingOffer _) _
    · exact typeBeside hitems _ _ _ _
    · exact completeThenRetype hitems hretype _ _ _
    · exact typeBeside hitems _ _ _ _
    · exact markUnresolved _ _ _
  · exact pure _

theorem typeSpace (index : Nat) : Settles T p start (typeSpace retype index) := by
  refine Leads.bind (fun _ h => h) fun e => ?_
  split
  · exact pure _
  · split_ifs
    all_goals first
      | exact resolveTyped hitems hretype _
      | exact Leads.bind (.modifies fun _ he => he.modifyView index .eraseBefore) fun _ =>
          (Walks.expandToError _ _ _).of_rests.thenRun

end

end Settles

theorem Rests.typingTarget (h : Rests T p start e) (index : Nat) :
    Rests T p start (e.typingTarget index).2 := by
  unfold Editor.typingTarget
  split
  · exact h
  · simp only
    split_ifs
    · exact (h.selectToken _ .last :)
    · exact h

namespace Settles

section
variable (hitems : Supplies T p start)
include hitems

section
variable {retype : Char → EditM V Unit} (hretype : ∀ c, Settles T p start (retype c))
include hretype

theorem typeAt (index : Nat) (c : Char) : Settles T p start (typeAt retype index c) := by
  refine .get_bind fun e he => ?_
  have htarget := he.typingTarget index
  generalize e.typingTarget index = target at htarget
  obtain ⟨index, e'⟩ := target
  simp only
  rw [wp_bind, wp_set]
  split
  · exact typeAtValue hitems _ _ _ htarget
  · rw [wp_bind, wp_modify]
    have hinserted := htarget.modifyView index (.insert [c])
    split
    · exact (Walks.replaceComment _).of_rests.thenRun _ hinserted
    · refine Leads.bind (afterType index) (fun split => ?_) _ hinserted
      split_ifs
      · exact pure _
      · exact typeSpace hitems hretype _
      · exact resolveTyped hitems hretype _

theorem typeWith (c : Char) : Settles T p start (typeWith retype c) := by
  refine clearSelection.bind fun _ => Leads.bind (fun _ h => h) fun e => ?_
  split
  · exact typeInPlaceholder hitems c
  · exact typeAt hitems hretype _ c

end

theorem typeWithin (limit : Nat) (c : Char) :
    Settles T p start (typeWithin (throw .stalled) limit c : EditM V Unit) := by
  induction limit generalizing c with
  | zero => exact .throw (fun _ => Rests.toVia) (by simp)
  | succ limit ih => exact typeWith hitems ih c

theorem typeChar (c : Char) : Settles T p start (typeChar c : EditM V Unit) :=
  Leads.bind (fun _ h => h) fun _ => typeWithin hitems _ c

theorem typeText (t : Text) : Settles T p start (typeText t : EditM V Unit) := by
  induction t with
  | nil => exact pure _
  | cons c t ih => exact (typeChar hitems c).bind fun _ => ih

omit hitems in
theorem becameEmpty (index : Nat) : Settles T p start (becameEmpty index : EditM V Unit) := by
  refine Leads.bind (fun _ h => h) fun e => ?_
  split
  · exact pure _
  · simp only
    split_ifs
    all_goals first
      | exact (Walks.deleteToken _ _).of_rests.thenRun
      | exact (Walks.replaceToken _ _).of_rests.thenRun

theorem afterDelete (index : Nat) : Settles T p start (afterDelete index : EditM V Unit) := by
  have hcaret : ∀ caret : Nat, Settles T p start (modify (keepCaret caret) : EditM V PUnit) := by
    refine fun caret => .modifies fun e he => ?_
    unfold keepCaret
    split
    · split_ifs
      · exact he.modifyView _ (.setCaret _)
      · exact he
    · exact he
  refine .read fun e he => ?_
  split
  · split
    · exact becameEmpty _
    · split
      · exact pure _
      · simp only
        split_ifs
        · exact (completeMatch ((hitems e he).typingOffer _) _).bind fun _ => hcaret _
        · exact markUnresolved _ _ _
  · exact pure _

omit hitems in
theorem deleteWhole (index : Nat) : Settles T p start (deleteWhole index : EditM V Unit) :=
  Leads.bind (.modifies fun _ h => h.closeMenu) fun _ => (Walks.deleteToken _ _).of_rests.thenRun

omit hitems in
theorem deleteAcross (index : Nat) (backward : Bool) :
    Settles T p start (deleteAcross index backward : EditM V Unit) := by
  have hclose : ∀ move : Move, Leads T p start (Via T p start) (Rests T p start)
      (modify fun e => e.closeMenu.run move : EditM V PUnit) :=
    fun move => .modifies fun _ h => h.closeMenu.run move
  unfold Editor.deleteAcross
  generalize (if backward then (-1 : Int) else 1) = delta
  refine Leads.bind (fun _ h => h) fun e => ?_
  split
  · split
    · exact (Walks.mergeTokens _ _).of_rests.bind hclose
    · exact (Walks.deleteToken _ _).of_rests.bind hclose
  · exact pure _

theorem deleteChar (backward : Bool) : Settles T p start (deleteChar backward : EditM V Unit) := by
  refine .get_bind fun e he => ?_
  split
  · exact clearSelection e he
  · split
    · split
      · exact he.setPlaceholder _
      · exact he
    · split
      · exact he
      · rename_i index _ _ v _
        have hedit : View.Edit (if backward then View.eraseBefore else View.eraseAfter) := by
          cases backward
          · exact .eraseAfter
          · exact .eraseBefore
        generalize (if backward then View.eraseBefore else View.eraseAfter) = erase at hedit ⊢
        generalize (if backward then v.caret == 0 else v.caretAtEnd) = atEdge
        split
        · exact deleteWhole _ e he
        · dsimp only
          split
          · exact deleteAcross _ _ e he
          · exact Leads.bind (.modifies fun _ h => h.modifyView index hedit)
              (fun _ => afterDelete hitems index) e he

omit hitems in
theorem deleteCurrent : Settles T p start (deleteCurrent : EditM V Unit) := by
  refine .get_bind fun e he => ?_
  split
  · exact clearSelection e he
  · split
    · exact he
    · exact deleteWhole _ e he

omit hitems in
theorem paste (text : Text) : Settles T p start (paste text : EditM V Unit) := by
  refine clearSelection.bind fun _ => Leads.bind (.modifies fun _ h => h.closeMenu) fun _ =>
    .get_bind fun e he => ?_
  split
  · rw [wp_bind, wp_set]
    exact afterPaste _ _ _ _ (he.setPlaceholder []).toVia
  · split
    · exact afterPaste _ _ _ e he.toVia
    · exact afterPaste _ _ _ e he.toVia

theorem enter : Settles T p start (enter : EditM V Unit) := by
  refine .get_bind fun e he => ?_
  split
  · split
    · rename_i hchoice
      exact acceptItem _ ((hitems e he.toVia).menuOffer _ (Item.mem_of_chosen hchoice)) _ e he
    · exact he.closeMenu
  · split
    · exact he
    · split
      · exact he
      · simp only
        split
        · exact he
        · split
          · exact completeMatch ((hitems e he.toVia).offer _ _) _ e he
          · exact he

end

theorem selectRange (start' stop : Nat) :
    Settles T p start (selectRange start' stop : EditM V Unit) := by
  refine .get_bind fun e he => ?_
  split
  · exact .of_via he.toVia (by simp)
  · rename_i hout
    refine ⟨he.toVia.mark fun _ t ht => ?_, fun hp => ⟨(he.placed hp).focus, fun t ht => ?_,
      fun _ t ht => ?_⟩⟩
    all_goals
      split_ifs at ht with hne
      cases ht
    · exact hne
    · show 0 < e.tokens.length
      omega
    · show stop ≤ e.tokens.length
      omega

end Settles

theorem Leads.thenRepair {P : Editor V → Prop} {f : EditM V Unit}
    (hf : Leads T p start P (Via T p start) f) :
    Leads T p start P (Rests T p start) (do
      f
      modify Editor.repairFocus) :=
  hf.bind fun _ => .modifies fun _ he => he.rests_repairFocus

theorem Via.dropOwed (h : Via T p start e) : Via T p start e.dropOwed :=
  (h.dropSenders e.owed).setOwed []

namespace Settles

theorem setTokens (new : List (Token V)) : Settles T p start (setTokens new) := by
  refine Leads.bind (.modifies fun _ h => h.toVia.closeMenu.deselect) fun _ => Leads.thenRepair ?_
  intro e he
  simp only [wp_onRegion, Region.setTokens, wp_bind, wp_get]
  exact wp_onRegion.1 (Walks.splice 0 e.region.tokens.length new e he)

theorem setValue (v : Option V) (hB : T.acts (.setValue v)) : Settles T p start (setValue v) :=
  Leads.bind (.modifies fun _ h => h.toVia.closeMenu) fun _ =>
    (Walks.act (.setValue v) (.inr hB)).thenRepair

theorem setLanguage (l : Language V) (hB : T.acts (.setLanguage l)) :
    Settles T p start (setLanguage l) :=
  Leads.bind (.modifies fun _ h => h.toVia.closeMenu.dropOwed) fun _ =>
    (Walks.act (.setLanguage l) (.inr hB)).thenRepair

theorem restore (saved : Option (List (Token V))) (hB : T.acts (.restore saved)) :
    Settles T p start (restore saved) :=
  Leads.bind (.modifies fun _ h => h.toVia.closeMenu.deselect) fun _ =>
    (Walks.act (.restore saved) (.inr hB)).thenRepair

theorem processChanges (hB : T.acts .processChanges) :
    Settles T p start (processChanges : EditM V Bool) := by
  intro e he
  have hwalk := (wp_discard _).1 (wp_onRegion.1
    (Walks.act (T := T) (p := p) .processChanges (.inr hB) e he.toVia))
  have hidle : wp Region.processChanges (fun changed r => changed = false → r = e.region)
      (fun _ _ => True) e.region := by
    simp only [Region.processChanges, wp_bind, wp_get, wp_ite, wp_set, wp_pure]
    split_ifs
    · exact wp_mono (Region.Undergoes.reprintToTokens (S := .unlimited).sync _)
        (fun _ _ _ h => by cases h) (fun _ _ _ => trivial)
    · exact fun h => by cases h
    · exact fun _ => trivial
  rw [Editor.processChanges, wp_bind, wp_onRegion]
  refine wp_mono (wp_and hwalk hidle) ?_ (fun _ _ h => h.1)
  rintro changed r ⟨hr, hsame⟩
  cases changed with
  | true => exact Via.rests_repairFocus hr
  | false => exact (hsame rfl).symm ▸ he

end Settles

end TokenEditor.Editor

/-! ### Growing and shrinking the selection -/

namespace TokenEditor.Span

theorem mem_of_shortest? {ss : List Span} {s : Span} (h : shortest? ss = some s) : s ∈ ss := by
  induction ss generalizing s with
  | nil => cases h
  | cons t ss ih =>
    simp only [shortest?] at h
    split at h
    · cases h
      simp
    · rename_i u hu
      split_ifs at h
      · cases h
        exact List.mem_cons_of_mem _ (ih hu)
      · cases h
        simp

theorem mem_of_longest? {ss : List Span} {s : Span} (h : longest? ss = some s) : s ∈ ss := by
  induction ss generalizing s with
  | nil => cases h
  | cons t ss ih =>
    simp only [longest?] at h
    split at h
    · cases h
      simp
    · rename_i u hu
      split_ifs at h
      · cases h
        simp
      · cases h
        exact List.mem_cons_of_mem _ (ih hu)

/-- What a selection grows to: the focused token, the whole row, or a node around it. -/
theorem expand_cases {selection : Option Span} {focus : Option Nat} {nodes : Option (List Span)}
    {count : Nat} {s : Span} (h : expand selection focus nodes count = some s) :
    selection = none ∧ (∃ i, focus = some i ∧ s = ⟨i, i + 1⟩) ∨
      ∃ c, selection = some c ∧ (s = ⟨0, count⟩ ∨
        ∃ ss, nodes = some ss ∧ s ∈ ss ∧ s.start ≤ c.start ∧ c.stop ≤ s.stop) := by
  cases selection with
  | none =>
    simp only [expand, Option.map_eq_some_iff] at h
    obtain ⟨i, hi, rfl⟩ := h
    exact .inl ⟨rfl, i, hi, rfl⟩
  | some c =>
    refine .inr ⟨c, rfl, ?_⟩
    cases nodes with
    | none =>
      cases h
      exact .inl rfl
    | some ss =>
      simp only [expand] at h
      rcases Option.or_eq_some_iff.1 h with h | ⟨-, h⟩
      · obtain ⟨hmem, hcover⟩ := List.mem_filter.1 (mem_of_shortest? h)
        simp only [covers, Bool.and_eq_true, decide_eq_true_eq] at hcover
        exact .inr ⟨ss, rfl, hmem, hcover.1⟩
      · cases h
        exact .inl rfl

theorem shrink_fits {c s : Span} {focus : Nat} {nodes : Option (List Span)}
    (h : shrink c focus nodes = some s) : s.start < s.stop ∧ s.stop ≤ c.stop := by
  cases nodes with
  | none => cases h
  | some ss =>
    obtain ⟨-, hcover⟩ := List.mem_filter.1 (mem_of_longest? h)
    simp only [covers, has, Bool.and_eq_true, decide_eq_true_eq] at hcover
    exact ⟨by omega, by omega⟩

end TokenEditor.Span

namespace TokenEditor.Editor
variable {V : Type} [Payload V] {T : Terms V} {p : Prop} {start e : Editor V}

omit [Payload V] in
theorem exists_expandSelection (e : Editor V) :
    ∃ s, e.expandSelection.2 = { e with selection := s } := by
  unfold Editor.expandSelection
  split
  · exact ⟨e.selection, rfl⟩
  · exact ⟨_, rfl⟩

omit [Payload V] in
theorem exists_shrinkSelection (e : Editor V) :
    ∃ s, e.shrinkSelection.2 = { e with selection := s } := by
  unfold Editor.shrinkSelection
  split
  · exact ⟨e.selection, rfl⟩
  · exact ⟨_, rfl⟩

omit [Payload V] in
theorem lt_of_focusedIndex? {i : Nat} (h : e.focusedIndex? = some i) : i < e.views.length := by
  unfold focusedIndex? at h
  split at h
  · exact (List.findIdx?_eq_some_iff_findIdx_eq.1 h).1
  · cases h

namespace Rests

/-- Growing the selection looks at the tree, which has to be as long as the row. -/
theorem expandSelection (h : Rests T p start e)
    (htree : p → T.measured → ∀ t, e.region.tree = some t → t.tokenCount = e.tokens.length) :
    Rests T p start e.expandSelection.2 := by
  unfold Editor.expandSelection
  split
  · exact h
  · rename_i s hs
    have hlt : ∀ i, p → e.focusedIndex? = some i → i < e.tokens.length := fun i hp hi =>
      (h.loose hp).views.length_eq ▸ lt_of_focusedIndex? hi
    rcases Span.expand_cases hs with ⟨-, i, hi, rfl⟩ | ⟨c, hc, rfl | ⟨ss, hss, hmem, hstart, hstop⟩⟩
    · refine ⟨h.toVia.mark ?_, fun hp => ⟨(h.placed hp).focus, ?_, ?_⟩⟩
      · rintro - t ⟨⟩
        exact Nat.lt_succ_self i
      · rintro t ⟨⟩
        exact Nat.zero_lt_of_lt (hlt i hp hi)
      · rintro - t ⟨⟩
        exact hlt i hp hi
    · refine ⟨h.toVia.mark ?_, fun hp => ⟨(h.placed hp).focus, ?_, ?_⟩⟩
      · rintro hp t ⟨⟩
        exact (h.placed hp).selected c hc
      · rintro t ⟨⟩
        exact (h.placed hp).selected c hc
      · rintro - t ⟨⟩
        exact Nat.le_refl _
    · refine ⟨h.toVia.mark ?_, fun hp => ⟨(h.placed hp).focus, ?_, ?_⟩⟩
      · rintro hp t ⟨⟩
        have := (h.loose hp).selection c hc
        omega
      · rintro t ⟨⟩
        exact (h.placed hp).selected c hc
      · rintro hq t ⟨⟩
        unfold nodeSpans at hss
        split_ifs at hss
        obtain ⟨t, ht, rfl⟩ := Option.map_eq_some_iff.1 hss
        obtain ⟨x, hx, rfl⟩ := List.mem_map.1 hmem
        exact htree hp hq t ht ▸ PrintTree.le_of_mem_spans hx

theorem shrinkSelection (h : Rests T p start e) : Rests T p start e.shrinkSelection.2 := by
  unfold Editor.shrinkSelection
  split
  · exact h
  · rename_i c hc
    refine ⟨h.toVia.mark fun _ t ht => (Span.shrink_fits ht).1, fun hp =>
      ⟨(h.placed hp).focus, fun _ _ => (h.placed hp).selected c hc, fun hq t ht => ?_⟩⟩
    have hle := (h.placed hp).selection hq c hc
    exact Nat.le_trans (Span.shrink_fits ht).2 hle

end Rests

omit [Payload V] in
theorem send_refused {id : Nat} {items : List (Item V)} (h : (e.send id items).1 = false) :
    (e.send id items).2 = e := by
  unfold send at h ⊢
  split at h
  · rfl
  · rename_i c hc
    have hsame : (c.send items).2 = c := by
      cases c with
      | waiting => cases h
      | sent message => rfl
      | closed => rfl
    simp only [hsame, Channels.set_self hc]

theorem Via.send (h : Via T p start e) (id : Nat) {items : List (Item V)}
    (hitems : ∀ i ∈ items, T.items i) : Via T p start (e.send id items).2 := by
  cases hsent : (e.send id items).1 with
  | true => exact h.step (.send hitems hsent) (region_send e id items).2
  | false => exact (send_refused hsent).symm ▸ h

/-- One answer of many, and how many have reached the menu. -/
def answerOne (items : List (Item V)) (acc : Nat × Channels V) (id : Nat) : Nat × Channels V :=
  match acc.2[id]? with
  | none => acc
  | some c => (if (c.send items).1 then acc.1 + 1 else acc.1, acc.2.set id (c.send items).2)

omit [Payload V] in
theorem answerOwed_induct {P : Editor V → Prop} {items : List (Item V)}
    (hsend : ∀ id e, P e → P (e.send id items).2) (hdone : ∀ e, P e → P { e with owed := [] })
    (h : P e) : P (e.answerOwed items).2 := by
  have hall : ∀ (ids : List Nat) (n : Nat) (e : Editor V), P e →
      P { e with channels := (ids.foldl (answerOne items) (n, e.channels)).2 } := by
    intro ids
    induction ids with
    | nil => exact fun _ _ h => h
    | cons id ids ih =>
      intro n e h
      have hsent := hsend id e h
      unfold send at hsent
      rw [List.foldl_cons, answerOne]
      split at hsent
      · rename_i hnone
        simp only [hnone]
        exact ih n e h
      · rename_i c hc
        simp only [hc]
        exact ih _ _ hsent
  exact hdone _ (hall e.owed 0 e h)

theorem Via.answerOwed (h : Via T p start e) {items : List (Item V)}
    (hitems : ∀ i ∈ items, T.items i) : Via T p start (e.answerOwed items).2 :=
  answerOwed_induct (fun id _ h => h.send id hitems) (fun _ h => h.setOwed []) h

/-! ### All operations -/

/-- A call on an editor, by the user, the host or the language. -/
inductive Op (V : Type) where
  | setTokens (new : List (Token V))
  | setValue (v : Option V)
  | setLanguage (l : Language V)
  | processChanges
  | restore (saved : Option (List (Token V)))
  | selectToken (index : Nat) (position : Position)
  | move (m : Move)
  | typeChar (c : Char)
  /-- Typing that is given up after `limit` rounds. -/
  | typeWithin (limit : Nat) (c : Char)
  | typeText (t : Text)
  | backspace
  | delete
  | deleteCurrent
  | paste (t : Text)
  | enter
  | activateMenu
  | closeMenu
  | pollMenu
  | selectRange (start stop : Nat)
  | expandSelection
  | shrinkSelection
  | clearSelection
  | answer (items : List (Item V))
  | send (id : Nat) (items : List (Item V))
  | dropSender (id : Nat)
  | onCells (f : StateM Cells Unit)
  | setCellText (c : CellId) (t : Text)
  | save
  | dispose
  | setHideTokens (hide : Bool)
  | focusPlaceholder
  | deleteToken (index : Nat) (delta : Int)
  | replaceToken (index : Nat) (t : Token V)
  | mergeTokens (index : Nat) (backward : Bool)
  | expandToError (index : Nat) (text : Text) (delta : Nat)
  | replaceComment (index : Nat)
  | afterType (index : Nat)
  | afterPaste (start stop : Nat) (t : Text)

namespace Op

def run : Op V → EditM V Unit
  | setTokens new => Editor.setTokens new
  | setValue v => Editor.setValue v
  | setLanguage l => Editor.setLanguage l
  | processChanges => discard Editor.processChanges
  | restore saved => Editor.restore saved
  | selectToken index position => modify (Editor.selectToken index position)
  | move m => modify (Editor.run m)
  | typeChar c => Editor.typeChar c
  | typeWithin limit c => Editor.typeWithin (throw .stalled) limit c
  | typeText t => Editor.typeText t
  | backspace => Editor.backspace
  | delete => Editor.delete
  | deleteCurrent => Editor.deleteCurrent
  | paste t => Editor.paste t
  | enter => Editor.enter
  | activateMenu => modify Editor.activateMenu
  | closeMenu => modify Editor.closeMenu
  | pollMenu => modify fun e => e.pollMenu.2
  | selectRange start stop => Editor.selectRange start stop
  | expandSelection => modify fun e => e.expandSelection.2
  | shrinkSelection => modify fun e => e.shrinkSelection.2
  | clearSelection => Editor.clearSelection
  | answer items => modify fun e => (e.answerOwed items).2
  | send id items => modify fun e => (e.send id items).2
  | dropSender id => modify (Editor.dropSender id)
  | onCells f => onRegion (Region.onCells f)
  | setCellText c t => modify fun e => { e with region := e.region.setCellText c t }
  | save => discard Editor.save
  | dispose => modify Editor.dispose
  | setHideTokens hide => modify (Editor.setHideTokens hide)
  | focusPlaceholder => modify Editor.focusPlaceholder
  | deleteToken index delta => discard (Editor.deleteToken index delta)
  | replaceToken index t => discard (Editor.replaceToken index t)
  | mergeTokens index backward => discard (Editor.mergeTokens index backward)
  | expandToError index text delta => discard (Editor.expandToError index text delta)
  | replaceComment index => discard (Editor.replaceComment index)
  | afterType index => discard (Editor.afterType index)
  | afterPaste start stop t => Editor.afterPaste start stop t

/-- The operation looks after focus and selection itself. The others give a move, or set the focus
by hand. -/
def IsIntent : Op V → Prop
  | focusPlaceholder | deleteToken _ _ | replaceToken _ _ | mergeTokens _ _ | expandToError _ _ _
  | replaceComment _ => False
  | _ => True

/-- The acts on the region, besides edits of the row, that the operation is. -/
def Uses : Op V → Region.Act V → Prop
  | setValue v, act => act = .setValue v
  | setLanguage l, act => act = .setLanguage l
  | processChanges, act => act = .processChanges
  | restore saved, act => act = .restore saved
  | _, _ => False

/-- The operation brings in languages of `L` and answers of items in `I` only. -/
def Speaks (L : Language V → Prop) (I : Item V → Prop) : Op V → Prop
  | setLanguage l => L l
  | answer items | send _ items => ∀ i ∈ items, I i
  | _ => True

/-- The operation is one of `T`. -/
structure Fits (T : Terms V) (op : Op V) : Prop where
  acts : ∀ act, op.Uses act → T.acts act
  items : op.Speaks (fun _ => True) T.items

omit [Payload V] in
theorem speaks_any (op : Op V) : op.Speaks (fun _ => True) fun _ => True := by
  cases op <;> first | exact trivial | exact fun _ _ => trivial

omit [Payload V] in
theorem fits_any (op : Op V) : op.Fits .any :=
  ⟨fun _ _ => trivial, op.speaks_any⟩

/-- Every operation is a path of steps that leaves an editor in order if it found one. -/
theorem leads {op : Op V} (hop : op.Fits T) (hitems : Supplies T p start) (hintent : p → op.IsIntent)
    (htree : p → T.measured → ∀ e, Via T p start e → ∀ t, e.region.tree = some t →
      t.tokenCount = e.tokens.length) : Settles T p start op.run := by
  obtain ⟨hB, hsent⟩ := hop
  -- an operation that is no intent leaves the editor on its way
  have walks : ∀ {α : Type} {f : EditM V α}, ¬ op.IsIntent → Walks T p start f →
      Settles T p start (discard f) := fun hop hf =>
    hf.discard.of_rests.mono (fun _ h => h) fun _ h => ⟨h, fun hp => absurd (hintent hp) hop⟩
  cases op with
  | setTokens new => exact .setTokens new
  | setValue v => exact .setValue v (hB _ rfl)
  | setLanguage l => exact .setLanguage l (hB _ rfl)
  | processChanges => exact (Settles.processChanges (hB _ rfl)).discard
  | restore saved => exact .restore saved (hB _ rfl)
  | selectToken index position => exact .modifies fun _ h => h.selectToken index position
  | move m => exact .modifies fun _ h => h.toVia.run m
  | typeChar c => exact .typeChar hitems c
  | typeWithin limit c => exact .typeWithin hitems limit c
  | typeText t => exact .typeText hitems t
  | backspace => exact .deleteChar hitems true
  | delete => exact .deleteChar hitems false
  | deleteCurrent => exact .deleteCurrent
  | paste t => exact .paste t
  | enter => exact .enter hitems
  | activateMenu => exact .modifies fun _ h => h.activateMenu
  | closeMenu => exact .modifies fun _ h => h.closeMenu
  | pollMenu => exact .modifies fun _ h => h.pollMenu
  | selectRange start' stop => exact .selectRange start' stop
  | expandSelection => exact .modifies fun e h => h.expandSelection fun hp hq => htree hp hq e h.toVia
  | shrinkSelection => exact .modifies fun _ h => h.shrinkSelection
  | clearSelection => exact .clearSelection
  | answer items =>
    exact .modifies fun _ h => ⟨h.toVia.answerOwed hsent, fun hp => (h.placed hp).congr rfl rfl rfl⟩
  | send id items =>
    exact .modifies fun e h => ⟨h.toVia.send id hsent, fun hp => (h.placed hp).congr
      (region_send e id items).1 (focus_send e id items) (region_send e id items).2⟩
  | dropSender id =>
    exact .modifies fun _ h => ⟨h.toVia.step (.drop id) rfl, fun hp => (h.placed hp).congr rfl rfl rfl⟩
  | onCells f =>
    exact fun e h => h.setCells _ _ _
  | setCellText c t => exact .modifies fun _ h => h.setCells _ _ _
  | save => exact Leads.discard (Leads.bind (fun _ h => h) fun _ e h => h.setCells _ _ _)
  | dispose => exact .modifies fun _ h => h.closeMenu.setCells _ _ _
  | setHideTokens hide =>
    exact .modifies fun _ h => ⟨h.toVia.setSettings _, fun hp => (h.placed hp).congr rfl rfl rfl⟩
  | focusPlaceholder => exact .modifies fun _ h => ⟨h.toVia.focusPlaceholder, fun hp => (hintent hp).elim⟩
  | deleteToken index delta => exact walks id (.deleteToken index delta)
  | replaceToken index t => exact walks id (.replaceToken index t)
  | mergeTokens index backward => exact walks id (.mergeTokens index backward)
  | expandToError index text delta => exact walks id (.expandToError index text delta)
  | replaceComment index => exact walks id (.replaceComment index)
  | afterType index => exact (Settles.afterType index).discard
  | afterPaste start' stop t => exact (Settles.afterPaste start' stop t).of_rests

/-- How an operation ends: at the end of a path, well or because it gives up, or with an act on the
region that fails there. -/
theorem outcome {op : Op V} (hop : op.Fits T) (e : Editor V) (hitems : Supplies T False e) :
    ∃ evs e₁, Path T e evs e₁ ∧ (op.run e = .ok () e₁ ∨
      (∃ err, op.run e = .error err e₁ ∧ (T.Sincere → ¬ err.IsMismatch)) ∨
      ∃ act err r, (act.IsEdit ∨ T.acts act) ∧ act.run e₁.region = .error err r ∧
        op.run e = .error err { e₁ with region := r }) := by
  have hrests : Rests T False e e := ⟨⟨⟨_, .refl⟩, False.elim⟩, False.elim⟩
  have hleads := leads hop hitems False.elim False.elim e hrests
  unfold wp at hleads
  cases hres : op.run e with
  | ok _ e' =>
    rw [hres] at hleads
    obtain ⟨evs, hpath⟩ := hleads.path
    exact ⟨evs, e', hpath, .inl rfl⟩
  | error err e' =>
    rw [hres] at hleads
    obtain ⟨e₁, ⟨⟨evs, hpath⟩, -⟩, ⟨rfl, hother⟩ | ⟨act, r, hact, hrun, rfl⟩⟩ := hleads
    · exact ⟨evs, _, hpath, .inr (.inl ⟨err, rfl, hother⟩)⟩
    · exact ⟨evs, e₁, hpath, .inr (.inr ⟨act, err, r, hact, hrun, rfl⟩)⟩

end Op

/-- The editor that a run of `f` leaves, whether it fails or not. -/
def after {α : Type} (f : EditM V α) (e : Editor V) : Editor V :=
  match f e with
  | .ok _ e' => e'
  | .error _ e' => e'

/-- Operations called one after the other, whether they fail or not. -/
def afterAll (ops : List (Op V)) (e : Editor V) : Editor V :=
  ops.foldl (fun e op => e.after op.run) e

section
variable {I : Region V → Prop}
  (hview : ∀ {r : Region V} {index : Nat} {f : View → View}, View.Edit f → I r →
    I (r.modifyView index f))
  (hcells : ∀ {r : Region V} {cells : Cells} {stale : Bool} {subscriptions : List Subscription},
    I r → I { r with cells := cells, stale := stale, subscriptions := subscriptions })
include hview hcells

/-- An invariant of the region that acts keep, failing or not, is one of editors, and an operation
fails as an act on such a region fails, or with an error that an item made up. -/
theorem region_after {F : EditError → Region V → Prop} {op : Op V} (hop : op.Fits T)
    (hitems : Supplies T False e)
    (hact : ∀ {act : Region.Act V} {r : Region V}, act.IsEdit ∨ T.acts act → I r →
      wp act.run (fun _ => I) (fun err r' => I r' ∧ F err r') r) (h : I e.region) :
    I (e.after op.run).region ∧ ∀ err e', op.run e = .error err e' →
      F err e'.region ∨ (T.Sincere → ¬ err.IsMismatch) := by
  obtain ⟨evs, e₁, hpath, hends⟩ := Op.outcome hop e hitems
  have h₁ : I e₁.region := by
    refine hpath.region (fun {act r r'} hB hrun hr => ?_) (fun {act err r r'} hB hrun _ hr => ?_)
      hview hcells h
    · have hwp := hact hB hr
      rwa [wp, hrun] at hwp
    · have hwp := hact hB hr
      rw [wp, hrun] at hwp
      exact hwp.1
  unfold after
  rcases hends with hrun | ⟨err, hrun, hother⟩ | ⟨act, err, r, hB, hfail, hrun⟩ <;> rw [hrun]
  · exact ⟨h₁, by rintro err e' ⟨⟩⟩
  · refine ⟨h₁, ?_⟩
    rintro err' e' ⟨⟩
    exact .inr hother
  · have hwp := hact hB h₁
    rw [wp, hfail] at hwp
    refine ⟨hwp.1, ?_⟩
    rintro err' e' ⟨⟩
    exact .inl hwp.2

variable (hact : ∀ {act : Region.Act V} {r : Region V}, I r → wp act.run (fun _ => I) (fun _ => I) r)
include hact

theorem region_after_any (op : Op V) (h : I e.region) : I (e.after op.run).region :=
  (region_after hview hcells (F := fun _ _ => True) op.fits_any supplies_any (fun _ hr =>
    wp_mono (hact hr) (fun _ _ h => h) fun _ _ h => ⟨h, trivial⟩) h).1

theorem region_afterAll (ops : List (Op V)) (h : I e.region) : I (afterAll ops e).region := by
  induction ops generalizing e with
  | nil => exact h
  | cons op ops ih => exact ih (region_after_any hview hcells hact op h)

end

end TokenEditor.Editor
