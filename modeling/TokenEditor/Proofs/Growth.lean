import TokenEditor.Proofs.Emptying
import TokenEditor.Proofs.ErrorRuns
import TokenEditor.Proofs.GreedyCuts

/-! # Stores that only grow

An editor makes cells, when it copies its row to read it and when it applies an item, but it changes
the text of none: only the host does. `Grown base e` says that the store of `e` has come from `base`
in this way, and that all items that may still be applied in `e` keep to it; `Grows f` that this
outlasts `f`, however it ends. One lemma for each function, as for `Reports`. -/

namespace TokenEditor
variable {V : Type}

theorem Cells.Adds.keeps {a b : Cells} (h : a.Adds b) : a.Keeps b := by
  obtain ⟨new, hb, -⟩ := h
  exact .of_append hb

namespace Region
variable [Payload V] [QuietPayload V] {S : Supply V} {r r' : Region V}

theorem Change.keeps (h : Change S r r') : r.cells.Keeps r'.cells := by
  have hcopied : r.cells.Keeps r.copied.2 := (Token.detachAll_adds r.tokens r.cells).keeps
  cases h with
  | reprint => exact (reread_reprint r).cells
  | empty => exact r.keeps_dispose
  | refuse => exact hcopied
  | take => exact hcopied
  | dispose => exact r.keeps_dispose
  | _ => exact .refl r.cells

theorem Passes.keeps (h : Passes S r r') : r.cells.Keeps r'.cells :=
  h.invariant (I := fun r' => r.cells.Keeps r'.cells) (fun hc hr => hr.trans hc.keeps) (.refl _)

end Region

/-- However its calls end, the effect may make cells, but changes the text of none. -/
def Effect.Makes : Effect V → Prop
  | done _ | fail _ => True
  | look change next => ∀ scope (cells : Cells),
    cells.Keeps (change scope cells) ∧ (next scope cells).Makes
  | complete _ _ next => ∀ result, (next result).Makes
  | remove _ next => ∀ result, (next result).Makes

theorem Effect.makes_plain (removals : List Nat) (insertion : Option (Insertion V)) :
    (plain removals insertion).Makes := by
  induction removals with
  | nil =>
    cases insertion with
    | none => trivial
    | some i => rintro (_ | _) <;> trivial
  | cons index removals ih =>
    rintro (_ | _)
    · trivial
    · exact ih

theorem Effect.Makes.keeps_captured {effect : Effect V} (h : effect.Makes)
    (slot : Option (List (Token V))) (cells : Cells) :
    cells.Keeps ((effect.captured slot).run cells).2 := by
  induction effect generalizing slot cells with
  | done | fail => exact .refl cells
  | look change next ih => exact (h _ cells).1.trans (ih _ _ (h _ cells).2 slot _)
  | complete selected tokens next ih => exact ih _ (h _) _ cells
  | remove index next ih => exact ih _ (h _) slot cells

namespace Item
variable {items : List (Item V)}

/-- Applying the item may make cells, but changes the text of none. -/
def Makes (i : Item V) : Prop :=
  ∀ scope t (cells : Cells), cells.Keeps ((i.effect scope t).run cells).2 ∧
    ((i.effect scope t).run cells).1.Makes

theorem IsPlain.makes {i : Item V} (h : i.IsPlain)
    (hkeeps : ∀ scope t (cells : Cells), cells.Keeps ((i.effect scope t).run cells).2) : i.Makes := by
  intro scope t cells
  obtain ⟨removals, insertion, heffect⟩ := h scope t cells
  exact ⟨hkeeps scope t cells, heffect ▸ Effect.makes_plain removals insertion⟩

theorem Makes.keeps_captured {i : Item V} (h : i.Makes) (t : Text) (cells : Cells) :
    cells.Keeps ((i.captured t).run cells).2 :=
  (h .nowhere t cells).1.trans ((h .nowhere t cells).2.keeps_captured none _)

variable (h : ∀ i ∈ items, i.Makes)
include h

theorem LeadsTo.keeps {before after : Cells} (hleads : LeadsTo items before after) :
    before.Keeps after := by
  induction hleads with
  | refl => exact .refl before
  | tail _ hstep ih =>
    obtain ⟨i, hi, t, rfl⟩ := hstep
    exact ih.trans ((h i hi).keeps_captured t _)

theorem keeps_resolve (t : Text) (cells : Cells) : cells.Keeps ((resolve items t).run cells).2 := by
  unfold resolve
  split
  · rename_i i hi
    exact (h i (mem_of_mem_matching (t := t) (by simp [hi]))).keeps_captured t cells
  · exact .refl cells

theorem keeps_tokenOrError (t : Text) (cells : Cells) :
    cells.Keeps ((tokenOrError items t).run cells).2 := by
  have hresolve := keeps_resolve h t cells
  have hsame : ((tokenOrError items t).run cells).2 = ((resolve items t).run cells).2 := by
    simp only [tokenOrError, resolveToken, StateT.run_bind]
    rcases (resolve items t).run cells with ⟨_ | _ | ⟨token, _ | ⟨next, rest⟩⟩, after⟩ <;> rfl
  exact hsame ▸ hresolve

theorem keeps_tokenize (t : Text) (cells : Cells) : cells.Keeps ((tokenize items t).run cells).2 :=
  LeadsTo.keeps h (cutWords_iff.1 rfl).leadsTo

end Item

/-- The languages of `L` offer items that only make cells, and so does cutting a text. -/
structure Language.Makes (L : Language V → Prop) : Prop where
  offers : ∀ l, L l → l.Offers Item.Makes
  tokenize : ∀ l, L l → ∀ t (cells : Cells), cells.Keeps ((l.tokenize t).run cells).2

theorem Cells.keeps_new (t : Text) (cells : Cells) : cells.Keeps ((Cells.new t).run cells).2 :=
  .of_append rfl

namespace Expr

theorem makes_newText {i : Item Expr} {t : Text} (h : ∀ scope u, i.effect scope u = newText t) :
    i.Makes := by
  intro scope u cells
  rw [h scope u]
  exact ⟨Cells.keeps_new t cells, Effect.makes_plain [] _⟩

theorem makes_tokenItems : ∀ i ∈ tokenItems, i.Makes := by
  intro i hi
  refine (puts_tokenItems i hi).isPlain.makes ?_
  simp only [tokenItems, List.mem_cons, List.not_mem_nil, or_false] at hi
  rcases hi with rfl | rfl | rfl | rfl | rfl | rfl | rfl | rfl | rfl | rfl
  case inr.inr.inr.inr.inr.inr.inr.inr.inr => exact fun _ _ => Cells.keeps_new _
  all_goals exact fun _ _ cells => .refl cells

theorem makes_laterItems : ∀ i ∈ laterItems, i.Makes := by
  intro i hi
  cases List.mem_singleton.1 hi
  exact makes_newText fun _ _ => rfl

theorem language_makes : Language.Makes IsLanguage where
  offers := by
    rintro _ ⟨p, rfl⟩
    refine ⟨fun _ _ _ => makes_tokenItems, fun _ _ _ i hi => ?_, by rintro _ _ _ _ ⟨⟩⟩
    cases List.mem_singleton.1 hi
    exact makes_newText fun _ _ => rfl
  tokenize := by
    rintro _ ⟨p, rfl⟩ t cells
    obtain ⟨ts, after, hrun, hkeeps, -⟩ :=
      @grouped_tokensOf _ [] (by simp) (fun l => whole_of_mem_lex) cells
    show cells.Keeps ((tokensOf [] (lex t)).run cells).2
    exact hrun ▸ hkeeps

end Expr

namespace Sum

theorem makes_tokenItems : ∀ i ∈ tokenItems, i.Makes := by
  intro i hi
  refine ((offers_isPlain {}).tokenItems {} {} .typing i hi).makes ?_
  simp only [tokenItems, List.mem_cons, List.not_mem_nil, or_false] at hi
  rcases hi with rfl | rfl | rfl | rfl | rfl | rfl | rfl | rfl
  all_goals exact fun _ _ cells => .refl cells

theorem language_makes : Language.Makes IsLanguage where
  offers := by
    rintro _ ⟨style, rfl⟩
    refine ⟨fun _ _ _ => makes_tokenItems, fun cells context params i hi => ?_, by rintro _ _ _ _ ⟨⟩⟩
    refine ((offers_isPlain style).extraItems cells context params i hi).makes ?_
    cases List.mem_singleton.1 hi
    exact fun _ _ cells => Cells.keeps_new [] cells
  tokenize := by
    rintro _ ⟨style, rfl⟩ t cells
    exact Item.keeps_tokenize makes_tokenItems t cells

end Sum

/-! ### Editors -/

namespace Editor
variable {L : Language V → Prop} {base : Cells} {e e' : Editor V}

/-- No cell of `base` has changed its text, and the items that may be applied change none. -/
structure Grown (L : Language V → Prop) (base : Cells) (e : Editor V) : Prop where
  keeps : base.Keeps e.region.cells
  supplied : e.Supplied L Item.Makes

namespace Grown

/-- Focus, placeholder and selection play no part, and of the region its cells and language only. -/
theorem aside (h : e.Grown L base) (hcells : e'.region.cells = e.region.cells)
    (hl : e'.region.language = e.region.language) (hmenu : e'.menu = e.menu)
    (hchannels : e'.channels = e.channels) : e'.Grown L base :=
  ⟨hcells ▸ h.keeps, h.supplied.aside (hl ▸ h.supplied.language) hmenu hchannels⟩

theorem closeMenu (h : e.Grown L base) : e.closeMenu.Grown L base :=
  ⟨h.keeps, h.supplied.closeMenu⟩

variable [Payload V] (hL : Language.Makes L) (h : e.Grown L base)
include hL h

theorem run (m : Move) : (e.run m).Grown L base := by
  have hspeaks : (Op.move m : Op V).Speaks L Item.Makes := trivial
  exact ⟨run_region (P := fun r => base.Keeps r.cells) id h.keeps m, h.supplied.after hL.offers hspeaks⟩

theorem repairFocus : e.repairFocus.Grown L base :=
  h.run hL .stay

theorem selectToken (index : Nat) (position : Position) :
    (e.selectToken index position).Grown L base := by
  have hspeaks : (Op.selectToken index position : Op V).Speaks L Item.Makes := trivial
  exact ⟨(congrArg base.Keeps cells_selectToken).mpr h.keeps, h.supplied.after hL.offers hspeaks⟩

end Grown

/-- However `f` ends, it has only made cells. -/
def Grows (L : Language V → Prop) (base : Cells) {α : Type} (f : EditM V α) : Prop :=
  ∀ e, e.Grown L base → wp f (fun _ => Grown L base) (fun _ => Grown L base) e

namespace Grows
variable {α β : Type} {f : EditM V α} {g : α → EditM V β}

theorem pure (a : α) : Grows L base (pure a : EditM V α) := fun _ h => h

theorem throw (err : EditError) : Grows L base (throw err : EditM V α) := fun _ h => h

theorem bind (hf : Grows L base f) (hg : ∀ a, Grows L base (g a)) : Grows L base (f >>= g) :=
  fun e he => wp_seq (hf e he) hg

theorem get_bind {g : Editor V → EditM V β}
    (h : ∀ e, e.Grown L base → wp (g e) (fun _ => Grown L base) (fun _ => Grown L base) e) :
    Grows L base (MonadState.get >>= g) := by
  intro e he
  rw [wp_bind]
  exact h e he

/-- What is read may be used later: the items that could be applied then may be applied still. -/
theorem read {g : Editor V → EditM V β} (h : ∀ e, e.Supplied L Item.Makes → Grows L base (g e)) :
    Grows L base (MonadState.get >>= g) :=
  get_bind fun e he => h e he.supplied e he

theorem modifies {f : Editor V → Editor V} (h : ∀ e, e.Grown L base → (f e).Grown L base) :
    Grows L base (modify f : EditM V PUnit) := h

theorem discard (hf : Grows L base f) : Grows L base (discard f) :=
  fun e he => (wp_discard f).2 (hf e he)

theorem modifyView (index : Nat) (f : View → View) :
    Grows L base (modify (modifyView index f) : EditM V PUnit) :=
  modifies fun _ h => h.aside rfl rfl rfl rfl

theorem closeMenu : Grows L base (modify closeMenu : EditM V PUnit) :=
  modifies fun _ h => h.closeMenu

theorem onCells {f : StateM Cells α} (hf : ∀ cells : Cells, cells.Keeps (f.run cells).2) :
    Grows L base (onRegion (Region.onCells f) : EditM V α) := by
  intro e he
  rw [wp_onRegion, Region.wp_onCells]
  exact ⟨he.keeps.trans (hf _), he.supplied.setRegion he.supplied.language⟩

theorem reportEmptied : Grows L base (reportEmptied : EditM V Move) := by
  refine bind (modifies fun e h => ?_) fun _ => pure _
  exact h.aside rfl rfl rfl rfl

theorem shifted (index : Nat) (delta : Int) : Grows L base (shifted index delta : EditM V Nat) := by
  unfold Editor.shifted
  split
  · exact pure _
  · exact read fun _ _ => throw _

theorem afterInsertion (start count : Nat) :
    Grows L base (afterInsertion start count : EditM V Move) := by
  refine read fun e _ => ?_
  split_ifs
  · exact reportEmptied
  · exact pure _

theorem keepCaret (caret : Nat) : Grows L base (modify (keepCaret caret) : EditM V PUnit) := by
  refine modifies fun e he => ?_
  unfold Editor.keepCaret
  split
  · split_ifs
    · exact he.aside rfl rfl rfl rfl
    · exact he
  · exact he

theorem selectRange (start stop : Nat) :
    Grows L base (selectRange start stop : EditM V Unit) := by
  refine get_bind fun e he => ?_
  split
  · exact he
  · exact he.aside rfl rfl rfl rfl

theorem closeAndDeselect :
    Grows L base (modify fun e => { e.closeMenu with selection := none } : EditM V PUnit) :=
  modifies fun _ h => h.closeMenu.aside rfl rfl rfl rfl

variable [Payload V] [QuietPayload V]

theorem onRegion {f : RegionM V α} (h : Region.Undergoes .edits f) : Grows L base (onRegion f) := by
  intro e he
  have hend : ∀ r : Region V, e.region.Passes .edits r →
      ({ e with region := r } : Editor V).Grown L base := fun r hr =>
    ⟨he.keeps.trans hr.keeps, he.supplied.setRegion (hr.language_eq ▸ he.supplied.language)⟩
  rw [wp_onRegion]
  exact wp_mono (h e.region) (fun _ r hr => hend r hr) fun _ r hr => hend r hr

theorem splice (start stop : Nat) (new : List (Token V)) :
    Grows L base (Editor.onRegion (Region.splice start stop new)) :=
  onRegion (.splice fun _ _ => trivial)

theorem tokenAt (index : Nat) :
    Grows L base (Editor.onRegion (Region.tokenAt index) : EditM V (Token V)) :=
  onRegion .tokenAt

theorem replace (index : Nat) (t : Token V) :
    Grows L base (Editor.onRegion (Region.replace index t)) :=
  onRegion (.replace trivial)

theorem remove (index : Nat) :
    Grows L base (Editor.onRegion (Region.remove index) : EditM V (Token V)) :=
  onRegion .remove

theorem spliceUpdated (start stop : Nat) (new : List (Token V)) :
    Grows L base (spliceUpdated start stop new) :=
  (splice start stop new).bind fun _ => onRegion .updateToPrinted

theorem complete (placement : Placement) (target selected : Nat) (new : List (Token V)) :
    Grows L base (complete placement target selected new) := by
  cases placement with
  | replace =>
    refine read fun e _ => ?_
    split
    · exact throw _
    · exact (spliceUpdated _ _ _).bind fun _ => read fun _ _ => pure _
  | beside params =>
    exact read fun _ _ => (spliceUpdated _ _ _).bind fun _ => read fun _ _ => pure _
  | fill => exact read fun _ _ => (spliceUpdated _ _ _).bind fun _ => read fun _ _ => pure _

theorem removeBefore (kind : ContextKind) (target index : Nat) :
    Grows L base (removeBefore kind target index : EditM V (Token V)) := by
  unfold Editor.removeBefore
  split_ifs
  · exact throw _
  · exact throw _
  · exact remove index

theorem applyEffect (offer : Offer V) {effect : Effect V} (h : effect.Makes) :
    Grows L base (applyEffect offer effect) := by
  induction effect generalizing offer with
  | done move => exact pure move
  | fail err => exact throw err
  | look change next ih =>
    intro e he
    rw [Editor.applyEffect, wp_bind, wp_get, wp_bind, wp_onRegion]
    obtain ⟨hkeeps, hnext⟩ := h (e.scope offer) e.region.cells
    exact ih _ _ offer hnext _ ⟨he.keeps.trans hkeeps, he.supplied.setRegion he.supplied.language⟩
  | complete selected tokens next ih =>
    intro e he
    rw [Editor.applyEffect, wp_bind, wp_observing]
    exact wp_mono (complete _ _ _ _ e he) (fun _ => ih _ offer (h _)) fun _ => ih _ offer (h _)
  | remove index next ih =>
    intro e he
    rw [Editor.applyEffect, wp_bind, wp_observing]
    exact wp_mono (removeBefore _ _ _ e he) (fun _ => ih _ _ (h _)) fun _ => ih _ _ (h _)

theorem applyItem (offer : Offer V) {item : Item V} (hitem : item.Makes) (t : Text) :
    Grows L base (applyItem offer item t) := by
  intro e he
  obtain ⟨hkeeps, heffect⟩ := hitem (e.scope offer) t e.region.cells
  rw [Editor.applyItem, wp_bind, wp_get, wp_bind, wp_onRegion, Region.wp_onCells]
  exact applyEffect offer heffect _
    ⟨he.keeps.trans hkeeps, he.supplied.setRegion he.supplied.language⟩

theorem deleteToken (index : Nat) (delta : Int) :
    Grows L base (deleteToken index delta : EditM V Move) := by
  refine (shifted index delta).bind fun target => (remove target).discard.bind fun _ =>
    read fun e _ => ?_
  split_ifs
  · exact reportEmptied
  all_goals exact pure _

theorem replaceToken (index : Nat) (t : Token V) : Grows L base (replaceToken index t) :=
  (replace index t).discard.bind fun _ => read fun _ _ => pure _

theorem expandToError (index : Nat) (text : Text) (delta : Nat) :
    Grows L base (expandToError index text delta : EditM V Move) :=
  (splice _ _ _).bind fun _ => read fun _ _ => pure _

theorem save : Grows L base (save : EditM V (List (Token V))) :=
  read fun e _ => onCells fun cells => (Token.detachAll_adds e.tokens cells).keeps

variable (hL : Language.Makes L)
include hL

omit [QuietPayload V] in
theorem thenRun {f : EditM V Move} (hf : Grows L base f) : Grows L base (do
    let move ← f
    modify (Editor.run move)) :=
  hf.bind fun move => modifies fun _ h => h.run hL move

theorem completeMatch {offer : Offer V} (hitems : ∀ i ∈ offer.items, i.Makes) (t : Text) :
    Grows L base (completeMatch offer t) := by
  unfold Editor.completeMatch applyMatch
  split
  · exact pure _
  · rename_i item _ hmatching
    have hitem : item ∈ offer.items := Item.mem_of_mem_matching (t := t) (by simp [hmatching])
    simp only [bind_assoc, pure_bind]
    exact (applyItem offer (hitems item hitem) t).bind fun move =>
      modifies fun _ h => h.closeMenu.run hL move

theorem acceptItem (offer : Offer V) {item : Item V} (hitem : item.Makes) (t : Text) :
    Grows L base (acceptItem offer item t) := by
  refine (applyItem offer hitem t).bind fun move => modifies fun e h => ?_
  dsimp only
  split_ifs
  · have hcleared : ({ e with placeholder := [] } : Editor V).Grown L base :=
      h.aside rfl rfl rfl rfl
    exact hcleared.closeMenu.run hL move
  · exact h.closeMenu.run hL move

theorem mergeTokens (index : Nat) (backward : Bool) :
    Grows L base (mergeTokens index backward : EditM V Move) := by
  have hrest : ∀ left, Grows L base (mergeFrom left backward : EditM V Move) := fun left =>
    (tokenAt left).bind fun _ => (tokenAt (left + 1)).bind fun _ => read fun _ h =>
      (onCells (Item.keeps_resolve (h.mem_looseItems hL.offers) _)).bind fun _ =>
        (splice _ _ _).bind fun _ => read fun _ _ => pure _
  unfold Editor.mergeTokens
  split_ifs
  · exact (shifted index (-1)).bind hrest
  · exact (pure index).bind hrest

omit [Payload V] [QuietPayload V] in
theorem tokenize (t : Text) {e : Editor V} (h : e.Supplied L Item.Makes) :
    Grows L base (Editor.onRegion (Region.onCells (e.region.language.tokenize t))) :=
  onCells (hL.tokenize _ h.language t)

theorem replaceComment (index : Nat) : Grows L base (replaceComment index : EditM V Move) := by
  refine (tokenAt index).bind fun t => read fun e _ => ?_
  split
  · split
    · exact (replace _ _).discard.bind fun _ => pure _
    · exact read fun _ h => (tokenize hL _ h).bind fun _ => (spliceUpdated _ _ _).bind fun _ =>
        afterInsertion _ _
  · exact pure _

theorem afterType (index : Nat) : Grows L base (afterType index : EditM V Bool) := by
  have hsplit : ∀ (new : List (Token V)) (position : Position),
      Grows L base (spliceAndSelect index (index + 1) new (index + 1) position) := fun _ _ =>
    (spliceUpdated _ _ _).bind fun _ => modifies fun _ h => h.run hL _
  refine read fun e h => ?_
  have hresolve : ∀ t, Grows L base
      (Editor.onRegion (Region.onCells (Item.tokenOrError e.looseItems t)) : EditM V (Token V)) :=
    fun t => onCells (Item.keeps_tokenOrError (h.mem_looseItems hL.offers) t)
  split
  · exact pure _
  · split_ifs
    · exact pure _
    · dsimp only
      split_ifs
      · exact (hresolve _).bind fun _ => (hresolve _).bind fun _ =>
          (hsplit _ _).bind fun _ => pure _
      · exact (hresolve _).bind fun _ => (hresolve _).bind fun _ => (hresolve _).bind fun _ =>
          (hsplit _ _).bind fun _ => pure _
      · exact pure _

theorem afterPaste (start stop : Nat) (text : Text) :
    Grows L base (afterPaste start stop text : EditM V Unit) :=
  read fun _ h => (tokenize hL text h).bind fun _ => (spliceUpdated _ _ _).bind fun _ =>
    (afterInsertion _ _).thenRun hL

theorem clearSelection : Grows L base (clearSelection : EditM V Unit) := by
  refine get_bind fun e he => ?_
  split
  · exact he
  · rename_i s _
    have hdeselected : ({ e with selection := none } : Editor V).Grown L base :=
      he.aside rfl rfl rfl rfl
    rw [wp_bind, wp_set]
    refine ((splice s.start s.stop []).bind fun _ => read fun _ _ => ?_) _
      hdeselected.closeMenu
    dsimp only
    split_ifs
    · exact reportEmptied.thenRun hL
    · exact (pure _).thenRun hL
    · exact (pure _).thenRun hL

theorem typeInPlaceholder (c : Char) : Grows L base (typeInPlaceholder c : EditM V Unit) := by
  refine get_bind fun e he => ?_
  have hplaceholder : ∀ t, ({ e with placeholder := t } : Editor V).Grown L base :=
    fun _ => he.aside rfl rfl rfl rfl
  split
  · exact he
  · have hitems := ((hplaceholder (e.placeholder ++ [c])).supplied.proposes hL.offers).typingOffer
      .placeholder
    rw [wp_bind, wp_set]
    dsimp only
    split
    · rw [wp_bind, wp_set]
      exact completeMatch hL hitems _ _ (hplaceholder [])
    · split
      · rw [wp_bind, wp_set]
        exact ((splice _ _ _).bind fun _ => modifies fun _ h => h.selectToken hL _ _) _
          (hplaceholder [])
      · exact hplaceholder _

theorem typeBeside (index delta : Nat) (ownText : Option Text) (sideText : Text) :
    Grows L base (typeBeside index delta ownText sideText : EditM V Unit) := by
  have hrest : ∀ params : Params, Grows L base (do
      let e ← MonadState.get
      let offer := (Supplier.side index delta).offer params e
      if Item.hasSingleMatch offer.items sideText then Editor.completeMatch offer sideText
      else do
        let move ← Editor.expandToError index sideText delta
        modify (run move) : EditM V Unit) := by
    intro params
    refine read fun e h => ?_
    dsimp only
    split_ifs
    · exact completeMatch hL ((h.proposes hL.offers).offer _ _) _
    · exact (expandToError _ _ _).thenRun hL
  refine read fun e _ => ?_
  dsimp only
  split
  · exact (modifyView index _).bind fun _ => hrest _
  · exact (pure _).bind fun _ => hrest _

theorem typeAtValue (index : Nat) (c : Char) :
    Grows L base (typeAtValue index c : EditM V Unit) := by
  refine read fun e _ => ?_
  by_cases hc : c = ' '
  · simp only [if_pos hc]
    exact (expandToError _ _ _).thenRun hL
  · simp only [if_neg hc]
    exact typeBeside hL _ _ _ _

theorem markUnresolved (index : Nat) (text : Text) (caret : Nat) :
    Grows L base (markUnresolved index text caret : EditM V Unit) := by
  have hselect : Grows L base (modify (selectToken index (.offset caret)) : EditM V PUnit) :=
    modifies fun _ h => h.selectToken hL _ _
  refine read fun e _ => ?_
  split
  · split_ifs
    · exact hselect
    · exact (replace _ _).discard.bind fun _ => hselect
  · exact (replace _ _).discard.bind fun _ => hselect

section
variable {retype : Char → EditM V Unit} (hretype : ∀ c, Grows L base (retype c))
include hretype

theorem resolveTyped (index : Nat) : Grows L base (resolveTyped retype index) := by
  refine read fun e h => ?_
  split
  · dsimp only
    split_ifs
    · exact completeMatch hL ((h.proposes hL.offers).typingOffer _) _
    · exact typeBeside hL _ _ _ _
    · refine (modifyView index _).bind fun _ => read fun _ h =>
        (completeMatch hL ((h.proposes hL.offers).offer _ _) _).bind fun _ => ?_
      split
      · exact hretype _
      · exact pure _
    · exact typeBeside hL _ _ _ _
    · exact markUnresolved hL _ _ _
  · exact pure _

theorem typeSpace (index : Nat) : Grows L base (typeSpace retype index) := by
  have hopen : ∀ delta, Grows L base (do
      modify (Editor.modifyView index View.eraseBefore)
      let move ← Editor.expandToError index [] delta
      modify (run move) : EditM V Unit) := fun delta =>
    (modifyView index _).bind fun _ => (expandToError index [] delta).thenRun hL
  refine read fun e _ => ?_
  split
  · exact pure _
  · split
    · exact hopen _
    · exact resolveTyped hL hretype _

theorem typeAt (index : Nat) (c : Char) : Grows L base (typeAt retype index c) := by
  refine get_bind fun e he => ?_
  have htarget : (e.typingTarget index).2.Grown L base := by
    rcases typingTarget_eq (e := e) index with h | ⟨i, -, -, -, h⟩
    · rw [h]
      exact he
    · rw [h]
      exact he.selectToken hL i .last
  generalize e.typingTarget index = target at htarget
  obtain ⟨index, e'⟩ := target
  dsimp only at htarget ⊢
  rw [wp_bind, wp_set]
  split
  · exact typeAtValue hL _ _ _ htarget
  · refine ((modifyView index _).bind fun _ => ?_) e' htarget
    split
    · exact (replaceComment hL _).thenRun hL
    · refine (afterType hL index).bind fun split => ?_
      split_ifs
      · exact pure _
      · exact typeSpace hL hretype _
      · exact resolveTyped hL hretype _

theorem typeWith (c : Char) : Grows L base (typeWith retype c) := by
  refine (clearSelection hL).bind fun _ => read fun e _ => ?_
  split
  · exact typeInPlaceholder hL c
  · exact typeAt hL hretype _ c

end

theorem typeWithin (limit : Nat) (c : Char) :
    Grows L base (typeWithin (MonadExcept.throw .stalled) limit c : EditM V Unit) := by
  induction limit generalizing c with
  | zero => exact throw _
  | succ limit ih => exact typeWith hL ih c

theorem typeChar (c : Char) : Grows L base (typeChar c : EditM V Unit) :=
  read fun _ _ => typeWithin hL _ c

theorem typeText (t : Text) : Grows L base (typeText t : EditM V Unit) := by
  induction t with
  | nil => exact pure _
  | cons c t ih => exact (typeChar hL c).bind fun _ => ih

theorem becameEmpty (index : Nat) : Grows L base (becameEmpty index : EditM V Unit) := by
  have hchange : ∀ goes : Bool, Grows L base (do
      let move ← if goes then Editor.deleteToken index 0 else Editor.replaceToken index (.error [])
      modify (run move) : EditM V Unit) := by
    intro goes
    cases goes with
    | true => exact (deleteToken index 0).thenRun hL
    | false => exact (replaceToken index (.error [])).thenRun hL
  refine read fun e _ => ?_
  split
  · exact pure _
  · exact hchange _

theorem afterDelete (index : Nat) : Grows L base (afterDelete index : EditM V Unit) := by
  refine read fun e h => ?_
  split
  · split
    · exact becameEmpty hL _
    · split
      · exact pure _
      · dsimp only
        split_ifs
        · exact (completeMatch hL ((h.proposes hL.offers).typingOffer _) _).bind fun _ =>
            keepCaret _
        · exact markUnresolved hL _ _ _
  · exact pure _

theorem deleteWhole (index : Nat) : Grows L base (deleteWhole index : EditM V Unit) :=
  closeMenu.bind fun _ => (deleteToken _ _).thenRun hL

theorem deleteAcross (index : Nat) (backward : Bool) :
    Grows L base (deleteAcross index backward : EditM V Unit) := by
  have hclose : ∀ move : Move,
      Grows L base (modify fun e => e.closeMenu.run move : EditM V PUnit) := fun move =>
    modifies fun _ h => h.closeMenu.run hL move
  unfold Editor.deleteAcross
  generalize (if backward then (-1 : Int) else 1) = delta
  refine read fun e _ => ?_
  split
  · split
    · exact (mergeTokens hL _ _).bind hclose
    · exact (deleteToken _ _).bind hclose
  · exact pure _

theorem deleteChar (backward : Bool) : Grows L base (deleteChar backward : EditM V Unit) := by
  refine get_bind fun e he => ?_
  split
  · exact clearSelection hL e he
  · split
    · split
      · exact he.aside rfl rfl rfl rfl
      · exact he
    · split
      · exact he
      · rename_i index _ _ v _
        generalize (if backward then View.eraseBefore else View.eraseAfter) = erase
        generalize (if backward then v.caret == 0 else v.caretAtEnd) = atEdge
        split
        · exact deleteWhole hL _ e he
        · dsimp only
          split
          · exact deleteAcross hL _ _ e he
          · exact (modifyView index erase).bind (fun _ => afterDelete hL index) e he

theorem deleteCurrent : Grows L base (deleteCurrent : EditM V Unit) := by
  refine read fun e _ => ?_
  split
  · exact clearSelection hL
  · split
    · exact pure _
    · exact deleteWhole hL _

theorem paste (text : Text) : Grows L base (paste text : EditM V Unit) := by
  refine (clearSelection hL).bind fun _ => closeMenu.bind fun _ => get_bind fun e he => ?_
  split
  · rw [wp_bind, wp_set]
    exact afterPaste hL _ _ _ _ (he.aside rfl rfl rfl rfl)
  · split
    · exact afterPaste hL _ _ _ e he
    · exact afterPaste hL _ _ _ e he

theorem enter : Grows L base (enter : EditM V Unit) := by
  refine get_bind fun e he => ?_
  have hmenu := (he.supplied.proposes hL.offers).menuOffer
  split
  · split
    · rename_i hchoice
      exact acceptItem hL _ (hmenu _ (Item.mem_of_chosen hchoice)) _ e he
    · exact he.closeMenu
  · split
    · exact he
    · split
      · exact he
      · dsimp only
        split
        · exact he
        · split
          · exact completeMatch hL ((he.supplied.proposes hL.offers).offer _ _) _ e he
          · exact he

omit [QuietPayload V] in
theorem thenRepair {f : EditM V Unit} (hf : Grows L base f) : Grows L base (do
    f
    modify Editor.repairFocus) :=
  hf.bind fun _ => modifies fun _ h => h.repairFocus hL

theorem setTokens (new : List (Token V)) : Grows L base (setTokens new) :=
  closeAndDeselect.bind fun _ => (onRegion (.setTokens fun _ _ => trivial)).thenRepair hL

theorem setValue (v : Option V) : Grows L base (setValue v) :=
  closeMenu.bind fun _ => (onRegion (.setValue fun _ _ => trivial)).thenRepair hL

theorem restore (saved : Option (List (Token V))) : Grows L base (restore saved) :=
  closeAndDeselect.bind fun _ => (onRegion (.restore fun _ _ _ _ => trivial)).thenRepair hL

theorem processChanges : Grows L base (processChanges : EditM V Bool) := by
  refine (onRegion .processChanges).bind fun changed => ?_
  split
  · exact bind (modifies fun _ h => h.repairFocus hL) fun _ => pure _
  · exact (pure _).bind fun _ => pure _

theorem setLanguage {l : Language V} (hl : L l) : Grows L base (setLanguage l) := by
  intro e he
  have hkeeps : wp (Editor.setLanguage l) (fun _ e' => base.Keeps e'.region.cells)
      (fun _ e' => base.Keeps e'.region.cells) e := by
    rw [Editor.setLanguage, wp_bind, wp_modify, wp_bind, wp_onRegion]
    refine wp_mono (Region.Undergoes.setLanguage (S := .unlimited) trivial e.region)
      (fun _ r hr => ?_) fun _ r hr => he.keeps.trans hr.keeps
    exact run_region (P := fun r => base.Keeps r.cells) id (he.keeps.trans hr.keeps) .stay
  have hspeaks : (Op.setLanguage l : Op V).Speaks L Item.Makes := hl
  have hsupplied := after_iff.1 (he.supplied.after hL.offers hspeaks)
  exact wp_mono (wp_and hkeeps hsupplied) (fun _ _ h => ⟨h.1, h.2⟩)
    fun _ _ h => ⟨h.1, h.2⟩

end Grows

/-- The operation makes cells at most. -/
def Op.Makes : Op V → Prop
  | onCells f => ∀ cells : Cells, cells.Keeps (f.run cells).2
  | setCellText _ _ => False
  | _ => True

variable [Payload V] [QuietPayload V]

theorem Grown.after (hL : Language.Makes L) (h : e.Grown L base) {op : Op V}
    (hop : op.Speaks L Item.Makes) (hmakes : op.Makes) : (e.after op.run).Grown L base := by
  have grows : ∀ {f : EditM V Unit}, Grows L base f → (e.after f).Grown L base := fun hf =>
    after_iff.2 (hf e h)
  have hsupplied := h.supplied.after hL.offers hop
  have quiet : (e.after op.run).region.cells = e.region.cells → (e.after op.run).Grown L base :=
    fun hcells => ⟨hcells ▸ h.keeps, hsupplied⟩
  cases op with
  | setTokens new => exact grows (.setTokens hL new)
  | setValue v => exact grows (.setValue hL v)
  | setLanguage l => exact grows (.setLanguage hL hop)
  | processChanges => exact grows (Grows.processChanges hL).discard
  | restore saved => exact grows (.restore hL saved)
  | selectToken index position => exact h.selectToken hL index position
  | move m => exact h.run hL m
  | typeChar c => exact grows (.typeChar hL c)
  | typeWithin limit c => exact grows (.typeWithin hL limit c)
  | typeText t => exact grows (.typeText hL t)
  | backspace => exact grows (.deleteChar hL true)
  | delete => exact grows (.deleteChar hL false)
  | deleteCurrent => exact grows (.deleteCurrent hL)
  | paste t => exact grows (.paste hL t)
  | enter => exact grows (.enter hL)
  | activateMenu =>
    refine quiet ?_
    show e.activateMenu.region.cells = e.region.cells
    rw [activateMenu_eq, region_pollMenu, region_opened]
  | closeMenu => exact h.closeMenu
  | pollMenu => exact quiet (congrArg Region.cells (region_pollMenu e))
  | selectRange start stop => exact grows (.selectRange start stop)
  | expandSelection =>
    obtain ⟨s, hs⟩ := exists_expandSelection e
    refine quiet ?_
    show e.expandSelection.2.region.cells = e.region.cells
    rw [hs]
  | shrinkSelection =>
    obtain ⟨s, hs⟩ := exists_shrinkSelection e
    refine quiet ?_
    show e.shrinkSelection.2.region.cells = e.region.cells
    rw [hs]
  | clearSelection => exact grows (.clearSelection hL)
  | answer items => exact quiet rfl
  | send id items => exact quiet (congrArg Region.cells (region_send e id items).1)
  | dropSender id => exact quiet rfl
  | onCells f => exact grows (.onCells hmakes)
  | setCellText c t => exact hmakes.elim
  | save => exact grows Grows.save.discard
  | dispose => exact ⟨h.keeps.trans e.region.keeps_dispose, hsupplied⟩
  | setHideTokens hide => exact quiet rfl
  | focusPlaceholder => exact quiet rfl
  | deleteToken index delta => exact grows (Grows.deleteToken index delta).discard
  | replaceToken index t => exact grows (Grows.replaceToken index t).discard
  | mergeTokens index backward => exact grows (Grows.mergeTokens hL index backward).discard
  | expandToError index text delta => exact grows (Grows.expandToError index text delta).discard
  | replaceComment index => exact grows (Grows.replaceComment hL index).discard
  | afterType index => exact grows (Grows.afterType hL index).discard
  | afterPaste start stop t => exact grows (.afterPaste hL start stop t)

end Editor

end TokenEditor
