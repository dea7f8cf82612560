import TokenEditor.Proofs.Histories
import TokenEditor.Proofs.Retyping

/-! # What an operation reports

A deletion that takes the last token is reported to the host. `Reports k f`: however `f` ends, it has
reported at most `k` times. One lemma for each function; most of them report nothing, and a function
with `k` above zero is one through which a report may come.

Typing reports at most once, though it first deletes the selection and may type the character again:
after a report the row is empty, and then the character goes into the placeholder. -/

namespace TokenEditor
variable {V : Type}

namespace Editor
variable {e e' e'' : Editor V}

/-- From `e` to `e'` there are at most `k` reports. -/
structure Onward (k : Nat) (e e' : Editor V) : Prop where
  le : e.emptied ≤ e'.emptied
  le_add : e'.emptied ≤ e.emptied + k

namespace Onward
variable {k l : Nat}

theorem refl (e : Editor V) : Onward 0 e e := ⟨Nat.le_refl _, Nat.le_refl _⟩

theorem mono (h : Onward k e e') (hkl : k ≤ l) : Onward l e e' :=
  ⟨h.le, Nat.le_trans h.le_add (Nat.add_le_add_left hkl _)⟩

theorem trans (h : Onward k e e') (h' : Onward l e' e'') : Onward (k + l) e e'' := by
  refine ⟨Nat.le_trans h.le h'.le, ?_⟩
  have := h.le_add
  have := h'.le_add
  omega

theorem zero_trans (h : Onward 0 e e') (h' : Onward k e' e'') : Onward k e e'' :=
  Nat.zero_add k ▸ h.trans h'

theorem emptied_eq (h : Onward 0 e e') : e'.emptied = e.emptied :=
  Nat.le_antisymm h.le_add h.le

/-- All but the count plays no part. -/
theorem aside (h : e'.emptied = e.emptied) : Onward 0 e e' :=
  ⟨Nat.le_of_eq h.symm, Nat.le_of_eq h⟩

theorem then_aside (h : Onward k e e') (hemptied : e''.emptied = e'.emptied) : Onward k e e'' :=
  h.trans (l := 0) (aside hemptied)

theorem closeMenu (h : Onward k e e') : Onward k e e'.closeMenu := h.then_aside rfl

theorem pollMenu (h : Onward k e e') : Onward k e e'.pollMenu.2 := by
  refine h.then_aside ?_
  unfold Editor.pollMenu
  split
  · rfl
  · dsimp only
    split <;> rfl

theorem opened (h : Onward k e e') (s : Supplier) (params : Params) :
    Onward k e (e'.opened s params) := by
  refine h.then_aside ?_
  show (e'.promise (s.laterCalls params e')).2.emptied = e'.emptied
  unfold Editor.promise
  split
  · rfl
  · split <;> rfl

theorem selectToken (h : Onward k e e') (index : Nat) (position : Position) :
    Onward k e (e'.selectToken index position) := by
  unfold Editor.selectToken
  split
  · exact h
  · dsimp only
    split_ifs <;> exact h.then_aside rfl

theorem repairFocus (h : Onward k e e') : Onward k e e'.repairFocus := by
  have hfocused : Onward k e e'.refocused := by
    unfold refocused
    split_ifs
    · exact h.then_aside rfl
    · exact h.selectToken _ _
    · exact h
  rw [repairFocus_eq]
  split
  · split_ifs
    · exact hfocused.then_aside rfl
    · exact hfocused
  · exact hfocused

theorem activateMenu (h : Onward k e e') : Onward k e e'.activateMenu := by
  rw [activateMenu_eq]
  exact (h.opened _ _).pollMenu

theorem run (h : Onward k e e') (m : Move) : Onward k e (e'.run m) := by
  have hmoved : Onward k e (e'.moved m) := by
    unfold moved
    split
    · exact h.selectToken _ _
    · exact h.then_aside rfl
    · exact h
  rw [run_eq]
  split_ifs
  · exact hmoved.repairFocus.activateMenu
  · exact hmoved.repairFocus

end Onward

theorem focusedIndex?_run_toPlaceholder (h : e.tokens = []) :
    (e.run .toPlaceholder).focusedIndex? = none := by
  have hkept : e.focusPlaceholder.refocused = e.focusPlaceholder := by
    have hthere : e.focusPlaceholder.focusLost = false := by
      show (!e.tokens.isEmpty) = false
      rw [h]
      rfl
    rw [refocused, if_neg (by simp [hthere])]
  have hfocus : e.focusPlaceholder.repairFocus.focus = .placeholder := by
    rw [repairFocus_eq, hkept]
    split
    · split_ifs <;> rfl
    · rfl
  have hrun : e.run .toPlaceholder = e.focusPlaceholder.repairFocus := rfl
  rw [hrun, focusedIndex?, hfocus]

/-- However `f` ends, it has reported at most `k` times. -/
def Reports {α : Type} (k : Nat) (f : EditM V α) : Prop :=
  ∀ e, wp f (fun _ => Onward k e) (fun _ => Onward k e) e

namespace Reports
variable {α β : Type} {k l : Nat} {f : EditM V α} {g : α → EditM V β}

theorem pure (a : α) : Reports 0 (pure a : EditM V α) := .refl

theorem get : Reports 0 (get : EditM V (Editor V)) := .refl

theorem throw (err : EditError) : Reports 0 (throw err : EditM V α) := .refl

theorem mono (h : Reports k f) (hkl : k ≤ l) : Reports l f :=
  fun e => wp_mono (h e) (fun _ _ h => h.mono hkl) fun _ _ h => h.mono hkl

/-- What `f` reports after `e` has gone on to `e'` in silence. -/
theorem onward (hf : Reports k f) (h : Onward 0 e e') :
    wp f (fun _ => Onward k e) (fun _ => Onward k e) e' :=
  wp_mono (hf e') (fun _ _ h' => h.zero_trans h') fun _ _ h' => h.zero_trans h'

theorem bind (hf : Reports 0 f) (hg : ∀ a, Reports k (g a)) : Reports k (f >>= g) := by
  intro e
  rw [wp_bind]
  exact wp_mono (hf e) (fun a _ h => (hg a).onward h) fun _ _ h => h.mono (Nat.zero_le k)

theorem add (hf : Reports k f) (hg : ∀ a, Reports l (g a)) : Reports (k + l) (f >>= g) := by
  intro e
  rw [wp_bind]
  refine wp_mono (hf e) (fun a e' h => ?_) fun _ _ h => h.mono (Nat.le_add_right k l)
  exact wp_mono (hg a e') (fun _ _ h' => h.trans h') fun _ _ h' => h.trans h'

theorem get_bind {g : Editor V → EditM V β}
    (h : ∀ e, wp (g e) (fun _ => Onward k e) (fun _ => Onward k e) e) : Reports k (MonadState.get >>= g) := by
  intro e
  rw [wp_bind]
  exact h e

theorem modifies {f : Editor V → Editor V} (h : ∀ e, Onward k e (f e)) :
    Reports k (modify f : EditM V PUnit) := h

theorem modifyView (index : Nat) (f : View → View) :
    Reports 0 (modify (modifyView index f) : EditM V PUnit) :=
  modifies fun _ => .aside rfl

theorem discard (hf : Reports k f) : Reports k (discard f) :=
  fun e => (wp_discard f).2 (hf e)

theorem thenRun {f : EditM V Move} (hf : Reports k f) : Reports k (do
    let move ← f
    modify (Editor.run move)) :=
  hf.add fun move => .modifies (k := 0) fun e => (Onward.refl e).run move

theorem onRegion (f : RegionM V α) : Reports 0 (onRegion f) := by
  intro e
  rw [wp_onRegion, wp]
  cases f e.region <;> exact .aside rfl

variable [Payload V]

theorem spliceUpdated (start stop : Nat) (new : List (Token V)) :
    Reports 0 (spliceUpdated start stop new) :=
  (onRegion _).bind fun _ => onRegion _

theorem complete (placement : Placement) (target selected : Nat) (new : List (Token V)) :
    Reports 0 (complete placement target selected new) := by
  cases placement with
  | replace =>
    refine get.bind fun e => ?_
    split
    · exact throw _
    · exact (spliceUpdated _ _ _).bind fun _ => get.bind fun _ => pure _
  | beside params =>
    exact get.bind fun _ => (spliceUpdated _ _ _).bind fun _ => get.bind fun _ => pure _
  | fill => exact get.bind fun _ => (spliceUpdated _ _ _).bind fun _ => get.bind fun _ => pure _

theorem removeBefore (kind : ContextKind) (target index : Nat) :
    Reports 0 (removeBefore kind target index : EditM V (Token V)) := by
  unfold Editor.removeBefore
  split_ifs
  · exact throw _
  · exact throw _
  · exact onRegion _

theorem applyItem (offer : Offer V) (item : Item V) (t : Text) : Reports 0 (applyItem offer item t) :=
  get.bind fun _ => (onRegion _).bind fun effect e =>
    wp_applyEffect (I := Onward 0 e) (fun h => h.then_aside rfl)
      (fun _ _ _ _ h => (complete _ _ _ _).onward h) (fun _ _ _ h => (removeBefore _ _ _).onward h)
      offer effect (.refl e)

theorem completeMatch (offer : Offer V) (t : Text) : Reports 0 (completeMatch offer t) := by
  unfold Editor.completeMatch applyMatch
  split
  · exact pure _
  · rename_i item _ _
    simp only [bind_assoc, pure_bind]
    exact (applyItem offer item t).bind fun move => .modifies fun e => (Onward.refl e).closeMenu.run move

omit [Payload V] in
theorem reportEmptied : Reports 1 (reportEmptied : EditM V Move) := by
  refine add (k := 1) (.modifies fun e => ?_) fun _ => pure _
  exact ⟨Nat.le_succ _, Nat.le_refl _⟩

omit [Payload V] in
theorem shifted (index : Nat) (delta : Int) : Reports 0 (shifted index delta : EditM V Nat) := by
  unfold Editor.shifted
  split
  · exact pure _
  · exact get.bind fun _ => throw _

theorem replaceToken (index : Nat) (t : Token V) : Reports 0 (replaceToken index t) :=
  (onRegion _).discard.bind fun _ => get.bind fun _ => pure _

theorem mergeTokens (index : Nat) (backward : Bool) :
    Reports 0 (mergeTokens index backward : EditM V Move) := by
  have hrest : ∀ left, Reports 0 (mergeFrom left backward : EditM V Move) := fun left =>
    (onRegion _).bind fun _ => (onRegion _).bind fun _ => get.bind fun _ =>
      (onRegion _).bind fun _ => (onRegion _).bind fun _ => get.bind fun _ => pure _
  unfold Editor.mergeTokens
  split_ifs
  · exact (shifted index (-1)).bind hrest
  · exact (pure index).bind hrest

theorem expandToError (index : Nat) (text : Text) (delta : Nat) :
    Reports 0 (expandToError index text delta : EditM V Move) :=
  (onRegion _).bind fun _ => get.bind fun _ => pure _

omit [Payload V] in
theorem afterInsertion (start count : Nat) : Reports 1 (afterInsertion start count : EditM V Move) := by
  refine get.bind fun e => ?_
  split_ifs
  · exact reportEmptied
  · exact (pure _).mono (Nat.zero_le 1)

theorem replaceComment (index : Nat) : Reports 1 (replaceComment index : EditM V Move) := by
  refine (onRegion _).bind fun t => get.bind fun e => ?_
  split
  · split
    · exact ((onRegion _).discard.bind fun _ => pure _).mono (Nat.zero_le 1)
    · exact get.bind fun _ => (onRegion _).bind fun _ => (spliceUpdated _ _ _).bind fun _ =>
        afterInsertion _ _
  · exact (pure _).mono (Nat.zero_le 1)

theorem afterType (index : Nat) : Reports 0 (afterType index : EditM V Bool) := by
  have hsplit : ∀ (new : List (Token V)) (position : Position),
      Reports 0 (spliceAndSelect index (index + 1) new (index + 1) position) := fun new position =>
    (spliceUpdated _ _ _).bind fun _ => .modifies fun e => (Onward.refl e).run _
  refine get.bind fun e => ?_
  split
  · exact pure _
  · split_ifs
    · exact pure _
    · dsimp only
      split_ifs
      · exact (onRegion _).bind fun _ => (onRegion _).bind fun _ => (hsplit _ _).bind fun _ => pure _
      · exact (onRegion _).bind fun _ => (onRegion _).bind fun _ => (onRegion _).bind fun _ =>
          (hsplit _ _).bind fun _ => pure _
      · exact pure _

/-- A deletion of the selection that is reported leaves the focus on the placeholder. -/
theorem clearSelection_cases (e : Editor V) : wp clearSelection
    (fun _ e' => Onward 0 e e' ∨ Onward 1 e e' ∧ e'.focusedIndex? = none) (fun _ => Onward 0 e) e := by
  unfold Editor.clearSelection
  rw [wp_bind, wp_get]
  split
  · exact .inl (.refl e)
  · rename_i s _
    have hdeselected : Onward 0 e { e with selection := none } := .aside rfl
    rw [wp_bind, wp_set]
    refine wp_seq ((onRegion _).onward hdeselected.closeMenu) fun _ e' h => ?_
    rw [wp_bind, wp_get]
    dsimp only
    split_ifs with hempty
    · have htold : Onward 1 e { e' with emptied := e'.emptied + 1 } :=
        h.zero_trans ⟨Nat.le_succ _, Nat.le_refl _⟩
      have hnil : ({ e' with emptied := e'.emptied + 1 } : Editor V).tokens = [] :=
        List.eq_nil_of_length_eq_zero hempty
      exact .inr ⟨htold.run _, focusedIndex?_run_toPlaceholder hnil⟩
    · exact .inl (h.run _)
    · exact .inl (h.run _)

theorem typeInPlaceholder (c : Char) : Reports 0 (typeInPlaceholder c : EditM V Unit) := by
  refine get_bind fun e => ?_
  split
  · exact .refl e
  · have hplaceholder : ∀ t, Onward 0 e { e with placeholder := t } := fun _ => .aside rfl
    rw [wp_bind, wp_set]
    dsimp only
    split
    · rw [wp_bind, wp_set]
      exact (completeMatch _ _).onward (hplaceholder [])
    · split
      · rw [wp_bind, wp_set]
        exact ((onRegion _).bind fun _ => modifies fun e => (Onward.refl e).selectToken _ _).onward
          (hplaceholder [])
      · exact hplaceholder _

theorem typeBeside (index delta : Nat) (ownText : Option Text) (sideText : Text) :
    Reports 0 (typeBeside index delta ownText sideText : EditM V Unit) := by
  have hrest : ∀ params : Params, Reports 0 (do
      let e ← MonadState.get
      let offer := (Supplier.side index delta).offer params e
      if Item.hasSingleMatch offer.items sideText then Editor.completeMatch offer sideText
      else do
        let move ← Editor.expandToError index sideText delta
        modify (run move) : EditM V Unit) := by
    intro params
    refine get.bind fun e => ?_
    dsimp only
    split_ifs
    · exact completeMatch _ _
    · exact (expandToError _ _ _).thenRun
  refine get.bind fun e => ?_
  dsimp only
  split
  · exact (modifyView index _).bind fun _ => hrest _
  · exact (pure _).bind fun _ => hrest _

theorem typeAtValue (index : Nat) (c : Char) : Reports 0 (typeAtValue index c : EditM V Unit) := by
  refine get.bind fun e => ?_
  by_cases hc : c = ' '
  · simp only [if_pos hc]
    exact (expandToError _ _ _).thenRun
  · simp only [if_neg hc]
    exact typeBeside _ _ _ _

theorem markUnresolved (index : Nat) (text : Text) (caret : Nat) :
    Reports 0 (markUnresolved index text caret : EditM V Unit) := by
  have hselect : Reports 0 (modify (selectToken index (.offset caret)) : EditM V PUnit) :=
    modifies fun e => (Onward.refl e).selectToken _ _
  refine get.bind fun e => ?_
  split
  · split_ifs
    · exact hselect
    · exact (onRegion _).discard.bind fun _ => hselect
  · exact (onRegion _).discard.bind fun _ => hselect

section
variable {retype : Char → EditM V Unit} (hretype : ∀ c, Reports 1 (retype c))
include hretype

theorem resolveTyped (index : Nat) : Reports 1 (resolveTyped retype index) := by
  refine get.bind fun e => ?_
  split
  · dsimp only
    split_ifs
    · exact (completeMatch _ _).mono (Nat.zero_le 1)
    · exact (typeBeside _ _ _ _).mono (Nat.zero_le 1)
    · refine (modifyView index _).bind fun _ => get.bind fun _ =>
        (completeMatch _ _).bind fun _ => ?_
      split
      · exact hretype _
      · exact (pure _).mono (Nat.zero_le 1)
    · exact (typeBeside _ _ _ _).mono (Nat.zero_le 1)
    · exact (markUnresolved _ _ _).mono (Nat.zero_le 1)
  · exact (pure _).mono (Nat.zero_le 1)

theorem typeSpace (index : Nat) : Reports 1 (typeSpace retype index) := by
  have hopen : ∀ delta, Reports 0 (do
      modify (Editor.modifyView index View.eraseBefore)
      let move ← Editor.expandToError index [] delta
      modify (run move) : EditM V Unit) := fun delta =>
    (modifyView index _).bind fun _ => (expandToError index [] delta).thenRun
  refine get.bind fun e => ?_
  split
  · exact (pure _).mono (Nat.zero_le 1)
  · split
    · exact (hopen _).mono (Nat.zero_le 1)
    · exact resolveTyped hretype _

theorem typeAt (index : Nat) (c : Char) : Reports 1 (typeAt retype index c) := by
  refine get_bind fun e => ?_
  have htarget : Onward 0 e (e.typingTarget index).2 := by
    rcases typingTarget_eq (e := e) index with h | ⟨i, -, -, -, h⟩
    · rw [h]
      exact .refl e
    · rw [h]
      exact ((Onward.refl e).selectToken i .last :)
  generalize e.typingTarget index = target at htarget
  obtain ⟨index, e'⟩ := target
  dsimp only
  rw [wp_bind, wp_set]
  split
  · exact ((typeAtValue _ _).mono (Nat.zero_le 1)).onward htarget
  · have hinserted : Onward 0 e (e'.modifyView index (·.insert [c])) := htarget.then_aside rfl
    rw [wp_bind, wp_modify]
    split
    · exact (replaceComment _).thenRun.onward hinserted
    · refine ((afterType index).bind fun split => ?_).onward hinserted
      split_ifs
      · exact (pure _).mono (Nat.zero_le 1)
      · exact typeSpace hretype _
      · exact resolveTyped hretype _

/-- After a report there is no token left to type into, and none that could be deleted. -/
theorem typeWith (c : Char) : Reports 1 (typeWith retype c) := by
  intro e
  refine wp_seq (wp_mono (clearSelection_cases e) (fun _ _ h => h) fun _ _ h => h.mono (Nat.zero_le 1))
    fun _ e' h => ?_
  rcases h with h | ⟨h, hfocus⟩
  · refine (get.bind fun e' => ?_).onward h
    split
    · exact (typeInPlaceholder c).mono (Nat.zero_le 1)
    · exact typeAt hretype _ c
  · rw [wp_bind, wp_get, hfocus]
    exact wp_mono (typeInPlaceholder c e') (fun _ _ h' => h.trans h') fun _ _ h' => h.trans h'

end

theorem typeWithin (limit : Nat) (c : Char) :
    Reports 1 (typeWithin (MonadExcept.throw .stalled) limit c : EditM V Unit) := by
  induction limit generalizing c with
  | zero => exact (throw _).mono (Nat.zero_le 1)
  | succ limit ih => exact typeWith ih c

theorem typeChar (c : Char) : Reports 1 (typeChar c : EditM V Unit) :=
  get.bind fun _ => typeWithin _ c

omit [Payload V] in
theorem keepCaret (caret : Nat) : Reports 0 (modify (keepCaret caret) : EditM V PUnit) := by
  refine modifies fun e => ?_
  unfold Editor.keepCaret
  split
  · split_ifs
    · exact .aside rfl
    · exact .refl e
  · exact .refl e

end Reports

end Editor

end TokenEditor
