import TokenEditor.Proofs.Comments
import TokenEditor.Proofs.Display
import TokenEditor.Proofs.Reports
import TokenEditor.Proofs.Subscriptions

/-! # When the host is told that a region is empty

A key that deletes tells the host once if it took the last token, and else not at all. What it puts
in place of a token is never nothing: merging and completing put in at least one token, and a
reading that fails leaves a row that is not empty. The one exception is a selection of no token in an
empty row, which a well-formed editor does not have: to delete it is reported.

Pasting tells the host also when it has left an empty row empty, and it may tell twice, once for the
selection and once for the row. -/

namespace TokenEditor
variable {V : Type}

namespace Region
variable [Payload V] {start stop : Nat} {new : List (Token V)} {r : Region V}

/-- Reading fails only where there is something to read. -/
theorem read_fails (r : Region V) :
    wp (sync reparse) (fun _ _ => True) (fun _ _ => r.tokens ≠ []) r := by
  rw [wp_sync]
  split
  · trivial
  rw [wp_reparse]
  split
  · trivial
  split
  · trivial
  · rename_i hempty
    split
    · trivial
    · split
      · trivial
      · exact fun h => hempty (List.isEmpty_iff.2 h)

/-- What a splice makes of the row. If it fails it was out of range, or the row is not empty. -/
theorem row_splice (start stop : Nat) (new : List (Token V)) (r : Region V) :
    wp (splice start stop new)
      (fun _ r' => (start ≤ stop ∧ stop ≤ r.tokens.length) ∧
        r'.tokens = r.tokens.take start ++ new ++ r.tokens.drop stop)
      (fun _ r' => ¬ (start ≤ stop ∧ stop ≤ r.tokens.length) ∧ r'.tokens = r.tokens ∨
        r'.tokens ≠ [] ∧ r'.tokens = r.tokens.take start ++ new ++ r.tokens.drop stop) r := by
  rw [wp_splice]
  split_ifs with hout
  · exact .inl ⟨by omega, rfl⟩
  · refine wp_mono (wp_and (keepsRow_read _) (read_fails _)) (fun _ r' h => ?_) fun _ r' h => ?_
    · exact ⟨by omega, h.1.tokens⟩
    · exact .inr ⟨h.1.tokens ▸ h.2, h.1.tokens⟩
  · exact ⟨by omega, rfl⟩

end Region

namespace Item
variable {items : List (Item V)}

/-- Wherever it is applied, the item puts in at least one token and removes none. -/
def Fills (i : Item V) : Prop :=
  ∀ scope t cells, ∃ new : Insertion V,
    ((i.effect scope t).run cells).1 = .insert new ∧ new.tokens ≠ []

theorem resolve_ne_nil {t : Text} {cells : Cells} {ts : List (Token V)}
    (h : ((resolve items t).run cells).1 = some ts) : ts ≠ [] := by
  unfold resolve at h
  split at h
  · rename_i item _
    have htokens : ((item.captured t).run cells).1.filter (fun ts => !ts.isEmpty) = some ts := h
    obtain ⟨-, hne⟩ := Option.filter_eq_some_iff.1 htokens
    simpa using hne
  · cases h

end Item

namespace Editor
variable {e e' : Editor V} {L : Language V → Prop}

/-- However `f` ends, a row that was not empty is not empty. -/
def Stays {α : Type} (f : EditM V α) : Prop :=
  ∀ e, e.tokens ≠ [] → wp f (fun _ e' => e'.tokens ≠ []) (fun _ e' => e'.tokens ≠ []) e

namespace Stays
variable {α β : Type} {f : EditM V α} {g : α → EditM V β}

theorem pure (a : α) : Stays (pure a : EditM V α) := fun _ h => h

theorem get : Stays (get : EditM V (Editor V)) := fun _ h => h

theorem throw (err : EditError) : Stays (throw err : EditM V α) := fun _ h => h

theorem bind (hf : Stays f) (hg : ∀ a, Stays (g a)) : Stays (f >>= g) :=
  fun e he => wp_seq (hf e he) hg

theorem modifies {f : Editor V → Editor V} (h : ∀ e, (f e).tokens = e.tokens) :
    Stays (modify f : EditM V PUnit) :=
  fun e he => ne_of_eq_of_ne (h e) he

theorem discard (hf : Stays f) : Stays (discard f) :=
  fun e he => (wp_discard f).2 (hf e he)

variable [Payload V] {new : List (Token V)}

theorem splice (start stop : Nat) (hnew : new ≠ []) :
    Stays (onRegion (Region.splice start stop new)) := by
  intro e he
  rw [wp_onRegion]
  refine wp_mono (Region.row_splice start stop new e.region) (fun _ r h => ?_) fun _ r h => ?_
  · show r.tokens ≠ []
    simp [h.2, hnew]
  · rcases h with ⟨-, h⟩ | ⟨h, -⟩
    · exact ne_of_eq_of_ne h he
    · exact h

omit [Payload V] in
theorem tokenAt (index : Nat) : Stays (onRegion (Region.tokenAt index) : EditM V (Token V)) := by
  intro e he
  rw [wp_onRegion, Region.wp_tokenAt]
  split <;> exact he

theorem replace (index : Nat) (t : Token V) : Stays (onRegion (Region.replace index t)) := by
  intro e he
  rw [wp_onRegion, Region.wp_replace]
  split
  · exact wp_onRegion.1 (splice index (index + 1) (List.cons_ne_nil t []) e he)
  · exact he

theorem updateToPrinted : Stays (onRegion Region.updateToPrinted : EditM V Unit) := by
  intro e he
  rw [wp_onRegion]
  refine (Region.after_iff (P := fun r => r.tokens ≠ [])).1 ?_
  rw [← List.length_pos_iff] at he ⊢
  exact (Region.Shares.updateToPrinted e.region).length.symm ▸ he

theorem spliceUpdated (start stop : Nat) (hnew : new ≠ []) : Stays (spliceUpdated start stop new) :=
  (splice start stop hnew).bind fun _ => updateToPrinted

theorem spliceUpdated_ne_nil (start stop : Nat) (hnew : new ≠ []) (e : Editor V) :
    wp (Editor.spliceUpdated start stop new) (fun _ e' => e'.tokens ≠ []) (fun _ _ => True) e := by
  rw [Editor.spliceUpdated, wp_bind, wp_onRegion]
  refine wp_mono (Region.row_splice start stop new e.region) (fun _ r h => ?_) fun _ _ _ => trivial
  have hne : r.tokens ≠ [] := by simp [h.2, hnew]
  exact wp_mono (updateToPrinted { e with region := r } hne) (fun _ _ h => h) fun _ _ _ => trivial

theorem complete (placement : Placement) (target selected : Nat) (hnew : new ≠ []) :
    Stays (complete placement target selected new) := by
  cases placement with
  | replace =>
    refine get.bind fun e => ?_
    split
    · exact throw _
    · exact (spliceUpdated _ _ hnew).bind fun _ => get.bind fun _ => pure _
  | beside params =>
    exact get.bind fun _ => (spliceUpdated _ _ hnew).bind fun _ => get.bind fun _ => pure _
  | fill => exact get.bind fun _ => (spliceUpdated _ _ hnew).bind fun _ => get.bind fun _ => pure _

theorem applyItem (offer : Offer V) {item : Item V} (hitem : item.Fills) (t : Text) :
    Stays (applyItem offer item t) := by
  intro e he
  obtain ⟨new, heffect, hnew⟩ := hitem (e.scope offer) t e.region.cells
  rw [Editor.applyItem, wp_bind, wp_get, wp_bind, wp_onRegion, Region.wp_onCells, heffect,
    applyEffect_insert]
  exact complete offer.placement offer.target new.selected hnew _ he

theorem completeMatch {offer : Offer V} (hitems : ∀ i ∈ offer.items, i.Fills) (t : Text) :
    Stays (completeMatch offer t) := by
  unfold Editor.completeMatch applyMatch
  split
  · exact pure _
  · rename_i item _ hmatching
    have hitem : item ∈ offer.items := Item.mem_of_mem_matching (t := t) (by simp [hmatching])
    simp only [bind_assoc, pure_bind]
    exact (applyItem offer (hitems item hitem) t).bind fun move => modifies fun e => tokens_run move

theorem replaceToken (index : Nat) (t : Token V) : Stays (replaceToken index t) :=
  (replace index t).discard.bind fun _ => get.bind fun _ => pure _

theorem mergeTokens (index : Nat) (backward : Bool) :
    Stays (mergeTokens index backward : EditM V Move) := by
  have hrest : ∀ left, Stays (mergeFrom left backward : EditM V Move) := by
    intro left
    refine (tokenAt left).bind fun a => (tokenAt (left + 1)).bind fun b => get.bind fun e₀ e he => ?_
    dsimp only
    rw [wp_bind, wp_onRegion, Region.wp_onCells]
    refine (splice _ _ ?_).bind (fun _ => get.bind fun _ => pure _) _ he
    cases hresolved : ((Item.resolve e₀.looseItems _).run e.region.cells).1 with
    | none => exact List.cons_ne_nil _ _
    | some ts => exact Item.resolve_ne_nil hresolved
  unfold Editor.mergeTokens
  split_ifs
  · refine bind ?_ hrest
    unfold shifted
    split
    · exact pure _
    · exact get.bind fun _ => throw _
  · exact (pure index).bind hrest

theorem markUnresolved (index : Nat) (text : Text) (caret : Nat) :
    Stays (markUnresolved index text caret : EditM V Unit) := by
  have hselect : Stays (modify (selectToken index (.offset caret)) : EditM V PUnit) :=
    modifies fun _ => tokens_selectToken
  refine get.bind fun e => ?_
  split
  · split_ifs
    · exact hselect
    · exact (replace _ _).discard.bind fun _ => hselect
  · exact (replace _ _).discard.bind fun _ => hselect

end Stays

/-- However `f` ends, it has reported once if the row is empty now and `could` become so, and else not
at all. -/
def Announces {α : Type} (could : Bool) (f : EditM V α) (e : Editor V) : Prop :=
  wp f (fun _ e' => e'.emptied = e.emptied + (could && e'.tokens.isEmpty).toNat)
    (fun _ e' => e'.emptied = e.emptied + (could && e'.tokens.isEmpty).toNat) e

/-- There are tokens to delete, or there is a selection of none. -/
def canEmpty (e : Editor V) : Bool :=
  !e.tokens.isEmpty || e.selection == some ⟨0, 0⟩

/-- All of the row is selected. -/
def allSelected (e : Editor V) : Bool :=
  e.selection == some ⟨0, e.tokens.length⟩

theorem canEmpty_of_deselected (h : e.selection = none) : e.canEmpty = !e.tokens.isEmpty := by
  simp [canEmpty, h]

/-- The host is told if the row is empty. -/
def told (e : Editor V) : Editor V :=
  { e with emptied := e.emptied + e.tokens.isEmpty.toNat }

theorem told_ite {c : Prop} [Decidable c] (hc : c ↔ e.tokens = []) {f : EditM V Move}
    (hf : wp f (fun _ e' => e' = e) (fun _ _ => False) e) :
    wp (if c then reportEmptied else f) (fun _ e' => e' = e.told) (fun _ _ => False) e := by
  split_ifs with hempty
  · rw [told, List.isEmpty_iff.2 (hc.1 hempty)]
    rfl
  · rw [told, List.isEmpty_eq_false_iff.2 (mt hc.2 hempty)]
    exact hf

theorem emptied_run (e : Editor V) (m : Move) : (e.run m).emptied = e.emptied :=
  ((Onward.refl e).run m).emptied_eq

namespace Announces
variable {α β : Type} {could : Bool} {f : EditM V α}

/-- A row that was not empty stays so, and one that was empty was not emptied. -/
theorem of_stays (hquiet : Reports 0 f) (hstays : Stays f) (e : Editor V) :
    Announces (!e.tokens.isEmpty) f e := by
  have hnone : ∀ e' : Editor V, Onward 0 e e' → (e.tokens ≠ [] → e'.tokens ≠ []) →
      e'.emptied = e.emptied + (!e.tokens.isEmpty && e'.tokens.isEmpty).toNat := by
    intro e' hon hrow
    rw [hon.emptied_eq]
    cases hempty : e.tokens.isEmpty with
    | true => rfl
    | false =>
      have hne : e'.tokens.isEmpty = false := by
        rw [List.isEmpty_eq_false_iff] at hempty ⊢
        exact hrow hempty
      rw [hne]
      rfl
  have hrow : wp f (fun _ e' => e.tokens ≠ [] → e'.tokens ≠ []) (fun _ e' => e.tokens ≠ [] → e'.tokens ≠ [])
      e := by
    by_cases he : e.tokens = []
    · exact wp_mono (hquiet e) (fun _ _ _ h => absurd he h) fun _ _ _ h => absurd he h
    · exact wp_mono (hstays e he) (fun _ _ h _ => h) fun _ _ h _ => h
  exact wp_mono (wp_and (hquiet e) hrow) (fun _ e' h => hnone e' h.1 h.2) fun _ e' h => hnone e' h.1 h.2

theorem pure (a : α) (e : Editor V) : Announces (!e.tokens.isEmpty) (pure a : EditM V α) e :=
  of_stays (.pure a) (.pure a) e

theorem modify_bind {g : Editor V → Editor V} (hf : Announces could f (g e))
    (hemptied : (g e).emptied = e.emptied) : Announces could (modify g >>= fun _ => f) e := by
  rw [Announces, wp_bind, wp_modify]
  rwa [Announces, hemptied] at hf

theorem bind_modify {g : α → Editor V → Editor V} (hf : Announces could f e)
    (htokens : ∀ a e, (g a e).tokens = e.tokens) (hemptied : ∀ a e, (g a e).emptied = e.emptied) :
    Announces could (f >>= fun a => modify (g a)) e := by
  refine wp_seq hf fun a e' h => ?_
  rw [wp_modify, htokens, hemptied]
  exact h

theorem thenRun {f : EditM V Move} (hf : Announces could f e) : Announces could (do
    let move ← f
    modify (Editor.run move)) e :=
  hf.bind_modify (fun move _ => tokens_run move) fun move e => emptied_run e move

theorem thenCloseAndRun {f : EditM V Move} (hf : Announces could f e) : Announces could (do
    let move ← f
    modify fun e => e.closeMenu.run move) e :=
  hf.bind_modify (fun move _ => tokens_run move) fun move e => emptied_run e.closeMenu move

variable [Payload V]

theorem deleteToken (index : Nat) (delta : Int) (e : Editor V) :
    Announces (!e.tokens.isEmpty) (deleteToken index delta) e := by
  unfold Announces Editor.deleteToken shifted
  cases shifted? index delta with
  | none => exact pure () e
  | some target =>
    simp only [pure_bind, wp_bind, wp_discard, wp_onRegion, Region.remove, Region.wp_tokenAt]
    cases htarget : e.region.tokens[target]? with
    | none => exact pure () e
    | some t =>
      have hthere : e.tokens ≠ [] := List.ne_nil_of_mem (List.mem_of_getElem? htarget)
      rw [List.isEmpty_eq_false_iff.2 hthere]
      refine wp_mono (Region.row_splice target (target + 1) [] e.region) (fun _ r _ => ?_) fun _ r h => ?_
      · rw [wp_pure, wp_get]
        refine wp_mono (told_ite (e := { e with region := r }) List.isEmpty_iff ?_) ?_ fun _ _ h => h.elim
        · split_ifs <;> rfl
        · rintro - e' rfl
          rfl
      · have hne : r.tokens ≠ [] := by
          rcases h with ⟨-, h⟩ | ⟨h, -⟩
          · exact ne_of_eq_of_ne h hthere
          · exact h
        show e.emptied = e.emptied + (true && r.tokens.isEmpty).toNat
        rw [List.isEmpty_eq_false_iff.2 hne]
        rfl

theorem becameEmpty (index : Nat) (e : Editor V) :
    Announces (!e.tokens.isEmpty) (becameEmpty index) e := by
  have hchange : ∀ goes : Bool, Announces (!e.tokens.isEmpty) (do
      let move ← if goes then Editor.deleteToken index 0 else Editor.replaceToken index (.error [])
      modify (run move) : EditM V Unit) e := by
    intro goes
    cases goes with
    | true => exact (deleteToken index 0 e).thenRun
    | false => exact (of_stays (.replaceToken index _) (.replaceToken index _) e).thenRun
  rw [Announces, Editor.becameEmpty, wp_bind, wp_get]
  split
  · exact pure () e
  · exact hchange _

theorem deleteWhole (index : Nat) (e : Editor V) :
    Announces (!e.tokens.isEmpty) (deleteWhole index) e :=
  modify_bind (deleteToken index 0 e.closeMenu).thenRun rfl

theorem deleteAcross (index : Nat) (backward : Bool) (e : Editor V) :
    Announces (!e.tokens.isEmpty) (deleteAcross index backward) e := by
  unfold Editor.deleteAcross
  generalize (if backward then (-1 : Int) else 1) = delta
  rw [Announces, wp_bind, wp_get]
  split
  · split
    · exact (of_stays (.mergeTokens index backward) (.mergeTokens index backward) e).thenCloseAndRun
    · exact (deleteToken index delta e).thenCloseAndRun
  · exact pure () e

theorem afterDelete {index : Nat} (hitems : ∀ i ∈ (e.typingOffer (.token index)).items, i.Fills) :
    Announces (!e.tokens.isEmpty) (afterDelete index) e := by
  rw [Announces, Editor.afterDelete, wp_bind, wp_get]
  split
  · split
    · exact becameEmpty index e
    · split
      · exact pure () e
      · dsimp only
        split_ifs
        · exact (of_stays (.completeMatch _ _) (.completeMatch hitems _) e).bind_modify
            (fun _ _ => tokens_keepCaret _) fun _ e => (Reports.keepCaret _ e).emptied_eq
        · exact of_stays (.markUnresolved _ _ _) (.markUnresolved _ _ _) e
  · exact pure () e

end Announces

/-! ### Selections -/

theorem take_append_drop_eq_nil_iff {s : Span} {ts : List (Token V)} (hle : s.start ≤ s.stop)
    (hin : s.stop ≤ ts.length) : ts.take s.start ++ ts.drop s.stop = [] ↔ s = ⟨0, ts.length⟩ := by
  obtain ⟨start, stop⟩ := s
  simp only [List.append_eq_nil_iff, List.take_eq_nil_iff, List.drop_eq_nil_iff, Span.mk.injEq] at *
  constructor
  · rintro ⟨rfl | rfl, h⟩
    · exact ⟨rfl, by omega⟩
    · simp at hin ⊢
      omega
  · rintro ⟨rfl, rfl⟩
    exact ⟨.inl rfl, Nat.le_refl _⟩

section
variable [Payload V]

theorem wp_clearSelection {s : Span} (hs : e.selection = some s) : wp clearSelection
    (fun _ e' => (s.start ≤ s.stop ∧ s.stop ≤ e.tokens.length) ∧
      e'.tokens = e.tokens.take s.start ++ e.tokens.drop s.stop ∧
      e'.emptied = e.emptied + e'.tokens.isEmpty.toNat)
    (fun _ e' => e'.emptied = e.emptied ∧
      (¬ (s.start ≤ s.stop ∧ s.stop ≤ e.tokens.length) ∧ e'.tokens = e.tokens ∨
        e'.tokens ≠ [] ∧ e'.tokens = e.tokens.take s.start ++ e.tokens.drop s.stop)) e := by
  have htold : ∀ e₁ : Editor V, wp (do
      let count := (← MonadState.get).tokens.length
      let move ←
        if count = 0 then reportEmptied
        else if s.start < count then pure (Move.toToken s.start .first)
        else pure (Move.toToken (s.start - 1) .last)
      modify (run move) : EditM V Unit) (fun _ e' => e'.tokens = e₁.tokens ∧
        e'.emptied = e₁.emptied + e₁.tokens.isEmpty.toNat) (fun _ _ => False) e₁ := by
    intro e₁
    rw [wp_bind, wp_get]
    dsimp only
    split_ifs with hempty
    · rw [List.length_eq_zero_iff] at hempty
      show (run .toPlaceholder { e₁ with emptied := e₁.emptied + 1 }).tokens = e₁.tokens ∧
        (run .toPlaceholder { e₁ with emptied := e₁.emptied + 1 }).emptied = _
      rw [tokens_run, emptied_run, List.isEmpty_iff.2 hempty]
      exact ⟨rfl, rfl⟩
    all_goals
      rw [List.isEmpty_eq_false_iff.2 (mt List.length_eq_zero_iff.2 hempty)]
      exact ⟨tokens_run _, emptied_run _ _⟩
  rw [clearSelection, wp_bind, wp_get, hs]
  dsimp only
  rw [wp_bind, wp_set, wp_bind, wp_onRegion]
  refine wp_mono (Region.row_splice s.start s.stop [] e.region) (fun _ r h => ?_) fun _ r h => ?_
  · rw [List.append_nil] at h
    refine wp_mono (htold _) (fun _ e' h' => ?_) fun _ _ h => h.elim
    exact ⟨h.1, h'.1.trans h.2, h'.1 ▸ h'.2⟩
  · rw [List.append_nil] at h
    exact ⟨rfl, h⟩

theorem announces_clearSelection (e : Editor V) : Announces e.canEmpty clearSelection e := by
  cases hs : e.selection with
  | none =>
    rw [canEmpty_of_deselected hs, Announces, clearSelection, wp_bind, wp_get, hs]
    exact Announces.pure () e
  | some s =>
    refine wp_mono (wp_clearSelection hs) (fun _ e' h => ?_) fun _ e' h => ?_
    · obtain ⟨⟨hle, hin⟩, htokens, hemptied⟩ := h
      have hcould : e'.tokens = [] → e.canEmpty := by
        intro hnil
        have hall : s = ⟨0, e.tokens.length⟩ := (take_append_drop_eq_nil_iff hle hin).1 (htokens ▸ hnil)
        cases htokens : e.tokens with
        | nil => simp [canEmpty, hs, hall, htokens]
        | cons t ts => simp [canEmpty, htokens]
      rw [hemptied]
      cases hempty : e'.tokens.isEmpty with
      | true => rw [hcould (List.isEmpty_iff.1 hempty), Bool.true_and]
      | false => rw [Bool.and_false]
    · obtain ⟨hemptied, ⟨hout, htokens⟩ | ⟨hne, -⟩⟩ := h
      · rw [hemptied, htokens]
        cases hempty : e.tokens.isEmpty with
        | true =>
          have hnil : e.tokens.length = 0 := by simpa using hempty
          have hnone : s ≠ ⟨0, 0⟩ := by
            rintro rfl
            exact hout ⟨Nat.le_refl _, Nat.zero_le _⟩
          simp [canEmpty, hs, hempty, hnone]
        | false => simp
      · rw [hemptied, List.isEmpty_eq_false_iff.2 hne, Bool.and_false]
        rfl

/-- The deletion of a selection is reported if all of the row was selected. -/
theorem emptied_clearSelection (e : Editor V) : wp clearSelection
    (fun _ e' => e'.emptied = e.emptied + e.allSelected.toNat)
    (fun _ e' => e'.emptied = e.emptied + e.allSelected.toNat) e := by
  cases hs : e.selection with
  | none =>
    rw [clearSelection, wp_bind, wp_get, hs]
    simp [allSelected, hs]
  | some s =>
    have hall : e.allSelected = decide (s = ⟨0, e.tokens.length⟩) := by
      simp [allSelected, hs, beq_eq_decide]
    rw [hall]
    refine wp_mono (wp_clearSelection hs) (fun _ e' h => ?_) fun _ e' h => ?_
    · obtain ⟨⟨hle, hin⟩, htokens, hemptied⟩ := h
      have hempty : e'.tokens.isEmpty = decide (s = ⟨0, e.tokens.length⟩) := by
        rw [Bool.eq_iff_iff, decide_eq_true_iff, List.isEmpty_iff, htokens]
        exact take_append_drop_eq_nil_iff hle hin
      rw [hemptied, hempty]
    · obtain ⟨hemptied, h⟩ := h
      have hnot : s ≠ ⟨0, e.tokens.length⟩ := by
        rintro rfl
        rcases h with ⟨hout, -⟩ | ⟨hne, htokens⟩
        · exact hout ⟨Nat.zero_le _, Nat.le_refl _⟩
        · exact hne (by simpa using htokens)
      rw [hemptied, decide_eq_false hnot]
      rfl

/-- The delete keys. -/
def Op.Deletes : Op V → Prop
  | backspace | delete | deleteCurrent | clearSelection => True
  | _ => False

theorem announces_deleteChar (hL : ∀ l, L l → l.Offers Item.Fills) (h : e.Supplied L Item.Fills)
    (backward : Bool) : Announces e.canEmpty (deleteChar backward) e := by
  rw [Announces, deleteChar, wp_bind, wp_get]
  split
  · exact announces_clearSelection e
  · rename_i hsel
    rw [canEmpty_of_deselected (by simpa using hsel)]
    split
    · split
      · exact Announces.modify_bind (g := fun e => { e with placeholder := e.placeholder.dropLast })
          (Announces.pure () _) rfl
      · exact Announces.pure () e
    · split
      · exact Announces.pure () e
      · rename_i index _ _ v _
        generalize (if backward then View.eraseBefore else View.eraseAfter) = erase
        generalize (if backward then v.caret == 0 else v.caretAtEnd) = atEdge
        split
        · exact Announces.deleteWhole index e
        · dsimp only
          split
          · exact Announces.deleteAcross index backward e
          · have herased : (e.modifyView index erase).Supplied L Item.Fills :=
              h.aside h.language rfl rfl
            exact Announces.modify_bind (g := modifyView index erase)
              (Announces.afterDelete ((herased.proposes hL).typingOffer _)) rfl

theorem Op.Deletes.announces (hL : ∀ l, L l → l.Offers Item.Fills) (h : e.Supplied L Item.Fills)
    {op : Op V} (hop : op.Deletes) : Announces e.canEmpty op.run e := by
  cases op with
  | backspace => exact announces_deleteChar hL h true
  | delete => exact announces_deleteChar hL h false
  | deleteCurrent =>
    rw [Announces, Op.run, Editor.deleteCurrent, wp_bind, wp_get]
    split
    · exact announces_clearSelection e
    · rename_i hsel
      rw [canEmpty_of_deselected (by simpa using hsel)]
      split
      · exact Announces.pure () e
      · exact Announces.deleteWhole _ e
  | clearSelection => exact announces_clearSelection e
  | _ => exact hop.elim

/-! ### Typing and pasting -/

omit [Payload V] in
theorem focusedIndex?_of_empty (hviews : e.views.length = e.tokens.length) (hempty : e.tokens = []) :
    e.focusedIndex? = none := by
  cases hi : e.focusedIndex? with
  | none => rfl
  | some i =>
    have hlt := lt_of_focusedIndex? hi
    rw [hviews, hempty] at hlt
    cases hlt

theorem emptied_typeChar (hviews : e.views.length = e.tokens.length) (h : e.canEmpty = false) (c : Char) :
    wp (typeChar c) (fun _ e' => e'.emptied = e.emptied) (fun _ e' => e'.emptied = e.emptied) e := by
  obtain ⟨hempty, hsel⟩ : e.tokens = [] ∧ e.selection ≠ some ⟨0, 0⟩ := by
    simpa [canEmpty] using h
  have hfocus := focusedIndex?_of_empty hviews hempty
  have hclear : wp clearSelection (fun _ e' => e' = e) (fun _ e' => e'.emptied = e.emptied) e := by
    cases hs : e.selection with
    | none =>
      rw [clearSelection, wp_bind, wp_get, hs]
      rfl
    | some s =>
      refine wp_mono (wp_clearSelection hs) (fun _ e' h => ?_) fun _ e' h => h.1
      obtain ⟨⟨hle, hin⟩, -⟩ := h
      refine absurd (hs.trans (congrArg some ?_)) hsel
      obtain ⟨start, stop⟩ := s
      simp only [hempty, List.length_nil, Nat.le_zero] at hle hin
      subst hin
      rw [Nat.le_zero.1 hle]
  refine wp_typeChar_of_typeWith fun retype => wp_seq hclear ?_
  rintro - e' rfl
  rw [wp_bind, wp_get, hfocus]
  exact wp_mono (Reports.typeInPlaceholder c e') (fun _ _ ho => ho.emptied_eq) fun _ _ ho => ho.emptied_eq

/-- What follows the splice of a paste leaves the row alone, and reports if it is empty. -/
theorem wp_afterPaste {start stop : Nat} {t : Text} {post : Unit → Editor V → Prop}
    {fail : EditError → Editor V → Prop}
    (h : wp (spliceUpdated start stop ((e.region.language.tokenize t).run e.region.cells).1)
      (fun _ e₁ => ∀ e', e'.tokens = e₁.tokens → e'.emptied = e₁.emptied + e₁.tokens.isEmpty.toNat →
        post () e') fail { e with region := { e.region with
          cells := ((e.region.language.tokenize t).run e.region.cells).2 } }) :
    wp (afterPaste start stop t) post fail e := by
  rw [afterPaste, wp_bind, wp_get, wp_bind, wp_onRegion, Region.wp_onCells]
  refine wp_seq h fun _ e₁ h₁ => ?_
  have htold : wp (afterInsertion start ((e.region.language.tokenize t).run e.region.cells).1.length)
      (fun _ e' => e' = e₁.told) (fun _ _ => False) e₁ := by
    rw [afterInsertion, wp_bind, wp_get]
    exact told_ite List.isEmpty_iff rfl
  refine wp_seq (wp_mono htold (fun _ _ h => h) fun _ _ h => h.elim) ?_
  rintro move e' rfl
  exact h₁ _ (tokens_run move) (emptied_run _ move)

theorem emptied_afterPaste (start stop : Nat) (t : Text) (e : Editor V) : wp (afterPaste start stop t)
    (fun _ e' => e'.emptied = e.emptied + e'.tokens.isEmpty.toNat) (fun _ e' => e'.emptied = e.emptied)
    e := by
  refine wp_afterPaste (wp_mono (Reports.spliceUpdated start stop _ _) (fun _ e₁ h₁ e' ht he => ?_)
    fun _ _ h => h.emptied_eq)
  rw [he, ht, h₁.emptied_eq]

theorem emptied_paste (t : Text) (e : Editor V) : wp (paste t)
    (fun _ e' => e'.emptied = e.emptied + e.allSelected.toNat + e'.tokens.isEmpty.toNat)
    (fun _ e' => e'.emptied = e.emptied + e.allSelected.toNat) e := by
  refine wp_seq (emptied_clearSelection e) fun _ e₁ h₁ => ?_
  have hafter : ∀ (e₂ : Editor V) (start stop : Nat) (t : Text), e₂.emptied = e₁.emptied →
      wp (afterPaste start stop t)
        (fun _ e' => e'.emptied = e.emptied + e.allSelected.toNat + e'.tokens.isEmpty.toNat)
        (fun _ e' => e'.emptied = e.emptied + e.allSelected.toNat) e₂ := by
    intro e₂ start stop t h₂
    have h := emptied_afterPaste start stop t e₂
    rwa [h₂, h₁] at h
  rw [wp_bind, wp_modify, wp_bind, wp_get]
  split
  · rw [wp_bind, wp_set]
    exact hafter _ _ _ _ rfl
  · split
    · exact hafter _ _ _ _ rfl
    · exact hafter _ _ _ _ rfl

end

end Editor

namespace Expr

theorem fills_put {i : Item Expr} (h : ∀ scope t cells, ∃ u : Token Expr,
    ((i.effect scope t).run cells).1 = .put [u]) : i.Fills := by
  intro scope t cells
  obtain ⟨u, hu⟩ := h scope t cells
  exact ⟨_, hu, List.cons_ne_nil u []⟩

theorem fills_tokenItems : ∀ i ∈ tokenItems, i.Fills := by
  intro i hi
  refine fills_put fun scope t cells => ?_
  simp only [tokenItems, List.mem_cons, List.not_mem_nil, or_false] at hi
  rcases hi with rfl | rfl | rfl | rfl | rfl | rfl | rfl | rfl | rfl | rfl <;> exact ⟨_, rfl⟩

theorem fills_laterItems : ∀ i ∈ laterItems, i.Fills := by
  intro i hi
  rw [List.mem_singleton.1 hi]
  exact fills_put fun scope t cells => ⟨_, rfl⟩

theorem offers_fills : ∀ l, IsLanguage l → l.Offers Item.Fills := by
  rintro _ ⟨p, rfl⟩
  refine ⟨fun _ _ _ => fills_tokenItems, fun _ _ _ i hi => ?_, by rintro _ _ _ _ ⟨⟩⟩
  rw [List.mem_singleton.1 hi]
  exact fills_put fun scope t cells => ⟨_, rfl⟩

theorem tokensOf_ne_nil_of_bad {bad : Text} (hbad : bad ≠ []) (ls : List Lexeme) (cells : Cells) :
    ((tokensOf bad ls).run cells).1 ≠ [] := by
  have hflush : ∀ {bad : Text} (ts : List (Token Expr)), bad ≠ [] → tokensOf.flush bad ts ≠ [] := by
    intro bad ts hbad
    rw [tokensOf.flush, if_neg (by simpa using hbad)]
    exact List.cons_ne_nil _ _
  induction ls generalizing bad cells with
  | nil => exact hflush [] hbad
  | cons l ls ih =>
    unfold tokensOf
    split
    · exact hflush _ hbad
    · rw [StateT.run_bind]
      cases hresult : (tokenOf? l).run cells with
      | mk result cells' =>
        cases result with
        | some t => exact hflush _ hbad
        | none => exact ih (by simp [hbad]) cells'

theorem isTrivia_firstLexeme {c : Char} (h : isSpace c = false) (cs : Text) :
    (firstLexeme c cs).1.isTrivia = false := by
  have hsymbol : (symbolKind c).isTrivia = false := by
    unfold symbolKind
    split <;> rfl
  unfold firstLexeme
  rw [if_neg (by simp [h])]
  split_ifs
  · rfl
  · rfl
  · rfl
  · exact hsymbol

/-- Only blank texts are cut into no tokens. -/
theorem tokenize_eq_nil_iff (t : Text) (cells : Cells) :
    ((tokenize t).run cells).1 = [] ↔ t.all isSpace := by
  unfold tokenize
  induction t with
  | nil =>
    rw [lex_eq_nil.2 rfl]
    exact iff_of_true rfl rfl
  | cons c cs ih =>
    cases hc : isSpace c with
    | true => rw [tokensOf_lex_space hc, ih, List.all_cons, hc, Bool.true_and]
    | false =>
      refine iff_of_false ?_ (by simp [hc])
      rw [lex_cons]
      unfold tokensOf
      rw [if_neg (by simp [isTrivia_firstLexeme hc cs]), StateT.run_bind]
      cases hresult : (tokenOf? ⟨(firstLexeme c cs).1, c :: cs.take (firstLexeme c cs).2⟩).run cells with
      | mk result cells' =>
        cases result with
        | some t => exact List.cons_ne_nil _ _
        | none => exact tokensOf_ne_nil_of_bad (by simp) _ cells'

end Expr

namespace Editor

/-- In a well-formed editor something is selected if anything is. -/
theorem canEmpty_of_wellFormed {V : Type} {e : Editor V} (h : e.WellFormed) :
    e.canEmpty = !e.tokens.isEmpty := by
  have hsel : e.selection ≠ some ⟨0, 0⟩ := fun hs => Nat.lt_irrefl 0 (h.selection _ hs)
  rw [canEmpty, beq_false_of_ne hsel, Bool.or_false]

section
variable {e : Editor Expr} (hempty : e.tokens = []) (hrest : e.region.AtRest)
include hempty hrest

theorem spliceUpdated_nil : wp (spliceUpdated 0 0 []) (fun _ e' => e'.tokens = []) (fun _ _ => False)
    e := by
  have hread : wp (Region.splice 0 0 []) (fun _ r => r.syncing = false ∧ r.printed = some [] ∧
      r.tokens = []) (fun _ _ => False) e.region := by
    have hspliced : (e.region.spliced 0 0 []).tokens = [] := by
      rw [Region.spliced, show e.region.tokens = [] from hempty]
      rfl
    rw [Region.wp_splice, if_neg (by simp), if_pos hrest.autoReparse, Region.wp_sync,
      if_neg (by simp [Region.spliced, hrest.syncing]), Region.wp_reparse,
      if_neg (by simp [Region.underSync, Region.spliced, hrest.restoring]),
      if_pos (show (e.region.spliced 0 0 []).underSync.tokens.isEmpty from List.isEmpty_iff.2 hspliced)]
    exact ⟨rfl, rfl, hspliced⟩
  rw [spliceUpdated, wp_bind, wp_onRegion]
  refine wp_mono hread ?_ fun _ _ h => h
  rintro - r ⟨hsync, hprinted, htokens⟩
  rw [wp_onRegion, Region.wp_updateToPrinted_some hsync hprinted, if_pos (by rw [htokens])]
  exact htokens

theorem spliceUpdated_into_empty (new : List (Token Expr)) : wp (spliceUpdated 0 0 new)
    (fun _ e' => e'.tokens = [] ↔ new = []) (fun _ _ => new ≠ []) e := by
  by_cases hnew : new = []
  · rw [hnew]
    exact wp_mono (spliceUpdated_nil hempty hrest) (fun _ _ h => iff_of_true h rfl) fun _ _ h => h.elim
  · exact wp_mono (Stays.spliceUpdated_ne_nil 0 0 hnew e) (fun _ _ h => iff_of_false h hnew)
      fun _ _ _ => hnew

theorem paste_into_empty (hl : Expr.IsLanguage e.region.language)
    (hviews : e.views.length = e.tokens.length) (hsel : e.selection = none) (t : Text) :
    endsWith (paste t) (fun _ e' => e'.tokens.isEmpty) e = (e.placeholder ++ t).all Expr.isSpace := by
  have hcut : ∀ cells, ((e.region.language.tokenize (e.placeholder ++ t)).run cells).1 = [] ↔
      (e.placeholder ++ t).all Expr.isSpace := by
    obtain ⟨p, hp⟩ := hl
    rw [hp]
    exact Expr.tokenize_eq_nil_iff _
  have hfocus : e.closeMenu.focusedView? = none := by
    rw [focusedView?, focusedIndex?_of_empty (e := e.closeMenu) hviews hempty]
  have hpaste : wp (paste t) (fun _ e' => e'.tokens = [] ↔ (e.placeholder ++ t).all Expr.isSpace)
      (fun _ _ => ¬ (e.placeholder ++ t).all Expr.isSpace) e := by
    rw [paste, wp_bind, clearSelection, wp_bind, wp_get, hsel]
    simp only [wp_pure]
    rw [wp_bind, wp_modify, wp_bind, wp_get, hfocus]
    dsimp only
    rw [wp_bind, wp_set, show e.closeMenu.tokens.length = 0 from List.length_eq_zero_iff.2 hempty]
    refine wp_afterPaste ?_
    refine wp_mono (spliceUpdated_into_empty ?_ ?_ _) (fun _ e₁ h e' ht _ => ?_) fun _ _ h => ?_
    · exact hempty
    · exact .of_flags hrest.autoReparse hrest.syncing hrest.restoring
    · rw [ht, h]
      exact hcut _
    · exact mt (hcut _).2 h
  unfold wp at hpaste
  rw [Bool.eq_iff_iff]
  unfold endsWith
  cases hrun : paste t e with
  | ok a e' =>
    rw [hrun] at hpaste
    exact List.isEmpty_iff.trans hpaste
  | error err e' =>
    rw [hrun] at hpaste
    exact iff_of_false Bool.false_ne_true hpaste

end

/-- What the host is told, after any operations, failing or not. -/
theorem emptying_is_told (p : Expr.Precedence) (cells : Cells) (settings : Settings)
    (ops : List (Op Expr)) (hops : ∀ op ∈ ops, op.Speaks Expr.IsLanguage (· ∈ Expr.laterItems))
    {e : Editor Expr} (he : afterAll ops (Editor.new (Expr.language p) cells settings) = e) :
    (∀ op : Op Expr, op.Deletes → (e.after op.run).emptied =
      e.emptied + (e.canEmpty && (e.after op.run).tokens.isEmpty).toNat) ∧
    (e.WellFormed → e.canEmpty = !e.tokens.isEmpty) ∧
    (∀ c, e.emptied ≤ (e.after (typeChar c)).emptied ∧
      (e.after (typeChar c)).emptied ≤ e.emptied + e.canEmpty.toNat) ∧
    (∀ t, (e.after (paste t)).emptied = e.emptied + e.allSelected.toNat +
      (endsWith (paste t) (fun _ e' => e'.tokens.isEmpty) e).toNat) ∧
    (settings.autoReparse = true → e.tokens = [] → e.selection = none → ∀ t,
      (e.after (paste t)).emptied = e.emptied + ((e.placeholder ++ t).all Expr.isSpace).toNat) := by
  have hsupplied : e.Supplied Expr.IsLanguage Item.Fills :=
    he ▸ (Supplied.new ⟨p, rfl⟩ cells settings).afterAll Expr.offers_fills fun op hop =>
      (hops op hop).mono (fun _ hl => hl) Expr.fills_laterItems
  have hviews : e.views.length = e.tokens.length := by
    have hnew : (Editor.new (Expr.language p) cells settings).region.Projected := List.Forall₂.nil
    rw [← he]
    exact (projected_afterAll hnew ops).length_eq
  have hpaste : ∀ t, (e.after (paste t)).emptied = e.emptied + e.allSelected.toNat +
      (endsWith (paste t) (fun _ e' => e'.tokens.isEmpty) e).toNat := by
    intro t
    have h := emptied_paste t e
    unfold wp at h
    unfold after endsWith
    cases hrun : paste t e with
    | ok a e' =>
      rw [hrun] at h
      exact h
    | error err e' =>
      rw [hrun] at h
      exact h
  refine ⟨fun op hop => ?_, canEmpty_of_wellFormed, fun c => ?_, hpaste, ?_⟩
  · exact after_iff.2 (hop.announces Expr.offers_fills hsupplied)
  · have hbounds := after_iff.2 (Reports.typeChar c e)
    refine ⟨hbounds.le, ?_⟩
    cases hcould : e.canEmpty with
    | true => exact hbounds.le_add
    | false =>
      have hsame := after_iff.2 (emptied_typeChar hviews hcould c)
      exact Nat.le_of_eq hsame
  · intro hauto hempty hsel t
    have hnew : (Editor.new (Expr.language p) cells settings).region.AtRest := .of_flags hauto rfl rfl
    have hrest : e.region.AtRest := he ▸ atRest_afterAll hnew ops
    rw [hpaste, paste_into_empty hempty hrest hsupplied.language hviews hsel]
    simp [allSelected, hsel]

/-- A space pasted into a new editor, and one pasted over a row of one token. -/
theorem emptying_is_told_space : ∃ e : Editor Expr,
    afterAll [.paste ['a'], .selectRange 0 1] (Editor.new (Expr.language {}) {} {}) = e ∧
      e.tokens.length = 1 ∧ e.emptied = 0 ∧ (e.after (paste [' '])).emptied = 2 ∧
      (Editor.new (Expr.language {}) {} {}).tokens = [] ∧
      ((Editor.new (Expr.language {}) {} {}).after (paste [' '])).emptied = 1 := by
  have htest : (fun e : Editor Expr => e.tokens.length == 1 && e.emptied == 0 && e.allSelected &&
      endsWith (paste [' ']) (fun _ e' => e'.tokens.isEmpty) e)
      (afterAll [.paste ['a'], .selectRange 0 1] (Editor.new (Expr.language {}) {} {})) = true := by
    decide +kernel
  simp only [Bool.and_eq_true, beq_iff_eq] at htest
  obtain ⟨⟨⟨hone, hnone⟩, hall⟩, hends⟩ := htest
  obtain ⟨-, -, -, hpaste, -⟩ := emptying_is_told {} {} {} [.paste ['a'], .selectRange 0 1]
    (by simp [Op.Speaks]) rfl
  obtain ⟨-, -, -, -, hblank⟩ := emptying_is_told {} {} {} [] (by simp) rfl
  refine ⟨_, rfl, hone, hnone, ?_, rfl, hblank rfl rfl rfl [' ']⟩
  rw [hpaste, hnone, hall, hends]
  rfl

end Editor

end TokenEditor
