import TokenEditor.Proofs.Identity
import TokenEditor.Proofs.NoDrift

/-! # Whatever went before

`NoDrift` lets a host do what cannot fail. Here it may do anything: name places that are not there,
bring in values of any form, edit the row by hand. What fails is not followed up. As long as all
operations went well no view has drifted and the views have distinct numbers. -/

namespace TokenEditor
variable {V : Type}

theorem wp_bind_of_fails {ε σ α β : Type} {f : EStateM ε σ β} {g : β → EStateM ε σ α}
    {post : α → σ → Prop} {fail : ε → σ → Prop} {s : σ} (h : wp f (fun _ _ => False) fail s) :
    wp (f >>= g) post fail s :=
  wp_seq h fun _ _ h => h.elim

/-- Mild languages may be given any tokens. -/
theorem Language.Mild.any [Payload V] {L : Language V → Prop} {C : Token V → Prop}
    (h : Language.Mild L C) : Language.Mild L fun _ => True where
  toPrints := prints_any L
  plain _ _ := trivial
  offers l hl := (h.offers l hl).mono fun _ hi => hi.mono fun _ _ => trivial
  tokenize _ _ _ _ _ _ := trivial

theorem Region.tokenAt_fails {r : Region V} {index : Nat} (h : ¬ index < r.tokens.length)
    {post : Token V → Region V → Prop} : wp (tokenAt index) post (fun _ _ => True) r := by
  have hnone : r.tokens[index]? = none := List.getElem?_eq_none (Nat.le_of_not_lt h)
  rw [wp_tokenAt, hnone]
  trivial

namespace Editor

variable [Payload V] {L : Language V → Prop} {I : Item V → Prop} {start e e' : Editor V}

theorem splice_fails {start stop : Nat} (new : List (Token V))
    (h : ¬ (start ≤ stop ∧ stop ≤ e.tokens.length)) {post : Unit → Editor V → Prop} :
    wp (onRegion (Region.splice start stop new)) post (fun _ _ => True) e := by
  have hout : stop < start ∨ e.region.tokens.length < stop := by
    by_contra hin
    exact h ⟨by omega, by show stop ≤ e.region.tokens.length; omega⟩
  rw [wp_onRegion, Region.wp_splice, if_pos hout]
  trivial

omit [Payload V] in
theorem tokenAt_fails {index : Nat} (h : ¬ index < e.tokens.length)
    {post : Token V → Editor V → Prop} :
    wp (onRegion (Region.tokenAt index)) post (fun _ _ => True) e :=
  wp_onRegion.2 (Region.tokenAt_fails h)

theorem clearSelection_fails (h : ¬ e.SelectionFits) {post : Unit → Editor V → Prop} :
    wp clearSelection post (fun _ _ => True) e := by
  unfold clearSelection
  rw [wp_bind, wp_get]
  split
  · rename_i hnone
    exact absurd (fun s hs => by cases hnone.symm.trans hs) h
  · rename_i s hs
    rw [wp_bind, wp_set]
    refine wp_bind_of_fails (splice_fails [] fun hin => h fun s' hs' => ?_)
    cases hs.symm.trans hs'
    exact hin

/-- An operation that deletes a selection which does not fit the row fails. -/
theorem Op.TakesSelection.fails {op : Op V} (hop : op.TakesSelection) (h : ¬ e.SelectionFits)
    {post : Unit → Editor V → Prop} : wp op.run post (fun _ _ => True) e := by
  have hsome : e.selection.isSome := by
    by_contra hnone
    refine h fun s hs => ?_
    simp [hs] at hnone
  have hdelete : ∀ backward, wp (deleteChar backward) post (fun _ _ => True) e := by
    intro backward
    rw [deleteChar, wp_bind, wp_get, if_pos hsome]
    exact clearSelection_fails h
  cases op with
  | typeChar c =>
    refine wp_typeChar_of_typeWith fun retype => ?_
    exact wp_bind_of_fails (clearSelection_fails h)
  | backspace => exact hdelete true
  | delete => exact hdelete false
  | deleteCurrent =>
    show wp Editor.deleteCurrent _ _ e
    rw [Editor.deleteCurrent, wp_bind, wp_get, if_pos hsome]
    exact clearSelection_fails h
  | paste t =>
    exact wp_bind_of_fails (clearSelection_fails h)
  | clearSelection => exact clearSelection_fails h
  | _ => exact hop.elim

/-! ### What goes well -/

/-- Where the operation goes well no view has drifted. -/
abbrev KeepsSteady (L : Language V → Prop) {α : Type} (f : EditM V α) (e : Editor V) : Prop :=
  wp f (fun _ e' => e'.Steady L (fun _ => True) none) (fun _ _ => True) e

theorem Recovers.keepsSteady {α : Type} {f : EditM V α} (h : Recovers L (fun _ => True) f e) :
    KeepsSteady L f e :=
  wp_mono h (fun _ _ h => h) fun _ _ _ => trivial

section
variable (ht : Language.Mild L fun _ => True) (h : e.Steady L (fun _ => True) none)
include ht h

theorem keepsSteady_mergeTokens (index : Nat) (backward : Bool) :
    KeepsSteady L (mergeTokens index backward) e := by
  have hfrom : ∀ left, KeepsSteady L (mergeFrom left backward) e := by
    intro left
    by_cases hin : left + 1 < e.tokens.length
    · exact (h.mergeFrom ht hin backward).keepsSteady
    · by_cases hleft : left < e.tokens.length
      · refine wp_seq (Steady.tokenAt hleft) ?_
        rintro a e' ⟨-, rfl⟩
        exact wp_bind_of_fails (tokenAt_fails hin)
      · exact wp_bind_of_fails (tokenAt_fails hleft)
  unfold Editor.mergeTokens
  split
  · unfold shifted
    cases shifted? index (-1) with
    | none => trivial
    | some left => exact hfrom left
  · exact hfrom index

theorem keepsSteady_deleteToken (index : Nat) (delta : Int) :
    KeepsSteady L (deleteToken index delta) e := by
  cases hshift : shifted? index delta with
  | none =>
    unfold deleteToken shifted
    rw [hshift]
    trivial
  | some target =>
    by_cases hin : target < e.tokens.length
    · exact (h.deleteToken ht hshift hin (.none _ _)).keepsSteady
    · have hremove : wp (onRegion (Region.remove target)) (fun _ _ => False) (fun _ _ => True) e := by
        rw [wp_onRegion]
        exact wp_bind_of_fails (Region.tokenAt_fails hin)
      unfold deleteToken shifted
      simp only [hshift, pure_bind]
      exact wp_bind_of_fails ((wp_discard _).2 hremove)

theorem keepsSteady_replaceToken (index : Nat) (t : Token V) :
    KeepsSteady L (replaceToken index t) e := by
  by_cases hin : index < e.tokens.length
  · exact (h.replaceToken ht (.none _ _) hin trivial).keepsSteady
  · have hreplace : wp (onRegion (Region.replace index t)) (fun _ _ => False) (fun _ _ => True) e := by
      rw [wp_onRegion]
      exact wp_bind_of_fails (Region.tokenAt_fails hin)
    exact wp_bind_of_fails ((wp_discard _).2 hreplace)

theorem keepsSteady_expandToError (index : Nat) (text : Text) (delta : Nat) :
    KeepsSteady L (expandToError index text delta) e := by
  by_cases hin : index + delta ≤ e.tokens.length
  · exact (h.expandToError ht text hin).keepsSteady
  · exact wp_bind_of_fails (splice_fails _ fun h => hin h.2)

theorem keepsSteady_replaceComment (index : Nat) : KeepsSteady L (replaceComment index) e := by
  by_cases hin : index < e.tokens.length
  · have hat : e.tokens[index]? = some (e.tokens.get ⟨index, hin⟩) := List.getElem?_eq_getElem hin
    cases htoken : e.tokens.get ⟨index, hin⟩ with
    | comment mark body =>
      exact (h.replaceComment ht (.none _ _) (hat.trans (congrArg some htoken))).keepsSteady
    | _ =>
      refine wp_seq (Steady.tokenAt hin) ?_
      rintro t e' ⟨ht, rfl⟩
      rw [hat, htoken] at ht
      cases ht
      exact h
  · exact wp_bind_of_fails (tokenAt_fails hin)

theorem keepsSteady_afterType (index : Nat) : KeepsSteady L (afterType index) e := by
  by_cases hin : index < e.tokens.length
  · refine wp_mono (h.afterType ht (.none _ _) hin) (fun split e' hsplit => ?_) fun _ _ _ => trivial
    cases split with
    | true => exact hsplit
    | false => exact hsplit ▸ h
  · have hnone : e.views[index]? = none := by
      rw [List.getElem?_eq_none_iff, h.length_eq]
      exact Nat.le_of_not_lt hin
    rw [KeepsSteady, afterType, wp_bind, wp_get, hnone]
    exact h

theorem keepsSteady_afterPaste (start stop : Nat) (text : Text) :
    KeepsSteady L (afterPaste start stop text) e := by
  by_cases hin : start ≤ stop ∧ stop ≤ e.tokens.length
  · exact (h.afterPaste ht (.none _ _) hin.1 hin.2 text).keepsSteady
  · unfold afterPaste
    rw [KeepsSteady, wp_bind, wp_get, wp_bind, wp_onRegion, Region.wp_onCells]
    exact wp_bind_of_fails (wp_bind_of_fails (splice_fails _ (by exact hin)))

theorem keepsSteady_typeWith (retype : Char → EditM V Unit) (c : Char) :
    KeepsSteady L (typeWith retype c) e := by
  by_cases hsel : e.SelectionFits
  · exact (h.typeWith ht hsel retype c).keepsSteady
  · exact wp_bind_of_fails (clearSelection_fails hsel)

theorem keepsSteady_typeWithin (limit : Nat) (c : Char) :
    KeepsSteady L (typeWithin (throw .stalled) limit c) e := by
  cases limit with
  | zero => trivial
  | succ limit => exact keepsSteady_typeWith ht h _ c

omit h in
theorem keepsSteady_typeText (text : Text) {e : Editor V} (h : e.Steady L (fun _ => True) none) :
    KeepsSteady L (typeText text) e := by
  induction text generalizing e with
  | nil => exact h
  | cons c text ih =>
    refine wp_seq (wp_typeChar_of_typeWith fun retype => ?_) fun _ _ h => ih h
    exact keepsSteady_typeWith ht h retype c

theorem Op.keepsSteady (hI : ∀ i, I i → i.Puts fun _ => True) {op : Op V} (hop : op.Speaks L I) :
    KeepsSteady L op.run e := by
  by_cases hsel : op.TakesSelection → e.SelectionFits
  case neg =>
    rw [Classical.not_imp] at hsel
    exact hsel.1.fails hsel.2
  have hallowed : op.Allowed L (fun _ => True) I e → KeepsSteady L op.run e := fun hallowed =>
    (Op.recovers ht hI h hsel hallowed).keepsSteady
  cases op with
  | setTokens new => exact hallowed fun _ _ => trivial
  | restore saved => exact hallowed fun _ _ _ _ => trivial
  | setLanguage l => exact hallowed hop
  | answer items => exact hallowed hop
  | send id items => exact hallowed hop
  | selectRange start stop =>
    by_cases hin : start ≤ stop ∧ stop ≤ e.tokens.length
    · exact hallowed hin
    · show wp (Editor.selectRange start stop) _ _ e
      rw [Editor.selectRange, wp_bind, wp_get, if_pos (by omega)]
      trivial
  | typeWithin limit c => exact keepsSteady_typeWithin ht h limit c
  | typeText t => exact keepsSteady_typeText ht t h
  | focusPlaceholder => exact h.aside rfl rfl rfl
  | deleteToken index delta => exact (wp_discard _).2 (keepsSteady_deleteToken ht h index delta)
  | replaceToken index t => exact (wp_discard _).2 (keepsSteady_replaceToken ht h index t)
  | mergeTokens index backward =>
    exact (wp_discard _).2 (keepsSteady_mergeTokens ht h index backward)
  | expandToError index text delta =>
    exact (wp_discard _).2 (keepsSteady_expandToError ht h index text delta)
  | replaceComment index => exact (wp_discard _).2 (keepsSteady_replaceComment ht h index)
  | afterType index => exact (wp_discard _).2 (keepsSteady_afterType ht h index)
  | afterPaste start stop t => exact keepsSteady_afterPaste ht h start stop t
  | _ => exact hallowed trivial

end

/-- No view has drifted, and the views have distinct numbers. -/
structure Orderly (L : Language V → Prop) (e : Editor V) : Prop where
  steady : e.Steady L (fun _ => True) none
  numbered : e.region.Numbered

theorem Orderly.call (ht : Language.Mild L fun _ => True) (hI : ∀ i, I i → i.Puts fun _ => True)
    (h : e.Orderly L) {op : Op V} (hop : op.Speaks L I) (hrun : op.run e = .ok () e') :
    e'.Orderly L := by
  have hkeeps := Op.keepsSteady ht h.steady hI hop
  rw [KeepsSteady, wp, hrun] at hkeeps
  have hlater : e.region.Later (e.after op.run).region := .edit op .refl
  rw [after, hrun] at hlater
  exact ⟨hkeeps, (hlater.renumbers h.numbered).distinct⟩

theorem Reached.orderly (ht : Language.Mild L fun _ => True) (hI : ∀ i, I i → i.Puts fun _ => True)
    (hstart : start.Orderly L) (h : Reached (fun _ => Op.Speaks L I) start e) : e.Orderly L := by
  induction h with
  | refl => exact hstart
  | call _ hop hrun ih => exact ih.call ht hI hop hrun

theorem Reached.forM {allowed : Op V → Prop} {ops : List (Op V)} (hops : ∀ op ∈ ops, allowed op)
    (h : Reached (fun _ => allowed) start e) (hrun : ops.forM Op.run e = .ok () e') :
    Reached (fun _ => allowed) start e' := by
  induction ops generalizing e with
  | nil =>
    cases hrun
    exact h
  | cons op ops ih =>
    obtain ⟨hop, hops⟩ := List.forall_mem_cons.1 hops
    have hends : wp (op.run >>= fun _ => ops.forM Op.run) (fun _ s => s = e') (fun _ _ => False) e := by
      show wp ((op :: ops).forM Op.run) _ _ e
      rw [wp, hrun]
    rw [wp_bind] at hends
    cases hfirst : op.run e with
    | ok _ e₁ =>
      rw [wp, hfirst] at hends
      obtain ⟨_, _, hrest, rfl⟩ := exists_of_wp hends
      exact ih hops (h.call hop hfirst) hrest
    | error err e₁ =>
      rw [wp, hfirst] at hends
      exact hends.elim

end Editor

namespace Expr

/-- The operation, whatever else it brings in, keeps to the languages of expressions and their items. -/
abbrev Speaks : Editor Expr → Editor.Op Expr → Prop :=
  fun _ => Editor.Op.Speaks IsLanguage (· ∈ laterItems)

/-- An editor for expressions is orderly after any operations that went well. -/
theorem orderly {p : Precedence} {cells : Cells} {settings : Settings}
    (hauto : settings.autoReparse = true) {e : Editor Expr}
    (h : Editor.Reached Speaks (Editor.new (language p) cells settings) e) :
    e.Orderly IsLanguage := by
  refine h.orderly language_tame.toMild.any
    (fun i hi => (puts_laterItems i hi).mono fun _ _ => trivial) ?_
  exact ⟨.new ⟨p, rfl⟩ cells hauto, .new (language p) cells settings⟩

end Expr

end TokenEditor
