import TokenEditor.Proofs.Recovery
import TokenEditor.Proofs.WellFormed

/-! # The expression editor never fails and never drifts

`expr_editor_never_drifts`: on an editor for expressions that reads by itself every operation goes
well, and after it every view but those of values has the text of its token. Rows brought in by the
host embed nothing but texts, places named by it are there, and requests for later items are answered
with the items of the language. Its precedence may change. -/

namespace TokenEditor

namespace Expr

theorem puts_tokenItems : ∀ i ∈ tokenItems, i.Puts fun t => embedsText t := by
  intro i hi scope t cells
  simp only [tokenItems, List.mem_cons, List.not_mem_nil, or_false] at hi
  rcases hi with rfl | rfl | rfl | rfl | rfl | rfl | rfl | rfl | rfl | rfl
  case inr.inr.inr.inr.inr.inl =>
    refine ⟨_, rfl, fun u hu => ?_⟩
    rw [List.mem_singleton.1 hu]
    split <;> rfl
  all_goals
    refine ⟨_, rfl, fun u hu => ?_⟩
    rw [List.mem_singleton.1 hu]
    rfl

theorem puts_newText {t : Text} {i : Item Expr} (h : ∀ scope typed, i.effect scope typed = newText t) :
    i.Puts fun t => embedsText t := by
  intro scope typed cells
  rw [h]
  refine ⟨_, rfl, fun u hu => ?_⟩
  rw [List.mem_singleton.1 hu]
  rfl

theorem puts_extraItems : ∀ i ∈ extraItems, i.Puts fun t => embedsText t := by
  intro i hi
  rw [List.mem_singleton.1 hi]
  exact puts_newText fun _ _ => rfl

theorem puts_laterItems : ∀ i ∈ laterItems, i.Puts fun t => embedsText t := by
  intro i hi
  rw [List.mem_singleton.1 hi]
  exact puts_newText fun _ _ => rfl

theorem embedsText_tokenOf? {l : Lexeme} {cells : Cells} {t : Token Expr}
    (h : ((tokenOf? l).run cells).1 = some t) : embedsText t := by
  unfold tokenOf? at h
  split at h
  · split at h
    · cases h
      rfl
    · cases h
      rfl
  · split at h
    · cases h
      rfl
    · cases h
  all_goals first
    | cases h
      rfl
    | cases h

theorem textOnly_flush {bad : Text} {ts : List (Token Expr)} (h : TextOnly ts) :
    TextOnly (tokensOf.flush bad ts) := by
  unfold tokensOf.flush
  split
  · exact h
  · exact List.forall_mem_cons.2 ⟨rfl, h⟩

theorem textOnly_tokensOf (ls : List Lexeme) (bad : Text) (cells : Cells) :
    TextOnly ((tokensOf bad ls).run cells).1 := by
  induction ls generalizing bad cells with
  | nil => exact textOnly_flush (by rintro t ⟨⟩)
  | cons l ls ih =>
    unfold tokensOf
    split
    · exact textOnly_flush (ih [] cells)
    · rw [StateT.run_bind]
      cases hresult : (tokenOf? l).run cells with
      | mk result cells' =>
        cases result with
        | some t =>
          have hsome : ((tokenOf? l).run cells).1 = some t := by rw [hresult]
          exact textOnly_flush (List.forall_mem_cons.2 ⟨embedsText_tokenOf? hsome, ih [] cells'⟩)
        | none => exact ih (bad ++ l.text) cells'

theorem language_tame : Language.Tame IsLanguage fun t => embedsText t where
  detach t cells h := by
    cases t with
    | value v =>
      cases v with
      | text c => rfl
      | _ => cases h
    | _ => rfl
  printed := by
    rintro _ ⟨p, rfl⟩ cells v
    exact textOnly_row v
  plain t h := by
    cases t with
    | value v => cases h
    | _ => rfl
  counts := by
    rintro _ ⟨p, rfl⟩ cells ts v hts h
    exact (spells_of_parse hts h).2.length_eq
  offers := by
    rintro _ ⟨p, rfl⟩
    exact ⟨fun _ _ _ => puts_tokenItems, fun _ _ _ => puts_extraItems, by rintro _ _ _ _ ⟨⟩⟩
  tokenize := by
    rintro _ ⟨p, rfl⟩ t cells
    exact textOnly_tokensOf (lex t) [] cells

end Expr

namespace Editor
variable {V : Type} [Payload V]

/-- The states that operations lead to, each allowed where it is called. -/
inductive Reached (allowed : Editor V → Op V → Prop) (start : Editor V) : Editor V → Prop
  | refl : Reached allowed start start
  | call {e e' : Editor V} {op : Op V} : Reached allowed start e → allowed e op →
      op.run e = .ok () e' → Reached allowed start e'

/-- There is one view per token, and it has the text of the token unless that is a value. -/
def ShowsTokens (e : Editor V) : Prop :=
  List.Forall₂ (fun v t => t.isValue = false → v.text = t.text e.region.cells) e.views e.tokens

variable {L : Language V → Prop} {C : Token V → Prop} {I : Item V → Prop} {start e e' : Editor V}

theorem Steady.showsTokens (h : e.Steady L C none) : e.ShowsTokens := by
  refine List.forall₂_iff_get.2 ⟨h.length_eq, fun i hv ht hplain => ?_⟩
  exact h.region.shows i _ _ (List.getElem?_eq_getElem hv) (List.getElem?_eq_getElem ht) (by simp)
    hplain

section
variable (ht : Language.Tame L C) (hI : ∀ i, I i → i.Puts C)
include ht hI

/-- An allowed operation on an editor in order goes well and leaves one in order. -/
theorem Steady.call (h : e.Steady L C none) (horder : e.InOrder L (Item.Puts C) True) {op : Op V}
    (hop : op.Allowed L C I e) :
    ∃ e', op.run e = .ok () e' ∧ e'.Steady L C none ∧ e'.InOrder L (Item.Puts C) True := by
  have hreliable : Language.Reliable L (Item.Puts C) :=
    ⟨ht.offers, .inr fun _ hi => hi.isPlain.handsOn⟩
  have hsel : e.SelectionFits := fun s hs =>
    ⟨Nat.le_of_lt (horder.loose.selection s hs), horder.placed.selection trivial s hs⟩
  have hrecovers := Op.recovers ht.toMild hI h (fun _ => hsel) hop
  cases hrun : op.run e with
  | ok _ e' =>
    rw [Recovers, wp, hrun] at hrecovers
    exact ⟨e', rfl, hrecovers, horder.call ht.offers (fun _ => hreliable) hop.isIntent (hop.speaks hI)
      hrun⟩
  | error err e' =>
    rw [Recovers, wp, hrun] at hrecovers
    exact (ht.not_miscounts hrecovers).elim

theorem Reached.steady (hstart : start.Steady L C none) (horder : start.InOrder L (Item.Puts C) True)
    (h : Reached (Op.Allowed L C I) start e) :
    e.Steady L C none ∧ e.InOrder L (Item.Puts C) True := by
  induction h with
  | refl => exact ⟨hstart, horder⟩
  | call _ hop hrun ih =>
    obtain ⟨e', hrun', h'⟩ := ih.1.call ht hI ih.2 hop
    cases hrun.symm.trans hrun'
    exact h'

end

end Editor

/-- What may be done to an editor for expressions. -/
abbrev Expr.Allowed : Editor Expr → Editor.Op Expr → Prop :=
  Editor.Op.Allowed IsLanguage (fun t => embedsText t) (· ∈ laterItems)

namespace Editor

/-- Whatever was done to an editor for expressions, its views show their tokens, and the next
operation goes well and leaves it so. -/
theorem expr_editor_never_drifts (p : Expr.Precedence) (cells : Cells) {settings : Settings}
    (hauto : settings.autoReparse = true) {e : Editor Expr}
    (h : Reached Expr.Allowed (Editor.new (Expr.language p) cells settings) e) :
    e.ShowsTokens ∧ ∀ op, Expr.Allowed e op → ∃ e', op.run e = .ok () e' ∧ e'.ShowsTokens := by
  have hnew : (Editor.new (Expr.language p) cells settings).Steady Expr.IsLanguage
      (fun t => Expr.embedsText t) none := .new ⟨p, rfl⟩ cells hauto
  obtain ⟨hsteady, horder⟩ := h.steady Expr.language_tame Expr.puts_laterItems hnew
    (.new ⟨p, rfl⟩ cells hauto)
  refine ⟨hsteady.showsTokens, fun op hop => ?_⟩
  obtain ⟨e', hrun, h', -⟩ := hsteady.call Expr.language_tame Expr.puts_laterItems horder hop
  exact ⟨e', hrun, h'.showsTokens⟩

theorem expr_editor_never_drifts_sum :
    ∃ e e' : Editor Expr, (Op.paste ['a', '+', 'b']).run (Editor.new (Expr.language {}) {} {}) =
        .ok () e ∧ e.views.map View.text = [['a'], ['+'], ['b']] ∧ e.ShowsTokens ∧
      (Op.typeChar '!').run e = .ok () e' ∧ e'.ShowsTokens := by
  have hends : endsWith (Op.paste ['a', '+', 'b']).run (fun _ e => e.views.map View.text =
      [['a'], ['+'], ['b']]) (Editor.new (Expr.language {}) {} {}) := by
    decide +kernel
  obtain ⟨_, e, hrun, htest⟩ := exists_of_endsWith hends
  have hallowed : Expr.Allowed (Editor.new (Expr.language {}) {} {}) (.paste ['a', '+', 'b']) :=
    trivial
  obtain ⟨hshows, hnext⟩ := expr_editor_never_drifts {} {} rfl (.call .refl hallowed hrun)
  obtain ⟨e', hrun', hshows'⟩ := hnext (.typeChar '!') trivial
  exact ⟨e, e', hrun, of_decide_eq_true htest, hshows, hrun', hshows'⟩

end Editor

end TokenEditor
