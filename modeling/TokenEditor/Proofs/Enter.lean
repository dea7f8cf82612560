import Mathlib.Data.List.Infix
import TokenEditor.Proofs.TextRows

/-! # Enter

What enter does in an expression editor whose values are texts. With the menu closed it completes an
unresolved token, but with the text before the caret only, and the text behind it is lost
(`enter_completes_front`). With the menu just opened at the end of a token it takes the proposal for
the text of that token, and so puts the token in a second time (`enter_repeats_token`). -/

namespace TokenEditor

namespace Item
variable {V : Type} {xs ys : List (Item V)} {t : Text}

theorem matching_append_of_not_accepts (h : ∀ i ∈ ys, i.matcher.accepts t = false) :
    matching (xs ++ ys) t = matching xs t := by
  have hnone : ys.filter (fun i => i.matcher.accepts t) = [] :=
    List.filter_eq_nil_iff.2 fun i hi => by simp [h i hi]
  simp only [matching, List.filter_append, hnone, List.append_nil]

theorem chosen_of_matching {item : Item V} {rest : List (Item V)} (h : matching xs t = item :: rest) :
    chosen xs t = some (item, t) := by
  rw [chosen, h]

/-- If no item accepts the text, only those count that stand for their label. -/
theorem chosen_eq_none (h : matching xs t = [])
    (hlabel : ∀ i ∈ xs, i.matcher.acceptsStart t → i.matcher.accepts i.label = false) :
    chosen xs t = none := by
  have hnone : (startedBy xs t).find? (fun i => i.matcher.accepts i.label) = none := by
    refine List.find?_eq_none.2 fun i hi => ?_
    obtain ⟨hmem, hstart⟩ := List.mem_filter.1 hi
    simp [hlabel i hmem hstart]
  rw [chosen, h]
  simp only [hnone, Option.map_none]

end Item

namespace Expr
variable {t s : Text} {hide : Bool}

/-- The word for a new text in the menu. -/
def textWord : Text := "text".toList

/-- What the menu offers at once. -/
def menuItems (hide : Bool) : List (Item Expr) :=
  (if hide then [] else tokenItems) ++ extraItems

/-- What enter puts in for the text before the caret. -/
inductive Proposal where
  /-- A token that reads as the text. -/
  | again
  /-- A new text with nothing in it. -/
  | newText
  | nothing
deriving DecidableEq, Repr

/-- The proposal for a text. A menu without token items knows but one word, which need not be
written out. -/
def proposal : Bool → Text → Proposal
  | true, t => if t <+: textWord then .newText else .nothing
  | false, t =>
    if t = textWord ∨ t = valueWord then .newText
    else if (singleKind? t).isSome then .again
    else .nothing

theorem not_accepts_extraItems (h : t ≠ textWord) : ∀ i ∈ extraItems, i.matcher.accepts t = false := by
  intro i hi
  rw [extraItems, List.mem_singleton] at hi
  subst hi
  exact beq_eq_false_iff_ne.2 (Ne.symm h)

theorem matching_menuItems (h : t ≠ textWord) :
    Item.matching (menuItems hide) t = if hide then [] else Item.matching tokenItems t := by
  rw [menuItems, Item.matching_append_of_not_accepts (not_accepts_extraItems h)]
  cases hide <;> rfl

theorem filter_accepts_name (h : singleKind? t = some .ident) :
    tokenItems.filter (fun i => i.matcher.accepts t) =
      nameItem :: if valueWord == t then [.exact valueWord fun _ _ => newText []] else [] := by
  have hmap := accepts_tokenItems_or_word t
  simp only [h, tokenItems, List.map_cons, List.map_nil, List.cons_append, List.nil_append,
    List.cons.injEq, and_true] at hmap
  obtain ⟨h₁, h₂, h₃, h₄, h₅, h₆, h₇, h₈, h₉, h₁₀⟩ := hmap
  simp only [tokenItems, List.filter_cons, h₁, h₂, h₃, h₄, h₅, h₆, h₇, h₈, h₉, h₁₀, List.filter_nil]
  rfl

/-- A word for a new text is a name as well, but names yield. -/
theorem matching_word (h : t = textWord ∨ hide = false ∧ t = valueWord) :
    ∃ item, Item.matching (menuItems hide) t = [item] ∧ ∀ scope, item.effect scope t = newText [] := by
  have hnames : singleKind? textWord = some .ident ∧ singleKind? valueWord = some .ident :=
    ⟨singleKind?_eq_ident.2 (by decide), singleKind?_eq_ident.2 (by decide)⟩
  rcases h with rfl | ⟨rfl, rfl⟩
  · refine ⟨.exact textWord fun _ _ => newText [], ?_, fun _ => rfl⟩
    have hextra : extraItems.filter (fun i => i.matcher.accepts textWord) = extraItems := rfl
    cases hide with
    | true => rfl
    | false =>
      have hfilter := filter_accepts_name hnames.1
      rw [if_neg (by decide)] at hfilter
      simp only [menuItems, Bool.false_eq_true, if_false, Item.matching, List.filter_append, hfilter, hextra]
      rfl
  · refine ⟨.exact valueWord fun _ _ => newText [], ?_, fun _ => rfl⟩
    have hfilter := filter_accepts_name hnames.2
    rw [if_pos (beq_self_eq_true _)] at hfilter
    rw [matching_menuItems (by decide)]
    simp only [Bool.false_eq_true, if_false, Item.matching, hfilter]
    rfl

theorem isSome_singleKind?_of_prefix (hs : s ∈ valueWord :: textWord :: symbols.map Prod.snd)
    (hne : t ≠ []) (h : t <+: s) : (singleKind? t).isSome := by
  have hshaped : isNameShaped s → (singleKind? t).isSome := by
    intro hshape
    obtain ⟨c, cs, rfl⟩ := List.exists_cons_of_ne_nil hne
    obtain ⟨rest, rfl⟩ := h
    simp only [List.cons_append, isNameShaped, List.all_append, Bool.and_eq_true] at hshape
    rw [singleKind?_eq_ident.2 (by simp [isNameShaped, hshape])]
    rfl
  rcases List.mem_cons.1 hs with rfl | hs
  · exact hshaped (by decide)
  rcases List.mem_cons.1 hs with rfl | hs
  · exact hshaped (by decide)
  -- the first sign of the only long symbol is a symbol
  have hsymbols : ∀ s ∈ symbols.map Prod.snd, ∀ t ∈ s.inits, t ≠ [] → ∃ x ∈ symbols, x.2 = t := by
    decide
  obtain ⟨⟨k, t⟩, hmem, rfl⟩ := hsymbols s hs t ((List.mem_inits t s).2 h) hne
  rw [singleKind?_of_mem_symbols hmem]
  rfl

/-- For a token that is no word for a new text the choice is that token. -/
theorem chosen_again (h : proposal hide t = .again) (scope : Scope Expr) :
    ∃ item u, u.Stands t ∧ Item.chosen (menuItems hide) t = some (item, t) ∧
      item.effect scope t = pure (.put [u]) := by
  cases hide with
  | true =>
    rw [proposal] at h
    split_ifs at h
  | false =>
    rw [proposal] at h
    split_ifs at h with hword hkind
    obtain ⟨htext, hvalue⟩ := not_or.1 hword
    have hsingle := (hasSingleMatch_iff hvalue).2 hkind
    obtain ⟨item, u, hu, hmatching, heffect⟩ := exists_stands_of_hasSingleMatch hvalue hsingle scope
    have hmenu : Item.matching (menuItems false) t = [item] := by
      rw [matching_menuItems htext]
      exact hmatching
    exact ⟨item, u, hu, Item.chosen_of_matching hmenu, heffect⟩

theorem chosen_newText (h : proposal hide t = .newText) :
    ∃ item s, Item.chosen (menuItems hide) t = some (item, s) ∧
      ∀ scope, item.effect scope s = newText [] := by
  have hwhole : t = textWord ∨ hide = false ∧ t = valueWord → ∃ item s,
      Item.chosen (menuItems hide) t = some (item, s) ∧ ∀ scope, item.effect scope s = newText [] := by
    intro hword
    obtain ⟨item, hmatching, heffect⟩ := matching_word hword
    exact ⟨item, t, Item.chosen_of_matching hmatching, heffect⟩
  cases hide with
  | false =>
    rw [proposal] at h
    split_ifs at h with hword
    exact hwhole (hword.imp_right fun hvalue => ⟨rfl, hvalue⟩)
  | true =>
    rw [proposal] at h
    split_ifs at h with hstart
    by_cases htext : t = textWord
    · exact hwhole (.inl htext)
    · -- only the beginning of the word is there, and the item is applied to its label
      refine ⟨.exact textWord fun _ _ => newText [], textWord, ?_, fun _ => rfl⟩
      have hstarted : Item.startedBy (menuItems true) t = extraItems := by
        refine List.filter_eq_self.2 fun i hi => ?_
        obtain rfl := List.mem_singleton.1 hi
        exact List.isPrefixOf_iff_prefix.2 hstart
      rw [Item.chosen, matching_menuItems htext, hstarted]
      rfl

/-- The items with one text, and those with many, whose labels are none of them. -/
theorem exact_or_pattern : ∀ i ∈ tokenItems ++ extraItems,
    (∃ s ∈ valueWord :: textWord :: symbols.map Prod.snd, i.matcher = .exact s) ∨
      i.matcher.accepts i.label = false := by
  intro i hi
  simp only [tokenItems, extraItems, List.cons_append, List.nil_append, List.mem_cons, List.not_mem_nil,
    or_false] at hi
  have hnumber : isNumber "<number>".toList = false := by
    have hne : singleKind? "<number>".toList ≠ some .int := by
      rw [Ne, singleKind?_eq_int]
      decide
    simpa [isNumber] using hne
  have hname : isName "<identifier>".toList = false := by
    have hne : singleKind? "<identifier>".toList ≠ some .ident := by
      rw [Ne, singleKind?_eq_ident]
      decide
    simpa [isName] using hne
  rcases hi with rfl | rfl | rfl | rfl | rfl | rfl | rfl | rfl | rfl | rfl | rfl
  case inr.inr.inr.inr.inr.inr.inr.inl => exact .inr hnumber
  case inr.inr.inr.inr.inr.inr.inr.inr.inl => exact .inr hname
  all_goals exact .inl ⟨_, by decide, rfl⟩

theorem chosen_nothing (hne : t ≠ []) (h : proposal hide t = .nothing) :
    Item.chosen (menuItems hide) t = none := by
  cases hide with
  | true =>
    rw [proposal] at h
    split_ifs at h with hstart
    have htext : t ≠ textWord := fun heq => hstart (heq ▸ List.prefix_refl _)
    refine Item.chosen_eq_none (matching_menuItems htext) fun i hi hacc => ?_
    obtain rfl := List.mem_singleton.1 hi
    exact absurd (List.isPrefixOf_iff_prefix.1 hacc) hstart
  | false =>
    rw [proposal] at h
    split_ifs at h with hword hkind
    obtain ⟨htext, hvalue⟩ := not_or.1 hword
    have hnone : singleKind? t = none := by simpa using hkind
    refine Item.chosen_eq_none ?_ fun i hi hacc => ?_
    · rw [matching_menuItems htext]
      exact matching_of_none hnone hvalue
    · refine (exact_or_pattern i hi).resolve_left fun ⟨s, hs, hmatcher⟩ => ?_
      -- a text that is no token begins no word of an item
      rw [hmatcher] at hacc
      have hsome := isSome_singleKind?_of_prefix hs hne (List.isPrefixOf_iff_prefix.1 hacc)
      simp [hnone] at hsome

end Expr

/-! ### With the menu closed -/

namespace Editor
open TokenEditor.Expr (valueWord singleKind?)

variable {e : Editor Expr} {i : Nat} {v : View}

/-- The focused token is an error, and what stands before the caret in it is a token. -/
structure Unresolved (i : Nat) (v : View) (e : Editor Expr) : Prop where
  focus : e.focusedView? = some (i, v)
  error : (e.tokens[i]?).any Token.isError
  front : (singleKind? v.beforeCaret).isSome

theorem textBeforeCaret_of_focusedView? (hfocus : e.focusedView? = some (i, v)) :
    e.textBeforeCaret = v.beforeCaret := by
  rw [textBeforeCaret, hfocus]

theorem Unresolved.enter (h : e.Unresolved i v) (hworded : e.region.Worded none)
    (hmenu : e.menu.active = false) (hword : e.textBeforeCaret ≠ valueWord) :
    wp enter (fun _ e' => ∃ u, u.Stands v.beforeCaret ∧ e.region.Rewrote i (i + 1) [u] e'.region)
      (fun _ _ => False) e := by
  obtain ⟨t, ht, herror⟩ := (Option.any_eq_true _ _).1 h.error
  obtain ⟨-, hv⟩ := Steady.of_focusedView? h.focus
  have hedit : v.editable = true := by
    rw [(hworded.steady.projected.projects hv ht).editable]
    cases t with
    | error s => rfl
    | _ => cases herror
  have hbefore := textBeforeCaret_of_focusedView? h.focus
  rw [hbefore] at hword
  have hitems := items_typing hworded.steady.inStep.language (.token i)
  have hsingle : Item.hasSingleMatch ((Supplier.token i).offer .typing e).items v.beforeCaret := by
    rw [hitems]
    exact (Expr.hasSingleMatch_iff hword).2 h.front
  obtain ⟨u, hu, hcomplete⟩ := exists_stands_of_completeMatch (e := e) hitems hword hsingle
  unfold Editor.enter
  simp only [wp_bind, wp_get, hmenu, Bool.false_eq_true, if_false, h.focus, ht, herror, hedit,
    Bool.not_true, Bool.false_and, Bool.or_false, hbefore, hsingle, if_true]
  refine hcomplete (wp_mono (rewrote_completeReplacing hworded hu (List.getElem?_eq_some_iff.1 ht).1)
    (fun move e' h' => ?_) fun _ _ h => h)
  exact ⟨u, hu, rewrote_run (e := e'.closeMenu) h' move⟩

theorem enter_of_resolved (hworded : e.region.Worded none) (hmenu : e.menu.active = false)
    (hword : e.textBeforeCaret ≠ valueWord) (h : ∀ i v, ¬ e.Unresolved i v) :
    wp enter (fun _ e' => e' = e) (fun _ _ => False) e := by
  unfold enter
  simp only [wp_bind, wp_get, hmenu, Bool.false_eq_true, if_false]
  cases hfocus : e.focusedView? with
  | none => rfl
  | some x =>
    obtain ⟨i, v⟩ := x
    obtain ⟨-, hv⟩ := Steady.of_focusedView? hfocus
    cases ht : e.tokens[i]? with
    | none =>
      simp only [ht]
      rfl
    | some t =>
      simp only [ht]
      split_ifs with hdone hsingle
      · rfl
      · -- the token is neither in line with its view nor a value, so it is an error
        have hbefore := textBeforeCaret_of_focusedView? hfocus
        rw [items_typing hworded.steady.inStep.language, Expr.hasSingleMatch_iff hword, hbefore] at hsingle
        refine absurd ⟨hfocus, ?_, hsingle⟩ (h i v)
        rw [ht, Option.any_some]
        by_contra herror
        apply hdone
        cases hvalue : t.isValue with
        | true => simp [(hworded.steady.projected.projects hv ht).editable, hvalue]
        | false =>
          have hshows := hworded.steady.shows i v t hv ht (by simp) hvalue
          simp [Bool.eq_false_iff.2 herror, hshows]
      · rfl

/-- With the menu closed, enter completes an error token with what stands in it before the caret. The
rest of its text is lost. -/
theorem enter_completes_front {p : Expr.Precedence} {cells : Cells} {settings : Settings}
    (hauto : settings.autoReparse = true)
    (h : Reached Expr.Speaks (Editor.new (Expr.language p) cells settings) e)
    (htext : Expr.TextOnly e.tokens) (hcells : e.region.cells.Has (rowCells e.tokens))
    (hmenu : e.menu.active = false) (hword : e.textBeforeCaret ≠ valueWord) :
    ∃ e', enter e = .ok () e' ∧ e.region.cells.Keeps e'.region.cells ∧
      (∀ i v, e.Unresolved i v → e.tokens[i]? = some (.error (v.beforeCaret ++ v.afterCaret)) ∧
        ∃ u, u.Stands v.beforeCaret ∧ e'.region.Spells (e.tokens.set i u)) ∧
      ((∀ i v, ¬ e.Unresolved i v) → e' = e) := by
  obtain ⟨hsteady, hnumbered⟩ := Expr.orderly hauto h
  have hworded : e.region.Worded none := ⟨hsteady.region, hnumbered, htext, hcells⟩
  by_cases hsome : ∃ i v, e.Unresolved i v
  · obtain ⟨i, v, hunresolved⟩ := hsome
    obtain ⟨_, e', hrun, u, hu, hrewrote⟩ := exists_of_wp (hunresolved.enter hworded hmenu hword)
    refine ⟨e', hrun, hrewrote.keeps, fun i' v' hother => ?_, fun hnone => absurd hunresolved (hnone i v)⟩
    cases hunresolved.focus.symm.trans hother.focus
    obtain ⟨t, ht, herror⟩ := (Option.any_eq_true _ _).1 hunresolved.error
    obtain ⟨-, hv⟩ := Steady.of_focusedView? hunresolved.focus
    cases t with
    | error s =>
      have hshows : v.text = s := hworded.steady.shows i v _ hv ht (by simp) rfl
      refine ⟨by rw [ht, View.beforeCaret, View.afterCaret, List.take_append_drop, hshows], u, hu, ?_⟩
      have hspells := hrewrote.spells
      rw [List.append_assoc, List.singleton_append] at hspells
      rwa [List.set_eq_take_append_cons_drop, if_pos (List.getElem?_eq_some_iff.1 ht).1]
    | _ => cases herror
  · have hnone : ∀ i v, ¬ e.Unresolved i v := fun i v h => hsome ⟨i, v, h⟩
    obtain ⟨_, _, hrun, rfl⟩ := exists_of_wp (enter_of_resolved hworded hmenu hword hnone)
    exact ⟨_, hrun, .of_texts rfl, fun i v h => absurd h (hnone i v), fun _ => rfl⟩

/-- In the error `a$b`, enter behind the first letter leaves that letter. -/
theorem enter_completes_front_middle : ∃ (e e' : Editor Expr) (u : Token Expr),
    [Op.typeText ['a', 'b'], .selectToken 0 (.offset 1), .typeChar '$',
      .selectToken 0 (.offset 1)].forM Op.run (Editor.new (Expr.language {}) {} {}) = .ok () e ∧
    e.tokens = [.error ['a', '$', 'b']] ∧ enter e = .ok () e' ∧ u.Stands ['a'] ∧
      e'.region.Spells [u] := by
  have hends : endsWith ([Op.typeText ['a', 'b'], .selectToken 0 (.offset 1), .typeChar '$',
      .selectToken 0 (.offset 1)].forM Op.run)
      (fun _ e => e.tokens == [.error ['a', '$', 'b']] && !e.menu.active &&
        e.focusedView?.any fun x => x.1 == 0 && x.2.beforeCaret == ['a'])
      (Editor.new (Expr.language {}) {} {}) := by
    decide +kernel
  obtain ⟨_, e, hrun, htest⟩ := exists_of_endsWith hends
  simp only [Bool.and_eq_true, beq_iff_eq, Bool.not_eq_true'] at htest
  obtain ⟨⟨htokens, hmenu⟩, hfocus⟩ := htest
  obtain ⟨⟨i, v⟩, hfocus, htest⟩ := (Option.any_eq_true _ _).1 hfocus
  obtain ⟨rfl, hbefore⟩ : i = 0 ∧ v.beforeCaret = ['a'] := by simpa using htest
  have hreached : Reached Expr.Speaks (Editor.new (Expr.language {}) {} {}) e :=
    Reached.refl.forM (by simp) hrun
  obtain ⟨e', henter, -, hfront, -⟩ := enter_completes_front rfl hreached (by rw [htokens]; decide)
    (by rw [htokens]; exact Cells.has_nil) hmenu
    (by rw [textBeforeCaret_of_focusedView? hfocus, hbefore]; decide)
  have hname : singleKind? ['a'] = some .ident := Expr.singleKind?_eq_ident.2 (by decide)
  obtain ⟨-, u, hu, hspells⟩ := hfront 0 v ⟨hfocus, by rw [htokens]; rfl, by rw [hbefore, hname]; rfl⟩
  rw [hbefore] at hu
  rw [htokens] at hspells
  exact ⟨e, e', u, hrun, htokens, henter, hu, hspells⟩

end Editor

/-! ### The menu just opened -/

namespace Editor
variable {e e' : Editor Expr} {i : Nat} {v : View}

/-- `e'` is `e` with the menu open, for which nothing has come later. -/
structure JustOpened (e e' : Editor Expr) : Prop where
  region : e'.region = e.region
  focus : e'.focus = e.focus
  settings : e'.settings = e.settings
  active : e'.menu.active = true
  received : e'.menu.received = none

theorem menu_menuSupplier (e : Editor Expr) : e.menuSupplier.2.menu = true := by
  unfold menuSupplier
  split
  · rfl
  · split
    · rfl
    · split <;> rfl

/-- The language of expressions lets a request wait. -/
theorem promise_laterCalls (hl : Expr.IsLanguage e.region.language) (s : Supplier) {params : Params}
    (hp : params.menu = true) : e.promise (s.laterCalls params e) = (.channel e.channels.length,
      { e with channels := e.channels ++ [.waiting], owed := e.owed ++ [e.channels.length] }) := by
  obtain ⟨p, hp'⟩ := hl
  have hlater : ∀ context, e.region.language.laterItems e.region.cells context params = .queued := by
    rw [hp']
    intro
    rfl
  rw [Supplier.laterCalls, if_pos hp]
  simp only [promise, hlater]
  rfl

theorem justOpened_activateMenu (hl : Expr.IsLanguage e.region.language) :
    e.JustOpened e.activateMenu := by
  have hrequest := promise_laterCalls hl e.menuSupplier.1 (menu_menuSupplier e)
  rw [activateMenu_eq]
  generalize e.menuSupplier.1 = s, e.menuSupplier.2 = params at hrequest
  have hopened : e.JustOpened (e.opened s params) := by
    refine ⟨region_opened e s params, (focus_promise e _).1, ?_, rfl, rfl⟩
    show (e.promise (s.laterCalls params e)).2.settings = _
    rw [hrequest]
  obtain hsame | ⟨p, hpending, hpolled, -⟩ := (e.opened s params).pollMenu_cases
  · rw [hsame]
    exact hopened
  · have hp : p.promise = .channel e.channels.length := by
      cases hpending
      show (e.promise (s.laterCalls params e)).1 = _
      rw [hrequest]
    generalize (e.opened s params).pollMenu.2 = e' at hpolled
    cases hpolled with
    | without => exact ⟨hopened.region, hopened.focus, hopened.settings, rfl, rfl⟩
    | received _ _ _ hanswer =>
      -- the channel is new, and closing the menu sends nothing
      rcases hanswer with hready | ⟨id, hid, hsent⟩
      · cases hp.symm.trans hready
      · cases hp.symm.trans hid
        have hwaiting := (shut_closeMenu (e.requestLater s params).2).eq_of_ne_closed (by simp) hsent
        have hchannels : (e.requestLater s params).2.channels = e.channels ++ [.waiting] := by
          show (e.promise (s.laterCalls params e)).2.channels = _
          rw [hrequest]
        simp [hchannels] at hwaiting

namespace JustOpened

theorem focusedView?_eq (h : e.JustOpened e') : e'.focusedView? = e.focusedView? :=
  focusedView?_congr h.region h.focus

theorem textBeforeCaret_eq (h : e.JustOpened e') (hfocus : e.focusedView? = some (i, v)) :
    e'.textBeforeCaret = v.beforeCaret := by
  rw [textBeforeCaret, h.focusedView?_eq, hfocus]

theorem menuOffer_eq (h : e.JustOpened e') (hl : Expr.IsLanguage e.region.language)
    (hfocus : e.focusedView? = some (i, v)) (hedit : v.editable = true) (hend : v.caretAtEnd = true)
    (hne : v.text ≠ []) (hfine : (e.tokens[i]?).any Token.isError = false) : e'.menuOffer =
      { supplier := .side i 1
        items := Expr.menuItems e.settings.hideTokensInMenu
        kind := .token
        target := i + 1
        placement := .beside Params.forMenu.atEndRight } := by
  obtain ⟨p, hp⟩ := hl
  have hsupplier : e'.menuSupplier = (.side i 1, Params.forMenu.atEndRight) := by
    have htokens : e'.tokens = e.tokens := congrArg Region.tokens h.region
    simp [menuSupplier, h.focusedView?_eq, hfocus, hedit, hend, hne, htokens, hfine]
  have hreceived : e'.receivedItems (.side i 1) = [] := by
    rw [receivedItems, h.received]
  have hitems : ((Supplier.side i 1).offer Params.forMenu.atEndRight e').items =
      Expr.menuItems e.settings.hideTokensInMenu := by
    have hlanguage : e'.region.language = Expr.language p := by rw [h.region, hp]
    rw [Supplier.offer, Supplier.calls, hlanguage, h.settings]
    cases e.settings.hideTokensInMenu <;> rfl
  rw [menuOffer, hsupplier]
  simp only [hreceived, List.append_nil, hitems]
  rfl

end JustOpened

theorem wp_acceptItem {offer : Offer Expr} {item : Item Expr} {t : Text} {u : Token Expr} {cells : Cells}
    {post : Unit → Editor Expr → Prop} {fail : EditError → Editor Expr → Prop}
    (heffect : (item.effect (e.scope offer) t).run e.region.cells = (.put [u], cells))
    (hsupplier : offer.supplier ≠ .placeholder) :
    wp (acceptItem offer item t) post fail e ↔ wp (complete offer.placement offer.target 0 [u])
      (fun move e' => post () (e'.closeMenu.run move)) fail
      { e with region := { e.region with cells := cells } } := by
  simp only [acceptItem, applyItem, wp_bind, wp_get, wp_onRegion, Region.wp_onCells, heffect, wp_modify,
    hsupplier, if_false]
  rw [Effect.put, applyEffect_insert]

theorem rewrote_acceptItem (h : e.region.Worded none) {offer : Offer Expr} {item : Item Expr}
    {params : Params} {t : Text} {u : Token Expr} {cells : Cells}
    (heffect : (item.effect (e.scope offer) t).run e.region.cells = (.put [u], cells))
    (hsupplier : offer.supplier ≠ .placeholder) (hplacement : offer.placement = .beside params)
    (hkeeps : e.region.cells.Keeps cells) (hu : Expr.embedsText u) (hcells : cells.Has u.cellsOf)
    (hin : offer.target ≤ e.tokens.length) : wp (acceptItem offer item t) (fun _ e' =>
      cells.Keeps e'.region.cells ∧ e'.region.Spells (e.tokens.take offer.target ++ u ::
        e.tokens.drop (if u.isValue && (e.tokens[offer.target]?).any Token.isValue then
          offer.target + 1 else offer.target))) (fun _ _ => False) e := by
  have hworded : ({ e.region with cells := cells } : Region Expr).Worded none :=
    ⟨h.steady.setCells cells e.region.stale e.region.subscriptions, h.numbered.congr rfl rfl rfl,
      h.textOnly, hkeeps.has h.cells⟩
  rw [wp_acceptItem heffect hsupplier, hplacement]
  refine wp_mono (rewrote_completeBeside (e := { e with region := { e.region with cells := cells } })
    hworded hu hcells hin) (fun move e' h' => ?_) fun _ _ h => h
  have hrun := rewrote_run (e := e'.closeMenu) h' move
  refine ⟨hrun.keeps, ?_⟩
  have hspells := hrun.spells
  rw [List.append_assoc, List.singleton_append] at hspells
  exact hspells

/-- The menu is open behind the token at `i`, which reads as `s`, and offers nothing that came later. -/
structure OffersBehind (hide : Bool) (i : Nat) (s : Text) (e : Editor Expr) : Prop where
  worded : e.region.Worded none
  active : e.menu.active = true
  offer : e.menuOffer =
    { supplier := .side i 1
      items := Expr.menuItems hide
      kind := .token
      target := i + 1
      placement := .beside Params.forMenu.atEndRight }
  before : e.textBeforeCaret = s
  lt : i < e.tokens.length

namespace OffersBehind
variable {hide : Bool} {s : Text}

theorem menuChoice_eq (h : e.OffersBehind hide i s) :
    e.menuChoice = Item.chosen (Expr.menuItems hide) s := by
  show Item.chosen e.menuOffer.items e.textBeforeCaret = _
  rw [h.offer, h.before]

theorem enter_none (h : e.OffersBehind hide i s)
    (hchosen : Item.chosen (Expr.menuItems hide) s = none) : enter e = .ok () e.closeMenu := by
  have henter : wp enter (fun _ e' => e' = e.closeMenu) (fun _ _ => False) e := by
    unfold enter
    simp only [wp_bind, wp_get, h.active, if_true, h.menuChoice_eq, hchosen, wp_set]
  obtain ⟨_, _, hrun, rfl⟩ := exists_of_wp henter
  exact hrun

theorem enter_some (h : e.OffersBehind hide i s) {item : Item Expr} {s' : Text} {u : Token Expr}
    {cells : Cells} (hchosen : Item.chosen (Expr.menuItems hide) s = some (item, s'))
    (heffect : (item.effect (e.scope e.menuOffer) s').run e.region.cells = (.put [u], cells))
    (hkeeps : e.region.cells.Keeps cells) (hu : Expr.embedsText u) (hcells : cells.Has u.cellsOf) :
    ∃ e', enter e = .ok () e' ∧ cells.Keeps e'.region.cells ∧
      e'.region.Spells (e.tokens.take (i + 1) ++ u :: e.tokens.drop
        (if u.isValue && (e.tokens[i + 1]?).any Token.isValue then i + 2 else i + 1)) := by
  have htarget : e.menuOffer.target = i + 1 := congrArg Offer.target h.offer
  have haccept := rewrote_acceptItem h.worded heffect (by rw [h.offer]; simp)
    (congrArg Offer.placement h.offer) hkeeps hu hcells (by rw [htarget]; exact h.lt)
  rw [htarget] at haccept
  have henter : wp enter (fun _ e' => cells.Keeps e'.region.cells ∧
      e'.region.Spells (e.tokens.take (i + 1) ++ u :: e.tokens.drop
        (if u.isValue && (e.tokens[i + 1]?).any Token.isValue then i + 2 else i + 1)))
      (fun _ _ => False) e := by
    unfold enter
    simp only [wp_bind, wp_get, h.active, if_true, h.menuChoice_eq, hchosen]
    exact haccept
  obtain ⟨_, e', hrun, hpost⟩ := exists_of_wp henter
  exact ⟨e', hrun, hpost⟩

end OffersBehind

/-- Opening the menu at the end of a token that is neither an error nor a value, and enter at once. If
the token is one that can be typed and the menu lists tokens, it is put in again right behind itself.
The words for a new text are the exception. -/
theorem enter_repeats_token {p : Expr.Precedence} {cells : Cells} {settings : Settings}
    (hauto : settings.autoReparse = true)
    (h : Reached Expr.Speaks (Editor.new (Expr.language p) cells settings) e)
    (htext : Expr.TextOnly e.tokens) (hcells : e.region.cells.Has (rowCells e.tokens))
    {t : Token Expr} (hfocus : e.focusedView? = some (i, v)) (ht : e.tokens[i]? = some t)
    (herror : t.isError = false) (hvalue : t.isValue = false) (hne : t.text e.region.cells ≠ [])
    (hend : v.caretAtEnd = true) :
    ∃ e', enter e.activateMenu = .ok () e' ∧ e.region.cells.Keeps e'.region.cells ∧
      match Expr.proposal e.settings.hideTokensInMenu (t.text e.region.cells) with
      | .again => ∃ u, u.Stands (t.text e.region.cells) ∧
          e'.region.Spells (e.tokens.take (i + 1) ++ u :: e.tokens.drop (i + 1))
      | .newText => ∃ c, e'.region.cells.text c = [] ∧ e'.region.Spells (e.tokens.take (i + 1) ++
          .value (.text c) :: e.tokens.drop (if (e.tokens[i + 1]?).any Token.isValue then i + 2
            else i + 1))
      | .nothing => e'.region = e.region ∧ e'.menu.active = false := by
  obtain ⟨hsteady, hnumbered⟩ := Expr.orderly hauto h
  have hworded : e.region.Worded none := ⟨hsteady.region, hnumbered, htext, hcells⟩
  have hl := hworded.steady.inStep.language
  obtain ⟨-, hv⟩ := Steady.of_focusedView? hfocus
  have hshows : v.text = t.text e.region.cells := hworded.steady.shows i v t hv ht (by simp) hvalue
  have hedit : v.editable = true := by
    rw [(hworded.steady.projected.projects hv ht).editable, hvalue]
    rfl
  have hbefore : v.beforeCaret = t.text e.region.cells := by
    rw [View.beforeCaret, beq_iff_eq.1 hend, List.take_length, hshows]
  have hopened := justOpened_activateMenu hl
  have hregion := hopened.region
  have hrow : e.activateMenu.tokens = e.tokens := congrArg Region.tokens hregion
  have hoffers : e.activateMenu.OffersBehind e.settings.hideTokensInMenu i (t.text e.region.cells) :=
    ⟨hregion ▸ hworded, hopened.active,
      hopened.menuOffer_eq hl hfocus hedit hend (hshows ▸ hne) (by simp [ht, herror]),
      (hopened.textBeforeCaret_eq hfocus).trans hbefore, hrow ▸ (List.getElem?_eq_some_iff.1 ht).1⟩
  generalize e.activateMenu = e₁ at hoffers hregion hrow
  cases hp : Expr.proposal e.settings.hideTokensInMenu (t.text e.region.cells) with
  | again =>
    obtain ⟨item, u, hu, hchosen, heffect⟩ := Expr.chosen_again hp (e₁.scope e₁.menuOffer)
    have hrun : (item.effect (e₁.scope e₁.menuOffer) (t.text e.region.cells)).run e₁.region.cells =
        (.put [u], e₁.region.cells) := by
      rw [heffect]
      rfl
    obtain ⟨e', hrun, hkeeps, hspells⟩ := hoffers.enter_some hchosen hrun (.of_texts rfl)
      (hu.textOnly u (by simp)) (by simpa [rowCells] using hu.has e₁.region.cells)
    simp only [hu.isValue, Bool.false_and, Bool.false_eq_true, if_false, hrow] at hspells
    exact ⟨e', hrun, hregion ▸ hkeeps, u, hu, hspells⟩
  | newText =>
    obtain ⟨item, s, hchosen, heffect⟩ := Expr.chosen_newText hp
    have hnew : e₁.region.cells.Keeps ⟨e₁.region.cells.entries ++ [{ text := [] }]⟩ := .of_append rfl
    obtain ⟨e', hrun, hkeeps, hspells⟩ := hoffers.enter_some hchosen
      (by rw [heffect]; rfl) hnew rfl (by simp [Cells.Has, Token.cellsOf, Payload.cellsOf, Expr.cellsOf])
    simp only [Token.isValue, Bool.true_and, hrow] at hspells
    refine ⟨e', hrun, hregion ▸ hnew.trans hkeeps, _, ?_, hspells⟩
    rw [hkeeps.text_eq _ (by simp)]
    simp [Cells.text]
  | nothing =>
    exact ⟨_, hoffers.enter_none (Expr.chosen_nothing hne hp),
      hregion ▸ .of_texts rfl, hregion, rfl⟩

/-- Behind the name `a`, enter in the menu just opened writes the name again. -/
theorem enter_repeats_token_name : ∃ (e e' : Editor Expr) (u : Token Expr),
    Op.run (.typeChar 'a') (Editor.new (Expr.language {}) {} {}) = .ok () e ∧
    e.tokens = [.identifier ['a']] ∧ enter e.activateMenu = .ok () e' ∧ u.Stands ['a'] ∧
      e'.region.Spells [.identifier ['a'], u] := by
  have hends : endsWith (Op.run (.typeChar 'a')) (fun _ e => e.tokens == [.identifier ['a']] &&
        !e.settings.hideTokensInMenu && e.focusedView?.any fun x => x.1 == 0 && x.2.caretAtEnd)
      (Editor.new (Expr.language {}) {} {}) := by
    decide +kernel
  obtain ⟨_, e, hrun, htest⟩ := exists_of_endsWith hends
  simp only [Bool.and_eq_true, beq_iff_eq, Bool.not_eq_true'] at htest
  obtain ⟨⟨htokens, hhide⟩, hfocus⟩ := htest
  obtain ⟨⟨i, v⟩, hfocus, htest⟩ := (Option.any_eq_true _ _).1 hfocus
  obtain ⟨rfl, hend⟩ : i = 0 ∧ v.caretAtEnd = true := by simpa using htest
  have hreached : Reached Expr.Speaks (Editor.new (Expr.language {}) {} {}) e :=
    Reached.refl.call (show Expr.Speaks _ (.typeChar 'a') from trivial) hrun
  obtain ⟨e', henter, -, hput⟩ := enter_repeats_token rfl hreached (by rw [htokens]; decide)
    (by rw [htokens]; exact Cells.has_nil) hfocus (t := .identifier ['a']) (by rw [htokens]; rfl) rfl rfl
    (by simp [Token.text]) hend
  have hagain : Expr.proposal e.settings.hideTokensInMenu ['a'] = .again := by
    have hname : Expr.singleKind? ['a'] = some .ident := Expr.singleKind?_eq_ident.2 (by decide)
    rw [hhide, Expr.proposal, if_neg (by decide), if_pos (by rw [hname]; rfl)]
  simp only [Token.text, hagain, htokens] at hput
  obtain ⟨u, hu, hspells⟩ := hput
  exact ⟨e, e', u, hrun, htokens, henter, hu, hspells⟩

end Editor

end TokenEditor
