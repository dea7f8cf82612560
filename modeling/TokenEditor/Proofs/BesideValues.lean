import TokenEditor.Proofs.TextRows

/-! # Typing beside a value

`typing_beside_value`: what is typed at a value of an expression editor comes in beside it, and the
value stays under its number. It comes in on the side of the caret, with one exception. While the menu
is open, a character that is a token goes behind the value also if the caret is before it. -/

namespace TokenEditor

theorem Region.Numbered.numbered_insert {r : Region Expr} (h : r.Numbered) {place i : Nat}
    {x : ViewId × Token Expr} (u : Token Expr) (hx : r.numbered[i]? = some x) :
    (r.spliced place place [u]).numbered[if place ≤ i then i + 1 else i]? = some x := by
  have hin := (List.getElem?_eq_some_iff.1 hx).1
  rw [h.numbered_spliced, List.append_assoc]
  split_ifs with hle
  · have hlen : (r.numbered.take place).length = place := List.length_take_of_le (by omega)
    have hrest : i + 1 - place = (i - place) + 1 := by omega
    rw [List.getElem?_append_right (by omega), hlen, hrest]
    show (r.numbered.drop place)[i - place]? = _
    rw [List.getElem?_drop, Nat.add_sub_cancel' hle, hx]
  · rw [List.getElem?_append_left (by rw [List.length_take]; omega),
      List.getElem?_take_of_lt (by omega), hx]

namespace Editor
open TokenEditor.Expr (valueWord singleKind?)

variable {e : Editor Expr} {index delta i : Nat} {t : Text} {v : View} {x : Expr}

/-- Where a text typed beside the token at `index` comes in. While the menu is open, a token goes to
the right, whatever side was asked for. -/
def placeBeside (index delta : Nat) (t : Text) (e : Editor Expr) : Nat :=
  if e.menu.active = true ∧ (singleKind? t).isSome then index + 1 else index + delta

theorem placeBeside_le (hin : index < e.tokens.length) (hdelta : delta ≤ 1) :
    e.placeBeside index delta t ≤ e.tokens.length := by
  unfold placeBeside
  split_ifs <;> omega

theorem rewrote_typeBeside (h : e.region.Worded none) (hin : index < e.tokens.length) (hdelta : delta ≤ 1)
    (hword : t ≠ valueWord) : wp (typeBeside index delta none t) (fun _ e' => ∃ u, u.Stands t ∧
      e.region.Rewrote (e.placeBeside index delta t) (e.placeBeside index delta t) [u] e'.region)
      (fun _ _ => False) e := by
  have hparams : (if e.menu.active = true then Params.typing.atEndRight else .typing) =
      { endRight := e.menu.active } := by
    cases e.menu.active <;> rfl
  unfold typeBeside
  simp only [wp_bind, wp_get, hparams]
  have hitems := items_of_keys h.steady.inStep.language (.side index delta) e.menu.active
  have hmatch : Item.hasSingleMatch
      ((Supplier.side index delta).offer { endRight := e.menu.active } e).items t ↔
        (singleKind? t).isSome := by
    rw [hitems, Expr.hasSingleMatch_iff hword]
  split_ifs with hsingle
  · obtain ⟨u, hu, hcomplete⟩ := exists_stands_of_completeMatch (e := e) hitems hword hsingle
    have htarget : ((Supplier.side index delta).offer { endRight := e.menu.active } e).target =
        e.placeBeside index delta t := by
      simp only [placeBeside, hmatch.1 hsingle, and_true]
      rfl
    refine hcomplete ?_
    rw [htarget]
    refine wp_mono (rewrote_completeBeside h (hu.textOnly u (by simp)) ?_ (placeBeside_le hin hdelta)) ?_
      fun _ _ h => h
    · simpa [rowCells] using hu.has e.region.cells
    · intro move e' h'
      simp only [hu.isValue, Bool.false_and, Bool.false_eq_true, if_false] at h'
      exact ⟨u, hu, rewrote_run (e := e'.closeMenu) h' move⟩
  · have hplace : e.placeBeside index delta t = index + delta := by
      simp [placeBeside, mt hmatch.2 hsingle]
    rw [hplace]
    simp only [wp_bind, wp_modify]
    exact wp_mono (rewrote_expandToError h (by omega) t)
      (fun move _ h' => ⟨_, .error t, rewrote_run h' move⟩) fun _ _ h => h

/-- What a character typed at a value stands as: a space opens an empty token. -/
def typedAtValue (c : Char) : Text :=
  if c = ' ' then [] else [c]

/-- The side of a value that the caret is on. -/
def sideOf (v : View) : Nat :=
  if v.caret = 0 then 0 else 1

theorem rewrote_typeAtValue (h : e.region.Worded none) (hin : i < e.tokens.length)
    (hv : e.views[i]? = some v) (c : Char) : wp (typeAtValue i c) (fun _ e' => ∃ u,
      u.Stands (typedAtValue c) ∧ e.region.Rewrote (e.placeBeside i (sideOf v) [c])
        (e.placeBeside i (sideOf v) [c]) [u] e'.region) (fun _ _ => False) e := by
  have hside : (if (e.views[i]?).any (fun v => v.caret == 0) = true then 0 else 1) = sideOf v := by
    simp [hv, sideOf]
  have hle : sideOf v ≤ 1 := by
    unfold sideOf
    split_ifs <;> omega
  unfold typeAtValue typedAtValue
  simp only [wp_bind, wp_get, hside]
  split_ifs with hc
  · have hspace : singleKind? [' '] = none := by
      simp [singleKind?, Expr.lex, Expr.firstLexeme, Expr.isSpace]
    have hplace : e.placeBeside i (sideOf v) [c] = i + sideOf v := by
      simp [placeBeside, hc, hspace]
    rw [hplace]
    simp only [wp_bind, wp_modify]
    exact wp_mono (rewrote_expandToError h (by omega) [])
      (fun move _ h' => ⟨_, .error [], rewrote_run h' move⟩) fun _ _ h => h
  · exact rewrote_typeBeside h hin hle (by simp [valueWord])

theorem placeBeside_sideOf : e.placeBeside i (sideOf v) t =
    if v.caret = 0 ∧ ¬ (e.menu.active = true ∧ (singleKind? t).isSome) then i else i + 1 := by
  unfold placeBeside sideOf
  by_cases hright : e.menu.active = true ∧ (singleKind? t).isSome
  · rw [if_pos hright, if_neg fun h => h.2 hright]
  · rw [if_neg hright]
    by_cases hcaret : v.caret = 0
    · rw [if_pos hcaret, if_pos ⟨hcaret, hright⟩, Nat.add_zero]
    · rw [if_neg hcaret, if_neg fun h => hcaret h.1]

/-- What is typed at a value comes in beside it, and the value keeps its number. It comes in on the
caret's side, unless the menu is open and the character is a token: that goes behind the value. -/
theorem typing_beside_value {p : Expr.Precedence} {cells : Cells} {settings : Settings}
    (hauto : settings.autoReparse = true)
    (h : Reached Expr.Speaks (Editor.new (Expr.language p) cells settings) e)
    (htext : Expr.TextOnly e.tokens) (hcells : e.region.cells.Has (rowCells e.tokens))
    (hsel : e.selection = none) (hfocus : e.focusedView? = some (i, v))
    (hvalue : e.tokens[i]? = some (.value x)) (c : Char) :
    ∃ e' u, typeChar c e = .ok () e' ∧ u.Stands (typedAtValue c) ∧
      e.region.cells.Keeps e'.region.cells ∧
      if v.caret = 0 ∧ ¬ (e.menu.active = true ∧ (singleKind? [c]).isSome) then
        e'.region.Spells (e.tokens.take i ++ u :: e.tokens.drop i) ∧
          e'.region.numbered[i + 1]? = some (v.id, .value x)
      else
        e'.region.Spells (e.tokens.take (i + 1) ++ u :: e.tokens.drop (i + 1)) ∧
          e'.region.numbered[i]? = some (v.id, .value x) := by
  obtain ⟨hsteady, hnumbered⟩ := Expr.orderly hauto h
  have hworded : e.region.Worded none := ⟨hsteady.region, hnumbered, htext, hcells⟩
  obtain ⟨hindex, hv⟩ := Steady.of_focusedView? hfocus
  have hprojects := hworded.steady.projected.projects hv hvalue
  have htyped : wp (typeChar c) (fun _ e' => ∃ u, u.Stands (typedAtValue c) ∧
      e.region.Rewrote (e.placeBeside i (sideOf v) [c]) (e.placeBeside i (sideOf v) [c]) [u] e'.region)
      (fun _ _ => False) e := by
    refine wp_typeChar_of_typeWith fun retype => ?_
    unfold typeWith clearSelection
    simp only [wp_bind, wp_get, hsel, wp_pure, hindex]
    unfold typeAt
    rw [wp_bind, wp_get, typingTarget_of_unglued (by rw [hprojects.glue]; rfl) hv]
    simp only [wp_bind, wp_set, hv, Option.any_some, hprojects.editable, Token.isValue, Bool.not_true,
      Bool.not_false, if_true]
    exact rewrote_typeAtValue hworded (List.getElem?_eq_some_iff.1 hvalue).1 hv c
  obtain ⟨_, e', hrun, u, hu, hrewrote⟩ := exists_of_wp htyped
  refine ⟨e', u, hrun, hu, hrewrote.keeps, ?_⟩
  have hids : e.region.ids[i]? = some v.id := by
    rw [Region.ids, List.getElem?_map, show e.region.views[i]? = some v from hv, Option.map_some]
  have hkept := hrewrote.values (hnumbered.numbered_insert u (Region.mem_numbered_iff.2 ⟨hids, hvalue⟩))
  have hspells := hrewrote.spells
  rw [List.append_assoc, List.singleton_append] at hspells
  rw [placeBeside_sideOf] at hkept hspells
  split_ifs with hbefore
  · rw [if_pos hbefore] at hkept hspells
    rw [if_pos (Nat.le_refl i)] at hkept
    exact ⟨hspells, hkept⟩
  · rw [if_neg hbefore] at hkept hspells
    rw [if_neg (by omega)] at hkept
    exact ⟨hspells, hkept⟩

/-- With the menu open and the caret before the text `t`, a sign goes behind it. -/
theorem typing_beside_value_open : ∃ (e e' : Editor Expr) (u : Token Expr) (v : View),
    [Op.setTokens [.value (.text 0)], .selectToken 0 .first, .activateMenu].forM Op.run
      (Editor.new (Expr.language {}) ⟨[{ text := ['t'] }]⟩ {}) = .ok () e ∧
    e.focusedView? = some (0, v) ∧ v.caret = 0 ∧ e.tokens = [.value (.text 0)] ∧
    typeChar '+' e = .ok () e' ∧ Token.Stands ['+'] u ∧ e'.region.Spells [.value (.text 0), u] ∧
      e'.region.numbered[0]? = some (v.id, .value (.text 0)) := by
  have hends : endsWith
      ([Op.setTokens [.value (.text 0)], .selectToken 0 .first, .activateMenu].forM Op.run)
      (fun _ e => e.tokens == [.value (.text 0)] && e.menu.active && e.selection.isNone &&
        e.region.cells.entries.length == 2 && e.focusedView?.any fun x => x.1 == 0 && x.2.caret == 0)
      (Editor.new (Expr.language {}) ⟨[{ text := ['t'] }]⟩ {}) := by
    decide +kernel
  obtain ⟨_, e, hrun, htest⟩ := exists_of_endsWith hends
  simp only [Bool.and_eq_true, beq_iff_eq, Option.isNone_iff_eq_none] at htest
  obtain ⟨⟨⟨⟨htokens, hmenu⟩, hsel⟩, hlen⟩, hfocus⟩ := htest
  obtain ⟨⟨i, v⟩, hfocus, htest⟩ := (Option.any_eq_true _ _).1 hfocus
  obtain ⟨hi, hcaret⟩ : i = 0 ∧ v.caret = 0 := by simpa using htest
  subst hi
  have hreached : Reached Expr.Speaks (Editor.new (Expr.language {}) ⟨[{ text := ['t'] }]⟩ {}) e :=
    Reached.refl.forM (by simp) hrun
  have hhas : e.region.cells.Has (rowCells e.tokens) := by
    intro c hc
    rw [htokens] at hc
    obtain rfl := List.mem_singleton.1 hc
    omega
  obtain ⟨e', u, htyped, hu, -, hplaced⟩ := typing_beside_value rfl hreached
    (by rw [htokens]; decide) hhas hsel hfocus (by rw [htokens]; rfl) '+'
  have hplus : (singleKind? ['+']).isSome := by
    rw [Expr.singleKind?_of_mem_symbols (k := .plus) (by decide)]
    rfl
  rw [if_neg fun hleft => hleft.2 ⟨hmenu, hplus⟩, htokens] at hplaced
  exact ⟨e, e', u, v, hrun, hfocus, hcaret, htokens, htyped, hu, hplaced.1, hplaced.2⟩

end Editor

end TokenEditor
