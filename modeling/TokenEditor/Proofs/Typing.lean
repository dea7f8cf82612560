import TokenEditor.Editor.Typing
import TokenEditor.Proofs.Keystrokes
import TokenEditor.Proofs.Synced

/-! # Typing an expression

`typing_rebuilds`: typing what a canonical expression displays into a new editor leaves the editor
with the printed tokens of the expression and the expression as its value. As long as the caret
stays at the end of the row, each character changes the row as `Press` says; `Ready` is the state
in between. -/

namespace TokenEditor

namespace Expr
variable {r : Region Expr} {p : Precedence} {ts new : List (Token Expr)} {start stop : Nat}
  {post : Unit → Region Expr → Prop} {fail : EditError → Region Expr → Prop}

/-- A tidy row has no cells, so its region holds the very expression that it reads as. -/
theorem value_of_tidy (h : r.InSync (language p) textTokens) (ht : Tidy r.tokens) (hne : r.tokens ≠ [])
    {e : Expr} (hparse : parse p r.cells r.tokens = some e) :
    r.value = some e ∧ r.printed = some e.row := by
  have hread : r.language.parse r.cells r.tokens = some e := by
    rwa [h.settled.language, language_parse]
  obtain ⟨w, hvalue, hsame, -, hprinted, -⟩ := h.agrees.readable e hne hread
  have hcells : e.cellsOf = [] := by rw [cellsOf_parse hparse, ht.rowCells]
  have hw : w.cellsOf = [] :=
    List.eq_nil_of_length_eq_zero (by rw [length_cellsOf_of_same hsame, hcells]; rfl)
  obtain rfl := eq_of_same hsame (hw.trans hcells.symm)
  rw [h.settled.language, printed_tokens] at hprinted
  exact ⟨hvalue, hprinted⟩

theorem printed_of_tidy (h : r.InSync (language p) textTokens) (ht : Tidy r.tokens)
    {ps : List (Token Expr)} (hp : r.printed = some ps) : ps = r.tokens := by
  by_cases hne : r.tokens = []
  · have hprinted := (h.agrees.empty hne).2.2
    rw [hp] at hprinted
    cases hprinted
    exact hne.symm
  cases hparse : parse p r.cells r.tokens with
  | none =>
    rw [← language_parse, ← h.settled.language] at hparse
    rw [(h.agrees.unreadable hne hparse).2] at hp
    cases hp
  | some e =>
    have hprinted := (value_of_tidy h ht hne hparse).2
    rw [hp] at hprinted
    cases hprinted
    exact ht.row_of_parse hparse

theorem wp_updateToPrinted (h : r.InSync (language p) textTokens) (ht : Tidy r.tokens) :
    wp Region.updateToPrinted post fail r ↔ post () r := by
  cases hp : r.printed with
  | none => simp only [Region.updateToPrinted, wp_bind, wp_get, hp, wp_pure]
  | some ps =>
    obtain rfl := printed_of_tidy h ht hp
    exact Region.wp_updateToPrinted_self h.syncing hp (.refl _ _)

theorem row_of_tidy (ht : Tidy ts) (cells : Cells) : textTokens.Row cells ts :=
  ⟨by rw [ht.rowCells]; exact Cells.has_nil, ht.textOnly⟩

theorem wp_splice (h : r.InSync (language p) textTokens)
    (hin : ¬ (stop < start ∨ r.tokens.length < stop))
    (ht : Tidy (r.tokens.take start ++ new ++ r.tokens.drop stop))
    (hpost : ∀ r', r'.InSync (language p) textTokens → (r.spliced start stop new).Reread r' →
      post () r') : wp (Region.splice start stop new) post fail r := by
  have hrow := row_of_tidy ht r.cells
  have hnew := (TokenClass.Row.append_iff.1 (TokenClass.Row.append_iff.1 hrow).1).2
  rw [Region.wp_splice, if_neg hin, if_pos h.settled.autoReparse]
  exact wp_mono (Region.InSync.of_settled (language_structural p) (language_faithful p)
    (h.settled.spliced hnew) h.syncing h.restoring) (fun _ r' h' => hpost r' h'.1 h'.2)
    (fun _ _ h => h.elim)

end Expr

/-! ### Editors at the end of a row -/

namespace Editor

section
variable {V : Type}

/-- Completing with the only item for a text, which puts in one token. -/
theorem wp_completeMatch [Payload V] {offer : Offer V} {item : Item V} {t : Text} {u : Token V}
    {post : Unit → Editor V → Prop} {fail : EditError → Editor V → Prop} {ed : Editor V}
    (hm : Item.matching offer.items t = [item])
    (he : item.effect (ed.scope offer) t = pure (.put [u])) :
    wp (completeMatch offer t) post fail ed ↔ wp (complete offer.placement offer.target 0 [u])
      (fun move ed' => post () (ed'.closeMenu.run move)) fail ed := by
  have hcells : wp (Region.onCells (item.effect (ed.scope offer) t))
      (fun effect r => wp (applyEffect offer effect)
        (fun move ed' => post () (ed'.closeMenu.run move)) fail { ed with region := r })
      (fun e r => fail e { ed with region := r }) ed.region ↔
      wp (applyEffect offer (.put [u])) (fun move ed' => post () (ed'.closeMenu.run move)) fail ed := by
    rw [he]
    rfl
  simp only [completeMatch, applyMatch, hm, applyItem, wp_bind, wp_get, wp_onRegion, wp_pure, wp_modify,
    hcells]
  rw [Effect.put, applyEffect_insert]

/-- What goes well however a character is typed again goes well. -/
theorem wp_typeChar_of_typeWith [Payload V] {ed : Editor V} {c : Char}
    {post : Unit → Editor V → Prop} {fail : EditError → Editor V → Prop}
    (h : ∀ retype, wp (typeWith retype c) post fail ed) : wp (typeChar c) post fail ed := by
  -- the limit is kept as a variable, or it is unfolded a thousand times
  obtain ⟨limit, hlimit⟩ : ∃ limit, ed.retypeLimit = limit + 1 :=
    ⟨ed.tokens.length + 999, by rw [retypeLimit]⟩
  simp only [typeChar, wp_bind, wp_get, hlimit, typeWithin]
  exact h _

theorem closeMenu_of_closed {ed : Editor V} (h : ed.menu = {}) : ed.closeMenu = ed := by
  cases ed
  cases h
  rfl

theorem modify_concat (vs : List View) (v : View) (f : View → View) :
    (vs ++ [v]).modify vs.length f = vs ++ [f v] := by
  induction vs with
  | nil => rfl
  | cons w vs ih => exact congrArg (w :: ·) ih

theorem select_last {tokens : List (Token V)} {views : List View} {index : Nat}
    (h : index + 1 = tokens.length) :
    Move.select tokens views index .last = Move.toToken index .last := by
  have hnone : tokens[index + 1]? = none := by simp [h]
  simp only [Move.select, hnone]
  cases tokens[index]? <;> rfl

end

open TokenEditor.Expr

variable {ed : Editor Expr} {p : Precedence} {ts : List (Token Expr)} {t u : Token Expr}
  {vs : List View} {v w : View} {k : Nat} {c : Char}

/-- The editor holds the tidy row with these views; nothing is selected and the menu is closed. -/
structure Laid (p : Precedence) (ts : List (Token Expr)) (vs : List View) (ed : Editor Expr) :
    Prop where
  region : ed.region.InSync (language p) textTokens
  tidy : Tidy ts
  tokens : ed.region.tokens = ts
  views : ed.region.views = vs
  fresh : ∀ v ∈ vs, v.id < ed.region.nextView
  selection : ed.selection = none
  menu : ed.menu = {}

/-- The view of the last token, with a number of its own, shows the text of the token. -/
structure LastView (vs : List View) (v : View) (t : Token Expr) : Prop where
  unique : ∀ w ∈ vs, w.id ≠ v.id
  editable : v.editable = true
  text : v.text = t.text {}
  glue : v.glue = t.glue

/-- The editor waits for the next character at the end of its row. -/
inductive Ready (p : Precedence) : List (Token Expr) → Editor Expr → Prop
  | empty {ed : Editor Expr} : ed.Laid p [] [] → ed.focus = .placeholder → ed.placeholder = [] →
      Ready p [] ed
  | row {ed : Editor Expr} {ts : List (Token Expr)} {t : Token Expr} {vs : List View} {v : View} :
      ed.Laid p (ts ++ [t]) (vs ++ [v]) → LastView vs v t → v.caret = v.text.length →
      ed.focus = .token v.id → Ready p (ts ++ [t]) ed

theorem LastView.insert (h : LastView vs v t) (hcaret : v.caret = v.text.length) (c : Char) :
    (v.insert [c]).text = t.text {} ++ [c] ∧ (v.insert [c]).caret = (v.insert [c]).text.length := by
  simp [View.insert, Text.insertAt, hcaret, h.text]

namespace Laid

theorem length_eq (h : ed.Laid p ts vs) : vs.length = ts.length := by
  rw [← h.views, h.region.settled.views, h.tokens]

theorem length_init (h : ed.Laid p (ts ++ [t]) (vs ++ [v])) : vs.length = ts.length := by
  simpa using h.length_eq

theorem viewPosition? (h : ed.Laid p ts (vs ++ [v])) (hu : ∀ w ∈ vs, w.id ≠ v.id) :
    ed.region.viewPosition? v.id = some vs.length := by
  have hnone : vs.findIdx? (fun w => w.id == v.id) = none :=
    List.findIdx?_eq_none_iff.2 fun w hw => beq_eq_false_iff_ne.2 (hu w hw)
  rw [Region.viewPosition?, h.views, List.findIdx?_append, hnone]
  simp [List.findIdx?_cons]

theorem aside (h : ed.Laid p ts vs) {focus : Focus} {placeholder : Text} :
    Laid p ts vs { ed with focus := focus, placeholder := placeholder } :=
  ⟨h.region, h.tidy, h.tokens, h.views, h.fresh, h.selection, h.menu⟩

theorem modifyView (h : ed.Laid p ts (vs ++ [v])) {f : View → View} (hf : (f v).id = v.id) :
    (ed.modifyView vs.length f).Laid p ts (vs ++ [f v]) := by
  have hset := h.region.settled
  have hagree := h.region.agrees
  refine ⟨⟨⟨hset.language, hset.autoReparse, hset.autoReprint, hset.fresh, ?_, hset.row, hset.value⟩,
    ⟨hagree.valid_iff, hagree.empty, hagree.readable, hagree.unreadable⟩, h.region.syncing,
    h.region.restoring⟩, h.tidy, h.tokens, ?_, ?_, h.selection, h.menu⟩
  · exact (List.length_modify ..).trans hset.views
  · show ed.region.views.modify vs.length f = _
    rw [h.views, modify_concat]
  · intro w hw
    have hfresh := h.fresh
    rcases List.mem_append.1 hw with hw | hw
    · exact hfresh w (by simp [hw])
    · rw [List.mem_singleton.1 hw, hf]
      exact hfresh v (by simp)

theorem view (h : ed.Laid p ts (vs ++ [v])) : ed.views[vs.length]? = some v := by
  rw [Editor.views, h.views]
  simp

theorem token (h : ed.Laid p (ts ++ [t]) (vs ++ [v])) : ed.tokens[vs.length]? = some t := by
  rw [Editor.tokens, h.tokens, h.length_init]
  simp

theorem select (h : ed.Laid p (ts ++ [t]) (vs ++ [v])) :
    ed.select vs.length .last = Move.toToken vs.length .last :=
  select_last (by rw [Editor.tokens, h.tokens, h.length_init]; simp)

theorem run (h : ed.Laid p (ts ++ [t]) (vs ++ [v])) (hv : LastView vs v t) :
    Ready p (ts ++ [t]) (ed.closeMenu.run (Move.toToken vs.length .last)) := by
  let focused : Editor Expr :=
    { ed.modifyView vs.length (·.setCaret v.text.length) with focus := .token v.id }
  have hmoved := h.modifyView (f := (·.setCaret v.text.length)) rfl
  have hfocused : focused.Laid p (ts ++ [t]) (vs ++ [v.setCaret v.text.length]) := hmoved.aside
  have hselect : ed.selectToken vs.length .last = focused := by
    unfold selectToken
    rw [h.view]
    simp only [closeMenu_of_closed hmoved.menu, ite_self]
    rfl
  have hlost : focused.focusLost = false := by
    have hpos := hfocused.viewPosition? hv.unique
    show (focused.region.viewPosition? v.id).isNone = false
    rw [show focused.region.viewPosition? v.id = some vs.length from hpos]
    rfl
  have hrun : ed.closeMenu.run (Move.toToken vs.length .last) = focused := by
    have hselection : focused.selection = none := hfocused.selection
    rw [closeMenu_of_closed h.menu]
    simp only [Editor.run, Move.toToken, hselect, repairFocus, hlost, Bool.false_eq_true, if_false,
      hselection, Bool.false_and]
  rw [hrun]
  refine .row hfocused ⟨hv.unique, hv.editable, hv.text, hv.glue⟩ ?_ rfl
  simp [View.setCaret]

theorem wp_splice (h : ed.Laid p ts vs) (hk : k ≤ ts.length) (ht : Tidy (ts.take k ++ [u]))
    {post : Unit → Editor Expr → Prop} {fail : EditError → Editor Expr → Prop}
    (hpost : ∀ ed' w, Laid p (ts.take k ++ [u]) (vs.take k ++ [w]) ed' → LastView (vs.take k) w u →
      post () ed') :
    wp (onRegion (Region.splice k ts.length [u])) post fail ed := by
  have hrow : ed.region.tokens.take k ++ [u] ++ ed.region.tokens.drop ts.length = ts.take k ++ [u] := by
    rw [h.tokens, List.drop_length, List.append_nil]
  have htoken := (Tidy.concat_iff.1 ht).2
  rw [wp_onRegion]
  refine Expr.wp_splice h.region ?_ (hrow ▸ ht) fun r hr hreread => ?_
  · rw [h.tokens]
    omega
  let w := View.ofToken ed.region.cells ed.region.nextView u
  have hviews : r.views = vs.take k ++ [w] := by
    rw [hreread.views]
    show ed.region.views.take k ++ [w] ++ ed.region.views.drop ts.length = _
    rw [h.views, ← h.length_eq, List.drop_length, List.append_nil]
  have hnext : r.nextView = ed.region.nextView + 1 := hreread.nextView
  have hold : ∀ x ∈ vs.take k, x.id < ed.region.nextView :=
    fun x hx => h.fresh x (List.mem_of_mem_take hx)
  refine hpost _ w ⟨hr, ht, hreread.tokens.trans hrow, hviews, fun x hx => ?_, h.selection, h.menu⟩ ?_
  · show x.id < r.nextView
    rw [hnext]
    rcases List.mem_append.1 hx with hx | hx
    · exact Nat.lt_succ_of_lt (hold x hx)
    · rw [List.mem_singleton.1 hx]
      exact Nat.lt_succ_self _
  · refine ⟨fun x hx => Nat.ne_of_lt (hold x hx), ?_, htoken.text_eq _, rfl⟩
    show (!u.isValue) = true
    rw [htoken.isValue]
    rfl

/-- The row is its own print, and is left alone when it is brought in line. -/
theorem wp_spliceUpdated (h : ed.Laid p ts vs) (hk : k ≤ ts.length) (ht : Tidy (ts.take k ++ [u]))
    {post : Unit → Editor Expr → Prop} {fail : EditError → Editor Expr → Prop}
    (hpost : ∀ ed' w, Laid p (ts.take k ++ [u]) (vs.take k ++ [w]) ed' → LastView (vs.take k) w u →
      post () ed') :
    wp (spliceUpdated k ts.length [u]) post fail ed := by
  simp only [spliceUpdated, wp_bind]
  refine h.wp_splice hk ht fun ed' w hlaid hlast => ?_
  rw [wp_onRegion, wp_updateToPrinted hlaid.region (by rw [hlaid.tokens]; exact ht)]
  exact hpost ed' w hlaid hlast

theorem items_offer (h : ed.Laid p ts vs) (s : Supplier) : (s.offer .typing ed).items = tokenItems := by
  simp [Supplier.offer, Supplier.calls, Params.typing, h.region.settled.language, Language.answer]
  rfl

theorem typingOffer (h : ed.Laid p ts vs) (s : Supplier) : ed.typingOffer s = s.offer .typing ed := by
  simp [Editor.typingOffer, h.menu]

theorem wp_complete (h : ed.Laid p ts vs) (s : Supplier) {text : Text} (hs : (s.target .typing).2 = k)
    (hk : k ≤ ts.length) (hu : Gives (endsInName (ts.take k)) text u)
    {post : Unit → Editor Expr → Prop} {fail : EditError → Editor Expr → Prop} :
    wp (completeMatch (s.offer .typing ed) text) post fail ed ↔
      wp (complete (s.placement .typing) k 0 [u]) (fun move ed' => post () (ed'.closeMenu.run move))
        fail ed := by
  obtain ⟨item, hm, he⟩ := matching_of_tokenFor? hu.token
  have hscope : (decide (0 < k) && (ts[k - 1]?).any Token.isIdentifier) = endsInName (ts.take k) := by
    cases k with
    | zero => rfl
    | succ k =>
      have hlt : k < ts.length := hk
      rw [List.take_succ_eq_append_getElem hlt, endsInName_concat]
      simp [hlt]
  subst hs
  have hmatch : Item.matching (s.offer .typing ed).items text = [item] := by rw [h.items_offer, hm]
  have heffect : item.effect (ed.scope (s.offer .typing ed)) text = pure (.put [u]) := by
    refine he _ ?_
    rw [← hscope, ← h.tokens]
    rfl
  rw [wp_completeMatch hmatch heffect]
  rfl

theorem wp_grow (h : ed.Laid p (ts ++ [t]) (vs ++ [v]))
    (hcaret : v.caret = v.text.length) (hne : v.text ≠ []) (hu : Gives (endsInName ts) v.text u) :
    wp (completeMatch ((Supplier.token vs.length).offer .typing ed) v.text)
      (fun _ ed' => Ready p (ts ++ [u]) ed') (fun _ _ => False) ed := by
  have hlen := h.length_init
  have htake : (ts ++ [t]).take vs.length = ts := by simp [hlen]
  have hvs : (vs ++ [v]).take vs.length = vs := by simp
  rw [h.wp_complete (.token vs.length) (k := vs.length) rfl (by simp [hlen]) (by rwa [htake])]
  show wp (completeReplacing vs.length 0 [u]) _ _ ed
  simp only [completeReplacing, wp_bind, wp_get, h.view]
  rw [show vs.length + 1 = (ts ++ [t]).length by simp [hlen]]
  refine h.wp_spliceUpdated (by simp [hlen]) ?_ fun ed' w hlaid hlast => ?_
  · rw [htake]
    exact (Tidy.concat_iff.1 h.tidy).1.concat hu.tidy
  · rw [htake, hvs] at hlaid
    rw [hvs] at hlast
    have hend : v.caretAtEnd = true := by simp [View.caretAtEnd, hcaret]
    have hcaret' : v.caret ≠ 0 := by simpa [hcaret] using hne
    simp only [wp_pure, Nat.add_zero, hend, hcaret', hlaid.select, if_false, if_true, ite_self, h.menu]
    exact hlaid.run hlast

theorem wp_start (h : ed.Laid p (ts ++ [t]) (vs ++ [v])) (hu : Gives (endsInName (ts ++ [t])) [c] u) :
    wp (completeMatch ((Supplier.side vs.length 1).offer .typing ed) [c])
      (fun _ ed' => Ready p (ts ++ [t] ++ [u]) ed') (fun _ _ => False) ed := by
  have hlen : vs.length + 1 = (ts ++ [t]).length := by simp [h.length_init]
  have hvalue : ([u].head?.any Token.isValue &&
      (ed.tokens[(ts ++ [t]).length]?).any Token.isValue) = false := by
    simp [hu.tidy.isValue]
  rw [h.wp_complete (.side vs.length 1) hlen (Nat.le_refl _) (by rwa [List.take_length])]
  show wp (completeBeside .typing (ts ++ [t]).length 0 [u]) _ _ ed
  simp only [completeBeside, wp_bind, wp_get, hvalue, Bool.false_eq_true, if_false]
  refine h.wp_spliceUpdated (Nat.le_refl _) ?_ fun ed' w hlaid hlast => ?_
  · rw [List.take_length]
    exact h.tidy.concat hu.tidy
  · rw [List.take_length, ← h.length_eq, List.take_length] at hlaid
    rw [← h.length_eq, List.take_length] at hlast
    simp only [wp_pure, Nat.add_zero, ← h.length_eq, hlaid.select]
    exact hlaid.run hlast

theorem wp_first (h : ed.Laid p [] []) (hu : Gives false [c] u) :
    wp (completeMatch (Supplier.placeholder.offer .typing ed) [c])
      (fun _ ed' => Ready p [u] ed') (fun _ _ => False) ed := by
  rw [h.wp_complete .placeholder rfl (Nat.le_refl _) hu]
  show wp (completeFilling 0 [u]) _ _ ed
  have htokens : ed.tokens.length = 0 := by rw [Editor.tokens, h.tokens]; rfl
  simp only [completeFilling, wp_bind, wp_get, htokens]
  refine h.wp_spliceUpdated (Nat.le_refl _) (Tidy.nil.concat hu.tidy) fun ed' w hlaid hlast => ?_
  have hlaid : ed'.Laid p ([] ++ [u]) ([] ++ [w]) := hlaid
  have hselect : ed'.select 0 .last = Move.toToken 0 .last := hlaid.select
  simp only [wp_pure, hselect, h.menu]
  exact hlaid.run hlast

theorem wp_gap (h : ed.Laid p (ts ++ [t]) (vs ++ [v])) :
    wp (expandToError vs.length [] 1) (fun move ed' => Ready p (ts ++ [t] ++ [.error []]) (ed'.run move))
      (fun _ _ => False) ed := by
  have hlen : vs.length + 1 = (ts ++ [t]).length := by simp [h.length_init]
  simp only [expandToError, Region.insert, wp_bind, hlen]
  refine h.wp_splice (Nat.le_refl _) ?_ fun ed' w hlaid hlast => ?_
  · rw [List.take_length]
    exact h.tidy.concat (.error [])
  · rw [List.take_length, ← h.length_eq, List.take_length] at hlaid
    rw [← h.length_eq, List.take_length] at hlast
    simp only [wp_get, wp_pure, ← h.length_eq, hlaid.select]
    rw [← closeMenu_of_closed hlaid.menu]
    exact hlaid.run hlast

theorem wp_afterType (h : ed.Laid p ts (vs ++ [v])) (hcaret : v.caret = v.text.length)
    (hne : v.text ≠ []) {post : Bool → Editor Expr → Prop} {fail : EditError → Editor Expr → Prop} :
    wp (afterType vs.length) post fail ed ↔ post false ed := by
  have hlen : 0 < v.text.length := List.length_pos_iff.2 hne
  have hrest : (v.text.drop (v.caret - 1)).length = 1 := by
    rw [List.length_drop, hcaret]
    omega
  have hafter : (v.text.drop (v.caret - 1)).drop 1 = [] := List.drop_eq_nil_iff.2 (by omega)
  have hboundary : ∀ items : List (Item Expr),
      Item.isBoundary items (v.text.drop (v.caret - 1)) 1 = false := by
    intro items
    simp [Item.isBoundary, hrest]
  simp only [afterType, wp_bind, wp_get, h.view]
  rw [if_neg (by omega)]
  simp only [hafter, hboundary]
  simp

theorem typingTarget (h : ed.Laid p (ts ++ [t]) (vs ++ [v])) (hv : LastView vs v t)
    (hcaret : v.caret = v.text.length) : ed.typingTarget vs.length = (vs.length, ed) := by
  have hglue : (v.caret == 0 && v.glue.left) = false := by
    rw [Bool.and_eq_false_iff, beq_eq_false_iff_ne, hcaret, hv.text, hv.glue]
    by_cases ht : t.text {} = []
    · exact .inr ((Tidy.concat_iff.1 h.tidy).2.glue_left ht)
    · exact .inl (by simpa using ht)
  have hview := h.view
  generalize vs.length = n at hview ⊢
  cases n with
  | zero => rfl
  | succ i => simp [Editor.typingTarget, hview, hglue]

theorem shouldComplete (h : ed.Laid p ts vs) {a : Bool} {text : Text} (hu : Gives a text u) :
    ed.shouldComplete tokenItems text = true := by
  obtain ⟨item, hm, -⟩ := matching_of_tokenFor? hu.token
  simp [Editor.shouldComplete, Item.hasSingleMatch, hm, h.menu]

theorem wp_clearSelection (h : ed.Laid p ts vs) {post : Unit → Editor Expr → Prop}
    {fail : EditError → Editor Expr → Prop} : wp clearSelection post fail ed ↔ post () ed := by
  simp only [clearSelection, wp_bind, wp_get, h.selection]
  rfl

/-- A character typed at the end goes into the view of the last token, and is never typed again. -/
theorem wp_typeChar (h : ed.Laid p (ts ++ [t]) (vs ++ [v])) (hv : LastView vs v t)
    (hcaret : v.caret = v.text.length) (hfocus : ed.focus = .token v.id)
    {post : Unit → Editor Expr → Prop} {fail : EditError → Editor Expr → Prop}
    (hstep : ∀ retype, wp (if c = ' ' then typeSpace retype vs.length
      else resolveTyped retype vs.length) post fail (ed.modifyView vs.length (·.insert [c]))) :
    wp (typeChar c) post fail ed := by
  have hindex : ed.focusedIndex? = some vs.length := by
    rw [focusedIndex?, hfocus]
    exact h.viewPosition? hv.unique
  obtain ⟨htext, hend⟩ := hv.insert hcaret c
  have hdrift := h.modifyView (f := (·.insert [c])) rfl
  have hcomment : (ed.tokens[vs.length]?).any Token.isComment = false := by
    rw [h.token]
    exact (Tidy.concat_iff.1 h.tidy).2.isComment
  have heditable : (ed.views[vs.length]?).any View.editable = true := by
    rw [h.view]
    exact hv.editable
  refine wp_typeChar_of_typeWith fun retype => ?_
  simp only [typeWith, wp_bind, h.wp_clearSelection, wp_get, hindex, typeAt, h.typingTarget hv hcaret,
    wp_set, heditable, wp_modify, hcomment, Bool.not_true, Bool.false_eq_true, if_false,
    hdrift.wp_afterType hend (by simp [htext])]
  exact hstep retype

end Laid

namespace Ready

theorem row_iff : Ready p (ts ++ [t]) ed ↔ ∃ vs v, ed.Laid p (ts ++ [t]) (vs ++ [v]) ∧
    LastView vs v t ∧ v.caret = v.text.length ∧ ed.focus = .token v.id := by
  constructor
  case mpr =>
    rintro ⟨vs, v, hlaid, hlast, hcaret, hfocus⟩
    exact .row hlaid hlast hcaret hfocus
  intro h
  generalize hrow : ts ++ [t] = row at h
  cases h with
  | empty => simp at hrow
  | @row _ ts' t' vs v hlaid hlast hcaret hfocus =>
    obtain ⟨rfl, ht⟩ := List.append_inj' hrow rfl
    cases ht
    exact ⟨vs, v, hlaid, hlast, hcaret, hfocus⟩

theorem laid_nil (h : Ready p [] ed) :
    ed.Laid p [] [] ∧ ed.focus = .placeholder ∧ ed.placeholder = [] := by
  generalize hrow : ([] : List (Token Expr)) = row at h
  cases h with
  | empty hlaid hfocus hplaceholder => exact ⟨hlaid, hfocus, hplaceholder⟩
  | row => simp at hrow

variable {ts' : List (Token Expr)}

theorem first (h : Ready p [] ed) (hu : Gives false [c] u) :
    wp (typeChar c) (fun _ ed' => Ready p [u] ed') (fun _ _ => False) ed := by
  obtain ⟨hlaid, hfocus, hplaceholder⟩ := h.laid_nil
  have hindex : ed.focusedIndex? = none := by rw [focusedIndex?, hfocus]
  refine wp_typeChar_of_typeWith fun retype => ?_
  simp only [typeWith, wp_bind, hlaid.wp_clearSelection, wp_get, hindex, typeInPlaceholder, hu.isBlank,
    Bool.false_and, Bool.false_eq_true, if_false, wp_set, hplaceholder, List.nil_append]
  have htyped : ∀ text : Text, Laid p [] [] { ed with placeholder := text } := fun _ => hlaid.aside
  rw [(htyped [c]).typingOffer, (htyped [c]).items_offer, (htyped [c]).shouldComplete hu]
  simp only [if_true, wp_bind, wp_set]
  exact (htyped []).wp_first hu

theorem space (h : Ready p (ts ++ [t]) ed) :
    wp (typeChar ' ') (fun _ ed' => Ready p (ts ++ [t] ++ [.error []]) ed') (fun _ _ => False) ed := by
  obtain ⟨vs, v, hlaid, hlast, hcaret, hfocus⟩ := row_iff.1 h
  refine hlaid.wp_typeChar hlast hcaret hfocus fun retype => ?_
  have hdrift := hlaid.modifyView (f := (·.insert [' '])) rfl
  have hend : (v.insert [' ']).caretAtEnd = true := beq_iff_eq.2 (hlast.insert hcaret ' ').2
  simp only [if_true, typeSpace, wp_bind, wp_get, hdrift.view, hend, Bool.true_or, wp_modify]
  exact (hdrift.modifyView (f := View.eraseBefore) (by unfold View.eraseBefore; split <;> rfl)).wp_gap

theorem grow (h : Ready p (ts ++ [t]) ed) (hu : Gives (endsInName ts) (t.text {} ++ [c]) u) :
    wp (typeChar c) (fun _ ed' => Ready p (ts ++ [u]) ed') (fun _ _ => False) ed := by
  obtain ⟨vs, v, hlaid, hlast, hcaret, hfocus⟩ := row_iff.1 h
  obtain ⟨htext, hend⟩ := hlast.insert hcaret c
  have hdrift := hlaid.modifyView (f := (·.insert [c])) rfl
  have hne := hu.ne_space
  rw [← htext] at hu
  refine hlaid.wp_typeChar hlast hcaret hfocus fun retype => ?_
  simp only [hne, if_false, resolveTyped, wp_bind, wp_get, hdrift.view, hdrift.token, hdrift.typingOffer,
    hdrift.items_offer, hdrift.shouldComplete hu, if_true]
  exact hdrift.wp_grow hend (by simp [htext]) hu

theorem start (h : Ready p (ts ++ [t]) ed) (hv : t.text {} ++ [c] ≠ valueWord)
    (hnone : singleKind? (t.text {} ++ [c]) = none) (hu : Gives (endsInName (ts ++ [t])) [c] u) :
    wp (typeChar c) (fun _ ed' => Ready p (ts ++ [t] ++ [u]) ed') (fun _ _ => False) ed := by
  obtain ⟨vs, v, hlaid, hlast, hcaret, hfocus⟩ := row_iff.1 h
  obtain ⟨htext, hend⟩ := hlast.insert hcaret c
  have hdrift := hlaid.modifyView (f := (·.insert [c])) rfl
  have hmatch := matching_of_none hnone hv
  have hcurrent := (Tidy.concat_iff.1 hlaid.tidy).2.text_eq
  have hne : c ≠ ' ' := Gives.ne_space (s := []) hu
  refine hlaid.wp_typeChar hlast hcaret hfocus fun retype => ?_
  have hfail : (ed.modifyView vs.length (·.insert [c])).shouldComplete tokenItems (v.insert [c]).text =
      false := by
    simp [Editor.shouldComplete, Item.hasSingleMatch, htext, hmatch]
  have hbeside : ((v.insert [c]).caretAtEnd && !Item.hasMatch tokenItems (v.insert [c]).text &&
      (v.insert [c]).text.dropLast == t.text (ed.modifyView vs.length (·.insert [c])).region.cells) =
      true := by
    simp [View.caretAtEnd, hend, Item.hasMatch, htext, hmatch, hcurrent]
  -- the last token gets its own text back, and the character is completed beside it
  have hlastText : (v.insert [c]).text.drop ((v.insert [c]).text.length - 1) = [c] := by simp [htext]
  simp only [hne, if_false, resolveTyped, wp_bind, wp_get, hdrift.view, hdrift.token,
    hdrift.typingOffer, hdrift.items_offer, hfail, hbeside, if_true, Bool.false_eq_true, hlastText]
  have hback := hdrift.modifyView (f := fun w => w.setText (v.insert [c]).text.dropLast
    (v.insert [c]).text.dropLast.length) rfl
  have hinactive : (ed.modifyView vs.length (·.insert [c])).menu.active = false := by
    rw [hdrift.menu]
  obtain ⟨item, hsingle, -⟩ := matching_of_tokenFor? hu.token
  have hhas : Item.hasSingleMatch tokenItems [c] = true := by simp [Item.hasSingleMatch, hsingle]
  simp only [typeBeside, wp_bind, wp_get, hinactive, Bool.false_eq_true, if_false, wp_modify,
    Nat.one_ne_zero, hback.items_offer, hhas, if_true]
  exact hback.wp_start hu

/-- A character typed in the editor does to the row what it does to rows. -/
theorem press (h : Ready p ts ed) (hp : Press ts c ts') :
    wp (typeChar c) (fun _ ed' => Ready p ts' ed') (fun _ _ => False) ed := by
  cases hp with
  | first hu => exact h.first hu
  | space => exact h.space
  | grow hu => exact h.grow hu
  | start hv hnone hu => exact h.start hv hnone hu

/-- What the characters of a text do to rows one after the other, they do in the editor. -/
theorem presses {s : Text} (h : Ready p ts ed) (hp : Presses ts s ts') :
    wp (typeText s) (fun _ ed' => Ready p ts' ed') (fun _ _ => False) ed := by
  induction hp generalizing ed with
  | nil => exact h
  | @cons _ _ _ c cs hc _ ih =>
    show wp (typeChar c >>= fun _ => typeText cs) _ _ ed
    rw [wp_bind]
    exact wp_mono (h.press hc) (fun _ _ hready => ih hready) (fun _ _ hfalse => hfalse)

theorem new (p : Precedence) (cells : Cells) : Ready p [] (Editor.new (language p) cells {}) :=
  .empty ⟨(Region.Reached.new cells rfl rfl).inSync (language_structural p) (language_faithful p), .nil,
    rfl, rfl, by simp, rfl, rfl⟩ rfl rfl

theorem reads {e : Expr} (h : Ready p (ts ++ [t]) ed)
    (he : parse p ed.region.cells (ts ++ [t]) = some e) :
    ed.region.value = some e ∧ ed.region.valid = true := by
  obtain ⟨vs, v, hlaid, -⟩ := row_iff.1 h
  have htokens := hlaid.tokens
  rw [← htokens] at he
  have hne : ed.region.tokens ≠ [] := by simp [htokens]
  refine ⟨(value_of_tidy hlaid.region (htokens ▸ hlaid.tidy) hne he).1,
    hlaid.region.agrees.valid_iff.2 (.inr ?_)⟩
  rw [hlaid.region.settled.language, language_parse, he]
  rfl

theorem caret_last (h : Ready p (ts ++ [t]) ed) :
    ∃ v, ed.focusedView? = some (ts.length, v) ∧ v.text = t.text ed.region.cells ∧
      v.caret = v.text.length := by
  obtain ⟨vs, v, hlaid, hlast, hcaret, hfocus⟩ := row_iff.1 h
  have hindex : ed.focusedIndex? = some vs.length := by
    rw [focusedIndex?, hfocus]
    exact hlaid.viewPosition? hlast.unique
  refine ⟨v, ?_, ?_, hcaret⟩
  · simp only [focusedView?, hindex, hlaid.view]
    rw [← hlaid.length_init]
    rfl
  · rw [(Tidy.concat_iff.1 hlaid.tidy).2.text_eq, hlast.text]

end Ready

/-- Typing what a canonical expression displays, with words for names and without texts, rebuilds it:
the row is its print and reads as the expression, and the caret is at the end. -/
theorem typing_rebuilds (p : Precedence) (cells : Cells) (e : Expr) (hcanon : e.Canonical p)
    (htyp : e.Typable) :
    ∃ ed, typeText (e.display cells) (Editor.new (language p) cells {}) = .ok () ed ∧
      ed.tokens = ((language p).printed cells e).tokens ∧
      ed.region.value = some e ∧ ed.region.valid = true ∧ ed.menu.active = false ∧
      ∃ t v, ed.tokens.getLast? = some t ∧ ed.focusedView? = some (ed.tokens.length - 1, v) ∧
        v.text = t.text ed.region.cells ∧ v.caret = v.text.length := by
  have hkeys : Presses [] (e.display cells) e.row := .display htyp hcanon .nil
  have hrun := (Ready.new p cells).presses hkeys
  obtain ⟨ts, t, hrow, -⟩ := exists_concat_row htyp
  rw [hrow] at hrun
  unfold wp at hrun
  split at hrun
  case h_2 => exact hrun.elim
  case h_1 _ ed hed =>
    obtain ⟨vs, v, hlaid, -⟩ := Ready.row_iff.1 hrun
    have htokens : ed.tokens = ts ++ [t] := hlaid.tokens
    obtain ⟨hvalue, hvalid⟩ := hrun.reads (hrow ▸ parse_row ed.region.cells hcanon)
    obtain ⟨v, hfocused, htext, hcaret⟩ := hrun.caret_last
    refine ⟨ed, hed, ?_, hvalue, hvalid, by rw [hlaid.menu], t, v, ?_, ?_, htext, hcaret⟩
    · rw [htokens, printed_tokens, hrow]
    · simp [htokens]
    · simpa [htokens] using hfocused

theorem typing_rebuilds_sum :
    ∃ ed, typeText ['f', '(', 'x', ')', ' ', '+', ' ', '1', '2', '.', 'y', '+', '+']
        (Editor.new (language {}) {} {}) = .ok () ed ∧
      ed.region.value =
        some (.plus (.callWith ['f'] (.var ['x'])) (.inc (.field (.int 12) ['y']))) := by
  obtain ⟨ed, hed, -, hvalue, -⟩ := typing_rebuilds {} {}
    (.plus (.callWith ['f'] (.var ['x'])) (.inc (.field (.int 12) ['y']))) (by decide) (by decide)
  exact ⟨ed, hed, hvalue⟩

end Editor

end TokenEditor
