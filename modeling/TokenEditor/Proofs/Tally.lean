import TokenEditor.Proofs.Delivery
import TokenEditor.Proofs.Notices

/-! # Counting listeners

How many listeners a cell has, as regions subscribe to it and leave. A region gives up exactly the
subscriptions that it holds, however often it watches one cell: their listeners have numbers of
their own, and the numbers are never used again. -/

namespace TokenEditor

namespace Cells
variable {a b : Cells} {s : Subscription} {ss : List Subscription} {cs : List CellId}

/-- The listeners of every cell are numbered. -/
def Numbered (cells : Cells) : Prop :=
  ∀ cell ∈ cells.entries, cell.listeners.Numbered

theorem Numbered.subscribe (h : a.Numbered) (c : CellId) : (a.subscribe c).2.Numbered := by
  unfold Cells.subscribe
  split
  · exact h
  · rename_i old hold
    intro cell hcell
    rcases List.mem_or_eq_of_mem_set hcell with hcell | rfl
    · exact h cell hcell
    · exact (h old (List.mem_of_getElem? hold)).subscribe ()

theorem Numbered.subscribeAll (h : a.Numbered) (cs : List CellId) :
    (a.subscribeAll cs).2.Numbered := by
  induction cs generalizing a with
  | nil => exact h
  | cons c cs ih => exact ih (h.subscribe c)

theorem Numbered.unsubscribe (h : a.Numbered) (s : Subscription) : (a.unsubscribe s).Numbered := by
  intro cell hcell
  obtain ⟨i, hi⟩ := List.mem_iff_getElem?.1 hcell
  rw [Cells.unsubscribe, List.getElem?_modify] at hi
  obtain ⟨old, hold, rfl⟩ := Option.map_eq_some_iff.1 hi
  have hnum := h old (List.mem_of_getElem? hold)
  split
  · exact hnum.unsubscribe s.id
  · exact hnum

theorem Numbered.unsubscribeAll (h : a.Numbered) (ss : List Subscription) :
    (a.unsubscribeAll ss).Numbered := by
  induction ss generalizing a with
  | nil => exact h
  | cons s ss ih => exact ih (h.unsubscribe s)

theorem Numbered.adds (h : a.Numbered) (hadds : a.Adds b) : b.Numbered := by
  obtain ⟨new, hb, hnew⟩ := hadds
  intro cell hcell
  rw [hb] at hcell
  rcases List.mem_append.1 hcell with hcell | hcell
  · exact h cell hcell
  · have hempty := hnew cell hcell
    constructor <;> simp [hempty]

theorem Numbered.setText (h : a.Numbered) (c : CellId) (t : Text) : (a.setText c t).Numbered := by
  intro cell hcell
  obtain ⟨i, hi⟩ := List.mem_iff_getElem?.1 hcell
  rw [Cells.setText, List.getElem?_modify] at hi
  obtain ⟨old, hold, rfl⟩ := Option.map_eq_some_iff.1 hi
  have hnum := h old (List.mem_of_getElem? hold)
  split <;> exact hnum

/-! ### How many listen -/

theorem listenerCount_subscribe {c : CellId} (hc : a.Has [c]) (x : CellId) :
    (a.subscribe c).2.listenerCount x = a.listenerCount x + [c].count x := by
  have hlt : c < a.entries.length := hc c (by simp)
  by_cases hx : x = c
  · subst hx
    simp [subscribe, listenerCount, hlt]
  · simp [subscribe, listenerCount, hlt, Ne.symm hx]

theorem listenerCount_subscribeAll (hcs : a.Has cs) (x : CellId) :
    (a.subscribeAll cs).2.listenerCount x = a.listenerCount x + cs.count x := by
  induction cs generalizing a with
  | nil => rfl
  | cons c cs ih =>
    obtain ⟨hc, hrest⟩ := has_append.1 (show a.Has ([c] ++ cs) from hcs)
    have hkeeps : a.Keeps (a.subscribe c).2 := .of_texts (texts_subscribe a c)
    calc (a.subscribeAll (c :: cs)).2.listenerCount x
        = (a.subscribe c).2.listenerCount x + cs.count x := ih (hkeeps.has hrest)
      _ = a.listenerCount x + [c].count x + cs.count x := by rw [listenerCount_subscribe hc]
      _ = a.listenerCount x + ([c] ++ cs).count x := by rw [List.count_append, Nat.add_assoc]

theorem Numbered.listenerCount_unsubscribe (h : a.Numbered) (hs : a.Heard s) (x : CellId) :
    (a.unsubscribe s).listenerCount x + [s.cell].count x = a.listenerCount x := by
  obtain ⟨cell, hcell, -, hmem⟩ := hs
  have hcount := (h cell (List.mem_of_getElem? hcell)).count_unsubscribe hmem
  by_cases hx : s.cell = x
  · subst hx
    simpa [Cells.unsubscribe, listenerCount, hcell] using hcount
  · simp [Cells.unsubscribe, listenerCount, hx]

theorem Numbered.listenerCount_unsubscribeAll (h : a.Numbered) (hss : ∀ s ∈ ss, a.Heard s)
    (hnodup : ss.Nodup) (x : CellId) :
    (a.unsubscribeAll ss).listenerCount x + (ss.map Subscription.cell).count x =
      a.listenerCount x := by
  induction ss generalizing a with
  | nil => rfl
  | cons s ss ih =>
    obtain ⟨hs, hss⟩ := List.forall_mem_cons.1 hss
    obtain ⟨hnew, hnodup⟩ := List.nodup_cons.1 hnodup
    have hrest := ih (h.unsubscribe s)
      (fun o ho => (hss o ho).unsubscribe (by rintro rfl; exact hnew ho)) hnodup
    have hone := h.listenerCount_unsubscribe hs x
    have hcount : ((s :: ss).map Subscription.cell).count x =
        [s.cell].count x + (ss.map Subscription.cell).count x := by
      rw [List.map_cons, ← List.singleton_append, List.count_append]
    rw [hcount]
    simp only [Cells.unsubscribeAll, List.foldl_cons] at hrest ⊢
    omega

theorem listenerCount_adds (h : a.Adds b) (x : CellId) : b.listenerCount x = a.listenerCount x := by
  obtain ⟨new, hb, hnew⟩ := h
  rw [listenerCount, listenerCount, hb]
  by_cases hx : x < a.entries.length
  · rw [List.getElem?_append_left hx]
  · have hx := Nat.le_of_not_lt hx
    rw [List.getElem?_append_right hx, List.getElem?_eq_none hx]
    split
    · rename_i cell hcell
      simp [Listeners.count, hnew cell (List.mem_of_getElem? hcell)]
    · rfl

theorem listenerCount_setText (a : Cells) (c : CellId) (t : Text) (x : CellId) :
    (a.setText c t).listenerCount x = a.listenerCount x := by
  simp only [listenerCount, Cells.setText, List.getElem?_modify]
  by_cases hx : c = x
  · cases a.entries[x]? <;> simp [hx]
  · cases a.entries[x]? <;> simp [hx]

theorem listenerCount_of_not_has {x : CellId} (h : ¬ a.Has [x]) : a.listenerCount x = 0 := by
  have hx : a.entries.length ≤ x := by simpa [Has] using h
  rw [listenerCount, List.getElem?_eq_none hx]

theorem nodup_subscribeAll (hcs : a.Has cs) : (a.subscribeAll cs).1.Nodup := by
  induction cs generalizing a with
  | nil => exact .nil
  | cons c cs ih =>
    obtain ⟨hc, hrest⟩ := has_append.1 (show a.Has ([c] ++ cs) from hcs)
    have hkeeps : a.Keeps (a.subscribe c).2 := .of_texts (texts_subscribe a c)
    have hrest := hkeeps.has hrest
    refine List.nodup_cons.2 ⟨fun hmem => ?_, ih hrest⟩
    exact (heard_subscribeAll hrest hmem).2 _ (heard_subscribe hc) rfl

/-- The subscriptions stand, and the listeners are those of `base` and one for each of them. -/
structure Tallied (base cells : Cells) (ss : List Subscription) : Prop where
  numbered : cells.Numbered
  heard : ∀ s ∈ ss, cells.Heard s
  distinct : ss.Nodup
  count : ∀ x, cells.listenerCount x =
    base.listenerCount x + (ss.map Subscription.cell).count x

namespace Tallied
variable {base cells after : Cells}

theorem nil (h : cells.Numbered) : cells.Tallied cells [] :=
  ⟨h, by simp, .nil, fun _ => rfl⟩

theorem release (h : base.Tallied cells ss) : base.Tallied (cells.unsubscribeAll ss) [] := by
  refine ⟨h.numbered.unsubscribeAll ss, by simp, .nil, fun x => ?_⟩
  have hleft := h.numbered.listenerCount_unsubscribeAll h.heard h.distinct x
  have hall := h.count x
  simp only [List.map_nil, List.count_nil]
  omega

/-- The new subscriptions are made before the old ones are given up. -/
theorem watch (h : base.Tallied cells ss) (hcs : cells.Has cs) :
    base.Tallied ((cells.subscribeAll cs).2.unsubscribeAll ss) (cells.subscribeAll cs).1 := by
  have hnum := h.numbered.subscribeAll cs
  have hold : ∀ s ∈ ss, (cells.subscribeAll cs).2.Heard s :=
    fun s hs => (h.heard s hs).subscribeAll cs
  refine ⟨hnum.unsubscribeAll ss, fun s hs => ?_, nodup_subscribeAll hcs, fun x => ?_⟩
  · obtain ⟨hheard, hfresh⟩ := heard_subscribeAll hcs hs
    exact hheard.unsubscribeAll fun o ho => hfresh o (h.heard o ho)
  · have hleft := hnum.listenerCount_unsubscribeAll hold h.distinct x
    have hmade := listenerCount_subscribeAll hcs x
    have hall := h.count x
    rw [map_cell_subscribeAll]
    omega

theorem adds (h : base.Tallied cells ss) (hadds : cells.Adds after) : base.Tallied after ss := by
  refine ⟨h.numbered.adds hadds, fun s hs => ?_, h.distinct, fun x => ?_⟩
  · obtain ⟨new, hafter, -⟩ := hadds
    exact (h.heard s hs).of_append hafter
  · rw [listenerCount_adds hadds, h.count]

theorem setText (h : base.Tallied cells ss) (c : CellId) (t : Text) :
    base.Tallied (cells.setText c t) ss :=
  ⟨h.numbered.setText c t, fun s hs => (h.heard s hs).setText c t, h.distinct, fun x => by
    rw [listenerCount_setText, h.count]⟩

end Tallied

end Cells

namespace Region
variable {V : Type} [Payload V] {r r' : Region V} {base cells : Cells}

/-- What a host has at hand: linear languages, and what uses cells of the store. -/
def stock (cells : Cells) : Supply V where
  token t := cells.Has t.cellsOf
  value v := cells.Has (Payload.cellsOf v)
  language l := l.Linear

/-- The language is linear, and all cells are in the store. -/
structure Stocked (r : Region V) : Prop where
  language : r.language.Linear
  row : r.cells.Has (rowCells r.tokens)
  value : ∀ v, r.value = some v → r.cells.Has (Payload.cellsOf v)
  printed : r.cells.Has (rowCells (r.printed.getD []))

namespace Stocked

theorem grow (h : r.Stocked) (hk : r.cells.entries.length ≤ r'.cells.entries.length)
    (hl : r'.language = r.language) (ht : r'.tokens = r.tokens) (hv : r'.value = r.value)
    (hp : r'.printed = r.printed) : r'.Stocked := by
  have hhas : ∀ {cs : List CellId}, r.cells.Has cs → r'.cells.Has cs :=
    fun hcs c hc => Nat.lt_of_lt_of_le (hcs c hc) hk
  exact ⟨hl ▸ h.language, ht ▸ hhas h.row, fun v hv' => hhas (h.value v (hv ▸ hv')),
    hp ▸ hhas h.printed⟩

theorem has_watched (h : r.Stocked) {v : V} (hv : r.value = some v) :
    r.cells.Has (r.language.printed r.cells v).watched := by
  rw [h.language.print_watched]
  exact h.value v hv

theorem reprint (h : r.Stocked) : r.reprint.Stocked := by
  have hr := reread_reprint r
  refine ⟨hr.language ▸ h.language, hr.tokens ▸ hr.cells.has h.row,
    fun v hv => hr.cells.has (h.value v (by rwa [value_reprint] at hv)), ?_⟩
  cases hv : r.value with
  | none =>
    rw [(reprint_none hv).2.1]
    exact Cells.has_nil
  | some v =>
    rw [(reprint_some hv).2.1, Option.getD_some, h.language.print_cells]
    exact hr.cells.has (h.value v hv)

theorem change [LawfulPayload V] (h : r.Stocked) (hc : Change (stock cells) r r')
    (hlen : cells.entries.length ≤ r.cells.entries.length) :
    r.cells.entries.length ≤ r'.cells.entries.length ∧ r'.Stocked := by
  have hbring : ∀ {cs : List CellId}, cells.Has cs → r.cells.Has cs :=
    fun hcs c hc => Nat.lt_of_lt_of_le (hcs c hc) hlen
  obtain ⟨hcopy, -⟩ := copied_spec h.row
  have hle := hcopy.keeps.length_le
  cases hc with
  | splice _ _ hnew =>
    refine ⟨Nat.le_refl _, h.language, has_rowCells.2 fun t ht => ?_, h.value, h.printed⟩
    rcases mem_spliced ht with ht | ht
    · exact has_rowCells.1 h.row t ht
    · rcases hnew t ht with ht | ht
      · exact hbring ht
      · exact has_rowCells.1 h.printed t ht
  | reprint => exact ⟨(reread_reprint r).cells.length_le, h.reprint⟩
  | empty =>
    have hd : r.dispose.Stocked := h.grow r.keeps_dispose.length_le rfl rfl rfl rfl
    exact ⟨r.keeps_dispose.length_le, hd.language, hd.row, by rintro v ⟨⟩, Cells.has_nil⟩
  | refuse =>
    have hgrown : Stocked { r with cells := r.copied.2 } := h.grow hle rfl rfl rfl rfl
    exact ⟨hle, hgrown.language, hgrown.row, hgrown.value, Cells.has_nil⟩
  | take hv =>
    have hgrown : Stocked { r with cells := r.copied.2 } := h.grow hle rfl rfl rfl rfl
    refine ⟨hle, hgrown.language, hgrown.row, ?_, hgrown.printed⟩
    rintro w ⟨⟩
    rw [h.language.parse_cells hv]
    exact hcopy.has
  | setValue hv =>
    exact ⟨Nat.le_refl _, h.language, h.row, fun w hw => hbring (hv w hw), h.printed⟩
  | setLanguage hl => exact ⟨Nat.le_refl _, hl, h.row, h.value, h.printed⟩
  | flag => exact ⟨Nat.le_refl _, h.language, h.row, h.value, h.printed⟩
  | calm => exact ⟨Nat.le_refl _, h.language, h.row, h.value, h.printed⟩
  | dispose => exact ⟨r.keeps_dispose.length_le, h.grow r.keeps_dispose.length_le rfl rfl rfl rfl⟩

end Stocked

/-- The region's subscriptions are all it has added to the listeners of `base`, and there are none
for a print without tokens. -/
structure Accounted (base : Cells) (r : Region V) : Prop where
  tally : base.Tallied r.cells r.subscriptions
  bare : r.printed = some [] → r.subscriptions = []

namespace Accounted

theorem reprint (h : r.Accounted base) (hs : r.Stocked) : r.reprint.Accounted base := by
  unfold Region.reprint
  split
  · rename_i v hv
    refine ⟨h.tally.watch (hs.has_watched hv), fun hbare => ?_⟩
    -- a print without tokens has no cells, and watches none
    have htokens : (r.language.printed r.cells v).tokens = [] := Option.some.inj hbare
    have hwatched : (r.language.printed r.cells v).watched = [] := by
      rw [hs.language.print_watched, ← hs.language.print_cells r.cells, htokens]
      rfl
    show (r.cells.subscribeAll (r.language.printed r.cells v).watched).1 = []
    rw [hwatched]
    rfl
  · exact ⟨h.tally.release, fun _ => rfl⟩

theorem change [QuietPayload V] {S : Supply V} (h : r.Accounted base) (hs : r.Stocked)
    (hc : Change S r r') : r'.Accounted base := by
  have hcopied : base.Tallied r.copied.2 r.subscriptions :=
    h.tally.adds (Token.detachAll_adds r.tokens r.cells)
  cases hc with
  | reprint => exact h.reprint hs
  | empty => exact ⟨h.tally.release, fun _ => rfl⟩
  | refuse => exact ⟨hcopied, by rintro ⟨⟩⟩
  | take => exact ⟨hcopied, h.bare⟩
  | dispose => exact ⟨h.tally.release, fun _ => rfl⟩
  | _ => exact ⟨h.tally, h.bare⟩

end Accounted

/-- The store has not lost a cell, and region and listeners are in order. -/
structure Audited (base cells : Cells) (r : Region V) : Prop where
  length_le : cells.entries.length ≤ r.cells.entries.length
  stocked : r.Stocked
  accounted : r.Accounted base

theorem Audited.change [LawfulPayload V] [QuietPayload V] (h : r.Audited base cells)
    (hc : Change (stock cells) r r') : r'.Audited base cells := by
  obtain ⟨hle, hstocked⟩ := h.stocked.change hc h.length_le
  exact ⟨Nat.le_trans h.length_le hle, hstocked, h.accounted.change h.stocked hc⟩

theorem Audited.call [LawfulPayload V] [QuietPayload V] {c : Call V} (hc : c.Within (stock r.cells))
    (h : r.Audited base cells) : (r.after c.run).Audited base r.cells := by
  refine Call.invariant (I := Audited base r.cells) hc (fun hchange h => h.change hchange) ?_ ?_
    ⟨Nat.le_refl _, h.stocked, h.accounted⟩
  · intro r₁ texts h₁
    have hgrow : r₁.cells.entries.length ≤ (r₁.makeCells texts).cells.entries.length := by
      simp [makeCells]
    exact ⟨Nat.le_trans h₁.length_le hgrow, h₁.stocked.grow hgrow rfl rfl rfl rfl,
      h₁.accounted.tally.adds (Cells.adds_texts _ texts), h₁.accounted.bare⟩
  · intro r₁ x t h₁
    have hsame : r₁.cells.entries.length ≤ (r₁.setCellText x t).cells.entries.length := by
      simp [setCellText, Cells.setText]
    exact ⟨Nat.le_trans h₁.length_le hsame, h₁.stocked.grow hsame rfl rfl rfl rfl,
      h₁.accounted.tally.setText x t, h₁.accounted.bare⟩

end Region

end TokenEditor
