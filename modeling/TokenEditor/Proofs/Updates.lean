import TokenEditor.Proofs.Watching

/-! # What becomes of a changed text

The language reads copies of the tokens, so a token and the value read from it show the same text in
different cells, until a print of the value takes the place of the row. `updates_survive_iff` says
exactly when a change of the text in the value outlasts further edits: it is carried into the row
when the change is processed before the row is read again. A row that is read first overwrites the
change with what the token shows, and the region no longer knows of it. -/

namespace TokenEditor

theorem Cells.text_setText {cells : Cells} {d : CellId} (hd : cells.Has [d]) (c : CellId) (t : Text) :
    (cells.setText d t).text c = if c = d then t else cells.text c := by
  have hlt : d < cells.entries.length := hd d (by simp)
  simp only [text, setText, List.getElem?_modify]
  by_cases hc : c = d
  · subst hc
    simp [hlt]
  · rw [if_neg hc]
    cases cells.entries[c]? <;> simp [Ne.symm hc]

namespace Region
variable {V : Type} [Payload V]

/-- The splice that an edit of the row comes to. -/
def Op.splice? : Op V → Option (Nat × Nat × List (Token V))
  | insert index t => some (index, index, [t])
  | remove index => some (index, index + 1, [])
  | replace index t => some (index, index + 1, [t])
  | splice start stop ts => some (start, stop, ts)
  | _ => none

/-- The edit changes the row into one that reads. -/
def Op.reads (op : Op V) (r : Region V) : Bool :=
  match op.splice? with
  | some (start, stop, _) => start ≤ stop && stop ≤ r.tokens.length && (r.after op.run).valid
  | none => false

/-- A cell of a token: its place among the cells of the row, and the place among the cells of the
value at which the value shows it. -/
structure Slot where
  row : Nat
  value : Nat
deriving DecidableEq, Repr

/-- Where a place among the cells of the row gets to when the row is spliced, unless its token is
replaced. -/
def shift? (tokens : List (Token V)) (start stop : Nat) (new : List (Token V)) (place : Nat) :
    Option Nat :=
  let before := (rowCells (tokens.take start)).length
  let upTo := (rowCells (tokens.take stop)).length
  if place < before then some place
  else if upTo ≤ place then some (before + (rowCells new).length + (place - upTo))
  else none

/-- Where a cell gets to in an edit that keeps its token, or when changes are processed. -/
def Slot.through? (slot : Slot) (op : Op V) (r : Region V) : Option Slot :=
  match op.splice? with
  | some (start, stop, new) =>
    if start ≤ stop ∧ stop ≤ r.tokens.length then
      (shift? r.tokens start stop new slot.row).map fun row =>
        ⟨row, if op.reads r then row else slot.value⟩
    else some slot
  | none =>
    match op with
    | .processChanges => some (if r.stale then ⟨slot.value, slot.value⟩ else slot)
    | _ => none

/-- A step of the host: a call, or the making of cells for new tokens. -/
inductive Step (V : Type) where
  | call (op : Op V)
  | makeCells (texts : List Text)

namespace Step

/-- Take the steps one after the other and follow a cell; nothing if its token does not stay in the
row, or if a step brings in a token with a cell outside the store. -/
def follow? : List (Step V) → Region V → Slot → Option (Region V × Slot)
  | [], r, slot => some (r, slot)
  | makeCells texts :: ss, r, slot => follow? ss (r.makeCells texts) slot
  | call op :: ss, r, slot =>
    if ∀ c ∈ rowCells op.tokens, c < r.cells.entries.length then
      (slot.through? op r).bind (follow? ss (r.after op.run))
    else none

/-- Changes are processed before the row is read again. -/
def processedFirst : List (Step V) → Region V → Bool
  | [], _ => false
  | makeCells texts :: ss, r => processedFirst ss (r.makeCells texts)
  | call .processChanges :: _, _ => true
  | call op :: ss, r => !op.reads r && processedFirst ss (r.after op.run)

/-- Some step processes changes. -/
def processes : List (Step V) → Bool
  | [] => false
  | call .processChanges :: _ => true
  | _ :: ss => processes ss

end Step

/-- The row shows the text in the slot. -/
def RowShows (r : Region V) (place : Nat) (t : Text) : Prop :=
  ∃ c, (rowCells r.tokens)[place]? = some c ∧ r.cells.text c = t

/-- The value shows the text in the slot. -/
def ValueShows (r : Region V) (place : Nat) (t : Text) : Prop :=
  ∃ v c, r.value = some v ∧ (Payload.cellsOf v)[place]? = some c ∧ r.cells.text c = t

variable {l : Language V} {r r' : Region V} {place place' start stop : Nat} {new : List (Token V)}
  {slot slot' : Slot} {t u : Text} {op : Op V}

theorem getElem?_shift (h : shift? r.tokens start stop new place = some place') :
    (rowCells (r.tokens.take start ++ new ++ r.tokens.drop stop))[place']? =
      (rowCells r.tokens)[place]? := by
  simp only [shift?] at h
  rw [rowCells_append, rowCells_append]
  split_ifs at h with hbefore hupTo
  · cases h
    have hrow : rowCells r.tokens = rowCells (r.tokens.take start) ++ rowCells (r.tokens.drop start) := by
      rw [← rowCells_append, List.take_append_drop]
    rw [hrow, List.append_assoc, List.getElem?_append_left hbefore, List.getElem?_append_left hbefore]
  · cases h
    have hrow : rowCells r.tokens = rowCells (r.tokens.take stop) ++ rowCells (r.tokens.drop stop) := by
      rw [← rowCells_append, List.take_append_drop]
    rw [hrow, List.getElem?_append_right hupTo,
      List.getElem?_append_right (by rw [List.length_append]; omega), List.length_append,
      Nat.add_sub_cancel_left]

theorem RowShows.of_keeps (h : r.RowShows place t) (hs : r.cells.Has (rowCells r.tokens))
    (hk : r.cells.Keeps r'.cells)
    (hcell : (rowCells r'.tokens)[place']? = (rowCells r.tokens)[place]?) : r'.RowShows place' t := by
  obtain ⟨c, hc, ht⟩ := h
  exact ⟨c, hcell.trans hc, (hk.text_eq c (hs c (List.mem_of_getElem? hc))).trans ht⟩

theorem ValueShows.of_keeps (h : r.ValueShows place t)
    (hs : ∀ v, r.value = some v → r.cells.Has (Payload.cellsOf v)) (hk : r.cells.Keeps r'.cells)
    (hvalue : r'.value = r.value) : r'.ValueShows place t := by
  obtain ⟨v, c, hv, hc, ht⟩ := h
  exact ⟨v, c, hvalue.trans hv, hc, (hk.text_eq c (hs v hv c (List.mem_of_getElem? hc))).trans ht⟩

/-- An edit of the row ends as the splice does that it comes to. -/
theorem after_eq_splice (h : op.splice? = some (start, stop, new)) (r : Region V) :
    r.after op.run = r.after (splice start stop new) := by
  have outside : ∀ {index : Nat} {ts : List (Token V)}, r.tokens[index]? = none →
      r.after (splice index (index + 1) ts) = r := by
    intro index ts hnone
    have hlen := List.getElem?_eq_none_iff.1 hnone
    refine (after_iff (P := fun r' => r' = r)).2 (wp_splice.2 ?_)
    rw [if_pos (by omega)]
  cases op with
  | insert index t => cases h; rfl
  | splice start stop ts => cases h; rfl
  | remove index =>
    cases h
    refine (after_iff (P := fun r' => r' = r.after (splice start (start + 1) []))).2 ?_
    simp only [Op.run, wp_discard, Region.remove, wp_bind, wp_pure, wp_tokenAt]
    cases hget : r.tokens[start]? with
    | none => exact (outside hget).symm
    | some t => exact after_iff.1 rfl
  | replace index t =>
    cases h
    refine (after_iff (P := fun r' => r' = r.after (splice start (start + 1) [t]))).2 ?_
    simp only [Op.run, wp_discard, wp_replace]
    cases hget : r.tokens[start]? with
    | none => exact (outside hget).symm
    | some t => exact after_iff.1 rfl
  | _ => cases h

omit [Payload V] in
theorem tokens_of_splice? (h : op.splice? = some (start, stop, new)) : op.tokens = new := by
  cases op <;> cases h <;> rfl

section
variable [LawfulPayload V] (hl : l.Linear)
include hl

/-- What an edit does that keeps a token: if the row does not read it leaves the value alone, and if
it reads the value shows what the token shows. -/
theorem Watchful.follow_edit (h : r.Watchful l) (hshows : r.RowShows slot.row u)
    (hop : op.splice? = some (start, stop, new)) (hnew : r.cells.Has (rowCells op.tokens))
    (hslot : slot.through? op r = some slot') :
    (r.after op.run).Watchful l ∧ (r.after op.run).RowShows slot'.row u ∧
      if op.reads r then (r.after op.run).stale = false ∧ (r.after op.run).ValueShows slot'.value u
      else (r.after op.run).stale = r.stale ∧
        ∀ t, r.ValueShows slot.value t → (r.after op.run).ValueShows slot'.value t := by
  rw [tokens_of_splice? hop] at hnew
  obtain ⟨hwatchful, hspec⟩ := after_iff.2 (h.splice hl hnew)
  rw [← after_eq_splice hop r] at hwatchful hspec
  refine ⟨hwatchful, ?_⟩
  have hreads : op.reads r = (start ≤ stop && stop ≤ r.tokens.length && (r.after op.run).valid) := by
    rw [Op.reads, hop]
  simp only [Slot.through?, hop] at hslot
  by_cases hin : start ≤ stop ∧ stop ≤ r.tokens.length
  · rw [if_pos hin] at hslot
    rw [if_neg (by omega)] at hspec
    obtain ⟨htokens, hkeeps, hread⟩ := hspec
    obtain ⟨row, hshift, rfl⟩ := Option.map_eq_some_iff.1 hslot
    have hcell := getElem?_shift hshift
    rw [← htokens] at hcell
    have hrow : (r.after op.run).RowShows row u := hshows.of_keeps h.sound.row hkeeps hcell
    refine ⟨hrow, ?_⟩
    simp only [hin, decide_true, Bool.and_self, Bool.true_and] at hreads
    cases hread with
    | empty ht =>
      have hnil : (r.after op.run).tokens = [] := htokens.trans ht
      obtain ⟨c, hc, -⟩ := hrow
      simp [hnil, rowCells] at hc
    | refused hvalid hvalue hstale =>
      rw [hvalid] at hreads
      simp only [hreads, Bool.false_eq_true, if_false]
      exact ⟨hstale, fun t ht => ht.of_keeps h.sound.value hkeeps hvalue⟩
    | @took v hvalid hstale hvalue htexts =>
      rw [hvalid] at hreads
      simp only [hreads, if_true]
      refine ⟨hstale, ?_⟩
      -- the value shows, place by place, what the row shows
      obtain ⟨c, hc, hu⟩ := hrow
      have hplace := congrArg (fun ts => ts[row]?) htexts
      rw [htokens] at hc
      simp only [List.getElem?_map, spliced, hc, Option.map_some] at hplace
      obtain ⟨d, hd, htext⟩ := Option.map_eq_some_iff.1 hplace
      exact ⟨v, d, hvalue, hd, htext.trans hu⟩
  · rw [if_neg hin] at hslot
    rw [if_pos (by omega)] at hspec
    cases hslot
    have hfalse : op.reads r = false := by
      rw [hreads]
      simp
      omega
    rw [hspec, hfalse]
    exact ⟨hshows, by simp⟩

end

/-! ### Following a change -/

/-- The value has changed to `t` in the slot, which is still to be processed; the row shows `u`. -/
structure Pending (l : Language V) (slot : Slot) (t u : Text) (r : Region V) : Prop where
  watchful : r.Watchful l
  stale : r.stale = true
  value : r.ValueShows slot.value t
  row : r.RowShows slot.row u

/-- There is nothing to process, and row and value show `u` in the slot. -/
structure Shown (l : Language V) (slot : Slot) (u : Text) (r : Region V) : Prop where
  watchful : r.Watchful l
  fresh : r.stale = false
  value : r.ValueShows slot.value u
  row : r.RowShows slot.row u

theorem Slot.through?_cases (h : slot.through? op r = some slot') :
    (∃ start stop new, op.splice? = some (start, stop, new)) ∨ op = .processChanges := by
  cases op <;> simp_all [through?, Op.splice?]

theorem Step.processedFirst_edit (hop : op.splice? = some (start, stop, new)) (ss : List (Step V))
    (r : Region V) :
    processedFirst (call op :: ss) r = (!op.reads r && processedFirst ss (r.after op.run)) ∧
      processes (call op :: ss) = processes ss := by
  cases op <;> cases hop <;> exact ⟨rfl, rfl⟩

namespace Shown

theorem makeCells (h : r.Shown l slot u) (texts : List Text) : (r.makeCells texts).Shown l slot u := by
  have hs := h.watchful.sound
  have hk : r.cells.Keeps (r.makeCells texts).cells := .of_append rfl
  exact ⟨h.watchful.makeCells texts, h.fresh, h.value.of_keeps hs.value hk rfl,
    h.row.of_keeps hs.row hk rfl⟩

theorem process (hl : l.Linear) (h : r.Shown l slot u)
    (hslot : slot.through? .processChanges r = some slot') :
    (r.after (Op.run .processChanges)).Shown l slot' u := by
  have hspec : r.after (Op.run .processChanges) = r := by
    refine (after_iff (P := fun r' => r' = r)).2 ((wp_discard _).2 ?_)
    refine wp_mono (h.watchful.processChanges hl) (fun _ r' h' => ?_) (fun _ _ h => h.elim)
    simpa [h.fresh] using h'.2
  simp only [Slot.through?, Op.splice?, h.fresh] at hslot
  cases hslot
  rw [hspec]
  exact h

variable [LawfulPayload V]

theorem follow (hl : l.Linear) {ss : List (Step V)} (h : r.Shown l slot u)
    (hf : Step.follow? ss r slot = some (r', slot')) : r'.Shown l slot' u := by
  induction ss generalizing r slot with
  | nil =>
    cases hf
    exact h
  | cons s ss ih =>
    cases s with
    | makeCells texts => exact ih (h.makeCells texts) hf
    | call op =>
      simp only [Step.follow?] at hf
      split_ifs at hf with hnew
      obtain ⟨slot₁, hslot, hf⟩ := Option.bind_eq_some_iff.1 hf
      rcases Slot.through?_cases hslot with ⟨start, stop, new, hop⟩ | rfl
      · obtain ⟨hw, hrow, hvalue⟩ := h.watchful.follow_edit hl h.row hop hnew hslot
        refine ih ?_ hf
        split_ifs at hvalue
        · exact ⟨hw, hvalue.1, hvalue.2, hrow⟩
        · exact ⟨hw, hvalue.1.trans h.fresh, hvalue.2 u h.value, hrow⟩
      · exact ih (h.process hl hslot) hf

end Shown

namespace Pending

theorem makeCells (h : r.Pending l slot t u) (texts : List Text) :
    (r.makeCells texts).Pending l slot t u := by
  have hs := h.watchful.sound
  have hk : r.cells.Keeps (r.makeCells texts).cells := .of_append rfl
  exact ⟨h.watchful.makeCells texts, h.stale, h.value.of_keeps hs.value hk rfl,
    h.row.of_keeps hs.row hk rfl⟩

/-- Processing puts the print of the value, with its cells, in the place of the row. -/
theorem process (hl : l.Linear) (h : r.Pending l slot t u)
    (hslot : slot.through? .processChanges r = some slot') :
    (r.after (Op.run .processChanges)).Shown l slot' t := by
  simp only [Slot.through?, Op.splice?, h.stale] at hslot
  cases hslot
  refine (after_iff (P := fun r' => r'.Shown l ⟨slot.value, slot.value⟩ t)).2 ((wp_discard _).2 ?_)
  refine wp_mono (h.watchful.processChanges hl) (fun _ r' h' => ?_) (fun _ _ h => h.elim)
  obtain ⟨hw, hr'⟩ := h'
  rw [if_pos h.stale] at hr'
  let r₁ : Region V := ({ r with stale := false } : Region V).underSync
  obtain ⟨v, c, hv, hc, ht⟩ := h.value
  have hv₁ : r₁.value = some v := hv
  obtain ⟨-, hprinted, hfresh⟩ := reprint_some hv₁
  have hkeeps : r.cells.Keeps r'.cells := by
    rw [hr']
    exact (reread_reprint r₁).cells
  have htext : r'.cells.text c = t :=
    (hkeeps.text_eq c (h.watchful.sound.value v hv c (List.mem_of_getElem? hc))).trans ht
  have hrow : rowCells r'.tokens = Payload.cellsOf v := by
    have htokens : r'.tokens = (l.printed r₁.cells v).tokens := by
      rw [hr', ← h.watchful.sound.language]
      show r₁.reprinted.tokens = _
      simp [Region.reprinted, Region.spliced, hprinted]
      rfl
    rw [htokens]
    exact hl.print_cells _ v
  refine ⟨hw, ?_, ⟨v, c, ?_, hc, htext⟩, ⟨c, by rw [hrow]; exact hc, htext⟩⟩
  · rw [hr']
    exact hfresh
  · rw [hr']
    exact (value_reprint r₁).trans hv

variable [LawfulPayload V]

/-- The first of the two that happens decides: the change is processed, or the row is read. -/
theorem follow (hl : l.Linear) {ss : List (Step V)} (h : r.Pending l slot t u)
    (hf : Step.follow? ss r slot = some (r', slot')) (hp : Step.processes ss) :
    r'.Shown l slot' (if Step.processedFirst ss r then t else u) := by
  induction ss generalizing r slot with
  | nil => cases hp
  | cons s ss ih =>
    cases s with
    | makeCells texts => exact ih (h.makeCells texts) hf hp
    | call op =>
      simp only [Step.follow?] at hf
      split_ifs at hf with hnew
      obtain ⟨slot₁, hslot, hf⟩ := Option.bind_eq_some_iff.1 hf
      rcases Slot.through?_cases hslot with ⟨start, stop, new, hop⟩ | rfl
      · obtain ⟨hw, hrow, hvalue⟩ := h.watchful.follow_edit hl h.row hop hnew hslot
        obtain ⟨hfirst, hproc⟩ := Step.processedFirst_edit hop ss r
        rw [hproc] at hp
        rw [hfirst]
        cases hreads : op.reads r with
        | true =>
          rw [hreads, if_pos rfl] at hvalue
          have hshown : (r.after op.run).Shown l slot₁ u := ⟨hw, hvalue.1, hvalue.2, hrow⟩
          exact hshown.follow hl hf
        | false =>
          rw [hreads, if_neg (by simp)] at hvalue
          exact ih ⟨hw, hvalue.1.trans h.stale, hvalue.2 t h.value, hrow⟩ hf hp
      · exact (h.process hl hslot).follow hl hf

end Pending

theorem RowShows.unique (h : r.RowShows place t) (h' : r.RowShows place u) : t = u := by
  obtain ⟨c, hc, rfl⟩ := h
  obtain ⟨c', hc', rfl⟩ := h'
  cases hc.symm.trans hc'
  rfl

end Region

/-- A text of the value that was changed to `t` is shown by row and value, after the change has been
processed, just when it was processed before the row was read again, or the token used the very cell
that was changed, or showed `t` anyway. Otherwise the token has brought back what it showed. -/
theorem updates_survive_iff (t : Text) :
    (∀ {V : Type} [Payload V] [LawfulPayload V] {l : Language V}, l.Linear →
      ∀ {r : Region V} {v : V} {slot : Region.Slot} {c d : CellId}, Region.Touched l r →
        r.value = some v → (rowCells r.tokens)[slot.row]? = some c →
        (Payload.cellsOf v)[slot.value]? = some d →
        ∀ {ss : List (Region.Step V)} {r' : Region V} {slot' : Region.Slot},
          Region.Step.processes ss →
          Region.Step.follow? ss (r.setCellText d t) slot = some (r', slot') →
          (r'.RowShows slot'.row t ∧ r'.ValueShows slot'.value t ↔
            Region.Step.processedFirst ss (r.setCellText d t) ∨ c = d ∨ r.cells.text c = t) ∧
          (¬ Region.Step.processedFirst ss (r.setCellText d t) → c ≠ d →
            r'.RowShows slot'.row (r.cells.text c) ∧ r'.ValueShows slot'.value (r.cells.text c))) ∧
    (∀ p, (Expr.language p).Linear) ∧
    ∀ style : Sum.Style, style.dropLast = false → (Sum.language style).Linear := by
  refine ⟨fun {V} _ _ {l} hl {r v slot c d} h hv hc hd {ss r' slot'} hp hf => ?_,
    Expr.language_linear, fun style hstyle => Sum.language_linear hstyle⟩
  have hw := h.watchful hl
  have hmem := List.mem_of_getElem? hd
  have hhas : r.cells.Has [d] := fun x hx => by
    rw [List.mem_singleton.1 hx]
    exact hw.sound.value v hv d hmem
  have hpending : (r.setCellText d t).Pending l slot t (if c = d then t else r.cells.text c) :=
    ⟨hw.setCellText d t, hw.stale_setCellText hv hmem t,
      ⟨v, d, hv, hd, (Cells.text_setText hhas d t).trans (if_pos rfl)⟩,
      ⟨c, hc, Cells.text_setText hhas c t⟩⟩
  have hshown := hpending.follow hl hf hp
  cases hfirst : Region.Step.processedFirst ss (r.setCellText d t) with
  | true =>
    rw [hfirst, if_pos rfl] at hshown
    exact ⟨iff_of_true ⟨hshown.row, hshown.value⟩ (.inl rfl), fun hne => absurd rfl hne⟩
  | false =>
    rw [hfirst, if_neg (by simp)] at hshown
    by_cases hcd : c = d
    · rw [if_pos hcd] at hshown
      exact ⟨iff_of_true ⟨hshown.row, hshown.value⟩ (.inr (.inl hcd)), fun _ hne => absurd hcd hne⟩
    · rw [if_neg hcd] at hshown
      refine ⟨⟨fun ht => .inr (.inr (hshown.row.unique ht.1)), ?_⟩,
        fun _ _ => ⟨hshown.row, hshown.value⟩⟩
      rintro (hfalse | hcd' | rfl)
      · cases hfalse
      · exact absurd hcd' hcd
      · exact ⟨hshown.row, hshown.value⟩

/-- A region whose row is one embedded text. -/
def Expr.textRegion (t : Text) : Region Expr :=
  (Region.new (language {}) ⟨[{ text := t }]⟩ {}).after (Region.Op.setTokens [.value (.text 0)]).run

/-- A factorial sign, inserted between the change of a text and its processing, undoes the change. -/
theorem updates_survive_iff_factorial :
    ∃ r' slot', Region.Step.follow? [.call (.insert 1 Expr.factorialToken), .call .processChanges]
        ((Expr.textRegion ['o', 'l', 'd']).setCellText 1 ['n', 'e', 'w']) ⟨0, 0⟩ = some (r', slot') ∧
      ¬ (r'.RowShows slot'.row ['n', 'e', 'w'] ∧ r'.ValueShows slot'.value ['n', 'e', 'w']) ∧
      r'.RowShows slot'.row ['o', 'l', 'd'] ∧ r'.ValueShows slot'.value ['o', 'l', 'd'] := by
  obtain ⟨hgeneral, hexpr, -⟩ := updates_survive_iff ['n', 'e', 'w']
  have hfollow : (Region.Step.follow? [.call (.insert 1 Expr.factorialToken), .call .processChanges]
      ((Expr.textRegion ['o', 'l', 'd']).setCellText 1 ['n', 'e', 'w']) ⟨0, 0⟩).isSome := by
    decide +kernel
  obtain ⟨⟨r', slot'⟩, hf⟩ := Option.isSome_iff_exists.1 hfollow
  have hnew : Region.Touched (Expr.language {}) (Region.new (Expr.language {})
      ⟨[{ text := ['o', 'l', 'd'] }]⟩ {}) := .new _ rfl rfl
  have htouched : Region.Touched (Expr.language {}) (Expr.textRegion ['o', 'l', 'd']) := by
    refine .call hnew (by rintro ⟨⟩) (fun c hc => ?_) (by rintro v ⟨⟩)
    have hc : c ∈ [0] := hc
    obtain rfl := List.mem_singleton.1 hc
    decide
  have htext : (Expr.textRegion ['o', 'l', 'd']).cells.text 0 = ['o', 'l', 'd'] := by decide +kernel
  obtain ⟨hiff, hlost⟩ := @hgeneral _ _ _ _ (hexpr {}) _ (.text 1) ⟨0, 0⟩ 0 1 htouched
    (by decide +kernel) (by decide +kernel) rfl _ _ _ rfl hf
  rw [htext] at hlost
  refine ⟨r', slot', hf, ?_, hlost (by decide +kernel) (by decide)⟩
  rw [hiff]
  decide +kernel

end TokenEditor
