import TokenEditor.Proofs.Synced

/-! # Regions that watch their value

A region subscribes to the cells of its value whenever it prints it, and gives up the subscriptions
it had before. `Touched.watchful`: in whatever way a region has been edited, and whichever cells have
changed their text, it listens to every cell of its value. No law of the language is needed but that
a row, its value and its print have the same cells. -/

namespace TokenEditor

namespace Cells
variable {a b : Cells} {s o : Subscription} {c : CellId} {cs : List CellId}

/-- The listener of the subscription is in its place. -/
def Heard (cells : Cells) (s : Subscription) : Prop :=
  ∃ cell, cells.entries[s.cell]? = some cell ∧ s.id < cell.listeners.nextId ∧
    (s.id, ()) ∈ cell.listeners.entries

theorem heard_subscribe (hc : a.Has [c]) : (a.subscribe c).2.Heard (a.subscribe c).1 := by
  have hlt : c < a.entries.length := hc c (by simp)
  simp [subscribe, Heard, hlt, Listeners.subscribe]

theorem Heard.ne_subscribe (h : a.Heard s) (c : CellId) (hc : a.Has [c]) :
    s ≠ (a.subscribe c).1 := by
  obtain ⟨cell, hcell, hid, -⟩ := h
  have hlt : c < a.entries.length := hc c (by simp)
  rintro rfl
  simp only [subscribe, List.getElem?_eq_getElem hlt, Listeners.subscribe] at hcell hid
  cases hcell
  exact Nat.lt_irrefl _ hid

namespace Heard

theorem of_append {new : List Cell} (h : a.Heard s) (hb : b.entries = a.entries ++ new) :
    b.Heard s := by
  obtain ⟨cell, hcell, hid, hmem⟩ := h
  obtain ⟨hlt, -⟩ := List.getElem?_eq_some_iff.1 hcell
  exact ⟨cell, by rw [hb, List.getElem?_append_left hlt, hcell], hid, hmem⟩

theorem setText (h : a.Heard s) (c : CellId) (t : Text) : (a.setText c t).Heard s := by
  obtain ⟨cell, hcell, hid, hmem⟩ := h
  refine ⟨if c = s.cell then { cell with text := t } else cell, ?_, ?_, ?_⟩
  · simp [Cells.setText, List.getElem?_modify, hcell]
  all_goals split <;> assumption

theorem subscribe (h : a.Heard s) (c : CellId) : (a.subscribe c).2.Heard s := by
  obtain ⟨cell, hcell, hid, hmem⟩ := h
  obtain ⟨hlt, -⟩ := List.getElem?_eq_some_iff.1 hcell
  unfold Cells.subscribe
  split
  · exact ⟨cell, hcell, hid, hmem⟩
  · rename_i old hold
    by_cases hc : c = s.cell
    · rw [hc, hcell] at hold
      cases hold
      exact ⟨{ cell with listeners := (cell.listeners.subscribe ()).2 }, by simp [hc, hlt],
        Nat.lt_succ_of_lt hid, List.mem_append_left _ hmem⟩
    · exact ⟨cell, by simp [hc, hcell], hid, hmem⟩

theorem subscribeAll (h : a.Heard s) (cs : List CellId) : (a.subscribeAll cs).2.Heard s := by
  induction cs generalizing a with
  | nil => exact h
  | cons c cs ih => exact ih (h.subscribe c)

theorem unsubscribe (h : a.Heard s) (hne : s ≠ o) : (a.unsubscribe o).Heard s := by
  obtain ⟨cell, hcell, hid, hmem⟩ := h
  by_cases hc : o.cell = s.cell
  · have hneid : s.id ≠ o.id := fun hid => hne (by cases s; cases o; simp_all)
    exact ⟨{ cell with listeners := cell.listeners.unsubscribe o.id },
      by simp [Cells.unsubscribe, hc, hcell], hid,
      List.mem_filter.2 ⟨hmem, by simpa using hneid⟩⟩
  · exact ⟨cell, by simp [Cells.unsubscribe, hc, hcell], hid, hmem⟩

theorem unsubscribeAll {os : List Subscription} (h : a.Heard s) (hne : ∀ o ∈ os, s ≠ o) :
    (a.unsubscribeAll os).Heard s := by
  induction os generalizing a with
  | nil => exact h
  | cons o os ih =>
    exact ih (h.unsubscribe (hne o (by simp))) fun o' ho' => hne o' (by simp [ho'])

theorem listenerCount_pos (h : a.Heard s) : 0 < a.listenerCount s.cell := by
  obtain ⟨cell, hcell, -, hmem⟩ := h
  rw [listenerCount, hcell]
  exact List.length_pos_of_mem hmem

end Heard

@[simp] theorem map_cell_subscribeAll (a : Cells) (cs : List CellId) :
    (a.subscribeAll cs).1.map Subscription.cell = cs := by
  induction cs generalizing a with
  | nil => rfl
  | cons c cs ih =>
    have hcell : (a.subscribe c).1.cell = c := by
      unfold subscribe
      split <;> rfl
    exact congrArg₂ List.cons hcell (ih _)

/-- New subscriptions stand, and none of them is one that stood before. -/
theorem heard_subscribeAll (hcs : a.Has cs) (hs : s ∈ (a.subscribeAll cs).1) :
    (a.subscribeAll cs).2.Heard s ∧ ∀ o, a.Heard o → s ≠ o := by
  induction cs generalizing a with
  | nil => simp [subscribeAll] at hs
  | cons c cs ih =>
    obtain ⟨hc, hrest⟩ := has_append.1 (show a.Has ([c] ++ cs) from hcs)
    have hkeeps : a.Keeps (a.subscribe c).2 := .of_texts (texts_subscribe a c)
    rcases List.mem_cons.1 hs with rfl | hs
    · exact ⟨(heard_subscribe hc).subscribeAll cs, fun o ho => (ho.ne_subscribe c hc).symm⟩
    · obtain ⟨hheard, hfresh⟩ := ih (hkeeps.has hrest) hs
      exact ⟨hheard, fun o ho => hfresh o (ho.subscribe c)⟩

theorem Copies.map_text {ds : List CellId} (h : a.Copies cs ds b) (hcs : a.Has cs) :
    ds.map b.text = cs.map b.text := by
  refine List.ext_getElem (by simp [h.length_eq]) fun i hi hi' => ?_
  rw [List.length_map] at hi hi'
  rw [List.getElem_map, List.getElem_map, h.text_eq i hi' hi,
    h.keeps.text_eq _ (hcs _ (List.getElem_mem hi'))]

end Cells

/-! ### Watchful regions -/

namespace Region
variable {V : Type}

/-- The region that a run of `f` leaves, whether it fails or not. -/
def after {α : Type} (f : RegionM V α) (r : Region V) : Region V :=
  match f r with
  | .ok _ r' => r'
  | .error _ r' => r'

theorem after_iff {α : Type} {f : RegionM V α} {r : Region V} {P : Region V → Prop} :
    P (r.after f) ↔ wp f (fun _ => P) (fun _ => P) r := by
  unfold after wp
  cases f r <;> rfl

/-- The region with new cells in its store. -/
def makeCells (texts : List Text) (r : Region V) : Region V :=
  { r with cells := ⟨r.cells.entries ++ texts.map fun t => { text := t }⟩ }

variable [Payload V]

/-- The region reads and prints by itself, all its cells are in the store, and its subscriptions
stand. -/
structure Sound (l : Language V) (r : Region V) : Prop where
  language : r.language = l
  autoReparse : r.autoReparse = true
  autoReprint : r.autoReprint = true
  views : r.views.length = r.tokens.length
  row : r.cells.Has (rowCells r.tokens)
  printed : ∀ ps, r.printed = some ps → r.cells.Has (rowCells ps)
  value : ∀ v, r.value = some v → r.cells.Has (Payload.cellsOf v)
  heard : ∀ s ∈ r.subscriptions, r.cells.Heard s

/-- The region has subscribed to the cells of its value. -/
def Watches (r : Region V) : Prop :=
  ∀ v, r.value = some v → r.subscriptions.map Subscription.cell = Payload.cellsOf v

/-- A region at rest that watches its value. -/
structure Watchful (l : Language V) (r : Region V) : Prop where
  sound : r.Sound l
  watches : r.Watches
  syncing : r.syncing = false
  restoring : r.restoring = false

/-- What became of the value when the row of `before` was read: a row that does not read leaves it
alone, and one that reads gives a value which shows the texts of the row. -/
inductive ReadAs (before after : Region V) : Prop
  | empty : before.tokens = [] → ReadAs before after
  | refused : after.valid = false → after.value = before.value → after.stale = before.stale →
      ReadAs before after
  | took {v : V} : after.valid = true → after.stale = false → after.value = some v →
      (Payload.cellsOf v).map after.cells.text = (rowCells before.tokens).map after.cells.text →
      ReadAs before after

variable {l : Language V} {r r' : Region V} {start stop : Nat} {new : List (Token V)}

namespace Sound

/-- Language, settings and row stay, and cells that were in the store still are. -/
theorem update (h : r.Sound l) {cells : Cells} {printed : Option (List (Token V))}
    {tree : Option (PrintTree V)} {value : Option V} {subscriptions : List Subscription}
    {syncing restoring valid stale : Bool} {parses : Nat} (hcells : ∀ {cs}, r.cells.Has cs → cells.Has cs)
    (hprinted : ∀ ps, printed = some ps → cells.Has (rowCells ps))
    (hvalue : ∀ v, value = some v → cells.Has (Payload.cellsOf v))
    (hheard : ∀ s ∈ subscriptions, cells.Heard s) :
    Sound l { r with
      cells := cells, printed := printed, tree := tree, value := value, valid := valid,
      subscriptions := subscriptions, stale := stale, syncing := syncing, restoring := restoring,
      parses := parses } :=
  ⟨h.language, h.autoReparse, h.autoReprint, h.views, hcells h.row, hprinted, hvalue, hheard⟩

theorem setStore (h : r.Sound l) {cells : Cells} {subscriptions : List Subscription} {stale : Bool}
    (hcells : ∀ {cs}, r.cells.Has cs → cells.Has cs) (hheard : ∀ s ∈ subscriptions, cells.Heard s) :
    Sound l { r with cells := cells, subscriptions := subscriptions, stale := stale } :=
  h.update hcells (fun ps hps => hcells (h.printed ps hps)) (fun v hv => hcells (h.value v hv)) hheard

theorem setMarks (h : r.Sound l) {syncing restoring valid stale : Bool} : Sound l { r with
    syncing := syncing, restoring := restoring, valid := valid, stale := stale } :=
  h.update id h.printed h.value h.heard

theorem watch (h : r.Sound l) {cs : List CellId} (hcs : r.cells.Has cs) : (r.watch cs).Sound l := by
  refine h.setStore (r.keeps_watch cs).has fun s hs => ?_
  obtain ⟨hheard, hfresh⟩ := Cells.heard_subscribeAll hcs hs
  exact hheard.unsubscribeAll fun o ho => hfresh o (h.heard o ho)

theorem dispose (h : r.Sound l) : r.dispose.Sound l :=
  h.setStore r.keeps_dispose.has (by rintro s ⟨⟩)

theorem of_tokens (h : r.Sound l) {ts us : List (Token V)} (hus : r.cells.Has (rowCells us))
    (hmem : ∀ t ∈ ts, t ∈ r.tokens ∨ t ∈ us) : r.cells.Has (rowCells ts) := by
  refine has_rowCells.2 fun t ht => ?_
  rcases hmem t ht with ht | ht
  · exact has_rowCells.1 h.row t ht
  · exact has_rowCells.1 hus t ht

theorem spliced (h : r.Sound l) (hnew : r.cells.Has (rowCells new)) :
    (r.spliced start stop new).Sound l :=
  ⟨h.language, h.autoReparse, h.autoReprint, by simp [Region.spliced, h.views],
    h.of_tokens hnew fun _ ht => mem_spliced ht, h.printed, h.value, h.heard⟩

/-- Printing the value is what makes the region watch it. -/
theorem reprint (hl : l.Linear) (h : r.Sound l) : r.reprint.Sound l ∧ r.reprint.Watches := by
  unfold Region.reprint
  split
  · rename_i v hv
    have hcs : r.cells.Has (r.language.printed r.cells v).watched := by
      rw [h.language, hl.print_watched]
      exact h.value v hv
    have hw := h.watch hcs
    have hprint : rowCells (r.language.printed r.cells v).tokens = Payload.cellsOf v := by
      rw [h.language, hl.print_cells]
    refine ⟨hw.update id ?_ hw.value hw.heard, ?_⟩
    · rintro ps ⟨⟩
      rw [hprint]
      exact hw.value v hv
    · rintro w hw'
      cases hv.symm.trans hw'
      rw [← hl.print_watched r.cells v, ← h.language]
      exact Cells.map_cell_subscribeAll _ _
  · rename_i hv
    have hd := h.dispose
    refine ⟨hd.update id ?_ hd.value hd.heard, ?_⟩
    · rintro ps ⟨⟩
      exact Cells.has_nil
    · rintro w hw'
      cases hv.symm.trans hw'

theorem has_printed (h : r.Sound l) : r.cells.Has (rowCells (r.printed.getD [])) := by
  cases hp : r.printed with
  | none => exact Cells.has_nil
  | some ps => exact h.printed ps hp

/-- Under a synchronisation or a restore the print takes the place of the row. -/
theorem reprinted (hl : l.Linear) (h : r.Sound l) : r.reprinted.Sound l ∧ r.reprinted.Watches := by
  obtain ⟨hs, hw⟩ := h.reprint hl
  have hsp : (r.reprint.spliced 0 r.reprint.tokens.length (r.reprint.printed.getD [])).Sound l :=
    hs.spliced hs.has_printed
  exact ⟨hsp.setMarks, hw⟩

variable [LawfulPayload V]

theorem wp_reparse (hl : l.Linear) (h : r.Sound l) (hr : r.restoring = false) (hw : r.Watches) :
    let post := fun r' => r.Reread r' ∧ r'.Sound l ∧ r'.Watches ∧ r.ReadAs r'
    wp reparse (fun _ => post) (fun _ => post) r := by
  intro post
  rw [Region.wp_reparse, if_neg (by simp [hr])]
  by_cases ht : r.tokens = []
  · rw [if_pos (by simp [ht])]
    have hd := h.dispose
    refine ⟨reread_emptied r, hd.update id ?_ (by rintro v ⟨⟩) hd.heard, by rintro v ⟨⟩, .empty ht⟩
    rintro ps ⟨⟩
    exact Cells.has_nil
  rw [if_neg (by simpa using ht)]
  obtain ⟨hcopy, -⟩ := copied_spec h.row
  have hheard : ∀ s ∈ r.subscriptions, r.copied.2.Heard s :=
    fun s hs => (h.heard s hs).of_append hcopy.entries
  cases hparse : r.language.parse r.copied.2 r.copied.1 with
  | none =>
    have hrefused : r.refused.Sound l := h.update hcopy.keeps.has (by rintro ps ⟨⟩)
      (fun v hv => hcopy.keeps.has (h.value v hv)) hheard
    exact ⟨reread_refused h.row, hrefused, hw, .refused rfl rfl rfl⟩
  | some v =>
    have hcells : Payload.cellsOf v = rowCells r.copied.1 := by
      rw [h.language] at hparse
      exact hl.parse_cells hparse
    have htaking : (r.taking v).Sound l := by
      refine h.update hcopy.keeps.has (fun ps hps => hcopy.keeps.has (h.printed ps hps)) ?_ hheard
      rintro w ⟨⟩
      rw [hcells]
      exact hcopy.has
    obtain ⟨hs, hw'⟩ := htaking.reprint hl
    have hkeeps := keeps_took r v
    -- the copies show what the row shows, and go on to do so
    have htexts : (Payload.cellsOf v).map (r.took v).cells.text =
        (rowCells r.tokens).map (r.took v).cells.text := by
      have hcopied := hcopy.map_text h.row
      rw [hcells, List.map_congr_left fun c hc => hkeeps.text_eq c (hcopy.has c hc),
        List.map_congr_left fun c hc => hkeeps.text_eq c (hcopy.keeps.has h.row c hc), hcopied]
    have htook : post (r.took v) :=
      ⟨reread_took h.row v, hs, hw', .took rfl rfl rfl htexts⟩
    simp only
    split_ifs <;> exact htook

end Sound

theorem ReadAs.endSync (h : r.underSync.ReadAs r') : r.ReadAs r'.endSync := by
  cases h with
  | empty ht => exact .empty ht
  | refused hvalid hvalue hstale => exact .refused hvalid hvalue hstale
  | took hvalid hstale hvalue htexts => exact .took hvalid hstale hvalue htexts

namespace Watchful

/-- Processing a change of a watched cell prints the value, and the print takes the place of the
row. -/
theorem reprinted (hl : l.Linear) (h : r.Sound l) (hs : r.syncing = false) (hr : r.restoring = false) :
    wp (sync reprintToTokens) (fun _ r' => r'.Watchful l ∧ r' = r.underSync.reprinted.endSync)
      (fun _ _ => False) r := by
  have hunder : r.underSync.Sound l := h.setMarks
  rw [wp_sync, if_neg (by simp [hs]), wp_reprintToTokens_guarded (.inl rfl)]
  obtain ⟨hsound, hwatches⟩ := hunder.reprinted hl
  exact ⟨⟨hsound.setMarks, hwatches, rfl, (reread_reprint r.underSync).restoring.trans hr⟩, rfl⟩

theorem setValue (hl : l.Linear) (h : r.Watchful l) {v : Option V}
    (hv : ∀ w, v = some w → r.cells.Has (Payload.cellsOf w)) :
    wp (setValue v) (fun _ r' => r'.Watchful l) (fun _ r' => r'.Watchful l) r := by
  have hs := h.sound
  have hset : Sound l { r with value := v } := hs.update id hs.printed hv hs.heard
  simp only [Region.setValue, wp_bind, wp_modify, wp_get, wp_ite]
  rw [if_pos hs.autoReprint]
  exact wp_mono (reprinted hl hset h.syncing h.restoring) (fun _ _ h => h.1) (fun _ _ h => h.elim)

theorem processChanges (hl : l.Linear) (h : r.Watchful l) :
    wp processChanges (fun _ r' => r'.Watchful l ∧ if r.stale then
        r' = ({ r with stale := false } : Region V).underSync.reprinted.endSync else r' = r)
      (fun _ _ => False) r := by
  have hs := h.sound
  have hset : Sound l { r with stale := false } := hs.setMarks
  simp only [Region.processChanges, wp_bind, wp_get, wp_ite, wp_set, wp_pure]
  split_ifs
  · exact reprinted hl hset h.syncing h.restoring
  · exact absurd hs.autoReprint ‹_›
  · exact ⟨h, trivial⟩

variable [LawfulPayload V]

theorem of_sound (hl : l.Linear) (h : r.Sound l) (hw : r.Watches) (hs : r.syncing = false)
    (hr : r.restoring = false) :
    let post := fun r' : Region V => r'.Watchful l ∧ r'.tokens = r.tokens ∧
      r.cells.Keeps r'.cells ∧ r.ReadAs r'
    wp (sync reparse) (fun _ => post) (fun _ => post) r := by
  intro post
  have hunder : r.underSync.Sound l := h.setMarks
  have hpost : ∀ r' : Region V, r.underSync.Reread r' ∧ r'.Sound l ∧ r'.Watches ∧
      r.underSync.ReadAs r' → post r'.endSync := by
    rintro r' ⟨hreread, hsound, hwatches, hread⟩
    exact ⟨⟨hsound.setMarks, hwatches, rfl, hreread.restoring.trans hr⟩, hreread.tokens,
      hreread.cells, hread.endSync⟩
  rw [wp_sync, if_neg (by simp [hs])]
  exact wp_mono (hunder.wp_reparse hl hr hw) (fun _ => hpost) (fun _ => hpost)

/-- An edit of the row of a region at rest is followed by one reading. -/
theorem splice (hl : l.Linear) (h : r.Watchful l) (hnew : r.cells.Has (rowCells new)) :
    let post := fun r' : Region V => r'.Watchful l ∧ if stop < start ∨ r.tokens.length < stop
      then r' = r else r'.tokens = r.tokens.take start ++ new ++ r.tokens.drop stop ∧
        r.cells.Keeps r'.cells ∧ (r.spliced start stop new).ReadAs r'
    wp (splice start stop new) (fun _ => post) (fun _ => post) r := by
  intro post
  simp only [wp_splice, post]
  split_ifs with hout hauto
  · exact ⟨h, trivial⟩
  · exact of_sound hl (h.sound.spliced hnew) h.watches h.syncing h.restoring
  · exact absurd h.sound.autoReparse hauto

theorem splice_watchful (hl : l.Linear) (h : r.Watchful l) (hnew : r.cells.Has (rowCells new)) :
    wp (Region.splice start stop new) (fun _ r' => r'.Watchful l) (fun _ r' => r'.Watchful l) r :=
  wp_mono (h.splice hl hnew) (fun _ _ h => h.1) (fun _ _ h => h.1)

theorem reprintToTokens (hl : l.Linear) (h : r.Watchful l) :
    wp reprintToTokens (fun _ r' => r'.Watchful l) (fun _ r' => r'.Watchful l) r := by
  obtain ⟨hs, hw⟩ := h.sound.reprint hl
  have hreread := reread_reprint r
  have hrest : r.reprint.Watchful l :=
    ⟨hs, hw, hreread.syncing.trans h.syncing, hreread.restoring.trans h.restoring⟩
  simp only [Region.reprintToTokens, wp_bind, wp_modify, wp_get]
  refine wp_mono (hrest.splice_watchful hl hs.has_printed) (fun _ r' h' => ?_) (fun _ _ h => h)
  exact ⟨h'.sound.setMarks, h'.watches, h'.syncing, h'.restoring⟩

theorem restore (hl : l.Linear) (h : r.Watchful l) {saved : Option (List (Token V))}
    (hsaved : ∀ ts, saved = some ts → r.cells.Has (rowCells ts)) :
    wp (restore saved) (fun _ r' => r'.Watchful l) (fun _ r' => r'.Watchful l) r := by
  have hon : (r.setRestoring true).Sound l := h.sound.setMarks
  rw [wp_restore, if_neg (by simp [h.restoring])]
  cases saved with
  | some ts =>
    simp only [putBack, setTokens, wp_bind, wp_get, Option.isSome_some, if_true]
    rw [wp_splice_guarded (.inr rfl) (by simp [Region.setRestoring])]
    exact wp_mono (of_sound hl (hon.spliced (hsaved ts rfl)).setMarks h.watches h.syncing rfl)
      (fun _ _ h => h.1) (fun _ _ h => h.1)
  | none =>
    simp only [putBack, wp_bind, wp_get, Option.isSome_none, Bool.false_eq_true, if_false]
    cases hv : (r.setRestoring true).valid with
    | true =>
      simp only [if_true, wp_pure]
      exact ⟨hon.setMarks, h.watches, h.syncing, rfl⟩
    | false =>
      simp only [Bool.false_eq_true, if_false]
      rw [wp_reprintToTokens_guarded (.inr rfl)]
      obtain ⟨hs, hw⟩ := hon.reprinted hl
      exact ⟨hs.setMarks, hw,
        (reread_reprint (r.setRestoring true)).syncing.trans h.syncing, rfl⟩

theorem updateToPrinted (h : r.Watchful l) :
    wp updateToPrinted (fun _ r' => r'.Watchful l) (fun _ r' => r'.Watchful l) r := by
  simp only [Region.updateToPrinted, wp_bind, wp_get]
  have hs := h.sound
  cases hp : r.printed with
  | none => exact h
  | some ps =>
    simp only [wp_ite, wp_throw, wp_sync, h.syncing, Bool.false_eq_true, if_false]
    split_ifs with hlen
    · refine wp_mono (wp_alignFrom r.underSync [] r.tokens ps rfl rfl hlen.symm hs.views)
        (fun _ r' h' => ?_) (fun _ _ h => h)
      obtain ⟨hrel, hviews, todo, htodo, -, hmem⟩ := h'
      rw [List.nil_append] at htodo
      have hkeep : r.cells.Has (rowCells todo) := hs.of_tokens (hs.printed ps hp) hmem
      have hcells : r'.cells = r.cells := hrel.cells
      refine ⟨⟨hrel.language.trans hs.language, hrel.autoReparse.trans hs.autoReparse,
        hrel.autoReprint.trans hs.autoReprint, hviews, ?_, ?_, ?_, ?_⟩, ?_, rfl,
        hrel.restoring.trans h.restoring⟩
      · show r'.cells.Has (rowCells r'.tokens)
        rwa [hcells, htodo]
      · exact fun qs hqs => hcells ▸ hs.printed qs (hrel.printed ▸ hqs)
      · exact fun v hv => hcells ▸ hs.value v (hrel.value ▸ hv)
      · exact fun s hs' => hcells ▸ hs.heard s (hrel.subscriptions ▸ hs')
      · intro v hv
        have hw := h.watches v (hrel.value ▸ hv)
        exact (congrArg _ hrel.subscriptions).trans hw
    · exact h

/-- Whatever is called, short of giving the subscriptions up, leaves the region watching its
value. -/
theorem run (hl : l.Linear) (h : r.Watchful l) {op : Op V} (hop : op ≠ .dispose)
    (hts : r.cells.Has (rowCells op.tokens))
    (hv : ∀ v, op.value? = some v → r.cells.Has (Payload.cellsOf v)) :
    wp op.run (fun _ r' => r'.Watchful l) (fun _ r' => r'.Watchful l) r := by
  cases op with
  | setTokens ts => exact (wp_bind _ _).2 (h.splice_watchful hl hts)
  | insert index t => exact h.splice_watchful hl hts
  | remove index =>
    simp only [Op.run, wp_discard, Region.remove, wp_bind, wp_pure, wp_tokenAt]
    split
    · exact h.splice_watchful hl Cells.has_nil
    · exact h
  | replace index t =>
    simp only [Op.run, wp_discard, wp_replace]
    split
    · exact h.splice_watchful hl hts
    · exact h
  | splice start stop ts => exact h.splice_watchful hl hts
  | clear => exact (wp_bind _ _).2 (h.splice_watchful hl Cells.has_nil)
  | updateToPrinted => exact h.updateToPrinted
  | reprintToTokens => exact h.reprintToTokens hl
  | restore saved =>
    refine h.restore hl ?_
    rintro ts rfl
    exact hts
  | processChanges =>
    exact (wp_discard _).2 (wp_mono (h.processChanges hl) (fun _ _ h => h.1) (fun _ _ h => h.elim))
  | dispose => exact absurd rfl hop
  | setValue v => exact h.setValue hl hv

omit [LawfulPayload V] in
theorem makeCells (h : r.Watchful l) (texts : List Text) : (r.makeCells texts).Watchful l := by
  have hkeeps : r.cells.Keeps (r.makeCells texts).cells := .of_append rfl
  have hsound : (r.makeCells texts).Sound l :=
    h.sound.setStore hkeeps.has fun s hs => (h.sound.heard s hs).of_append rfl
  exact ⟨hsound, h.watches, h.syncing, h.restoring⟩

omit [LawfulPayload V] in
theorem setCellText (h : r.Watchful l) (c : CellId) (t : Text) : (r.setCellText c t).Watchful l := by
  have hhas : ∀ {cs : List CellId}, r.cells.Has cs → (r.cells.setText c t).Has cs :=
    fun hcs x hx => by simpa [Cells.setText] using hcs x hx
  have hsound : (r.setCellText c t).Sound l :=
    h.sound.setStore hhas fun s hs => (h.sound.heard s hs).setText c t
  exact ⟨hsound, h.watches, h.syncing, h.restoring⟩

omit [LawfulPayload V] in
theorem stale_setCellText (h : r.Watchful l) {v : V} (hv : r.value = some v) {c : CellId}
    (hc : c ∈ Payload.cellsOf v) (t : Text) : (r.setCellText c t).stale = true := by
  rw [← h.watches v hv] at hc
  obtain ⟨s, hs, rfl⟩ := List.mem_map.1 hc
  simp [Region.setCellText, (h.sound.heard s hs).listenerCount_pos]

end Watchful

/-- The regions that a host can bring about: it makes a region that reads and prints by itself, calls
operations on it, whether they fail or not, makes cells, and changes the texts of cells. -/
inductive Touched (l : Language V) : Region V → Prop
  | new (cells : Cells) {settings : Settings} : settings.autoReparse = true →
      settings.autoReprint = true → Touched l (Region.new l cells settings)
  | makeCells {r : Region V} (texts : List Text) : Touched l r → Touched l (r.makeCells texts)
  | setText {r : Region V} (c : CellId) (t : Text) : Touched l r → Touched l (r.setCellText c t)
  | call {r : Region V} {op : Op V} : Touched l r → op ≠ .dispose →
      r.cells.Has (rowCells op.tokens) →
      (∀ v, op.value? = some v → r.cells.Has (Payload.cellsOf v)) → Touched l (r.after op.run)

theorem Touched.watchful [LawfulPayload V] (hl : l.Linear) (h : Touched l r) : r.Watchful l := by
  induction h with
  | new cells hparse hprint =>
    refine ⟨⟨rfl, hparse, hprint, rfl, Cells.has_nil, ?_, by rintro v ⟨⟩, by rintro s ⟨⟩⟩,
      by rintro v ⟨⟩, rfl, rfl⟩
    rintro ps ⟨⟩
    exact Cells.has_nil
  | makeCells texts _ ih => exact ih.makeCells texts
  | setText c t _ ih => exact ih.setCellText c t
  | call _ hop hts hv ih => exact after_iff.2 (ih.run hl hop hts hv)

end Region

end TokenEditor
