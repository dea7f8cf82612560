import TokenEditor.Proofs.Calls

/-! # Notices of changes

A region marks itself stale when a cell it watches changes, and there is one mark for all of its
subscriptions. Printing a value makes new subscriptions and takes the mark away; giving all
subscriptions up leaves it.

So `notices_live_or_left`: as long as a region watches anything, it acts on a change only if one of
the subscriptions that it holds has fired since it was made. A region that has given all of them up
still has the mark it had, and acts on it whatever its row is by then. -/

namespace TokenEditor

namespace Cells
variable {a b : Cells} {s : Subscription}

/-- The subscription has its listener in the store. -/
def Listens (cells : Cells) (s : Subscription) : Prop :=
  ∃ cell, cells.entries[s.cell]? = some cell ∧ (s.id, ()) ∈ cell.listeners.entries

theorem exists_listens {c : CellId} (h : 0 < a.listenerCount c) : ∃ s, a.Listens s ∧ s.cell = c := by
  unfold listenerCount at h
  split at h
  · rename_i cell hcell
    obtain ⟨⟨id, ⟨⟩⟩, hmem⟩ := List.exists_mem_of_length_pos h
    exact ⟨⟨c, id⟩, ⟨cell, hcell, hmem⟩, rfl⟩
  · exact absurd h (Nat.lt_irrefl 0)

theorem Listens.of_setText {c : CellId} {t : Text} (h : (a.setText c t).Listens s) :
    a.Listens s := by
  obtain ⟨cell, hcell, hmem⟩ := h
  rw [setText, List.getElem?_modify] at hcell
  obtain ⟨old, hold, rfl⟩ := Option.map_eq_some_iff.1 hcell
  refine ⟨old, hold, ?_⟩
  split at hmem <;> exact hmem

theorem Listens.of_subscribe {c : CellId} (h : (a.subscribe c).2.Listens s) :
    a.Listens s ∨ s = (a.subscribe c).1 := by
  obtain ⟨cell, hcell, hmem⟩ := h
  unfold subscribe at hcell ⊢
  split at hcell
  · exact .inl ⟨cell, hcell, hmem⟩
  · rename_i old hold
    rw [List.getElem?_set] at hcell
    split at hcell
    · rename_i hc
      obtain ⟨hlt, -⟩ := List.getElem?_eq_some_iff.1 hold
      rw [if_pos (hc ▸ hlt)] at hcell
      obtain rfl := Option.some.inj hcell
      rcases List.mem_append.1 hmem with hmem | hmem
      · exact .inl ⟨old, hc ▸ hold, hmem⟩
      · right
        have hid := (Prod.mk.inj (List.mem_singleton.1 hmem)).1
        obtain ⟨cell, id⟩ := s
        cases hc
        exact congrArg (Subscription.mk _) hid
    · exact .inl ⟨cell, hcell, hmem⟩

theorem Listens.of_subscribeAll {cs : List CellId} (h : (a.subscribeAll cs).2.Listens s) :
    a.Listens s ∨ s ∈ (a.subscribeAll cs).1 := by
  induction cs generalizing a with
  | nil => exact .inl h
  | cons c cs ih =>
    rcases ih h with h | h
    · rcases h.of_subscribe with h | rfl
      · exact .inl h
      · exact .inr List.mem_cons_self
    · exact .inr (List.mem_cons_of_mem _ h)

theorem Listens.of_unsubscribe {o : Subscription} (h : (a.unsubscribe o).Listens s) :
    a.Listens s ∧ s ≠ o := by
  obtain ⟨cell, hcell, hmem⟩ := h
  rw [unsubscribe, List.getElem?_modify] at hcell
  obtain ⟨old, hold, rfl⟩ := Option.map_eq_some_iff.1 hcell
  split at hmem
  · obtain ⟨hmem, hid⟩ := List.mem_filter.1 hmem
    refine ⟨⟨old, hold, hmem⟩, ?_⟩
    rintro rfl
    simp at hid
  · rename_i hc
    refine ⟨⟨old, hold, hmem⟩, ?_⟩
    rintro rfl
    exact hc rfl

theorem Listens.of_unsubscribeAll {os : List Subscription} (h : (a.unsubscribeAll os).Listens s) :
    a.Listens s ∧ s ∉ os := by
  induction os generalizing a with
  | nil => exact ⟨h, List.not_mem_nil⟩
  | cons o os ih =>
    obtain ⟨h, hs⟩ := ih h
    obtain ⟨h, hne⟩ := h.of_unsubscribe
    exact ⟨h, fun hmem => (List.mem_cons.1 hmem).elim hne hs⟩

/-- `after` is `before` with new cells that nobody listens to. -/
def Adds (before after : Cells) : Prop :=
  ∃ new : List Cell, after.entries = before.entries ++ new ∧
    ∀ cell ∈ new, cell.listeners.entries = []

theorem Adds.refl (a : Cells) : a.Adds a :=
  ⟨[], (List.append_nil _).symm, by simp⟩

theorem Adds.trans {c : Cells} (h : a.Adds b) (h' : b.Adds c) : a.Adds c := by
  obtain ⟨new, hb, hnew⟩ := h
  obtain ⟨new', hc, hnew'⟩ := h'
  refine ⟨new ++ new', by rw [hc, hb, List.append_assoc], fun cell hcell => ?_⟩
  exact (List.mem_append.1 hcell).elim (hnew cell) (hnew' cell)

theorem Listens.of_adds (hadds : a.Adds b) (h : b.Listens s) : a.Listens s := by
  obtain ⟨new, hb, hnew⟩ := hadds
  obtain ⟨cell, hcell, hmem⟩ := h
  rw [hb, List.getElem?_append] at hcell
  split at hcell
  · exact ⟨cell, hcell, hmem⟩
  · rw [hnew cell (List.mem_of_getElem? hcell)] at hmem
    cases hmem

theorem adds_new (a : Cells) (t : Text) : a.Adds ((new t).run a).2 :=
  ⟨[{ text := t }], rfl, by simp⟩

theorem adds_texts (a : Cells) (texts : List Text) :
    a.Adds ⟨a.entries ++ texts.map fun t => { text := t }⟩ :=
  ⟨_, rfl, by simp⟩

end Cells

/-- Copying a payload makes cells that nobody listens to, and nothing else. -/
class QuietPayload (V : Type) [Payload V] : Prop where
  detach_adds : ∀ (v : V) (cells : Cells), cells.Adds ((Payload.detach v).run cells).2

theorem Expr.detach_adds (e : Expr) (cells : Cells) : cells.Adds (e.detach.run cells).2 := by
  induction e generalizing cells with
  | plus l r ihl ihr => exact (ihl cells).trans (ihr _)
  | mul l r ihl ihr => exact (ihl cells).trans (ihr _)
  | inc e ih => exact ih cells
  | factorial e ih => exact ih cells
  | parens e ih => exact ih cells
  | callWith name e ih => exact ih cells
  | field e name ih => exact ih cells
  | text c => exact cells.adds_new _
  | var name => exact .refl cells
  | int n => exact .refl cells
  | call name => exact .refl cells

instance : QuietPayload Expr := ⟨Expr.detach_adds⟩

mutual

theorem Sum.detach_adds : ∀ (e : Sum) (cells : Cells), cells.Adds (e.detach.run cells).2
  | .num _, cells | .var _, cells => .refl cells
  | .note _, cells => cells.adds_new _
  | .add es, cells => Sum.detachAll_adds es cells
  | .inc e, cells => Sum.detach_adds e cells

theorem Sum.detachAll_adds : ∀ (es : List Sum) (cells : Cells),
    cells.Adds ((Sum.detachAll es).run cells).2
  | [], cells => .refl cells
  | e :: es, cells => (Sum.detach_adds e cells).trans (Sum.detachAll_adds es _)

end

instance : QuietPayload Sum := ⟨Sum.detach_adds⟩

theorem Token.detachAll_adds {V : Type} [Payload V] [QuietPayload V] (ts : List (Token V))
    (cells : Cells) : cells.Adds ((detachAll ts).run cells).2 := by
  induction ts generalizing cells with
  | nil => exact .refl cells
  | cons t ts ih =>
    have ht : cells.Adds (t.detach.run cells).2 := by
      cases t with
      | value v => exact QuietPayload.detach_adds v cells
      | _ => exact .refl cells
    exact ht.trans (ih _)

namespace Region
variable {V : Type} {r r' r'' : Region V}

/-- All listeners in the store are the region's own. -/
def Alone (r : Region V) : Prop :=
  ∀ s, r.cells.Listens s → s ∈ r.subscriptions

/-- The mark is taken away, the subscriptions are given up, or neither has changed. -/
def Heeds (before after : Region V) : Prop :=
  after.stale = false ∨ after.subscriptions = [] ∨
    after.stale = before.stale ∧ after.subscriptions = before.subscriptions

theorem Heeds.trans (h : r.Heeds r') (h' : r'.Heeds r'') : r.Heeds r'' := by
  rcases h' with h' | h' | ⟨hstale, hsubs⟩
  · exact .inl h'
  · exact .inr (.inl h')
  · rwa [Heeds, hstale, hsubs]

theorem alone_dispose (h : r.Alone) : r.dispose.Alone := by
  intro s hs
  obtain ⟨hs, hnot⟩ := Cells.Listens.of_unsubscribeAll hs
  exact absurd (h s hs) hnot

theorem alone_watch (h : r.Alone) (cs : List CellId) : (r.watch cs).Alone := by
  intro s hs
  obtain ⟨hs, hnot⟩ := Cells.Listens.of_unsubscribeAll hs
  rcases hs.of_subscribeAll with hs | hs
  · exact absurd (h s hs) hnot
  · exact hs

theorem alone_reprint (h : r.Alone) : r.reprint.Alone := by
  unfold reprint
  split
  · exact alone_watch h _
  · exact alone_dispose h

theorem heeds_reprint (r : Region V) : r.Heeds r.reprint := by
  unfold reprint
  split
  · exact .inl rfl
  · exact .inr (.inl rfl)

variable [Payload V]

theorem Change.alone [QuietPayload V] {S : Supply V} (h : Change S r r') (hr : r.Alone) :
    r'.Alone := by
  have hcopied : ∀ s, r.copied.2.Listens s → s ∈ r.subscriptions :=
    fun s hs => hr s (hs.of_adds (Token.detachAll_adds r.tokens r.cells))
  cases h with
  | reprint => exact alone_reprint hr
  | empty => exact alone_dispose hr
  | dispose => exact alone_dispose hr
  | refuse => exact hcopied
  | take => exact hcopied
  | _ => exact hr

theorem Change.heeds {S : Supply V} (h : Change S r r') : r.Heeds r' := by
  cases h with
  | reprint => exact heeds_reprint r
  | empty => exact .inr (.inl rfl)
  | dispose => exact .inr (.inl rfl)
  | calm => exact .inl rfl
  | _ => exact .inr (.inr ⟨rfl, rfl⟩)

theorem processChanges_of_fresh (h : r.stale = false) : processChanges r = .ok false r := by
  have hwp : wp processChanges (fun changed r' => changed = false ∧ r' = r) (fun _ _ => False) r := by
    simp [processChanges, h]
  obtain ⟨_, _, hrun, rfl, rfl⟩ := exists_of_wp hwp
  exact hrun

/-- A region with the mark prints its value over its row, whatever it watches. -/
theorem processChanges_of_stale (h : r.stale = true) (hs : r.syncing = false)
    (hauto : r.autoReprint = true) :
    ∃ r', processChanges r = .ok true r' ∧ r'.tokens = r.valueRow := by
  have hwp : wp processChanges (fun changed r' => changed = true ∧ r'.tokens = r.valueRow)
      (fun _ _ => False) r := by
    simp only [processChanges, wp_bind, wp_get, wp_ite, wp_set, wp_pure, h, hauto, if_true, wp_sync,
      hs, Bool.false_eq_true, if_false]
    rw [wp_reprintToTokens_guarded (.inl rfl)]
    exact ⟨trivial, tokens_reprinted _⟩
  obtain ⟨_, r', hrun, rfl, htokens⟩ := exists_of_wp hwp
  exact ⟨r', hrun, htokens⟩

theorem released_clear (hs : r.syncing = false) (hr : r.restoring = false)
    (hauto : r.autoReparse = true) :
    (r.after clear).subscriptions = [] ∧ (r.after clear).stale = r.stale := by
  refine (after_iff (P := fun r' => r'.subscriptions = [] ∧ r'.stale = r.stale)).2 ?_
  simp only [clear, setTokens, wp_bind, wp_get, wp_splice]
  rw [if_neg (by simp), if_pos hauto, wp_sync, if_neg (by simp [spliced, hs]), wp_reparse,
    if_neg (by simp [spliced, underSync, hr]), if_pos (by simp [spliced, underSync])]
  exact ⟨rfl, rfl⟩

theorem released_setValue (hs : r.syncing = false) (hauto : r.autoReprint = true) :
    (r.after (setValue none)).subscriptions = [] ∧ (r.after (setValue none)).stale = r.stale := by
  refine (after_iff (P := fun r' => r'.subscriptions = [] ∧ r'.stale = r.stale)).2 ?_
  simp only [setValue, wp_bind, wp_modify, wp_get, wp_ite, wp_pure, hauto, if_true, wp_sync, hs,
    Bool.false_eq_true, if_false]
  rw [wp_reprintToTokens_guarded (.inl rfl)]
  exact ⟨rfl, rfl⟩

/-! ### Runs of a host -/

/-- The subscriptions that fire at a call. -/
def Call.fires : Call V → Region V → List Subscription
  | .setText c _, r => r.subscriptions.filter (·.cell = c)
  | _, _ => []

/-- A region in the hands of a host, with those of its subscriptions that have fired since they were
made. -/
structure Hosted (V : Type) where
  region : Region V
  fired : List Subscription := []

namespace Hosted
variable {h : Hosted V}

def call (h : Hosted V) (c : Call V) : Hosted V :=
  let r := h.region.after c.run
  ⟨r, (h.fired ++ c.fires h.region).filter (· ∈ r.subscriptions)⟩

def calls (h : Hosted V) (cs : List (Call V)) : Hosted V :=
  cs.foldl call h

/-- The mark comes from a subscription that the region holds, if it holds any. -/
structure Tells (h : Hosted V) : Prop where
  alone : h.region.Alone
  live : h.region.stale = true → h.region.subscriptions = [] ∨
    ∃ s ∈ h.region.subscriptions, s ∈ h.fired

theorem Tells.of_heeds {c : Call V} (ht : h.Tells) (hr : (h.region.after c.run).Alone)
    (hheeds : h.region.Heeds (h.region.after c.run)) : (h.call c).Tells := by
  refine ⟨hr, fun hstale => ?_⟩
  have hstale : (h.region.after c.run).stale = true := hstale
  rcases hheeds with hfresh | hnone | ⟨hsame, hsubs⟩
  · rw [hfresh] at hstale
    cases hstale
  · exact .inl hnone
  · rcases ht.live (hsame ▸ hstale) with hnone | ⟨s, hs, hfired⟩
    · exact .inl (hsubs.trans hnone)
    · have hs : s ∈ (h.region.after c.run).subscriptions := hsubs ▸ hs
      refine .inr ⟨s, hs, List.mem_filter.2 ⟨List.mem_append_left _ hfired, ?_⟩⟩
      exact decide_eq_true hs

theorem Tells.setText (ht : h.Tells) (x : CellId) (t : Text) : (h.call (.setText x t)).Tells := by
  refine ⟨fun s hs => ht.alone s hs.of_setText, fun hstale => ?_⟩
  have hstale : (h.region.stale || decide (0 < h.region.cells.listenerCount x)) = true := hstale
  -- a subscription that fires stays, and so does one that has fired
  have hlive : ∀ s ∈ h.region.subscriptions,
      s ∈ h.fired ++ (Call.setText x t).fires h.region → s ∈ (h.call (.setText x t)).fired :=
    fun s hs hfired => List.mem_filter.2 ⟨hfired, decide_eq_true hs⟩
  rcases Bool.or_eq_true_iff.1 hstale with hstale | hcount
  · rcases ht.live hstale with hnone | ⟨s, hs, hfired⟩
    · exact .inl hnone
    · exact .inr ⟨s, hs, hlive s hs (List.mem_append_left _ hfired)⟩
  · obtain ⟨s, hlistens, rfl⟩ := Cells.exists_listens (of_decide_eq_true hcount)
    have hs := ht.alone s hlistens
    refine .inr ⟨s, hs, hlive s hs (List.mem_append_right _ (List.mem_filter.2 ⟨hs, ?_⟩))⟩
    exact decide_eq_true rfl

theorem Tells.call [QuietPayload V] (ht : h.Tells) (c : Call V) : (h.call c).Tells := by
  rcases Call.after_cases c.within_unlimited h.region with hpass | ⟨texts, hafter⟩ | ⟨x, t, rfl⟩
  · exact ht.of_heeds (hpass.invariant (fun hs => hs.alone) ht.alone)
      (hpass.invariant (I := h.region.Heeds) (fun hs h => h.trans hs.heeds) (.inr (.inr ⟨rfl, rfl⟩)))
  · refine ht.of_heeds ?_ ?_ <;> rw [hafter]
    · exact fun s hs => ht.alone s (hs.of_adds (Cells.adds_texts _ texts))
    · exact .inr (.inr ⟨rfl, rfl⟩)
  · exact ht.setText x t

theorem Tells.calls [QuietPayload V] (ht : h.Tells) (cs : List (Call V)) : (h.calls cs).Tells := by
  induction cs generalizing h with
  | nil => exact ht
  | cons c cs ih => exact ih (ht.call c)

omit [Payload V] in
theorem Tells.new (l : Language V) {cells : Cells} (hcells : ∀ s, ¬ cells.Listens s)
    (settings : Settings) : (Hosted.mk (Region.new l cells settings) []).Tells :=
  ⟨fun s hs => absurd hs (hcells s), by rintro ⟨⟩⟩

theorem restoring_calls (cs : List (Call V)) (hr : h.region.restoring = false) :
    (h.calls cs).region.restoring = false := by
  induction cs generalizing h with
  | nil => exact hr
  | cons c cs ih => exact ih ((Call.restoring_after c.within_unlimited h.region).trans hr)

end Hosted

/-- As long as a region watches anything, it acts on a change only if a subscription that it holds
has fired since it was made. Giving all subscriptions up leaves a mark that is there, and a region
with the mark prints its value over its row, though it watches nothing. -/
theorem notices_live_or_left [QuietPayload V] (l : Language V) {cells : Cells}
    (hcells : ∀ s, ¬ cells.Listens s) (settings : Settings) (cs : List (Call V)) {h : Hosted V}
    (hrun : h = (Hosted.mk (Region.new l cells settings) []).calls cs) :
    (h.region.subscriptions ≠ [] → (∀ s ∈ h.region.subscriptions, s ∉ h.fired) →
      processChanges h.region = .ok false h.region) ∧
    (h.region.syncing = false → h.region.autoReparse = true → h.region.autoReprint = true →
      (∀ op : Op V, op = .clear ∨ op = .dispose ∨ op = .setValue none →
        (h.region.after op.run).subscriptions = [] ∧
          (h.region.after op.run).stale = h.region.stale) ∧
      (h.region.stale = true →
        ∃ r', processChanges h.region = .ok true r' ∧ r'.tokens = h.region.valueRow)) := by
  have htells : h.Tells := hrun ▸ (Hosted.Tells.new l hcells settings).calls cs
  have hrestoring : h.region.restoring = false := hrun ▸ Hosted.restoring_calls cs rfl
  refine ⟨fun hwatches hnone => ?_, fun hs hparse hprint => ⟨fun op hop => ?_, fun hstale => ?_⟩⟩
  · refine processChanges_of_fresh (Bool.eq_false_iff.2 fun hstale => ?_)
    rcases htells.live hstale with hempty | ⟨s, hs, hfired⟩
    · exact hwatches hempty
    · exact hnone s hs hfired
  · rcases hop with rfl | rfl | rfl
    · exact released_clear hs hrestoring hparse
    · exact ⟨rfl, rfl⟩
    · exact released_setValue hs hprint
  · exact processChanges_of_stale hstale hs hprint

/-- The text of a value changes, the row is cleared and a lone `+` put in: the notice of the text
that nobody watches any more clears the row again. -/
theorem notices_live_or_left_text : ∃ h : Hosted Expr,
    h = (Hosted.mk (Region.new (Expr.language {}) ⟨[{ text := ['o', 'l', 'd'] }]⟩ {}) []).calls
      [.op (.setTokens [.value (.text 0)]), .setText 1 ['n', 'e', 'w'], .op .clear,
        .op (.insert 0 Expr.plusToken)] ∧
    h.region.tokens = [Expr.plusToken] ∧ h.region.subscriptions = [] ∧
    ∃ r', processChanges h.region = .ok true r' ∧ r'.tokens = [] := by
  have hquiet : ∀ s, ¬ Cells.Listens ⟨[{ text := ['o', 'l', 'd'] }]⟩ s := by
    rintro s ⟨cell, hcell, hmem⟩
    obtain rfl := List.mem_singleton.1 (List.mem_of_getElem? hcell)
    cases hmem
  obtain ⟨-, hleft⟩ := notices_live_or_left (Expr.language {}) hquiet {}
    [.op (.setTokens [.value (.text 0)]), .setText 1 ['n', 'e', 'w'], .op .clear,
      .op (.insert 0 Expr.plusToken)] rfl
  obtain ⟨-, hacts⟩ := hleft (by decide +kernel) (by decide +kernel) (by decide +kernel)
  obtain ⟨r', hrun, htokens⟩ := hacts (by decide +kernel)
  refine ⟨_, rfl, by decide +kernel, by decide +kernel, r', hrun, htokens.trans ?_⟩
  decide +kernel

end Region

end TokenEditor
