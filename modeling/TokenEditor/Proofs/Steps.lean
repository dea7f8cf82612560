import TokenEditor.Editor.Commands
import TokenEditor.Proofs.Acts

/-! # The steps of an editor

Every operation of an editor is a path of small steps (`Step`): it acts on the region, edits one
view, moves the focus, changes the selection, or opens, polls and closes the menu; in between the
language may answer a request or give it up, and the host may change cells. An act may also fail and
the operation go on: completion items learn how their calls end, and need not hand an error on. This
module states the steps and follows the parts that all operations share; `Operations` follows the
operations themselves.

Two properties go along. An editor is `Loose` if every view projects its token and the selection is
not empty; every step keeps that, if it selects no empty span. It is `Placed` if the focus names what
is there and the selection lies in the row; that is lost when the row changes, and comes back with
`repairFocus`. -/

namespace TokenEditor
variable {V : Type}

/-- A request for later items, as it was made. -/
structure Request (V : Type) where
  supplier : Supplier
  promise : Promise V
  tokens : List (Token V)
  generation : Nat

/-- What a step means for the requests made so far. -/
inductive Event (V : Type) where
  | requested (request : Request V)
  /-- The menu was closed, and with it the request that it waited for. -/
  | closed
  | sent (id : Nat) (items : List (Item V))
  | other

namespace Item
variable {items : List (Item V)} {i : Item V} {t : Text}

theorem mem_of_mem_matching (h : i ∈ matching items t) : i ∈ items := by
  unfold matching at h
  simp only at h
  split at h
  · exact List.mem_of_mem_filter (List.mem_of_mem_filter h)
  · exact List.mem_of_mem_filter h

theorem mem_of_chosen {u : Text} (h : chosen items t = some (i, u)) : i ∈ items := by
  unfold chosen at h
  split at h
  · rename_i hmatching
    cases h
    exact mem_of_mem_matching (t := t) (by simp [hmatching])
  · obtain ⟨i, hi, hsame⟩ := Option.map_eq_some_iff.1 h
    cases hsame
    exact List.mem_of_mem_filter (List.mem_of_find?_eq_some hi)

end Item

theorem Channels.set_self {cs : Channels V} {id : Nat} {c : Channel (List (Item V))}
    (h : cs[id]? = some c) : cs.set id c = cs := by
  obtain ⟨hlt, rfl⟩ := List.getElem?_eq_some_iff.1 h
  exact List.set_getElem_self hlt

namespace Editor

/-- The request that the menu makes when it is opened for `s`. -/
def request (s : Supplier) (params : Params) (e : Editor V) : Request V where
  supplier := s
  promise := (e.requestLater s params).1.promise
  tokens := e.tokens
  generation := e.region.modifications

/-- The menu opened for `s`, before it looks for an answer. -/
def opened (s : Supplier) (params : Params) (e : Editor V) : Editor V :=
  { (e.requestLater s params).2.closeMenu with
    menu := { active := true, pending := some (e.requestLater s params).1 } }

/-- The language answers one request; tells whether the answer will be seen. -/
def send (id : Nat) (items : List (Item V)) (e : Editor V) : Bool × Editor V :=
  match e.channels[id]? with
  | none => (false, e)
  | some c => ((c.send items).1, { e with channels := e.channels.set id (c.send items).2 })

/-- The language gives one request up. -/
def dropSender (id : Nat) (e : Editor V) : Editor V :=
  { e with channels := e.channels.modify id Channel.close }

theorem activateMenu_eq (e : Editor V) :
    e.activateMenu = (e.opened e.menuSupplier.1 e.menuSupplier.2).pollMenu.2 := rfl

section
variable (e : Editor V) (s : Supplier) (params : Params)

@[simp] theorem region_promise (calls : List (Call V)) : (e.promise calls).2.region = e.region := by
  unfold promise
  split
  · rfl
  · split <;> rfl

@[simp] theorem region_opened : (e.opened s params).region = e.region :=
  region_promise e _

@[simp] theorem region_pollMenu : e.pollMenu.2.region = e.region := by
  unfold pollMenu
  split
  · rfl
  · dsimp only
    split <;> rfl

theorem focus_promise (calls : List (Call V)) : (e.promise calls).2.focus = e.focus ∧
    (e.promise calls).2.selection = e.selection := by
  unfold promise
  split
  · exact ⟨rfl, rfl⟩
  · split <;> exact ⟨rfl, rfl⟩

theorem focus_pollMenu : e.pollMenu.2.focus = e.focus ∧ e.pollMenu.2.selection = e.selection := by
  unfold pollMenu
  split
  · exact ⟨rfl, rfl⟩
  · dsimp only
    split <;> exact ⟨rfl, rfl⟩

theorem region_send (id : Nat) (items : List (Item V)) : (e.send id items).2.region = e.region ∧
    (e.send id items).2.selection = e.selection := by
  unfold send
  split <;> exact ⟨rfl, rfl⟩

theorem focus_send (id : Nat) (items : List (Item V)) : (e.send id items).2.focus = e.focus := by
  unfold send
  split <;> rfl

end

/-- All items that are proposed are in `I`, those that are offered at once and those that came
later. -/
structure Proposes (I : Item V → Prop) (e : Editor V) : Prop where
  offer : ∀ (s : Supplier) (params : Params), ∀ i ∈ (s.offer params e).items, I i
  received : ∀ s, ∀ i ∈ e.receivedItems s, I i

namespace Proposes
variable {I : Item V → Prop} {e : Editor V} (h : e.Proposes I)
include h

theorem typingOffer (s : Supplier) : ∀ i ∈ (e.typingOffer s).items, I i := by
  unfold Editor.typingOffer
  split
  · exact List.forall_mem_append.2 ⟨h.offer s .forMenu, h.received s⟩
  · exact h.offer s .typing

theorem menuOffer : ∀ i ∈ e.menuOffer.items, I i :=
  List.forall_mem_append.2 ⟨h.offer _ _, h.received _⟩

end Proposes

/-! ### Editors in order -/

/-- Every view projects its token, and the selection is not empty. -/
structure Loose (e : Editor V) : Prop where
  views : e.region.Projected
  selection : ∀ s, e.selection = some s → s.start < s.stop

/-- The focus names what is there, and nothing is selected of an empty row. With `q` known the
selection lies in the row. -/
structure Placed (q : Prop) (e : Editor V) : Prop where
  focus : e.focusLost = false
  selected : ∀ s, e.selection = some s → 0 < e.tokens.length
  selection : q → ∀ s, e.selection = some s → s.stop ≤ e.tokens.length

section
variable {e e' : Editor V} {q : Prop} {index : Nat} {position : Position}

theorem Placed.congr (h : e.Placed q) (hr : e'.region = e.region) (hf : e'.focus = e.focus)
    (hs : e'.selection = e.selection) : e'.Placed q := by
  obtain ⟨hfocus, hany, hsel⟩ := h
  have hrow : e'.tokens = e.tokens := congrArg Region.tokens hr
  refine ⟨?_, fun s h => hrow ▸ hany s (hs ▸ h), fun hq s h => hrow ▸ hsel hq s (hs ▸ h)⟩
  unfold focusLost tokens at hfocus ⊢
  rwa [hf, hr]

theorem Placed.setCells (h : e.Placed q) (cells : Cells) (stale : Bool)
    (subscriptions : List Subscription) : Placed q { e with region := { e.region with
      cells := cells, stale := stale, subscriptions := subscriptions } } :=
  ⟨h.focus, h.selected, h.selection⟩

theorem isSome_viewPosition?_iff {r : Region V} {id : ViewId} :
    (r.viewPosition? id).isSome ↔ ∃ v ∈ r.views, v.id = id := by
  simp [Region.viewPosition?]

theorem viewPosition?_modifyView {r : Region V} {f : View → View} (hf : View.Edit f) (id : ViewId) :
    (r.modifyView index f).viewPosition? id = r.viewPosition? id := by
  have hids : (r.views.modify index f).map View.id = r.views.map View.id := by
    refine List.ext_getElem? fun i => ?_
    simp only [List.getElem?_map, List.getElem?_modify]
    cases r.views[i]? with
    | none => rfl
    | some v =>
      simp only [Option.map_some, Option.some_inj, Option.map_eq_map]
      split
      · exact hf.id_eq v
      · rfl
  have hfind : ∀ vs : List View,
      vs.findIdx? (fun v => v.id == id) = (vs.map View.id).findIdx? (· == id) := by
    intro vs
    rw [List.findIdx?_map]
    rfl
  unfold Region.viewPosition? Region.modifyView
  rw [hfind, hids, ← hfind]

theorem focusLost_modifyView {f : View → View} (hf : View.Edit f) :
    (e.modifyView index f).focusLost = e.focusLost := by
  have hfocus : (e.modifyView index f).focus = e.focus := rfl
  unfold focusLost
  rw [hfocus]
  cases e.focus with
  | placeholder => rfl
  | token id => exact congrArg Option.isNone (viewPosition?_modifyView hf id)

theorem Placed.modifyView (h : e.Placed q) {f : View → View} (hf : View.Edit f) :
    (e.modifyView index f).Placed q :=
  ⟨(focusLost_modifyView hf).trans h.focus, h.selected, h.selection⟩

theorem Placed.closeMenu (h : e.Placed q) : e.closeMenu.Placed q :=
  h.congr rfl rfl rfl

theorem focusLost_selectToken (h : index < e.views.length) :
    (e.selectToken index position).focusLost = false := by
  have hv : e.views[index]? = some (e.views.get ⟨index, h⟩) := List.getElem?_eq_getElem h
  generalize e.views.get ⟨index, h⟩ = v at hv
  have hthere : ∀ (f : View → View) (e' : Editor V), (f v).id = v.id →
      e'.region = e.region.modifyView index f →
      ({ e' with focus := .token v.id } : Editor V).focusLost = false := by
    intro f e' hid hr
    show (e'.region.viewPosition? v.id).isNone = false
    rw [Option.isNone_eq_false_iff, isSome_viewPosition?_iff, hr]
    have hat : (e.views.modify index f)[index]? = some (f v) := by simp [hv]
    exact ⟨f v, List.mem_of_getElem? hat, hid⟩
  unfold selectToken
  rw [hv]
  simp only
  split_ifs
  · exact hthere _ _ rfl rfl
  · exact hthere _ _ rfl rfl

theorem tokens_selectToken : (e.selectToken index position).tokens = e.tokens := by
  unfold selectToken
  split
  · rfl
  · simp only
    split_ifs <;> rfl

theorem selection_selectToken : (e.selectToken index position).selection = e.selection := by
  unfold selectToken
  split
  · rfl
  · simp only
    split_ifs <;> rfl

theorem Placed.selectToken (h : e.Placed q) : (e.selectToken index position).Placed q := by
  by_cases hin : index < e.views.length
  · refine ⟨focusLost_selectToken hin, fun s hs => ?_, fun hq s hs => ?_⟩ <;> rw [tokens_selectToken]
    · exact h.selected s (selection_selectToken (e := e) ▸ hs)
    · exact h.selection hq s (selection_selectToken (e := e) ▸ hs)
  · have hnone : e.views[index]? = none := List.getElem?_eq_none (by omega)
    unfold Editor.selectToken
    rw [hnone]
    exact h

/-- The focus that repairing finds. -/
def refocused (e : Editor V) : Editor V :=
  if e.focusLost then
    if e.tokens.length = 0 then e.focusPlaceholder else e.selectToken (e.tokens.length - 1) .last
  else e

theorem repairFocus_eq (e : Editor V) : e.repairFocus =
    match e.refocused.selection with
    | some s =>
      if e.tokens.length < s.stop then { e.refocused with selection := none } else e.refocused
    | none => e.refocused := rfl

theorem focusLost_refocused (h : e.Loose) : e.refocused.focusLost = false := by
  unfold refocused
  split_ifs with hlost hempty
  · show (!e.tokens.isEmpty) = false
    simp [List.eq_nil_of_length_eq_zero hempty]
  · have hlen : e.views.length = e.tokens.length := h.views.length_eq
    exact focusLost_selectToken (by omega)
  · exact Bool.not_eq_true _ ▸ hlost

theorem tokens_refocused : e.refocused.tokens = e.tokens := by
  unfold refocused
  split_ifs
  · rfl
  · exact tokens_selectToken
  · rfl

theorem selection_refocused : e.refocused.selection = e.selection := by
  unfold refocused
  split_ifs
  · rfl
  · exact selection_selectToken
  · rfl

/-- Whatever the focus and the selection were, repairing puts them in order. -/
theorem placed_repairFocus (h : e.Loose) : e.repairFocus.Placed q := by
  have hfocus := focusLost_refocused h
  rw [repairFocus_eq]
  split
  · rename_i s hs
    split_ifs with hout
    · exact ⟨hfocus, by rintro s ⟨⟩, by rintro - s ⟨⟩⟩
    · have hne : s.start < s.stop := h.selection s (selection_refocused.symm.trans hs)
      refine ⟨hfocus, fun s' hs' => ?_, fun _ s' hs' => ?_⟩
      all_goals
        cases hs.symm.trans hs'
        rw [tokens_refocused]
        omega
  · rename_i hs
    exact ⟨hfocus, fun s hs' => (nomatch hs.symm.trans hs'), fun _ s hs' => nomatch hs.symm.trans hs'⟩

end

/-- The caret moved, before the focus is repaired. -/
def moved (m : Move) (e : Editor V) : Editor V :=
  match m.target with
  | .token index position => e.selectToken index position
  | .placeholder => e.focusPlaceholder
  | .unchanged => e

theorem run_eq (m : Move) (e : Editor V) : e.run m =
    if m.reopen && (e.moved m).repairFocus.ambiguousBeforeCaret then
      (e.moved m).repairFocus.activateMenu
    else (e.moved m).repairFocus := rfl

end Editor

/-! ### Steps -/

namespace Effect

/-- Of the calls that fail with a mismatch none is passed over: the effect ends with that error. -/
def HandsOn : Effect V → Prop
  | done _ | fail _ => True
  | look _ next => ∀ scope cells, (next scope cells).HandsOn
  | complete _ _ next =>
    (∀ err, err.IsMismatch → next (.error err) = fail err) ∧ ∀ result, (next result).HandsOn
  | remove _ next =>
    (∀ err, err.IsMismatch → next (.error err) = fail err) ∧ ∀ result, (next result).HandsOn

/-- The effect does not end with a mismatch unless its last call has. -/
def Sincere : Effect V → Prop
  | done _ => True
  | fail err => ¬ err.IsMismatch
  | look _ next => ∀ scope cells, (next scope cells).Sincere
  | complete _ _ next => (∀ move, (next (.ok move)).Sincere) ∧
    ∀ err, next (.error err) = fail err ∨ (next (.error err)).Sincere
  | remove _ next => (∀ t, (next (.ok t)).Sincere) ∧
    ∀ err, next (.error err) = fail err ∨ (next (.error err)).Sincere

theorem handsOn_plain (removals : List Nat) (insertion : Option (Insertion V)) :
    (plain removals insertion).HandsOn := by
  induction removals with
  | nil =>
    cases insertion with
    | none => trivial
    | some i => exact ⟨fun _ _ => rfl, fun result => by cases result <;> trivial⟩
  | cons index removals ih =>
    refine ⟨fun _ _ => rfl, fun result => ?_⟩
    cases result with
    | error err => trivial
    | ok t => exact ih

theorem sincere_plain (removals : List Nat) (insertion : Option (Insertion V)) :
    (plain removals insertion).Sincere := by
  induction removals with
  | nil =>
    cases insertion with
    | none => trivial
    | some i => exact ⟨fun _ => trivial, fun _ => .inl rfl⟩
  | cons index removals ih => exact ⟨fun _ => ih, fun _ => .inl rfl⟩

end Effect

namespace Item

/-- Wherever it is applied, the item keeps no mismatch to itself. -/
def HandsOn (i : Item V) : Prop :=
  ∀ scope t cells, ((i.effect scope t).run cells).1.HandsOn

/-- Wherever it is applied, the item makes up no mismatch. -/
def Sincere (i : Item V) : Prop :=
  ∀ scope t cells, ((i.effect scope t).run cells).1.Sincere

/-- Wherever it is applied, the item removes some tokens and then puts some in or none, and hands on
what fails. -/
def IsPlain (i : Item V) : Prop :=
  ∀ scope t cells, ∃ removals insertion,
    ((i.effect scope t).run cells).1 = .plain removals insertion

theorem IsPlain.handsOn {i : Item V} (h : i.IsPlain) : i.HandsOn := by
  intro scope t cells
  obtain ⟨removals, insertion, heffect⟩ := h scope t cells
  exact heffect ▸ Effect.handsOn_plain removals insertion

theorem IsPlain.sincere {i : Item V} (h : i.IsPlain) : i.Sincere := by
  intro scope t cells
  obtain ⟨removals, insertion, heffect⟩ := h scope t cells
  exact heffect ▸ Effect.sincere_plain removals insertion

end Item

/-- What is known of the operations on a path. -/
structure Terms (V : Type) where
  /-- The acts on the region that there are besides edits of its row. -/
  acts : Region.Act V → Prop
  /-- The items that are applied. -/
  items : Item V → Prop
  /-- Trees are as long as their rows. -/
  measured : Prop

namespace Terms

/-- Anything may be done, and nothing is known. -/
def any : Terms V := ⟨fun _ => True, fun _ => True, False⟩

def HandsOn (T : Terms V) : Prop := ∀ i, T.items i → i.HandsOn

def Sincere (T : Terms V) : Prop := ∀ i, T.items i → i.Sincere

/-- Some item passes over whatever fails. -/
theorem not_handsOn_any : ¬ (any : Terms V).HandsOn := by
  intro h
  have hitem := h (.exact [] fun _ _ => pure (.complete 0 [] fun _ => .done .stay)) trivial .nowhere [] {}
  cases hitem.1 (.mismatch 0 0) trivial

end Terms

namespace Editor
variable [Payload V]

/-- One step, and what it means for the requests. Acts on the region are the edits of its row, and
those of `T`. -/
inductive Step (T : Terms V) : Editor V → Event V → Editor V → Prop
  | act {e : Editor V} {act : Region.Act V} {r : Region V} : act.IsEdit ∨ T.acts act →
      act.run e.region = .ok () r → Step T e .other { e with region := r }
  /-- An act that failed, and whose error an item has kept to itself. -/
  | fault {e : Editor V} {act : Region.Act V} {err : EditError} {r : Region V} :
      act.IsEdit ∨ T.acts act → act.run e.region = .error err r →
      (T.HandsOn → ¬ err.IsMismatch) → Step T e .other { e with region := r }
  | view {e : Editor V} (index : Nat) {f : View → View} : View.Edit f →
      Step T e .other (e.modifyView index f)
  | cells {e : Editor V} (cells : Cells) (stale : Bool) (subscriptions : List Subscription) :
      Step T e .other { e with region := { e.region with
        cells := cells, stale := stale, subscriptions := subscriptions } }
  | aside {e : Editor V} (focus : Focus) (placeholder : Text) (emptied : Nat) (settings : Settings)
      (owed : List Nat) : Step T e .other { e with
        focus := focus, placeholder := placeholder, emptied := emptied, settings := settings,
        owed := owed }
  | mark {e : Editor V} (s : Option Span) : Step T e .other { e with selection := s }
  | close {e : Editor V} : Step T e .closed e.closeMenu
  | openMenu {e : Editor V} (s : Supplier) (params : Params) :
      Step T e (.requested (e.request s params)) (e.opened s params)
  | poll {e : Editor V} : Step T e .other e.pollMenu.2
  | send {e : Editor V} {id : Nat} {items : List (Item V)} : (∀ i ∈ items, T.items i) →
      (e.send id items).1 = true → Step T e (.sent id items) (e.send id items).2
  | drop {e : Editor V} (id : Nat) : Step T e .other (e.dropSender id)

/-- A path of steps from `start`, with what its steps mean, first step first. -/
inductive Path (T : Terms V) (start : Editor V) : List (Event V) → Editor V → Prop
  | refl : Path T start [] start
  | step {evs : List (Event V)} {e e' : Editor V} {ev : Event V} :
      Path T start evs e → Step T e ev e' → Path T start (evs ++ [ev]) e'

section
variable {T : Terms V} {p : Prop} {start e e' : Editor V} {ev : Event V}

theorem moves_of_ok {act : Region.Act V} {r r' : Region V} (h : act.run r = .ok () r') :
    r.Moves r' := by
  have := act.moves r
  rwa [wp, h] at this

theorem moves_of_error {act : Region.Act V} {r r' : Region V} {err : EditError}
    (h : act.run r = .error err r') : r.Moves r' := by
  have := act.moves r
  rwa [wp, h] at this

theorem Step.projected (hs : Step T e ev e') (h : e.region.Projected) : e'.region.Projected := by
  cases hs with
  | act _ hrun => exact (moves_of_ok hrun).projected h
  | fault _ hrun _ => exact (moves_of_error hrun).projected h
  | view index hf => exact h.modifyView index hf
  | openMenu s params => exact (region_opened e s params).symm ▸ h
  | poll => exact (region_pollMenu e).symm ▸ h
  | send _ _ => exact (region_send e _ _).1.symm ▸ h
  | cells | aside | mark | close | drop => exact h

/-- What holds of the region and survives acts, also those that fail, edits of views and changes of
cells holds along a path. -/
theorem Path.region {I : Region V → Prop} {evs : List (Event V)} (h : Path T start evs e)
    (hact : ∀ {act : Region.Act V} {r r' : Region V}, act.IsEdit ∨ T.acts act →
      act.run r = .ok () r' → I r → I r')
    (hfault : ∀ {act : Region.Act V} {err : EditError} {r r' : Region V}, act.IsEdit ∨ T.acts act →
      act.run r = .error err r' → (T.HandsOn → ¬ err.IsMismatch) → I r → I r')
    (hview : ∀ {r : Region V} {index : Nat} {f : View → View}, View.Edit f → I r →
      I (r.modifyView index f))
    (hcells : ∀ {r : Region V} {cells : Cells} {stale : Bool} {subscriptions : List Subscription},
      I r → I { r with cells := cells, stale := stale, subscriptions := subscriptions })
    (hstart : I start.region) : I e.region := by
  induction h with
  | refl => exact hstart
  | step _ hs ih =>
    cases hs with
    | act hB hrun => exact hact hB hrun ih
    | fault hB hrun herr => exact hfault hB hrun herr ih
    | view index hf => exact hview hf ih
    | cells => exact hcells ih
    | openMenu s params => exact (region_opened _ s params).symm ▸ ih
    | poll => exact (region_pollMenu _).symm ▸ ih
    | send _ _ => exact (region_send _ _ _).1.symm ▸ ih
    | aside | mark | close | drop => exact ih

/-- A region stays in step along a path, if the languages count right or no mismatch is kept. -/
theorem Path.inStep {L : Language V → Prop} {C : Token V → Prop} {evs : List (Event V)}
    (h : Path T start evs e) (hC : Language.Prints L C)
    (hB : ∀ act : Region.Act V, act.IsEdit ∨ T.acts act → act.Within L C)
    (hsafe : (∀ l, L l → l.Counts C) ∨ T.HandsOn) (hstart : start.region.InStep L C) :
    e.region.InStep L C := by
  refine h.region (I := Region.InStep L C) (fun {act r r'} hact hrun hr => ?_)
    (fun {act err r r'} hact hrun herr hr => ?_) (fun {r index f} _ hr => hr.modifyView index f)
    (fun hr => hr.setCells _ _ _) hstart
  · have hwp := Region.Act.inStep hC (hB act hact) hr
    rwa [wp, hrun] at hwp
  · have hwp := Region.Act.inStep hC (hB act hact) hr
    rw [wp, hrun] at hwp
    rcases hwp with ⟨hmismatch, l, hl, hmis⟩ | ⟨hr', -⟩
    · rcases hsafe with hcounts | hon
      · exact absurd (hcounts l hl) hmis
      · exact absurd hmismatch (herr hon)
    · exact hr'

/-- `e` is on the way from `start`. With `p` known it is also `Loose`. -/
structure Via (T : Terms V) (p : Prop) (start e : Editor V) : Prop where
  path : ∃ evs, Path T start evs e
  loose : p → e.Loose

/-- `e` is on the way from `start`, at a place where an operation may end. -/
structure Rests (T : Terms V) (p : Prop) (start e : Editor V) : Prop
    extends Via T p start e where
  placed : p → e.Placed T.measured

/-- An operation on the way from `start` failed and left `e`: it acted on the region in vain, or
gave up. Only items may then speak of a mismatch. -/
def Fails (T : Terms V) (p : Prop) (start : Editor V) (err : EditError) (e : Editor V) :
    Prop :=
  ∃ before, Via T p start before ∧
    (e = before ∧ (T.Sincere → ¬ err.IsMismatch) ∨
      ∃ act r, (act.IsEdit ∨ T.acts act) ∧ act.run before.region = .error err r ∧
        e = { before with region := r })

theorem Fails.of_via {err : EditError} (h : Via T p start e) (herr : ¬ err.IsMismatch) :
    Fails T p start err e :=
  ⟨e, h, .inl ⟨rfl, fun _ => herr⟩⟩

namespace Via

theorem step (h : Via T p start e) (hs : Step T e ev e')
    (hsel : e'.selection = e.selection) : Via T p start e' := by
  obtain ⟨⟨evs, hpath⟩, hloose⟩ := h
  refine ⟨⟨_, hpath.step hs⟩, fun hp => ⟨hs.projected (hloose hp).views, fun s h => ?_⟩⟩
  exact (hloose hp).selection s (hsel ▸ h)

theorem mark (h : Via T p start e) {s : Option Span} (hs : p → ∀ t, s = some t → t.start < t.stop) :
    Via T p start { e with selection := s } := by
  obtain ⟨⟨evs, hpath⟩, hloose⟩ := h
  exact ⟨⟨_, hpath.step (.mark s)⟩, fun hp => ⟨(hloose hp).views, hs hp⟩⟩

theorem modifyView (h : Via T p start e) (index : Nat) {f : View → View} (hf : View.Edit f) :
    Via T p start (e.modifyView index f) :=
  h.step (.view index hf) rfl

theorem closeMenu (h : Via T p start e) : Via T p start e.closeMenu :=
  h.step .close rfl

theorem setFocus (h : Via T p start e) (focus : Focus) : Via T p start { e with focus := focus } :=
  h.step (.aside focus e.placeholder e.emptied e.settings e.owed) rfl

theorem setPlaceholder (h : Via T p start e) (text : Text) :
    Via T p start { e with placeholder := text } :=
  h.step (.aside e.focus text e.emptied e.settings e.owed) rfl

theorem setEmptied (h : Via T p start e) (emptied : Nat) :
    Via T p start { e with emptied := emptied } :=
  h.step (.aside e.focus e.placeholder emptied e.settings e.owed) rfl

theorem setOwed (h : Via T p start e) (owed : List Nat) : Via T p start { e with owed := owed } :=
  h.step (.aside e.focus e.placeholder e.emptied e.settings owed) rfl

theorem setSettings (h : Via T p start e) (settings : Settings) :
    Via T p start { e with settings := settings } :=
  h.step (.aside e.focus e.placeholder e.emptied settings e.owed) rfl

theorem deselect (h : Via T p start e) : Via T p start { e with selection := none } :=
  h.mark fun _ => by rintro t ⟨⟩

theorem focusPlaceholder (h : Via T p start e) : Via T p start e.focusPlaceholder :=
  h.step (.aside .placeholder [] e.emptied e.settings e.owed) rfl

theorem selectToken (h : Via T p start e) (index : Nat) (position : Position) :
    Via T p start (e.selectToken index position) := by
  unfold Editor.selectToken
  split
  · exact h
  · simp only
    split_ifs
    · exact (h.modifyView index (.setCaret _)).setFocus _
    · exact (h.modifyView index (.setCaret _)).closeMenu.setFocus _

theorem repairFocus (h : Via T p start e) : Via T p start e.repairFocus := by
  have hre : Via T p start e.refocused := by
    unfold refocused
    split_ifs
    · exact h.focusPlaceholder
    · exact h.selectToken _ _
    · exact h
  rw [repairFocus_eq]
  split
  · split_ifs
    · exact hre.deselect
    · exact hre
  · exact hre

theorem rests_repairFocus (h : Via T p start e) : Rests T p start e.repairFocus :=
  ⟨h.repairFocus, fun hp => placed_repairFocus (h.loose hp)⟩

theorem dropSenders (h : Via T p start e) (ids : List Nat) : Via T p start { e with
    channels := ids.foldl (fun cs id => cs.modify id Channel.close) e.channels } := by
  induction ids generalizing e with
  | nil => exact h
  | cons id ids ih => exact ih (h.step (.drop id) rfl)

end Via

namespace Rests

theorem modifyView (h : Rests T p start e) (index : Nat) {f : View → View} (hf : View.Edit f) :
    Rests T p start (e.modifyView index f) :=
  ⟨h.toVia.modifyView index hf, fun hp => (h.placed hp).modifyView hf⟩

theorem closeMenu (h : Rests T p start e) : Rests T p start e.closeMenu :=
  ⟨h.toVia.closeMenu, fun hp => (h.placed hp).closeMenu⟩

theorem setPlaceholder (h : Rests T p start e) (text : Text) :
    Rests T p start { e with placeholder := text } :=
  ⟨h.toVia.setPlaceholder text, fun hp => (h.placed hp).congr rfl rfl rfl⟩

theorem selectToken (h : Rests T p start e) (index : Nat) (position : Position) :
    Rests T p start (e.selectToken index position) :=
  ⟨h.toVia.selectToken index position, fun hp => (h.placed hp).selectToken⟩

theorem setCells (h : Rests T p start e) (cells : Cells) (stale : Bool)
    (subscriptions : List Subscription) : Rests T p start { e with region := { e.region with
      cells := cells, stale := stale, subscriptions := subscriptions } } :=
  ⟨h.toVia.step (.cells cells stale subscriptions) rfl, fun hp => (h.placed hp).setCells _ _ _⟩

theorem activateMenu (h : Rests T p start e) : Rests T p start e.activateMenu := by
  obtain ⟨hfocus, hsel⟩ := focus_promise e (e.menuSupplier.1.laterCalls e.menuSupplier.2 e)
  obtain ⟨hfocus', hsel'⟩ := focus_pollMenu (e.opened e.menuSupplier.1 e.menuSupplier.2)
  rw [activateMenu_eq]
  refine ⟨(h.toVia.step (.openMenu _ _) hsel).step .poll hsel', fun hp =>
    (h.placed hp).congr ?_ ?_ ?_⟩
  · rw [region_pollMenu, region_opened]
  · exact hfocus'.trans hfocus
  · exact hsel'.trans hsel

theorem pollMenu (h : Rests T p start e) : Rests T p start e.pollMenu.2 :=
  ⟨h.toVia.step .poll (focus_pollMenu e).2, fun hp =>
    (h.placed hp).congr (region_pollMenu e) (focus_pollMenu e).1 (focus_pollMenu e).2⟩

end Rests

theorem Via.run (h : Via T p start e) (m : Move) : Rests T p start (e.run m) := by
  have hmoved : Via T p start (e.moved m) := by
    unfold moved
    split
    · exact h.selectToken _ _
    · exact h.focusPlaceholder
    · exact h
  rw [run_eq]
  split_ifs
  · exact hmoved.rests_repairFocus.activateMenu
  · exact hmoved.rests_repairFocus

end

/-- From a state with `P` the operation goes, step by step, to one with `Q`, or fails. -/
def Leads (T : Terms V) (p : Prop) (start : Editor V) {α : Type}
    (P Q : Editor V → Prop) (f : EditM V α) : Prop :=
  ∀ e, P e → wp f (fun _ e' => Q e') (Fails T p start) e

/-- The operation stays on the way. -/
abbrev Walks (T : Terms V) (p : Prop) (start : Editor V) {α : Type} (f : EditM V α) :
    Prop :=
  Leads T p start (Via T p start) (Via T p start) f

/-- The operation takes an editor at rest to one at rest. -/
abbrev Settles (T : Terms V) (p : Prop) (start : Editor V) {α : Type} (f : EditM V α) :
    Prop :=
  Leads T p start (Rests T p start) (Rests T p start) f

section
variable {T : Terms V} {p : Prop} {start : Editor V} {α β : Type}
  {P Q R : Editor V → Prop} {f : EditM V α} {g : α → EditM V β}

namespace Leads

theorem bind (hf : Leads T p start P Q f) (hg : ∀ a, Leads T p start Q R (g a)) :
    Leads T p start P R (f >>= g) :=
  fun e he => wp_seq (hf e he) hg

theorem get_bind {g : Editor V → EditM V β}
    (h : ∀ e, P e → wp (g e) (fun _ e' => Q e') (Fails T p start) e) :
    Leads T p start P Q (get >>= g) := by
  intro e he
  rw [wp_bind]
  exact h e he

theorem modifies {f : Editor V → Editor V} (h : ∀ e, P e → Q (f e)) :
    Leads T p start P Q (modify f : EditM V PUnit) := h

theorem discard (h : Leads T p start P Q f) : Leads T p start P Q (discard f) :=
  fun e he => (wp_discard f).2 (h e he)

theorem mono {P' Q' : Editor V → Prop} (h : Leads T p start P Q f) (hP : ∀ e, P' e → P e)
    (hQ : ∀ e, Q e → Q' e) : Leads T p start P' Q' f :=
  fun e he => wp_mono (h e (hP e he)) (fun _ e' => hQ e') (fun _ _ h => h)

theorem throw {err : EditError} (hP : ∀ e, P e → Via T p start e)
    (h : ¬ err.IsMismatch) : Leads T p start P Q (throw err : EditM V α) :=
  fun e he => .of_via (hP e he) h

theorem of_rests (h : Leads T p start (Via T p start) Q f) :
    Leads T p start (Rests T p start) Q f :=
  h.mono (fun _ => Rests.toVia) fun _ h => h

end Leads

namespace Walks

theorem pure (a : α) : Walks T p start (pure a : EditM V α) := fun _ h => h

theorem get : Walks T p start (get : EditM V (Editor V)) := fun _ h => h

theorem throw {err : EditError} (h : ¬ err.IsMismatch) : Walks T p start (throw err : EditM V α) :=
  Leads.throw (fun _ h => h) h

/-- An operation that goes on from how `f` has ended. An error that is a mismatch may have to be
handed on. -/
theorem observing {f : EditM V α} {g : Except EditError α → EditM V β} (hf : Walks T p start f)
    (hok : ∀ a, Walks T p start (g (.ok a)))
    (herr : ∀ err, g (.error err) = MonadExcept.throw err ∨
      (T.HandsOn → ¬ err.IsMismatch) ∧ Walks T p start (g (.error err))) :
    Walks T p start (observing f >>= g) := by
  intro e he
  rw [wp_bind, wp_observing]
  refine wp_mono (hf e he) (fun a e' h' => hok a e' h') fun err e' hfails => ?_
  rcases herr err with hthrow | ⟨hkept, hgoes⟩
  · rw [hthrow]
    exact hfails
  · refine hgoes e' ?_
    obtain ⟨before, hbefore, ⟨rfl, -⟩ | ⟨act, r, hact, hrun, rfl⟩⟩ := hfails
    · exact hbefore
    · exact hbefore.step (.fault hact hrun hkept) rfl

theorem act (act : Region.Act V) (hact : act.IsEdit ∨ T.acts act) :
    Walks T p start (onRegion act.run) := by
  intro e he
  rw [wp_onRegion, wp]
  cases hrun : act.run e.region with
  | ok _ r => exact he.step (.act hact hrun) rfl
  | error err r => exact ⟨e, he, .inr ⟨act, r, hact, hrun, rfl⟩⟩

theorem splice (start' stop : Nat) (new : List (Token V)) :
    Walks T p start (onRegion (Region.splice start' stop new)) :=
  act (.splice start' stop new) (.inl trivial)

theorem onCells {f : StateM Cells α} : Walks T p start (onRegion (Region.onCells f)) :=
  fun _ he => he.step (.cells _ _ _) rfl

theorem tokenAt (index : Nat) : Walks T p start (onRegion (Region.tokenAt index)) := by
  intro e he
  rw [wp_onRegion, Region.wp_tokenAt]
  split
  · exact he
  · exact .of_via he (by simp)

theorem replace (index : Nat) (t : Token V) :
    Walks T p start (onRegion (Region.replace index t)) := by
  intro e he
  rw [wp_onRegion, Region.wp_replace]
  split
  · exact wp_onRegion.1 (splice index (index + 1) [t] e he)
  · exact .of_via he (by simp)

theorem remove (index : Nat) : Walks T p start (onRegion (Region.remove index)) := by
  intro e he
  rw [wp_onRegion, Region.remove, wp_bind, Region.wp_tokenAt]
  split
  · rw [wp_bind]
    exact wp_onRegion.1 (splice index (index + 1) [] e he)
  · exact .of_via he (by simp)

end Walks

end

end Editor

end TokenEditor
