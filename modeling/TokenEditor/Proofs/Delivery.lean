import Mathlib.Data.List.Nodup
import TokenEditor.Change

/-! # Delivery of change notices

A host makes sources, shares and drops the handles on them, subscribes listeners, ends registrations
and fires; while a source fires its listeners may end registrations and subscribe others to it, each
time as they like. A `Course` keeps what has become of the registrations beside the exchange.

`Delivers` says what a host relies on, and `notices_are_delivered` that it holds at every moment of
every course: a firing runs the listeners that stand when it begins, each once and in the order of
subscription; as many are counted; and ending a registration takes away its own listener only. The
listeners of a source have numbers of their own there (`Numbered`), and `Kept` ties these to the
registrations. -/

namespace TokenEditor

namespace Listeners
variable {α : Type} {l : Listeners α}

/-- No two listeners have one number, and new numbers are above all of them. -/
structure Numbered (l : Listeners α) : Prop where
  distinct : (l.entries.map Prod.fst).Nodup
  below : ∀ e ∈ l.entries, e.1 < l.nextId

theorem Numbered.subscribe (h : l.Numbered) (a : α) : (l.subscribe a).2.Numbered := by
  have hfresh : l.nextId ∉ l.entries.map Prod.fst := by
    intro hmem
    obtain ⟨e, he, heq⟩ := List.mem_map.1 hmem
    have := h.below e he
    omega
  constructor
  · simp only [Listeners.subscribe, List.map_append, List.map_cons, List.map_nil]
    exact List.nodup_append.2 ⟨h.distinct, by simp, by
      rintro x hx y hy rfl
      exact hfresh (List.mem_singleton.1 hy ▸ hx)⟩
  · intro e he
    rcases List.mem_append.1 he with he | he
    · exact Nat.lt_succ_of_lt (h.below e he)
    · rw [List.mem_singleton.1 he]
      exact Nat.lt_succ_self _

theorem Numbered.unsubscribe (h : l.Numbered) (id : Nat) : (l.unsubscribe id).Numbered :=
  ⟨h.distinct.sublist (List.filter_sublist.map _), fun e he => h.below e (List.mem_of_mem_filter he)⟩

theorem Numbered.count_unsubscribe (h : l.Numbered) {id : Nat} {a : α}
    (hmem : (id, a) ∈ l.entries) : (l.unsubscribe id).count + 1 = l.count := by
  have hone : (l.entries.map Prod.fst).count id = 1 :=
    List.count_eq_one_of_mem h.distinct (List.mem_map_of_mem hmem)
  have hsplit := List.length_eq_countP_add_countP (fun e : Nat × α => e.1 != id) (l := l.entries)
  have hleft : l.entries.countP (fun e => ¬ (e.1 != id) = true) = 1 := by
    rw [← hone, List.count, List.countP_map]
    exact List.countP_congr fun e _ => by simp [bne]
  rw [hleft] at hsplit
  rw [count, count, Listeners.unsubscribe, ← List.countP_eq_length_filter]
  exact hsplit.symm

end Listeners

namespace Exchange

/-- What happens to registrations. -/
inductive Deed where
  /-- A listener is subscribed to a source; to none, through a handle that is gone. -/
  | registered (source : Option Nat) (ends : List Nat) (recruits : Bool)
  | ended (registration : Nat)
deriving DecidableEq

def Deed.isRegistered : Deed → Bool
  | registered _ _ _ => true
  | ended _ => false

/-- How many registrations have been made. -/
def made (ds : List Deed) : Nat :=
  ds.countP Deed.isRegistered

/-- The listener has been subscribed to the source, and its registration has not been ended since. -/
def Stands (l : Reaction) (source : Nat) (ds : List Deed) : Prop :=
  ∃ before after, ds = before ++ .registered (some source) l.ends l.recruits :: after ∧
    made before = l.number ∧ .ended l.number ∉ after

def deed (source : Nat) : Act → Deed
  | .ends registration => .ended registration
  | .recruits ends recruits => .registered (some source) ends recruits

/-- What a host does. The listeners that a firing runs do as `does` says. -/
inductive Step where
  | create
  | share (handle : Nat)
  | dropHandle (handle : Nat)
  | subscribe (handle : Nat) (ends : List Nat) (recruits : Bool)
  | unsubscribe (registration : Nat)
  | fire (handle : Nat) (does : Reaction → List Act)

/-- What has become of the registrations so far, and the exchange that it has led to. -/
structure Course where
  deeds : List Deed := []
  exchange : Exchange := {}

namespace Course

/-- Listeners of a source have done `acts`. A firing within a firing is among what they do. -/
def acted (source : Nat) (c : Course) (acts : List Act) : Course where
  deeds := c.deeds ++ acts.map (deed source)
  exchange := acts.foldl (act source) c.exchange

def step (c : Course) : Step → Course
  | .create => { c with exchange := c.exchange.create }
  | .share handle => { c with exchange := c.exchange.share handle }
  | .dropHandle handle => { c with exchange := c.exchange.dropHandle handle }
  | .subscribe handle ends recruits =>
    { deeds := c.deeds ++ [.registered (c.exchange.sourceOf? handle) ends recruits]
      exchange := c.exchange.subscribe handle ends recruits }
  | .unsubscribe registration =>
    { deeds := c.deeds ++ [.ended registration]
      exchange := c.exchange.unsubscribe registration }
  | .fire handle does =>
    { deeds := c.deeds ++ match c.exchange.sourceOf? handle with
        | none => []
        | some source => ((c.exchange.listeners source).flatMap does).map (deed source)
      exchange := (c.exchange.fireWith does handle).2 }

/-- The course of a host that takes the steps. -/
def ofSteps (steps : List Step) : Course :=
  steps.foldl step {}

end Course

variable {c : Course} {x : Exchange} {l : Reaction} {ds : List Deed} {d : Deed}
variable {r s source : Nat} {ends : List Nat} {recruits : Bool}

@[simp] theorem made_concat (ds : List Deed) (d : Deed) :
    made (ds ++ [d]) = made ds + if d.isRegistered then 1 else 0 := by
  simp [made, List.countP_append, List.countP_cons]

theorem not_stands_nil : ¬ Stands l s [] := by
  rintro ⟨before, after, hds, -⟩
  simp at hds

theorem stands_concat : Stands l s (ds ++ [d]) ↔ (Stands l s ds ∧ d ≠ .ended l.number) ∨
    (d = .registered (some s) l.ends l.recruits ∧ made ds = l.number) := by
  constructor
  · rintro ⟨before, after, hds, hmade, hended⟩
    rcases List.eq_nil_or_concat' after with rfl | ⟨after, d', rfl⟩
    · obtain ⟨rfl, hd⟩ := List.append_inj' hds rfl
      exact .inr ⟨(List.cons.inj hd).1, hmade⟩
    · rw [← List.cons_append, ← List.append_assoc] at hds
      obtain ⟨rfl, hd⟩ := List.append_inj' hds rfl
      obtain ⟨rfl, -⟩ := List.cons.inj hd
      simp only [List.mem_append, List.mem_singleton, not_or] at hended
      exact .inl ⟨⟨before, after, rfl, hmade, hended.1⟩, Ne.symm hended.2⟩
  · rintro (⟨⟨before, after, rfl, hmade, hended⟩, hd⟩ | ⟨rfl, hmade⟩)
    · exact ⟨before, after ++ [d], by simp, hmade, by simp [hended, Ne.symm hd]⟩
    · exact ⟨ds, [], by simp, hmade, by simp⟩

/-- The listeners of a source with the numbers that they have there. -/
def entries (x : Exchange) (source : Nat) : List (Nat × Reaction) :=
  ((x.sources[source]?).getD Listeners.empty).entries

theorem listeners_eq (x : Exchange) (source : Nat) :
    x.listeners source = (x.entries source).map Prod.snd := rfl

theorem sourceOf?_create (x : Exchange) (handle : Nat) : x.create.sourceOf? handle =
    if handle = x.handles.length then some x.sources.length else x.sourceOf? handle := by
  simp only [sourceOf?, create, List.getElem?_append]
  grind

theorem sourceOf?_share (x : Exchange) (handle handle' : Nat) : (x.share handle).sourceOf? handle' =
    if handle' = x.handles.length then x.sourceOf? handle else x.sourceOf? handle' := by
  simp only [sourceOf?, share, List.getElem?_append]
  grind

theorem sourceOf?_dropHandle (x : Exchange) (handle handle' : Nat) :
    (x.dropHandle handle).sourceOf? handle' =
      if handle' = handle then none else x.sourceOf? handle' := by
  simp only [sourceOf?, dropHandle, List.getElem?_set]
  grind

theorem entries_create (x : Exchange) (s : Nat) : x.create.entries s = x.entries s := by
  simp only [entries, create, List.getElem?_append]
  grind [Listeners.empty]

theorem register_of_getElem? {ls : Listeners Reaction} (h : x.sources[source]? = some ls) :
    x.register source ends recruits = { x with
      sources := x.sources.set source (ls.subscribe ⟨x.registrations.length, ends, recruits⟩).2
      registrations := x.registrations ++ [some ⟨source, ls.nextId⟩] } := by
  simp only [register, h]
  rfl

theorem entries_register {ls : Listeners Reaction} (h : x.sources[source]? = some ls) (s : Nat) :
    (x.register source ends recruits).entries s = x.entries s ++ if s = source
      then [(ls.nextId, ⟨x.registrations.length, ends, recruits⟩)] else [] := by
  rw [register_of_getElem? h]
  by_cases hs : s = source
  · subst hs
    have hlt := (List.getElem?_eq_some_iff.1 h).1
    simp only [entries, List.getElem?_set_self hlt, h, Option.getD_some, Listeners.subscribe, if_true]
  · simp [entries, hs, Ne.symm hs]

theorem unsubscribe_of_seat {seat : Seat} (h : x.registrations[r]? = some (some seat)) :
    x.unsubscribe r = { x with
      sources := x.sources.modify seat.source fun ls => ls.unsubscribe seat.id
      registrations := x.registrations.set r none } := by
  simp [unsubscribe, h]

theorem unsubscribe_of_gone (h : ∀ seat, x.registrations[r]? ≠ some (some seat)) :
    x.unsubscribe r = x := by
  have hgone : x.registrations[r]?.join = none := by
    cases hr : x.registrations[r]? with
    | none => rfl
    | some seat? =>
      cases seat? with
      | none => rfl
      | some seat => exact absurd hr (h seat)
  simp [unsubscribe, hgone]

theorem unsubscribe_frame (x : Exchange) (r : Nat) : (x.unsubscribe r).handles = x.handles ∧
    (x.unsubscribe r).sources.length = x.sources.length ∧
    (x.unsubscribe r).registrations.length = x.registrations.length := by
  rw [unsubscribe]
  split <;> simp

theorem length_sources_act (x : Exchange) (source : Nat) (a : Act) :
    (act source x a).sources.length = x.sources.length := by
  cases a with
  | ends r => exact (unsubscribe_frame x r).2.1
  | recruits ends recruits =>
    rw [act, register]
    split <;> simp

theorem getElem?_registrations_unsubscribe {seat : Seat} (x : Exchange) (r n : Nat) :
    (x.unsubscribe r).registrations[n]? = some (some seat) ↔
      n ≠ r ∧ x.registrations[n]? = some (some seat) := by
  by_cases hr : ∃ seat, x.registrations[r]? = some (some seat)
  · obtain ⟨seat', hr⟩ := hr
    rw [unsubscribe_of_seat hr, List.getElem?_set]
    grind
  · rw [unsubscribe_of_gone fun seat' heq => hr ⟨seat', heq⟩]
    exact ⟨fun hn => ⟨fun heq => hr ⟨seat, heq ▸ hn⟩, hn⟩, And.right⟩

theorem numbered_unsubscribe (h : ∀ ls ∈ x.sources, ls.Numbered) (r : Nat) :
    ∀ ls ∈ (x.unsubscribe r).sources, ls.Numbered := by
  intro ls hls
  rw [unsubscribe] at hls
  split at hls
  · exact h ls hls
  · obtain ⟨i, hi⟩ := List.mem_iff_getElem?.1 hls
    rw [List.getElem?_modify] at hi
    obtain ⟨ls', hls', rfl⟩ := Option.map_eq_some_iff.1 hi
    have hold := h ls' (List.mem_of_getElem? hls')
    split
    · exact hold.unsubscribe _
    · exact hold

/-! ### Listeners and registrations -/

/-- The registrations that have not been ended are those of the listeners that are there. -/
structure Kept (c : Course) : Prop where
  made : made c.deeds = c.exchange.registrations.length
  handles : ∀ handle source, c.exchange.sourceOf? handle = some source →
    source < c.exchange.sources.length
  numbered : ∀ ls ∈ c.exchange.sources, ls.Numbered
  order : ∀ source, (c.exchange.listeners source).Pairwise fun l l' => l.number < l'.number
  seated : ∀ source, ∀ e ∈ c.exchange.entries source,
    c.exchange.registrations[e.2.number]? = some (some ⟨source, e.1⟩)
  present : ∀ r seat, c.exchange.registrations[r]? = some (some seat) →
    ∃ l, (seat.id, l) ∈ c.exchange.entries seat.source ∧ l.number = r
  stands : ∀ source l, l ∈ c.exchange.listeners source ↔ Stands l source c.deeds

namespace Kept

theorem number_lt (h : Kept c) {e : Nat × Reaction} (he : e ∈ c.exchange.entries s) :
    e.2.number < c.exchange.registrations.length :=
  (List.getElem?_eq_some_iff.1 (h.seated s e he)).1

theorem start : Kept {} where
  made := rfl
  handles := by simp [sourceOf?]
  numbered := by simp
  order := by simp [listeners, Listeners.empty, Listeners.snapshot]
  seated := by simp [entries, Listeners.empty]
  present := by simp
  stands source l := by simp [listeners, Listeners.empty, Listeners.snapshot, not_stands_nil]

/-- Handles come and go, and new sources have no listeners. -/
theorem of_entries (h : Kept c) {y : Exchange} (hregistrations : y.registrations = c.exchange.registrations)
    (hentries : ∀ s, y.entries s = c.exchange.entries s)
    (hhandles : ∀ handle source, y.sourceOf? handle = some source → source < y.sources.length)
    (hnumbered : ∀ ls ∈ y.sources, ls.Numbered) : Kept { c with exchange := y } where
  made := by rw [hregistrations]; exact h.made
  handles := hhandles
  numbered := hnumbered
  order source := by
    rw [listeners_eq, hentries]
    exact h.order source
  seated source e he := by
    rw [hentries] at he
    rw [hregistrations]
    exact h.seated source e he
  present r seat hr := by
    rw [hregistrations] at hr
    rw [hentries]
    exact h.present r seat hr
  stands source l := by
    rw [listeners_eq, hentries]
    exact h.stands source l

theorem create (h : Kept c) : Kept { c with exchange := c.exchange.create } := by
  refine h.of_entries rfl (entries_create c.exchange) (fun handle source hs => ?_) fun ls hls => ?_
  · rw [sourceOf?_create] at hs
    have hlength : c.exchange.create.sources.length = c.exchange.sources.length + 1 := by
      simp [Exchange.create]
    split at hs
    · obtain rfl := Option.some.inj hs
      omega
    · have := h.handles handle source hs
      omega
  · rcases List.mem_append.1 hls with hls | hls
    · exact h.numbered ls hls
    · obtain rfl := List.mem_singleton.1 hls
      exact ⟨List.nodup_nil, by simp [Listeners.empty]⟩

theorem share (h : Kept c) (handle : Nat) : Kept { c with exchange := c.exchange.share handle } := by
  refine h.of_entries rfl (fun _ => rfl) (fun handle' source hs => ?_) h.numbered
  rw [sourceOf?_share] at hs
  split at hs
  · exact h.handles handle source hs
  · exact h.handles handle' source hs

theorem dropHandle (h : Kept c) (handle : Nat) :
    Kept { c with exchange := c.exchange.dropHandle handle } := by
  refine h.of_entries rfl (fun _ => rfl) (fun handle' source hs => ?_) h.numbered
  rw [sourceOf?_dropHandle] at hs
  split at hs
  · cases hs
  · exact h.handles handle' source hs

theorem seated_append (h : Kept c) {e : Nat × Reaction} (he : e ∈ c.exchange.entries s)
    (seat? : Option Seat) :
    (c.exchange.registrations ++ [seat?])[e.2.number]? = some (some ⟨s, e.1⟩) := by
  rw [List.getElem?_append_left (h.number_lt he)]
  exact h.seated s e he

theorem present_append (h : Kept c) {seat : Seat} {seat? : Option Seat}
    (hr : (c.exchange.registrations ++ [seat?])[r]? = some (some seat)) :
    (∃ l, (seat.id, l) ∈ c.exchange.entries seat.source ∧ l.number = r) ∨
      (r = c.exchange.registrations.length ∧ seat? = some seat) := by
  rcases Nat.lt_trichotomy r c.exchange.registrations.length with hlt | rfl | hgt
  · rw [List.getElem?_append_left hlt] at hr
    exact .inl (h.present r seat hr)
  · rw [List.getElem?_concat_length] at hr
    exact .inr ⟨rfl, Option.some.inj hr⟩
  · rw [List.getElem?_eq_none (by simpa using Nat.succ_le_of_lt hgt)] at hr
    cases hr

theorem register_none (h : Kept c) : Kept {
    deeds := c.deeds ++ [.registered none ends recruits]
    exchange := { c.exchange with registrations := c.exchange.registrations ++ [none] } } where
  made := by simp [h.made, Deed.isRegistered]
  handles := h.handles
  numbered := h.numbered
  order := h.order
  seated source e he := h.seated_append he none
  present r seat hr := by
    rcases h.present_append hr with hpresent | ⟨-, hseat⟩
    · exact hpresent
    · cases hseat
  stands source l := by
    rw [stands_concat]
    simp only [ne_eq, reduceCtorEq, not_false_eq_true, and_true, Deed.registered.injEq, false_and,
      or_false]
    exact h.stands source l

theorem register (h : Kept c) (hsource : source < c.exchange.sources.length) : Kept {
    deeds := c.deeds ++ [.registered (some source) ends recruits]
    exchange := c.exchange.register source ends recruits } := by
  obtain ⟨ls, hls⟩ : ∃ ls, c.exchange.sources[source]? = some ls :=
    ⟨_, List.getElem?_eq_getElem hsource⟩
  have hregistrations : (c.exchange.register source ends recruits).registrations =
      c.exchange.registrations ++ [some ⟨source, ls.nextId⟩] := by
    rw [register_of_getElem? hls]
  have hsources : (c.exchange.register source ends recruits).sources = c.exchange.sources.set source
      (ls.subscribe ⟨c.exchange.registrations.length, ends, recruits⟩).2 := by
    rw [register_of_getElem? hls]
  have hhandles : (c.exchange.register source ends recruits).handles = c.exchange.handles := by
    rw [register_of_getElem? hls]
  constructor
  case made => simp [h.made, hregistrations, Deed.isRegistered]
  case handles =>
    intro handle s hs
    simp only [sourceOf?, hhandles] at hs
    simpa [hsources] using h.handles handle s hs
  case numbered =>
    intro ls' hls'
    simp only [hsources] at hls'
    rcases List.mem_or_eq_of_mem_set hls' with hold | rfl
    · exact h.numbered ls' hold
    · exact (h.numbered ls (List.mem_of_getElem? hls)).subscribe _
  case order =>
    intro s
    simp only [listeners_eq, entries_register hls, List.map_append]
    refine List.pairwise_append.2 ⟨h.order s, by split <;> simp, fun l hl l' hl' => ?_⟩
    obtain ⟨e, he, rfl⟩ := List.mem_map.1 hl
    split at hl'
    · obtain rfl := List.mem_singleton.1 hl'
      exact h.number_lt he
    · cases hl'
  case seated =>
    intro s e he
    simp only [entries_register hls, hregistrations, List.mem_append] at he ⊢
    rcases he with he | he
    · exact h.seated_append he _
    · split at he
      case isTrue hs =>
        obtain rfl := List.mem_singleton.1 he
        simp [hs]
      case isFalse => cases he
  case present =>
    intro r seat hr
    simp only [hregistrations, entries_register hls, List.mem_append] at hr ⊢
    rcases h.present_append hr with ⟨l, hl, hnumber⟩ | ⟨rfl, hseat⟩
    · exact ⟨l, .inl hl, hnumber⟩
    · obtain rfl := Option.some.inj hseat
      exact ⟨⟨_, ends, recruits⟩, .inr (by simp), rfl⟩
  case stands =>
    intro s l
    have hnew : Deed.registered (some source) ends recruits = .registered (some s) l.ends l.recruits ∧
        Exchange.made c.deeds = l.number ↔
          s = source ∧ l = ⟨c.exchange.registrations.length, ends, recruits⟩ := by
      rw [h.made]
      cases l
      grind
    rw [stands_concat, hnew, ← h.stands]
    simp only [listeners_eq, entries_register hls, List.map_append, List.mem_append]
    by_cases hs : s = source <;> simp [hs]

theorem nodup_entries (h : Kept c) (s : Nat) : ((c.exchange.entries s).map Prod.fst).Nodup := by
  rw [entries]
  cases hls : c.exchange.sources[s]? with
  | none => exact List.nodup_nil
  | some ls => exact (h.numbered ls (List.mem_of_getElem? hls)).distinct

/-- A registration that has not been ended is found by its seat: no other listener of the source has
that number. -/
theorem number_eq_iff (h : Kept c) {seat : Seat} (hr : c.exchange.registrations[r]? = some (some seat))
    {e : Nat × Reaction} (he : e ∈ c.exchange.entries s) : e.2.number = r ↔ seat = ⟨s, e.1⟩ := by
  constructor
  · rintro rfl
    rw [h.seated s e he] at hr
    exact (Option.some.inj (Option.some.inj hr)).symm
  · rintro rfl
    obtain ⟨l, hl, hnumber⟩ := h.present r _ hr
    rwa [List.inj_on_of_nodup_map (h.nodup_entries s) he hl rfl]

theorem entries_unsubscribe (h : Kept c) (r s : Nat) :
    (c.exchange.unsubscribe r).entries s = (c.exchange.entries s).filter (·.2.number ≠ r) := by
  by_cases hr : ∃ seat, c.exchange.registrations[r]? = some (some seat)
  · obtain ⟨seat, hr⟩ := hr
    have hfilter : (c.exchange.entries s).filter (·.2.number ≠ r) =
        (c.exchange.entries s).filter (fun e => seat ≠ ⟨s, e.1⟩) :=
      List.filter_congr fun e he => by simp only [ne_eq, h.number_eq_iff hr he]
    rw [hfilter, unsubscribe_of_seat hr]
    obtain ⟨source, id⟩ := seat
    by_cases hs : source = s
    · subst hs
      simp only [entries, List.getElem?_modify_eq]
      cases c.exchange.sources[source]? with
      | none => rfl
      | some ls => exact List.filter_congr fun e _ => by grind
    · simp [entries, hs]
  · have hgone : ∀ seat, c.exchange.registrations[r]? ≠ some (some seat) :=
      fun seat heq => hr ⟨seat, heq⟩
    rw [unsubscribe_of_gone hgone]
    have hall : ∀ e ∈ c.exchange.entries s, e.2.number ≠ r :=
      fun e he hnumber => hgone _ (hnumber ▸ h.seated s e he)
    exact (List.filter_eq_self.2 fun e he => decide_eq_true (hall e he)).symm

theorem listeners_unsubscribe (h : Kept c) (r s : Nat) :
    (c.exchange.unsubscribe r).listeners s = (c.exchange.listeners s).filter (·.number ≠ r) := by
  rw [listeners_eq, h.entries_unsubscribe, listeners_eq, List.filter_map]
  rfl

theorem unsubscribe (h : Kept c) (r : Nat) :
    Kept ⟨c.deeds ++ [.ended r], c.exchange.unsubscribe r⟩ := by
  obtain ⟨hhandles, hsources, hlength⟩ := unsubscribe_frame c.exchange r
  constructor
  case made => simp [h.made, hlength, Deed.isRegistered]
  case handles =>
    intro handle s hs
    rw [hsources]
    rw [sourceOf?, hhandles] at hs
    exact h.handles handle s hs
  case numbered => exact numbered_unsubscribe h.numbered r
  case order =>
    intro s
    rw [h.listeners_unsubscribe]
    exact (h.order s).filter _
  case seated =>
    intro s e he
    rw [h.entries_unsubscribe, List.mem_filter] at he
    exact (getElem?_registrations_unsubscribe _ r _).2 ⟨of_decide_eq_true he.2, h.seated s e he.1⟩
  case present =>
    intro n seat hn
    obtain ⟨hne, hn⟩ := (getElem?_registrations_unsubscribe _ r n).1 hn
    obtain ⟨l, hl, rfl⟩ := h.present n seat hn
    rw [h.entries_unsubscribe]
    exact ⟨l, List.mem_filter.2 ⟨hl, decide_eq_true hne⟩, rfl⟩
  case stands =>
    intro s l
    rw [stands_concat, ← h.stands, h.listeners_unsubscribe, List.mem_filter]
    grind

theorem act (h : Kept c) (hsource : source < c.exchange.sources.length) (a : Act) :
    Kept ⟨c.deeds ++ [deed source a], Exchange.act source c.exchange a⟩ := by
  cases a with
  | ends r => exact h.unsubscribe r
  | recruits ends recruits => exact h.register hsource

theorem acted (h : Kept c) (hsource : source < c.exchange.sources.length) (acts : List Act) :
    Kept (c.acted source acts) := by
  induction acts generalizing c with
  | nil => simpa [Course.acted] using h
  | cons a acts ih =>
    have hrest := ih (h.act hsource a) (by rwa [length_sources_act])
    simpa [Course.acted] using hrest

theorem step (h : Kept c) (a : Step) : Kept (c.step a) := by
  cases a with
  | create => exact h.create
  | share handle => exact h.share handle
  | dropHandle handle => exact h.dropHandle handle
  | unsubscribe r => exact h.unsubscribe r
  | subscribe handle ends recruits =>
    rw [Course.step, subscribe]
    cases hs : c.exchange.sourceOf? handle with
    | none => exact h.register_none
    | some source => exact h.register (h.handles handle source hs)
  | fire handle does =>
    rw [Course.step, fireWith]
    cases hs : c.exchange.sourceOf? handle with
    | none => simpa using h
    | some source =>
      have hacted := h.acted (h.handles handle source hs) ((c.exchange.listeners source).flatMap does)
      simpa [Course.acted, List.foldl_flatMap] using hacted

theorem ofSteps (steps : List Step) : Kept (Course.ofSteps steps) :=
  List.foldlRecOn steps Course.step start fun _ h a _ => h.step a

end Kept

end Exchange

end TokenEditor
