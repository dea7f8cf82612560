import TokenEditor.Proofs.Supplies
import TokenEditor.Sum.Language

/-! # Later items are current or gone

A session is a path of steps of an editor from its start, in which operations may also fail, together
with the events of its steps: requests made, menus closed, answers sent. `later_items_are_current`:
every operation goes on with a session, and in each state of a session the menu and typing propose,
besides what the language offers at once, only items that answer the latest request, and only while
the menu has not been closed since, the row is the one the request was made for, and the place asks
for the supplier it was made for. The channel of a request that is over takes no answer any more.

The invariant `Tracks` ties the menu to the events. What the menu waits for and what it was given
belong to the current request; a channel that still waits is the one the menu waits for; and what
stands in a channel was sent. -/

namespace TokenEditor
variable {V : Type}

namespace Event

/-- The event ends the request that was current. -/
def Ends : Event V → Prop
  | requested _ | closed => True
  | sent _ _ | other => False

end Event

namespace Request
variable {evs : List (Event V)} {ev : Event V} {r : Request V}

/-- `r` is the latest request, and the menu has not been closed since. -/
def Current (evs : List (Event V)) (r : Request V) : Prop :=
  ∃ before after, evs = before ++ .requested r :: after ∧ ∀ ev ∈ after, ¬ ev.Ends

/-- `items` are the answer to `r`, given at once or sent. -/
def Answered (evs : List (Event V)) (r : Request V) (items : List (Item V)) : Prop :=
  r.promise = .ready items ∨ ∃ id, r.promise = .channel id ∧ .sent id items ∈ evs

theorem Current.mem (h : Current evs r) : .requested r ∈ evs := by
  obtain ⟨before, after, rfl, -⟩ := h
  simp

theorem not_ends_concat (h : ∀ ev' ∈ evs, ¬ ev'.Ends) (hev : ¬ ev.Ends) :
    ∀ ev' ∈ evs ++ [ev], ¬ ev'.Ends := by
  intro ev' hmem
  rcases List.mem_append.1 hmem with hmem | hmem
  · exact h ev' hmem
  · exact List.mem_singleton.1 hmem ▸ hev

theorem Current.concat (h : Current evs r) (hev : ¬ ev.Ends) : Current (evs ++ [ev]) r := by
  obtain ⟨before, after, rfl, hafter⟩ := h
  exact ⟨before, after ++ [ev], by simp, not_ends_concat hafter hev⟩

theorem mem_of_mem_concat (hev : ¬ ev.Ends) (h : .requested r ∈ evs ++ [ev]) :
    .requested r ∈ evs := by
  rcases List.mem_append.1 h with h | h
  · exact h
  · cases List.mem_singleton.1 h
    exact (hev trivial).elim

theorem Answered.concat {items : List (Item V)} (h : Answered evs r items) (ev : Event V) :
    Answered (evs ++ [ev]) r items := by
  rcases h with h | ⟨id, hid, hsent⟩
  · exact .inl h
  · exact .inr ⟨id, hid, by simp [hsent]⟩

/-- A request in a longer list of events is the last event, or was made before. -/
theorem concat_eq {before after : List (Event V)}
    (h : evs ++ [ev] = before ++ .requested r :: after) :
    (after = [] ∧ ev = .requested r) ∨
      ∃ after', after = after' ++ [ev] ∧ evs = before ++ .requested r :: after' := by
  rcases List.eq_nil_or_concat after with rfl | ⟨after', ev', rfl⟩
  · obtain ⟨-, hev⟩ := List.append_inj' h rfl
    exact .inl ⟨rfl, by simpa using hev⟩
  · have h' : evs ++ [ev] = (before ++ .requested r :: after') ++ [ev'] := by simpa using h
    obtain ⟨hevs, hev⟩ := List.append_inj' h' rfl
    exact .inr ⟨after', by simp [List.singleton_injective hev], hevs⟩

end Request

namespace Editor
variable {evs : List (Event V)} {ev : Event V} {e e' : Editor V}

/-! ### The invariant -/

/-- How the menu and the channels of `e` stand to the events so far. -/
structure Tracks (evs : List (Event V)) (e : Editor V) : Prop where
  /-- The menu waits for the current request. -/
  pending : ∀ p, e.menu.pending = some p → ∃ r : Request V, r.Current evs ∧
    r.supplier = p.supplier ∧ r.promise = p.promise ∧ r.generation = p.generation
  /-- What the menu was given answers the current request. -/
  received : ∀ generation offer, e.menu.received = some (generation, offer) →
    ∃ r : Request V, r.Current evs ∧ r.supplier = offer.supplier ∧ r.generation = generation ∧
      r.Answered evs offer.items
  /-- As long as no edit was made since a request the row is the one it was made for. -/
  row : ∀ r, .requested r ∈ evs → r.generation ≤ e.region.modifications ∧
    (r.generation = e.region.modifications → r.tokens = e.tokens)
  sent : ∀ (id : Nat) items, e.channels[id]? = some (.sent items) → .sent id items ∈ evs
  /-- The channel of a request waits only while the request is current and the menu waits for it. -/
  waiting : ∀ before r after id, evs = before ++ .requested r :: after → r.promise = .channel id →
    id < e.channels.length ∧ (e.channels[id]? = some .waiting → (∀ ev ∈ after, ¬ ev.Ends) ∧
      ∃ p, e.menu.pending = some p ∧ p.promise = .channel id)

namespace Tracks

theorem new (l : Language V) (cells : Cells) (settings : Settings) :
    Tracks [] (Editor.new l cells settings) := by
  refine ⟨by rintro p ⟨⟩, by rintro g o ⟨⟩, by simp, ?_, ?_⟩
  · rintro id items ⟨⟩
  · intro before r after id h
    simp at h

/-- A step that ends no request. What the menu was given is old, or answers the request that it
waited for; and while that request waits the menu waits for it. -/
theorem goesOn (h : Tracks evs e) (hev : ¬ ev.Ends)
    (hadv : e.region.modifications ≤ e'.region.modifications ∧
      (e'.region.modifications = e.region.modifications → e'.tokens = e.tokens))
    (hpending : ∀ p, e'.menu.pending = some p → e.menu.pending = some p)
    (hkeep : ∀ p id, e.menu.pending = some p → p.promise = .channel id →
      e'.channels[id]? = some .waiting → e'.menu.pending = some p)
    (hreceived : ∀ generation offer, e'.menu.received = some (generation, offer) →
      e.menu.received = some (generation, offer) ∨
        ∃ p, e.menu.pending = some p ∧ offer.supplier = p.supplier ∧ generation = p.generation ∧
          (p.promise = .ready offer.items ∨
            ∃ id, p.promise = .channel id ∧ e.channels[id]? = some (.sent offer.items)))
    (hlength : e.channels.length ≤ e'.channels.length)
    (hsent : ∀ (id : Nat) items, e'.channels[id]? = some (.sent items) →
      .sent id items ∈ evs ++ [ev])
    (hwaiting : ∀ id : Nat, e'.channels[id]? = some .waiting → e.channels[id]? = some .waiting) :
    Tracks (evs ++ [ev]) e' := by
  refine ⟨fun p hp => ?_, fun generation offer ho => ?_, fun r hr => ?_, hsent,
    fun before r after id hevs hprom => ?_⟩
  · obtain ⟨r, hcur, hrest⟩ := h.pending p (hpending p hp)
    exact ⟨r, hcur.concat hev, hrest⟩
  · rcases hreceived generation offer ho with ho | ⟨p, hp, hs, hg, hitems⟩
    · obtain ⟨r, hcur, hs, hg, hans⟩ := h.received generation offer ho
      exact ⟨r, hcur.concat hev, hs, hg, hans.concat _⟩
    · obtain ⟨r, hcur, hrs, hrp, hrg⟩ := h.pending p hp
      refine ⟨r, hcur.concat hev, hrs.trans hs.symm, hrg.trans hg.symm, ?_⟩
      rcases hitems with hitems | ⟨id, hid, hitems⟩
      · exact .inl (hrp.trans hitems)
      · exact .inr ⟨id, hrp.trans hid, List.mem_append_left _ (h.sent id _ hitems)⟩
  · obtain ⟨hle, heq⟩ := h.row r (Request.mem_of_mem_concat hev hr)
    refine ⟨Nat.le_trans hle hadv.1, fun hgen => ?_⟩
    have hsame : e'.region.modifications = e.region.modifications := by omega
    exact (heq (by omega)).trans (hadv.2 hsame).symm
  · rcases Request.concat_eq hevs with ⟨-, rfl⟩ | ⟨after', rfl, hevs'⟩
    · exact (hev trivial).elim
    · obtain ⟨hlt, hwait⟩ := h.waiting before r after' id hevs' hprom
      refine ⟨Nat.lt_of_lt_of_le hlt hlength, fun hw => ?_⟩
      obtain ⟨hafter, p, hp, hpid⟩ := hwait (hwaiting id hw)
      exact ⟨Request.not_ends_concat hafter hev, p, hkeep p id hp hpid hw, hpid⟩

theorem goesOn_shut (h : Tracks evs e) (hshut : Channels.Shut e.channels e'.channels)
    (hadv : e.region.modifications ≤ e'.region.modifications ∧
      (e'.region.modifications = e.region.modifications → e'.tokens = e.tokens))
    (hpending : ∀ p, e'.menu.pending = some p → e.menu.pending = some p)
    (hkeep : ∀ p id, e.menu.pending = some p → p.promise = .channel id →
      e'.channels[id]? = some .waiting → e'.menu.pending = some p)
    (hreceived : ∀ generation offer, e'.menu.received = some (generation, offer) →
      e.menu.received = some (generation, offer) ∨
        ∃ p, e.menu.pending = some p ∧ offer.supplier = p.supplier ∧ generation = p.generation ∧
          (p.promise = .ready offer.items ∨
            ∃ id, p.promise = .channel id ∧ e.channels[id]? = some (.sent offer.items))) :
    Tracks (evs ++ [.other]) e' := by
  refine h.goesOn (fun hends => hends) hadv hpending hkeep hreceived (Nat.le_of_eq hshut.length.symm)
    (fun id items hid => ?_) (fun id hid => hshut.eq_of_ne_closed (by simp) hid)
  exact List.mem_append_left _ (h.sent id items (hshut.eq_of_ne_closed (by simp) hid))

theorem quiet (h : Tracks evs e) (hmenu : e'.menu = e.menu)
    (hshut : Channels.Shut e.channels e'.channels)
    (hadv : e.region.modifications ≤ e'.region.modifications ∧
      (e'.region.modifications = e.region.modifications → e'.tokens = e.tokens)) :
    Tracks (evs ++ [.other]) e' :=
  h.goesOn_shut hshut hadv (fun _ hp => hmenu ▸ hp) (fun _ _ hp _ _ => hmenu ▸ hp)
    fun _ _ ho => .inl (hmenu ▸ ho)

theorem moves [Payload V] (h : Tracks evs e) {r : Region V} (hr : e.region.Moves r) :
    Tracks (evs ++ [.other]) { e with region := r } :=
  h.quiet rfl (.refl _) hr.advances

theorem poll (h : Tracks evs e) : Tracks (evs ++ [.other]) e.pollMenu.2 := by
  have hadv : ∀ e' : Editor V, e'.region = e.region →
      e.region.modifications ≤ e'.region.modifications ∧
        (e'.region.modifications = e.region.modifications → e'.tokens = e.tokens) := by
    intro e' hr
    rw [hr]
    exact ⟨Nat.le_refl _, fun _ => congrArg Region.tokens hr⟩
  rcases pollMenu_cases e with hsame | ⟨p, hp, hpolled, hover⟩
  · rw [hsame]
    exact h.quiet rfl (.refl _) (hadv e rfl)
  · -- the channel of the request that is over does not wait
    have hkeep : ∀ {cs : Channels V}, Channels.Shut e.channels cs → ∀ (q : Pending V) (id : Nat),
        e.menu.pending = some q → q.promise = .channel id → cs[id]? = some .waiting → False := by
      intro cs hshut q id hq hid hw
      cases hp.symm.trans hq
      exact hover id hid (hshut.eq_of_ne_closed (by simp) hw)
    generalize e.pollMenu.2 = e' at hpolled
    cases hpolled with
    | without hshut =>
      exact h.goesOn_shut hshut (hadv _ rfl) (by rintro q ⟨⟩)
        (fun q id hq hid hw => (hkeep hshut q id hq hid hw).elim) (fun _ _ ho => .inl ho)
    | received hshut hs hg hitems =>
      refine h.goesOn_shut hshut (hadv _ rfl) (by rintro q ⟨⟩)
        (fun q id hq hid hw => (hkeep hshut q id hq hid hw).elim) ?_
      rintro generation offer ⟨⟩
      exact .inr ⟨p, hp, hs, hg, hitems⟩

theorem send (h : Tracks evs e) {id : Nat} {items : List (Item V)}
    (hsent : (e.send id items).1 = true) : Tracks (evs ++ [.sent id items]) (e.send id items).2 := by
  unfold Editor.send at hsent ⊢
  split at hsent
  · cases hsent
  · rename_i c hc
    cases c with
    | sent m => cases hsent
    | closed => cases hsent
    | waiting =>
      have hget : ∀ i : Nat, (e.channels.set id (.sent items))[i]? =
          if id = i then some (.sent items) else e.channels[i]? := by
        intro i
        rw [List.getElem?_set]
        split_ifs with hi hlt
        · rfl
        · exact absurd (List.getElem?_eq_some_iff.1 hc).1 hlt
        · rfl
      refine h.goesOn (fun hends => hends) ⟨Nat.le_refl _, fun _ => rfl⟩ (fun _ hp => hp)
        (fun _ _ hp _ _ => hp) (fun _ _ ho => .inl ho) (by simp) (fun i ms hi => ?_) (fun i hi => ?_)
      · have hi : (e.channels.set id (.sent items))[i]? = some (.sent ms) := hi
        rw [hget] at hi
        split_ifs at hi with heq
        · cases hi
          simp [heq]
        · exact List.mem_append_left _ (h.sent i ms hi)
      · have hi : (e.channels.set id (.sent items))[i]? = some .waiting := hi
        rw [hget] at hi
        split_ifs at hi
        · cases hi
        · exact hi

theorem close (h : Tracks evs e) : Tracks (evs ++ [.closed]) e.closeMenu := by
  have hshut := e.shut_closeMenu
  refine ⟨by rintro p ⟨⟩, by rintro g o ⟨⟩, fun r hr => ?_, fun id items hid => ?_,
    fun before r after id hevs hprom => ?_⟩
  · rcases List.mem_append.1 hr with hr | hr
    · exact h.row r hr
    · cases List.mem_singleton.1 hr
  · exact List.mem_append_left _ (h.sent id items (hshut.eq_of_ne_closed (by simp) hid))
  · rcases Request.concat_eq hevs with ⟨-, hev⟩ | ⟨after', rfl, hevs'⟩
    · cases hev
    · obtain ⟨hlt, hwait⟩ := h.waiting before r after' id hevs' hprom
      refine ⟨hshut.length ▸ hlt, fun hw => ?_⟩
      obtain ⟨-, p, hp, hpid⟩ := hwait (hshut.eq_of_ne_closed (by simp) hw)
      exact absurd hw (closeMenu_ne_waiting hp hpid)

theorem openMenu (h : Tracks evs e) (s : Supplier) (params : Params) :
    Tracks (evs ++ [.requested (e.request s params)]) (e.opened s params) := by
  obtain ⟨hmenu, cs, hcs, hpromise⟩ := e.promise_cases (s.laterCalls params e)
  have hregion : (e.opened s params).region = e.region := region_opened e s params
  have hshut : Channels.Shut (e.requestLater s params).2.channels (e.opened s params).channels :=
    (e.requestLater s params).2.shut_closeMenu
  -- a channel that is not closed was there before, or is the new one
  have hback : ∀ (id : Nat) (c : Channel (List (Item V))), c ≠ .closed →
      (e.opened s params).channels[id]? = some c →
      e.channels[id]? = some c ∨ c = .waiting ∧ id = e.channels.length := by
    intro id c hc hid
    have hid' : (e.promise (s.laterCalls params e)).2.channels[id]? = some c :=
      hshut.eq_of_ne_closed hc hid
    rcases hpromise with ⟨items, -, hchannels⟩ | ⟨-, hchannels⟩
    · rw [hchannels] at hid'
      exact .inl (hcs.eq_of_ne_closed hc hid')
    · rw [hchannels, List.getElem?_append] at hid'
      split_ifs at hid' with hlt
      · exact .inl (hcs.eq_of_ne_closed hc hid')
      · obtain ⟨hlast, hw⟩ := List.getElem?_eq_some_iff.1 hid'
        have hlen := hcs.length
        have hid : id = e.channels.length := by
          simp at hlast
          omega
        subst hid
        simp [hlen] at hw
        exact .inr ⟨hw.symm, rfl⟩
  have hlength : e.channels.length ≤ (e.opened s params).channels.length := by
    rw [hshut.length]
    show e.channels.length ≤ (e.promise (s.laterCalls params e)).2.channels.length
    have hlen := hcs.length
    rcases hpromise with ⟨items, -, hchannels⟩ | ⟨-, hchannels⟩ <;> rw [hchannels]
    · omega
    · simp
      omega
  refine ⟨fun p hp => ?_, by rintro g o ⟨⟩, fun r hr => ?_, fun id items hid => ?_,
    fun before r after id hevs hprom => ?_⟩
  · cases hp
    refine ⟨e.request s params, ⟨evs, [], rfl, by simp⟩, rfl, rfl, ?_⟩
    exact congrArg Region.modifications (region_promise e (s.laterCalls params e)).symm
  · unfold tokens
    rw [hregion]
    rcases List.mem_append.1 hr with hr | hr
    · exact h.row r hr
    · cases List.mem_singleton.1 hr
      exact ⟨Nat.le_refl _, fun _ => rfl⟩
  · rcases hback id _ (by simp) hid with hid | ⟨hid, -⟩
    · exact List.mem_append_left _ (h.sent id items hid)
    · cases hid
  · rcases Request.concat_eq hevs with ⟨rfl, hev⟩ | ⟨after', rfl, hevs'⟩
    · cases hev
      refine ⟨?_, fun _ => ⟨by simp, _, rfl, hprom⟩⟩
      have hprom : (e.promise (s.laterCalls params e)).1 = .channel id := hprom
      rw [hshut.length]
      show id < (e.promise (s.laterCalls params e)).2.channels.length
      rcases hpromise with ⟨items, hready, -⟩ | ⟨hchannel, hchannels⟩
      · cases hready.symm.trans hprom
      · cases hchannel.symm.trans hprom
        rw [hchannels]
        have hlen := hcs.length
        simp
        omega
    · obtain ⟨hlt, hwait⟩ := h.waiting before r after' id hevs' hprom
      refine ⟨Nat.lt_of_lt_of_le hlt hlength, fun hw => ?_⟩
      -- opening the menu has closed the channel that it waited for
      rcases hback id _ (by simp) hw with hw' | ⟨-, hid⟩
      · obtain ⟨-, p, hp, hpid⟩ := hwait hw'
        exact absurd hw (closeMenu_ne_waiting (hmenu ▸ hp) hpid)
      · omega

end Tracks

section
variable [Payload V]

/-- The states of an editor from its start on, with the events so far. -/
inductive Session : List (Event V) → Editor V → Prop
  | new (l : Language V) (cells : Cells) (settings : Settings) :
      Session [] (Editor.new l cells settings)
  | step {evs : List (Event V)} {e e' : Editor V} {ev : Event V} : Session evs e →
      Step .any e ev e' → Session (evs ++ [ev]) e'

namespace Session

theorem path {evs' : List (Event V)} (h : Session evs e) (hpath : Path .any e evs' e') :
    Session (evs ++ evs') e' := by
  induction hpath with
  | refl => rwa [List.append_nil]
  | step _ hstep ih =>
    rw [← List.append_assoc]
    exact ih.step hstep

theorem tracks (h : Session evs e) : Tracks evs e := by
  induction h with
  | new l cells settings => exact .new l cells settings
  | step _ hstep ih =>
    cases hstep with
    | act _ hrun => exact ih.moves (moves_of_ok hrun)
    | fault _ hrun _ => exact ih.moves (moves_of_error hrun)
    | view index _ => exact ih.quiet rfl (.refl _) ⟨Nat.le_refl _, fun _ => rfl⟩
    | cells => exact ih.quiet rfl (.refl _) ⟨Nat.le_refl _, fun _ => rfl⟩
    | aside => exact ih.quiet rfl (.refl _) ⟨Nat.le_refl _, fun _ => rfl⟩
    | mark => exact ih.quiet rfl (.refl _) ⟨Nat.le_refl _, fun _ => rfl⟩
    | close => exact ih.close
    | openMenu s params => exact ih.openMenu s params
    | poll => exact ih.poll
    | send _ hsent => exact ih.send hsent
    | drop id => exact ih.quiet rfl (Channels.shut_close _ id) ⟨Nat.le_refl _, fun _ => rfl⟩

end Session

end

/-- An operation is a path of steps, with a failing act at its end if it fails. -/
theorem Session.call [Payload V] (h : Session evs e) (op : Op V) :
    ∃ new, Session (evs ++ new) (e.after op.run) := by
  obtain ⟨new, e₁, hpath, hends⟩ := Op.outcome op.fits_any e supplies_any
  unfold after
  rcases hends with hrun | ⟨err, hrun, -⟩ | ⟨act, err, r, -, hact, hrun⟩ <;> rw [hrun]
  · exact ⟨new, h.path hpath⟩
  · exact ⟨new, h.path hpath⟩
  · refine ⟨new ++ [.other], ?_⟩
    rw [← List.append_assoc]
    exact (h.path hpath).step (.fault (.inr trivial) hact fun h => (Terms.not_handsOn_any h).elim)

/-- `items` answer the latest request, the menu has not been closed since, the row is the one it was
made for, and it was made for `s`. -/
def Fresh (evs : List (Event V)) (e : Editor V) (s : Supplier) (items : List (Item V)) : Prop :=
  ∃ r : Request V, r.Current evs ∧ r.Answered evs items ∧ r.supplier = s ∧ r.tokens = e.tokens ∧
    r.generation = e.region.modifications

theorem Tracks.fresh (h : Tracks evs e) {s : Supplier} {item : Item V}
    (hitem : item ∈ e.receivedItems s) : ∃ items, e.Fresh evs s items ∧ item ∈ items := by
  unfold receivedItems at hitem
  split at hitem
  · rename_i generation offer hreceived
    split_ifs at hitem with hfits
    · obtain ⟨hgen, hs⟩ := hfits
      obtain ⟨r, hcur, hrs, hrg, hans⟩ := h.received generation offer hreceived
      have hrow := (h.row r hcur.mem).2 (hrg.trans hgen)
      exact ⟨offer.items, ⟨r, hcur, hans, hrs.trans hs, hrow, hrg.trans hgen⟩, hitem⟩
    · cases hitem
  · cases hitem

/-- Every operation goes on with a session, and so do the steps of the menu and of a sender, with
the events that they are. In every state of a session what the menu and typing propose is offered at
once or fresh, and nothing can be sent for a request that is over. -/
theorem later_items_are_current [Payload V] :
    (∀ {evs : List (Event V)} {e : Editor V}, Session evs e →
      (∀ op : Op V, ∃ new, Session (evs ++ new) (e.after op.run)) ∧
      Session (evs ++ [.requested (e.request e.menuSupplier.1 e.menuSupplier.2), .other])
        e.activateMenu ∧
      Session (evs ++ [.closed]) e.closeMenu ∧ Session (evs ++ [.other]) e.pollMenu.2 ∧
      (∀ id items, (e.send id items).1 = true →
        Session (evs ++ [.sent id items]) (e.send id items).2) ∧
      ∀ id, Session (evs ++ [.other]) (e.dropSender id)) ∧
    ∀ {evs : List (Event V)} {e : Editor V}, Session evs e →
      (∀ item ∈ e.menuOffer.items, item ∈ (e.menuSupplier.1.offer e.menuSupplier.2 e).items ∨
        ∃ items, e.Fresh evs e.menuSupplier.1 items ∧ item ∈ items) ∧
      (∀ s, ∀ item ∈ (e.typingOffer s).items,
        item ∈ (s.offer (if e.menu.active then .forMenu else .typing) e).items ∨
          ∃ items, e.Fresh evs s items ∧ item ∈ items) ∧
      ∀ before r after id items, evs = before ++ .requested r :: after → (∃ ev ∈ after, ev.Ends) →
        r.promise = .channel id → e.send id items = (false, e) := by
  refine ⟨fun {evs e} h => ⟨h.call, ?_, h.step .close, h.step .poll, fun id items hsent =>
    h.step (.send (fun _ _ => trivial) hsent), fun id => h.step (.drop id)⟩, fun {evs e} h => ⟨fun item hitem => ?_,
    fun s item hitem => ?_, fun before r after id items hevs ⟨ev, hev, hends⟩ hprom => ?_⟩⟩
  · have hopen := (h.step (.openMenu e.menuSupplier.1 e.menuSupplier.2)).step .poll
    rwa [List.append_assoc] at hopen
  · rcases List.mem_append.1 hitem with hitem | hitem
    · exact .inl hitem
    · exact .inr (h.tracks.fresh hitem)
  · unfold typingOffer at hitem
    split_ifs at hitem ⊢
    · rcases List.mem_append.1 hitem with hitem | hitem
      · exact .inl hitem
      · exact .inr (h.tracks.fresh hitem)
    · exact .inl hitem
  · obtain ⟨-, hwait⟩ := h.tracks.waiting before r after id hevs hprom
    have hrefused : (e.send id items).1 = false := by
      unfold Editor.send
      cases hc : e.channels[id]? with
      | none => rfl
      | some c =>
        cases c with
        | waiting => exact absurd hends ((hwait hc).1 ev hev)
        | sent m => rfl
        | closed => rfl
    exact Prod.ext hrefused (send_refused hrefused)

/-- A name sent while the menu of an empty editor waits is offered, and nothing more can be sent
once the menu is closed. -/
theorem later_items_are_current_name :
    ∃ (evs : List (Event Sum)) (e : Editor Sum) (item : Item Sum), Session evs e ∧
      item ∈ e.menuOffer.items ∧ (∃ items, e.Fresh evs .placeholder items ∧ item ∈ items) ∧
      Session (evs ++ [.closed]) e.closeMenu ∧ e.closeMenu.send 0 [] = (false, e.closeMenu) := by
  obtain ⟨hgo, hcurrent⟩ := later_items_are_current (V := Sum)
  let name : Item Sum := .token {} (.identifier ['z'])
  have hopen := (hgo (Session.new (Sum.language {}) {} {})).2.1
  have hsend := (hgo hopen).2.2.2.2.1 0 [name] rfl
  have hpoll := (hgo hsend).2.2.2.1
  have hclose := (hgo hpoll).2.2.1
  refine ⟨_, _, name, hpoll, ?_, ?_, hclose, ?_⟩
  · exact List.mem_append_right _ (List.mem_singleton.2 rfl)
  · refine ((hcurrent hpoll).1 name (List.mem_append_right _ (List.mem_singleton.2 rfl))).resolve_left ?_
    intro hown
    have hlabels : ∀ item ∈ (Supplier.placeholder.offer .forMenu
        (Editor.new (Sum.language {}) {} {})).items, item.label ≠ ['z'] := by decide
    exact hlabels name hown rfl
  · exact (hcurrent hclose).2.2 [] _ _ 0 [] rfl ⟨.closed, by simp, trivial⟩ rfl

end Editor

end TokenEditor
