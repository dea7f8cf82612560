import TokenEditor.Proofs.Operations
import TokenEditor.Sum.Language

/-! # Where items come from

An editor proposes what its language offers at once and what came later: the language answered a
request at once, or it was sent on the channel of one. `Held` are the items that came later or are on
their way. `Supplied L I` says that the language is in `L` and all of them are in `I`; where the
languages of `L` offer items of `I` only, it lasts along a path, and then nothing else is ever
proposed. -/

namespace TokenEditor
variable {V : Type}

/-- All items that the language offers are in `I`. -/
structure Language.Offers (I : Item V → Prop) (l : Language V) : Prop where
  tokenItems : ∀ cells context params, ∀ i ∈ l.tokenItems cells context params, I i
  extraItems : ∀ cells context params, ∀ i ∈ l.extraItems cells context params, I i
  laterItems : ∀ cells context params items,
    l.laterItems cells context params = .ready items → ∀ i ∈ items, I i

theorem Language.offers_any (l : Language V) : l.Offers fun _ => True where
  tokenItems _ _ _ _ _ := trivial
  extraItems _ _ _ _ _ := trivial
  laterItems _ _ _ _ _ _ _ := trivial

theorem Language.Offers.mono {I J : Item V → Prop} {l : Language V} (h : l.Offers I)
    (hJ : ∀ i, I i → J i) : l.Offers J where
  tokenItems cells context params i hi := hJ i (h.tokenItems cells context params i hi)
  extraItems cells context params i hi := hJ i (h.extraItems cells context params i hi)
  laterItems cells context params items hready i hi :=
    hJ i (h.laterItems cells context params items hready i hi)

namespace Channels
variable {cs cs' cs'' : Channels V} {id : Nat}

/-- Some of the channels have been closed. -/
structure Shut (before after : Channels V) : Prop where
  length : after.length = before.length
  channel : ∀ id : Nat, after[id]? = before[id]? ∨ after[id]? = some Channel.closed

theorem Shut.refl (cs : Channels V) : Shut cs cs := ⟨rfl, fun _ => .inl rfl⟩

theorem Shut.trans (h : Shut cs cs') (h' : Shut cs' cs'') : Shut cs cs'' := by
  refine ⟨h'.length.trans h.length, fun id => ?_⟩
  rcases h'.channel id with h₁ | h₁
  · rw [h₁]
    exact h.channel id
  · exact .inr h₁

theorem Shut.eq_of_ne_closed (h : Shut cs cs') {c : Channel (List (Item V))} (hc : c ≠ .closed)
    (hid : cs'[id]? = some c) : cs[id]? = some c := by
  rcases h.channel id with h₁ | h₁
  · exact h₁ ▸ hid
  · exact absurd (Option.some.inj (hid.symm.trans h₁)) hc

theorem shut_close (cs : Channels V) (id : Nat) : Shut cs (cs.modify id Channel.close) := by
  refine ⟨by simp, fun i => ?_⟩
  rw [List.getElem?_modify]
  by_cases hi : id = i
  · subst hi
    cases hc : cs[id]? with
    | none => exact .inl rfl
    | some c =>
      cases c with
      | waiting => exact .inr (by simp [Channel.close])
      | sent m => exact .inl (by simp [Channel.close])
      | closed => exact .inl (by simp [Channel.close])
  · left
    simp [hi]

theorem shut_set (cs : Channels V) (id : Nat) : Shut cs (cs.set id .closed) := by
  refine ⟨by simp, fun i => ?_⟩
  rw [List.getElem?_set]
  split_ifs with hi hlt
  · exact .inr rfl
  · subst hi
    exact .inl (List.getElem?_eq_none (by omega)).symm
  · exact .inl rfl

theorem shut_foldl (ids : List Nat) (cs : Channels V) :
    Shut cs (ids.foldl (fun cs id => cs.modify id Channel.close) cs) := by
  induction ids generalizing cs with
  | nil => exact .refl cs
  | cons id ids ih => exact (shut_close cs id).trans (ih _)

theorem shut_cancel (cs : Channels V) (promise : Promise V) : Shut cs (promise.cancel cs) := by
  cases promise with
  | ready items => exact .refl cs
  | channel id => exact shut_close cs id

theorem cancel_ne_waiting (cs : Channels V) (id : Nat) :
    (Promise.cancel cs (.channel id))[id]? ≠ some .waiting := by
  show (cs.modify id Channel.close)[id]? ≠ _
  rw [List.getElem?_modify]
  cases cs[id]? with
  | none => simp
  | some c => cases c <;> simp [Channel.close]

end Channels

/-- A look at a request leaves it waiting, or closes its channel at most. -/
theorem Promise.poll_cases (cs : Channels V) (q : Promise V) :
    q.poll cs = (.pending, q, cs) ∨
      (∀ id : Nat, q = .channel id → cs[id]? ≠ some .waiting) ∧
        ∃ q' cs', Channels.Shut cs cs' ∧
          (q.poll cs = (.cancelled, q', cs') ∨
            ∃ items, q.poll cs = (.ready items, q', cs') ∧
              (q = .ready items ∨ ∃ id, q = .channel id ∧ cs[id]? = some (.sent items))) := by
  cases q with
  | ready items =>
    exact .inr ⟨fun _ hid => (nomatch hid), _, _, .refl cs, .inr ⟨items, rfl, .inl rfl⟩⟩
  | channel id =>
    simp only [Promise.poll]
    cases hc : cs[id]? with
    | none =>
      refine .inr ⟨fun id' hid => ?_, _, _, .refl cs, .inl rfl⟩
      cases hid
      simp [hc]
    | some c =>
      have hover : c ≠ .waiting → ∀ id' : Nat, Promise.channel (V := V) id = .channel id' →
          cs[id']? ≠ some .waiting := by
        intro hne id' hid
        cases hid
        simp [hc, hne]
      cases c with
      | waiting =>
        left
        simp only [Channel.poll, Channels.set_self hc]
      | sent items =>
        exact .inr ⟨hover (by simp), _, _, Channels.shut_set cs id,
          .inr ⟨items, rfl, .inr ⟨id, rfl, hc⟩⟩⟩
      | closed => exact .inr ⟨hover (by simp), _, _, Channels.shut_set cs id, .inl rfl⟩

namespace Editor
variable {e e' : Editor V} {i : Item V}

/-- A request is answered at once, or waits on a new channel; the language may give up others. -/
theorem promise_cases (e : Editor V) (calls : List (Call V)) :
    (e.promise calls).2.menu = e.menu ∧ ∃ cs, Channels.Shut e.channels cs ∧
      ((∃ items, (e.promise calls).1 = .ready items ∧ (e.promise calls).2.channels = cs) ∨
        (e.promise calls).1 = .channel e.channels.length ∧
          (e.promise calls).2.channels = cs ++ [.waiting]) := by
  unfold promise
  split
  · exact ⟨rfl, _, .refl _, .inl ⟨_, rfl, rfl⟩⟩
  · split
    · exact ⟨rfl, _, .refl _, .inl ⟨_, rfl, rfl⟩⟩
    · exact ⟨rfl, _, .refl _, .inr ⟨rfl, rfl⟩⟩
    · have hshut := Channels.shut_foldl e.owed e.channels
      refine ⟨rfl, _, hshut, .inr ⟨?_, rfl⟩⟩
      show Promise.channel (e.dropOwed.channels.length) = _
      rw [← hshut.length]
      rfl

theorem shut_closeMenu (e : Editor V) : Channels.Shut e.channels e.closeMenu.channels := by
  unfold closeMenu
  cases e.menu.pending with
  | none => exact .refl _
  | some p => exact Channels.shut_cancel _ _

theorem closeMenu_ne_waiting {p : Pending V} {id : Nat} (hp : e.menu.pending = some p)
    (hid : p.promise = .channel id) : e.closeMenu.channels[id]? ≠ some .waiting := by
  unfold closeMenu
  rw [hp]
  simp only [hid]
  exact Channels.cancel_ne_waiting _ _

/-- What a look for the answer leaves: the pending request is over, on channels of which some were
closed, and without or with an answer to it. -/
inductive Polled (e : Editor V) (p : Pending V) : Editor V → Prop
  | without {cs : Channels V} : Channels.Shut e.channels cs →
      Polled e p { e with channels := cs, menu := { e.menu with pending := none } }
  | received {cs : Channels V} {offer : Offer V} : Channels.Shut e.channels cs →
      offer.supplier = p.supplier → e.region.modifications = p.generation →
      p.promise = .ready offer.items ∨
        (∃ id, p.promise = .channel id ∧ e.channels[id]? = some (.sent offer.items)) →
      Polled e p { e with
        channels := cs
        menu := { e.menu with
          pending := none, received := some (e.region.modifications, offer) } }

/-- A look for the answer finds nothing new, or the request is over; then its channel does not wait
any more. -/
theorem pollMenu_cases (e : Editor V) : e.pollMenu.2 = e ∨
    ∃ p, e.menu.pending = some p ∧ Polled e p e.pollMenu.2 ∧
      ∀ id : Nat, p.promise = .channel id → e.channels[id]? ≠ some .waiting := by
  unfold pollMenu
  cases hp : e.menu.pending with
  | none => exact .inl rfl
  | some p =>
    simp only [Pending.poll]
    rcases p.promise.poll_cases e.channels with
      hpoll | ⟨hover, q, cs, hshut, hpoll | ⟨items, hpoll, hitems⟩⟩
    · left
      simp only [hpoll]
      show { e with menu := { e.menu with pending := some p } } = e
      rw [← hp]
    · simp only [hpoll]
      exact .inr ⟨p, rfl, .without hshut, hover⟩
    · refine .inr ⟨p, rfl, ?_, hover⟩
      simp only [hpoll]
      by_cases hgen : e.region.modifications = p.generation
      · simp only [if_pos hgen]
        exact .received hshut rfl hgen hitems
      · simp only [if_neg hgen]
        exact .without hshut

/-! ### Items on their way -/

/-- The menu was given the item, or the item is on its way to it. -/
inductive Held (e : Editor V) (i : Item V) : Prop
  | received {generation : Nat} {offer : Offer V} :
      e.menu.received = some (generation, offer) → i ∈ offer.items → Held e i
  | promised {p : Pending V} {items : List (Item V)} :
      e.menu.pending = some p → p.promise = .ready items → i ∈ items → Held e i
  | sent {id : Nat} {items : List (Item V)} :
      e.channels[id]? = some (.sent items) → i ∈ items → Held e i

namespace Held

theorem aside (h : e'.Held i) (hmenu : e'.menu = e.menu) (hchannels : e'.channels = e.channels) :
    e.Held i := by
  cases h with
  | received hr hi => exact .received (hmenu ▸ hr) hi
  | promised hp hready hi => exact .promised (hmenu ▸ hp) hready hi
  | sent hid hi => exact .sent (hchannels ▸ hid) hi

theorem of_shut {cs : Channels V} (hshut : Channels.Shut e.channels cs) {id : Nat}
    {items : List (Item V)} (hid : cs[id]? = some (.sent items)) (hi : i ∈ items) : e.Held i :=
  .sent (hshut.eq_of_ne_closed (by simp) hid) hi

theorem of_closeMenu (h : e.closeMenu.Held i) : e.Held i := by
  cases h with
  | received hr => cases hr
  | promised hp => cases hp
  | sent hid hi => exact of_shut (shut_closeMenu e) hid hi

theorem of_pollMenu (h : e.pollMenu.2.Held i) : e.Held i := by
  rcases pollMenu_cases e with hsame | ⟨p, hp, hpolled, -⟩
  · rwa [hsame] at h
  generalize e.pollMenu.2 = e' at h hpolled
  cases hpolled with
  | without hshut =>
    cases h with
    | received hr hi => exact .received hr hi
    | promised hp' => cases hp'
    | sent hid hi => exact of_shut hshut hid hi
  | received hshut _ _ hitems =>
    cases h with
    | received hr hi =>
      cases hr
      rcases hitems with hready | ⟨id, -, hid⟩
      · exact .promised hp hready hi
      · exact .sent hid hi
    | promised hp' => cases hp'
    | sent hid hi => exact of_shut hshut hid hi

theorem of_send {id : Nat} {items : List (Item V)} (h : (e.send id items).2.Held i) :
    e.Held i ∨ i ∈ items := by
  unfold Editor.send at h
  split at h
  · exact .inl h
  rename_i c hc
  cases h with
  | received hr hi => exact .inl (.received hr hi)
  | promised hp hready hi => exact .inl (.promised hp hready hi)
  | @sent id' items' hid hi =>
    have hid' : (e.channels.set id (c.send items).2)[id']? = some (.sent items') := hid
    rw [List.getElem?_set] at hid'
    split_ifs at hid'
    · cases c with
      | waiting =>
        cases hid'
        exact .inr hi
      | sent items₀ => exact .inl (.sent (hc.trans hid') hi)
      | closed => cases hid'
    · exact .inl (.sent hid' hi)

theorem of_promise_ready {I : Item V → Prop} (hl : e.region.language.Offers I)
    {calls : List (Call V)} {items : List (Item V)} (h : (e.promise calls).1 = .ready items) :
    ∀ i ∈ items, I i := by
  unfold Editor.promise at h
  split at h
  · cases h
    simp
  · split at h
    · rename_i hlater
      cases h
      exact hl.laterItems _ _ _ _ hlater
    · cases h
    · cases h

/-- A request brings in what the language answers at once. -/
theorem of_opened {I : Item V → Prop} (hl : e.region.language.Offers I) {s : Supplier}
    {params : Params} (h : (e.opened s params).Held i) : e.Held i ∨ I i := by
  obtain ⟨-, cs, hshut, hcases⟩ := promise_cases e (s.laterCalls params e)
  cases h with
  | received hr => cases hr
  | promised hp hready hi =>
    cases hp
    exact .inr (of_promise_ready hl hready i hi)
  | sent hid hi =>
    have hid := (shut_closeMenu (e.promise (s.laterCalls params e)).2).eq_of_ne_closed (by simp) hid
    rcases hcases with ⟨-, -, hcs⟩ | ⟨-, hcs⟩
    · exact .inl (of_shut hshut (hcs ▸ hid) hi)
    · rw [hcs, List.getElem?_append] at hid
      split_ifs at hid
      · exact .inl (of_shut hshut hid hi)
      · cases List.mem_singleton.1 (List.mem_of_getElem? hid)

theorem of_dropOwed (h : e.dropOwed.Held i) : e.Held i := by
  cases h with
  | received hr hi => exact .received hr hi
  | promised hp hready hi => exact .promised hp hready hi
  | sent hid hi => exact of_shut (Channels.shut_foldl e.owed e.channels) hid hi

theorem of_dropSender {id : Nat} (h : (e.dropSender id).Held i) : e.Held i := by
  cases h with
  | received hr hi => exact .received hr hi
  | promised hp hready hi => exact .promised hp hready hi
  | sent hid hi => exact of_shut (Channels.shut_close e.channels id) hid hi

end Held

/-- The language is in `L`, and all items that came later or are on their way are in `I`. -/
structure Supplied (L : Language V → Prop) (I : Item V → Prop) (e : Editor V) : Prop where
  language : L e.region.language
  items : ∀ i, e.Held i → I i

namespace Supplied
variable {L : Language V → Prop} {I : Item V → Prop}

theorem new {l : Language V} (hl : L l) (cells : Cells) (settings : Settings) :
    (Editor.new l cells settings).Supplied L I := by
  refine ⟨hl, fun i hi => ?_⟩
  cases hi with
  | received hr => cases hr
  | promised hp => cases hp
  | sent hid => cases hid

/-- Focus, placeholder and selection play no part, and of the region the language only. -/
theorem aside (h : e.Supplied L I) (hl : L e'.region.language) (hmenu : e'.menu = e.menu)
    (hchannels : e'.channels = e.channels) : e'.Supplied L I :=
  ⟨hl, fun i hi => h.items i (hi.aside hmenu hchannels)⟩

theorem setRegion (h : e.Supplied L I) {r : Region V} (hl : L r.language) :
    Supplied L I { e with region := r } :=
  h.aside hl rfl rfl

theorem closeMenu (h : e.Supplied L I) : e.closeMenu.Supplied L I :=
  ⟨h.language, fun i hi => h.items i hi.of_closeMenu⟩

theorem pollMenu (h : e.Supplied L I) : e.pollMenu.2.Supplied L I :=
  ⟨(region_pollMenu e).symm ▸ h.language, fun i hi => h.items i hi.of_pollMenu⟩

theorem send (h : e.Supplied L I) (id : Nat) {items : List (Item V)} (hitems : ∀ i ∈ items, I i) :
    (e.send id items).2.Supplied L I := by
  refine ⟨(region_send e id items).1.symm ▸ h.language, fun i hi => ?_⟩
  rcases hi.of_send with hi | hi
  · exact h.items i hi
  · exact hitems i hi

variable (hL : ∀ l, L l → l.Offers I)
include hL

theorem opened (h : e.Supplied L I) (s : Supplier) (params : Params) :
    (e.opened s params).Supplied L I := by
  refine ⟨(region_opened e s params).symm ▸ h.language, fun i hi => ?_⟩
  rcases hi.of_opened (hL _ h.language) with hi | hi
  · exact h.items i hi
  · exact hi

theorem activateMenu (h : e.Supplied L I) : e.activateMenu.Supplied L I := by
  rw [activateMenu_eq]
  exact (h.opened hL _ _).pollMenu

theorem proposes (h : e.Supplied L I) : e.Proposes I := by
  refine ⟨fun s params i hi => ?_, fun s i hi => ?_⟩
  · obtain ⟨call, -, hanswer⟩ := List.mem_flatMap.1 hi
    have hoffers := hL _ h.language
    unfold Language.answer at hanswer
    split at hanswer
    · exact hoffers.tokenItems _ _ _ i hanswer
    · exact hoffers.extraItems _ _ _ i hanswer
    · cases hanswer
  · unfold receivedItems at hi
    split at hi
    · rename_i hreceived
      split_ifs at hi
      · exact h.items i (.received hreceived hi)
      · cases hi
    · cases hi

theorem mem_looseItems (h : e.Supplied L I) : ∀ i ∈ e.looseItems, I i :=
  (hL _ h.language).tokenItems _ _ _

end Supplied

section
variable [Payload V] {T : Terms V} {p : Prop} {L : Language V → Prop} {start : Editor V}
  {ev : Event V} {evs : List (Event V)} (hL : ∀ l, L l → l.Offers T.items)
  (hset : ∀ l, T.acts (.setLanguage l) → L l)
include hL hset

theorem Step.supplied (hs : Step T e ev e') (h : e.Supplied L T.items) : e'.Supplied L T.items := by
  have hacts : ∀ {act : Region.Act V}, act.IsEdit ∨ T.acts act →
      wp act.run (fun _ r => L r.language) (fun _ r => L r.language) e.region := by
    intro act hact
    refine Region.Act.language (fun l hl => ?_) h.language
    subst hl
    exact hset l (hact.resolve_left id)
  cases hs with
  | act hact hrun =>
    have hl := hacts hact
    rw [wp, hrun] at hl
    exact h.setRegion hl
  | fault hact hrun _ =>
    have hl := hacts hact
    rw [wp, hrun] at hl
    exact h.setRegion hl
  | close => exact h.closeMenu
  | openMenu s params => exact h.opened hL s params
  | poll => exact h.pollMenu
  | send hitems _ => exact h.send _ hitems
  | drop id => exact ⟨h.language, fun i hi => h.items i hi.of_dropSender⟩
  | view | cells | aside | mark => exact h.aside h.language rfl rfl

theorem Path.supplied (hpath : Path T start evs e) (h : start.Supplied L T.items) :
    e.Supplied L T.items := by
  induction hpath with
  | refl => exact h
  | step _ hs ih => exact hs.supplied hL hset ih

theorem Supplied.supplies (h : start.Supplied L T.items) : Supplies T p start := by
  rintro e ⟨⟨evs, hpath⟩, -⟩
  exact (hpath.supplied hL hset h).proposes hL

end

theorem after_iff {α : Type} {f : EditM V α} {P : Editor V → Prop} :
    P (e.after f) ↔ wp f (fun _ => P) (fun _ => P) e := by
  unfold after wp
  cases f e <;> rfl

section
variable [Payload V] {L : Language V → Prop} {I : Item V → Prop}

omit [Payload V] in
theorem Op.Speaks.language {op : Op V} (h : op.Speaks L I) {l : Language V}
    (hset : op.Uses (.setLanguage l)) : L l := by
  cases op with
  | setLanguage l' =>
    cases hset
    exact h
  | _ => cases hset

omit [Payload V] in
theorem Op.Speaks.mono {M : Language V → Prop} {J : Item V → Prop} {op : Op V} (h : op.Speaks L I)
    (hL : ∀ l, L l → M l) (hI : ∀ i, I i → J i) : op.Speaks M J := by
  cases op with
  | setLanguage l => exact hL l h
  | answer items => exact fun i hi => hI i (h i hi)
  | send id items => exact fun i hi => hI i (h i hi)
  | _ => trivial

omit [Payload V] in
theorem Op.Speaks.items {op : Op V} (h : op.Speaks L I) : op.Speaks (fun _ => True) I :=
  h.mono (fun _ _ => trivial) fun _ hi => hi

omit [Payload V] in
theorem Op.Speaks.within {op : Op V} (h : op.Speaks L I) {act : Region.Act V}
    (hact : act.IsEdit ∨ op.Uses act) : act.Within L fun _ => True := by
  cases act with
  | setLanguage l => exact h.language (hact.resolve_left id)
  | _ => simp [Region.Act.Within]

namespace Supplied

/-- Only the answers of the language bring in items. -/
theorem after (hL : ∀ l, L l → l.Offers I) {op : Op V} (h : e.Supplied L I) (hop : op.Speaks L I) :
    (e.after op.run).Supplied L I := by
  let T : Terms V := ⟨op.Uses, I, False⟩
  have hset : ∀ l, T.acts (.setLanguage l) → L l := fun l => hop.language
  obtain ⟨evs, e₁, hpath, hends⟩ := Op.outcome (T := T) ⟨fun _ h => h, hop.items⟩ e
    (h.supplies hL hset)
  have h₁ := hpath.supplied hL hset h
  unfold Editor.after
  rcases hends with hrun | ⟨err, hrun, -⟩ | ⟨act, err, r, hact, hfails, hrun⟩ <;> rw [hrun]
  · exact h₁
  · exact h₁
  · refine h₁.setRegion ?_
    have hl : wp act.run (fun _ r => L r.language) (fun _ r => L r.language) e₁.region := by
      refine Region.Act.language (fun l hl => ?_) h₁.language
      subst hl
      exact hset l (hact.resolve_left id)
    rwa [wp, hfails] at hl

theorem afterAll (hL : ∀ l, L l → l.Offers I) {ops : List (Op V)} (h : e.Supplied L I)
    (hops : ∀ op ∈ ops, op.Speaks L I) : (afterAll ops e).Supplied L I := by
  induction ops generalizing e with
  | nil => exact h
  | cons op ops ih =>
    obtain ⟨hop, hops⟩ := List.forall_mem_cons.1 hops
    exact ih (h.after hL hop) hops

end Supplied

end

end Editor

/-- The languages of sums. -/
def Sum.IsLanguage (l : Language Sum) : Prop := ∃ style, l = language style

theorem Sum.offers_isPlain (style : Sum.Style) : (Sum.language style).Offers Item.IsPlain where
  tokenItems cells context params i hi scope t store := by
    simp only [Sum.language, Sum.tokenItems, List.mem_cons, List.not_mem_nil, or_false] at hi
    rcases hi with rfl | rfl | rfl | rfl | rfl | rfl | rfl | rfl <;> exact ⟨_, _, rfl⟩
  extraItems cells context params i hi scope t store := by
    cases List.mem_singleton.1 hi
    exact ⟨_, _, rfl⟩
  laterItems cells context params items hready := by cases hready

end TokenEditor
