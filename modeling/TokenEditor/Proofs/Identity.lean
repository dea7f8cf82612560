import Mathlib.Data.List.Nodup
import TokenEditor.Proofs.Calls
import TokenEditor.Proofs.Mismatch

/-! # Views keep their identity

The numbers of the views come from one counter, and only splices touch the row. So what `Evolves`
says holds between any two states of a run, however far apart: the tokens with old numbers are some
of the old row, each under its own number and in the old order.

`views_keep_identity` puts this in terms of numbers: within a state they are distinct, a number
stands for one token for ever, one that is gone does not come back, and those that stay keep their
order. Bringing the row in line with its print gives a new number exactly where it puts in another
token. -/

namespace TokenEditor
variable {V : Type}

theorem View.ids_ofTokens [Payload V] (cells : Cells) (id : ViewId) (ts : List (Token V)) :
    (View.ofTokens cells id ts).map View.id = List.range' id ts.length := by
  induction ts generalizing id with
  | nil => rfl
  | cons t ts ih => exact congrArg (id :: ·) (ih (id + 1))

namespace Region
variable {r r' r'' : Region V}

/-- The numbers of the views, along the row. -/
def ids (r : Region V) : List ViewId :=
  r.views.map View.id

/-- The row, each token with the number of its view. -/
def numbered (r : Region V) : List (ViewId × Token V) :=
  r.ids.zip r.tokens

/-- The token whose view has the number. -/
def tokenOf? (r : Region V) (id : ViewId) : Option (Token V) :=
  (r.viewPosition? id).bind fun index => r.tokens[index]?

/-- Every token has a number of its own, and the counter is past all of them. -/
structure Numbered (r : Region V) : Prop where
  length_eq : r.ids.length = r.tokens.length
  nodup : r.ids.Nodup
  lt_nextView : ∀ id ∈ r.ids, id < r.nextView

/-- The counter goes forward, and what has a number from before is part of the row from before. -/
structure Evolves (before after : Region V) : Prop where
  nextView_le : before.nextView ≤ after.nextView
  old : (after.numbered.filter fun x => x.1 < before.nextView).Sublist before.numbered

theorem isSome_tokenOf? {id : ViewId} (hlen : r.ids.length = r.tokens.length) (h : id ∈ r.ids) :
    (r.tokenOf? id).isSome := by
  obtain ⟨v, hv, rfl⟩ := List.mem_map.1 h
  have hfound : (r.viewPosition? v.id).isSome := by
    rw [viewPosition?, List.findIdx?_isSome, List.any_eq_true]
    exact ⟨v, hv, beq_self_eq_true _⟩
  obtain ⟨index, hindex⟩ := Option.isSome_iff_exists.1 hfound
  obtain ⟨hlt, -⟩ := List.findIdx?_eq_some_iff_getElem.1 hindex
  have hin : index < r.tokens.length := by
    rw [← hlen, ids, List.length_map]
    exact hlt
  simp [tokenOf?, hindex, hin]

theorem mem_numbered_of_tokenOf? {id : ViewId} {t : Token V} (h : r.tokenOf? id = some t) :
    (id, t) ∈ r.numbered := by
  obtain ⟨index, hindex, ht⟩ := Option.bind_eq_some_iff.1 h
  obtain ⟨hlt, hid, -⟩ := List.findIdx?_eq_some_iff_getElem.1 hindex
  have hmem : r.numbered[index]? = some (id, t) := by
    simp [numbered, ids, List.getElem?_zip_eq_some, ht, hlt, beq_iff_eq.1 hid]
  exact List.mem_of_getElem? hmem

namespace Numbered

theorem new (l : Language V) (cells : Cells) (settings : Settings) :
    (Region.new l cells settings).Numbered :=
  ⟨rfl, .nil, by rintro id ⟨⟩⟩

theorem congr (h : r.Numbered) (hids : r'.ids = r.ids) (htokens : r'.tokens = r.tokens)
    (hnext : r'.nextView = r.nextView) : r'.Numbered := by
  obtain ⟨hlen, hnodup, hlt⟩ := h
  exact ⟨by rw [hids, htokens, hlen], by rwa [hids], by rwa [hids, hnext]⟩

theorem map_fst (h : r.Numbered) : r.numbered.map Prod.fst = r.ids :=
  List.map_fst_zip (Nat.le_of_eq h.length_eq)

theorem unique (h : r.Numbered) {id : ViewId} {t t' : Token V} (ht : (id, t) ∈ r.numbered)
    (ht' : (id, t') ∈ r.numbered) : t = t' := by
  have hnodup : (r.numbered.map Prod.fst).Nodup := h.map_fst ▸ h.nodup
  exact congrArg Prod.snd (List.inj_on_of_nodup_map hnodup ht ht' rfl)

end Numbered

namespace Evolves

theorem refl (r : Region V) : r.Evolves r :=
  ⟨Nat.le_refl _, List.filter_sublist⟩

theorem trans (h : r.Evolves r') (h' : r'.Evolves r'') : r.Evolves r'' := by
  refine ⟨Nat.le_trans h.nextView_le h'.nextView_le, ?_⟩
  have hfilter : (r''.numbered.filter fun x => x.1 < r.nextView) =
      (r''.numbered.filter fun x => x.1 < r'.nextView).filter fun x => x.1 < r.nextView := by
    rw [List.filter_filter]
    refine List.filter_congr fun x _ => ?_
    rw [← Bool.decide_and, decide_eq_decide]
    exact ⟨fun hx => ⟨hx, Nat.lt_of_lt_of_le hx h.nextView_le⟩, fun hx => hx.1⟩
  rw [hfilter]
  exact (h'.old.filter _).trans h.old

theorem congr (h : r.Evolves r') (hids : r''.ids = r'.ids) (htokens : r''.tokens = r'.tokens)
    (hnext : r''.nextView = r'.nextView) : r.Evolves r'' := by
  obtain ⟨hle, hold⟩ := h
  exact ⟨by rwa [hnext], by rwa [numbered, hids, htokens]⟩

theorem ids_sublist (h : r.Evolves r') (hr : r.Numbered) (hr' : r'.Numbered) :
    (r'.ids.filter fun id => id < r.nextView).Sublist r.ids := by
  have hmap := h.old.map Prod.fst
  rw [hr.map_fst] at hmap
  rw [← hr'.map_fst, List.filter_map]
  exact hmap

theorem mem_ids (h : r.Evolves r') (hr : r.Numbered) (hr' : r'.Numbered) {id : ViewId}
    (hid : id ∈ r'.ids) (hlt : id < r.nextView) : id ∈ r.ids :=
  (h.ids_sublist hr hr').subset (List.mem_filter.2 ⟨hid, by simpa using hlt⟩)

theorem token_eq (h : r.Evolves r') (hr : r.Numbered) {id : ViewId} {t t' : Token V}
    (ht : (id, t) ∈ r.numbered) (ht' : (id, t') ∈ r'.numbered) : t' = t := by
  have hlt : id < r.nextView := hr.lt_nextView id (List.of_mem_zip ht).1
  have hold : (id, t') ∈ r.numbered :=
    h.old.subset (List.mem_filter.2 ⟨ht', by simpa using hlt⟩)
  exact hr.unique hold ht

theorem order_kept (h : r.Evolves r') (hr : r.Numbered) (hr' : r'.Numbered) :
    (r'.ids.filter (· ∈ r.ids)).Sublist r.ids := by
  have hold : r'.ids.filter (· ∈ r.ids) = r'.ids.filter fun id => id < r.nextView := by
    refine List.filter_congr fun id hid => ?_
    rw [decide_eq_decide]
    exact ⟨hr.lt_nextView id, h.mem_ids hr hr' hid⟩
  rw [hold]
  exact h.ids_sublist hr hr'

end Evolves

/-- `after` has its numbers from `before` and from the counter. -/
structure Renumbers (before after : Region V) : Prop extends before.Evolves after where
  distinct : after.Numbered

theorem Renumbers.congr (h : r.Renumbers r') (hids : r''.ids = r'.ids)
    (htokens : r''.tokens = r'.tokens) (hnext : r''.nextView = r'.nextView) : r.Renumbers r'' :=
  ⟨h.toEvolves.congr hids htokens hnext, h.distinct.congr hids htokens hnext⟩

variable [Payload V] {start stop : Nat} {new : List (Token V)}

theorem sublist_splice {α : Type} (l : List α) (h : start ≤ stop) :
    (l.take start ++ l.drop stop).Sublist l := by
  have hdrop := (List.Sublist.refl (l.take start)).append (List.drop_sublist_drop_left l h)
  rwa [List.take_append_drop] at hdrop

theorem ids_spliced : (r.spliced start stop new).ids =
    r.ids.take start ++ List.range' r.nextView new.length ++ r.ids.drop stop := by
  simp [ids, spliced, View.ids_ofTokens]

theorem Numbered.numbered_spliced (h : r.Numbered) : (r.spliced start stop new).numbered =
    r.numbered.take start ++ (List.range' r.nextView new.length).zip new ++
      r.numbered.drop stop := by
  have hlen := h.length_eq
  have htake : (r.ids.take start).length = (r.tokens.take start).length := by simp [hlen]
  rw [numbered, ids_spliced, spliced, List.zip_append (by simp [hlen]), List.zip_append htake]
  simp only [numbered, List.zip, List.take_zipWith, List.drop_zipWith]

theorem Numbered.spliced (h : r.Numbered) (hle : start ≤ stop) :
    (r.spliced start stop new).Numbered := by
  have hkept := sublist_splice r.ids hle
  refine ⟨?_, ?_, fun id hid => ?_⟩
  · rw [ids_spliced, Region.spliced]
    simp [h.length_eq]
  · -- the new numbers begin where the old ones end
    have hperm : (r.ids.take start ++ r.ids.drop stop ++ List.range' r.nextView new.length).Perm
        (r.spliced start stop new).ids := by
      rw [ids_spliced, List.append_assoc, List.append_assoc]
      exact List.perm_append_comm.append_left _
    refine hperm.nodup (List.nodup_append.2 ⟨h.nodup.sublist hkept, List.nodup_range', ?_⟩)
    intro a ha b hb hab
    have hlt := h.lt_nextView a (hkept.subset ha)
    have hge := (List.mem_range'_1.1 hb).1
    exact absurd hab (Nat.ne_of_lt (Nat.lt_of_lt_of_le hlt hge))
  · rw [ids_spliced, List.append_assoc] at hid
    show id < r.nextView + new.length
    rcases List.mem_append.1 hid with hid | hid
    · exact Nat.lt_add_right _ (h.lt_nextView id (List.mem_of_mem_take hid))
    · rcases List.mem_append.1 hid with hid | hid
      · exact (List.mem_range'_1.1 hid).2
      · exact Nat.lt_add_right _ (h.lt_nextView id (List.mem_of_mem_drop hid))

theorem Numbered.evolves_spliced (h : r.Numbered) (hle : start ≤ stop) :
    r.Evolves (r.spliced start stop new) := by
  refine ⟨Nat.le_add_right _ _, ?_⟩
  have hnew : ((List.range' r.nextView new.length).zip new).filter (fun x => x.1 < r.nextView) = [] := by
    refine List.filter_eq_nil_iff.2 fun x hx => ?_
    have hge := (List.mem_range'_1.1 (List.of_mem_zip hx).1).1
    simpa using hge
  rw [h.numbered_spliced, List.filter_append, List.filter_append, hnew, List.append_nil]
  exact (List.filter_sublist.append List.filter_sublist).trans (sublist_splice _ hle)

omit [Payload V] in
theorem ids_modifyView (index : Nat) {f : View → View} (hf : View.Edit f) :
    (r.modifyView index f).ids = r.ids := by
  refine List.ext_getElem? fun i => ?_
  simp only [ids, Region.modifyView, List.getElem?_map, List.getElem?_modify]
  cases r.views[i]? with
  | none => rfl
  | some v =>
    split
    · exact congrArg some (hf.id_eq v)
    · rfl

namespace Renumbers

theorem change {S : Supply V} (h : r.Renumbers r') (hs : Change S r' r'') : r.Renumbers r'' := by
  obtain ⟨start, stop, new, hle, -, rfl⟩ | ⟨hkeeps, hnext⟩ := hs.row
  · exact ⟨h.toEvolves.trans (h.distinct.evolves_spliced hle), h.distinct.spliced hle⟩
  · exact h.congr (congrArg (List.map View.id) hkeeps.views) hkeeps.tokens hnext

omit [Payload V] in
theorem modifyView (h : r.Renumbers r') (index : Nat) {f : View → View} (hf : View.Edit f) :
    r.Renumbers (r'.modifyView index f) :=
  h.congr (ids_modifyView index hf) rfl rfl

theorem act (h : r.Renumbers r') (act : Act V) :
    wp act.run (fun _ => r.Renumbers) (fun _ => r.Renumbers) r' := by
  have hpass : ∀ r'' : Region V, r'.Passes .unlimited r'' → r.Renumbers r'' :=
    fun _ hp => hp.invariant (fun hs h => h.change hs) h
  exact wp_mono (act.undergoes r') (fun _ => hpass) (fun _ => hpass)

end Renumbers

/-- `after` is a later state than `before`: a host calls the region, or works on an editor that has
it, and whether a call fails or not the next one follows. -/
inductive Later (before : Region V) : Region V → Prop
  | refl : Later before before
  | call {r : Region V} (c : Call V) : Later before r → Later before (r.after c.run)
  | edit {e : Editor V} (op : Editor.Op V) : Later before e.region →
      Later before (e.after op.run).region

theorem Later.renumbers (h : r.Later r') (hr : r.Numbered) : r.Renumbers r' := by
  induction h with
  | refl => exact ⟨.refl r, hr⟩
  | call c _ ih =>
    exact Call.invariant c.within_unlimited (fun hs h => h.change hs) (fun _ h => h.congr rfl rfl rfl)
      (fun _ _ h => h.congr rfl rfl rfl) ih
  | edit op _ ih =>
    exact Editor.region_after_any (I := r.Renumbers) (fun hf h => h.modifyView _ hf)
      (fun h => h.congr rfl rfl rfl) (fun {act _} h => h.act act) op ih

/-! ### Aligning -/

section
variable {index j : Nat} {t old : Token V} {ts : List (Token V)}

theorem spliced_one (hr : r.Numbered) (hin : index < r.tokens.length) :
    (r.spliced index (index + 1) [t]).tokens = r.tokens.set index t ∧
      (r.spliced index (index + 1) [t]).ids = r.ids.set index r.nextView := by
  have hin' : index < r.ids.length := hr.length_eq ▸ hin
  rw [ids_spliced, spliced, List.set_eq_take_append_cons_drop, List.set_eq_take_append_cons_drop,
    if_pos hin, if_pos hin']
  simp

theorem Numbered.settled (hr : r.Numbered) (index : Nat) (t : Token V) :
    r.Renumbers (r.settled index t) := by
  unfold Region.settled
  split
  · split
    · exact ⟨.refl r, hr⟩
    · exact ⟨hr.evolves_spliced (Nat.le_succ index), hr.spliced (Nat.le_succ index)⟩
  · exact ⟨.refl r, hr⟩

theorem settled_of_ne (hr : r.Numbered) (hne : index ≠ j) :
    (r.settled index t).tokens[j]? = r.tokens[j]? ∧ (r.settled index t).ids[j]? = r.ids[j]? := by
  unfold settled
  split
  · rename_i old hold
    split
    · exact ⟨rfl, rfl⟩
    · obtain ⟨hin, -⟩ := List.getElem?_eq_some_iff.1 hold
      obtain ⟨htokens, hids⟩ := spliced_one (t := t) hr hin
      rw [htokens, hids, List.getElem?_set_ne hne, List.getElem?_set_ne hne]
      exact ⟨rfl, rfl⟩
  · exact ⟨rfl, rfl⟩

theorem alignedFrom_of_lt (ts : List (Token V)) (hr : r.Numbered) (hj : j < index) :
    (r.alignedFrom index ts).tokens[j]? = r.tokens[j]? ∧
      (r.alignedFrom index ts).ids[j]? = r.ids[j]? := by
  induction ts generalizing index r with
  | nil => exact ⟨rfl, rfl⟩
  | cons t ts ih =>
    obtain ⟨htokens, hids⟩ := ih (hr.settled index t).distinct (Nat.lt_succ_of_lt hj)
    obtain ⟨htokens', hids'⟩ := settled_of_ne (t := t) hr (Nat.ne_of_gt hj)
    exact ⟨htokens.trans htokens', hids.trans hids'⟩

/-- What becomes of one place: a token that is the same as the listed one stays with its number, and
any other gives way to it under a number from the counter. -/
theorem alignedFrom_at (index : Nat) (hr : r.Numbered) (ht : ts[j]? = some t)
    (hold : r.tokens[index + j]? = some old) :
    if old.same r.cells t then
      (r.alignedFrom index ts).tokens[index + j]? = some old ∧
        (r.alignedFrom index ts).ids[index + j]? = r.ids[index + j]?
    else (r.alignedFrom index ts).tokens[index + j]? = some t ∧
      ∃ id, (r.alignedFrom index ts).ids[index + j]? = some id ∧ r.nextView ≤ id := by
  induction ts generalizing index r j with
  | nil => cases ht
  | cons u ts ih =>
    have hr' := hr.settled index u
    cases j with
    | zero =>
      obtain rfl : u = t := Option.some.inj ht
      obtain ⟨htokens, hids⟩ := alignedFrom_of_lt ts hr'.distinct (Nat.lt_succ_self index)
      rw [Nat.add_zero] at hold ⊢
      rw [alignedFrom, htokens, hids]
      obtain ⟨hin, -⟩ := List.getElem?_eq_some_iff.1 hold
      have hin' : index < r.ids.length := hr.length_eq ▸ hin
      obtain ⟨hset, hsetIds⟩ := spliced_one (t := u) hr hin
      simp only [settled, hold]
      split
      · exact ⟨hold, rfl⟩
      · rw [hset, hsetIds]
        exact ⟨List.getElem?_set_self hin, r.nextView, List.getElem?_set_self hin', Nat.le_refl _⟩
    | succ j =>
      have hne : index ≠ index + (j + 1) := by omega
      obtain ⟨htokens, hids⟩ := settled_of_ne (t := u) hr hne
      have hshift : index + (j + 1) = index + 1 + j := by omega
      rw [hshift] at hold htokens hids ⊢
      have hstep := ih (index + 1) hr'.distinct ht (htokens.trans hold)
      rw [(relaid_settled index u r).cells, hids] at hstep
      rw [alignedFrom]
      split at hstep
      · rw [if_pos ‹_›]
        exact hstep
      · rw [if_neg ‹_›]
        obtain ⟨htoken, id, hid, hge⟩ := hstep
        exact ⟨htoken, id, hid, Nat.le_trans hr'.nextView_le hge⟩

theorem length_alignedFrom (index : Nat) (ts : List (Token V)) (r : Region V) :
    (r.alignedFrom index ts).tokens.length = r.tokens.length := by
  induction ts generalizing index r with
  | nil => rfl
  | cons t ts ih =>
    refine (ih (index + 1) _).trans ?_
    unfold settled
    split
    · rename_i old hold
      obtain ⟨hin, -⟩ := List.getElem?_eq_some_iff.1 hold
      split
      · rfl
      · rw [length_spliced [t] (Nat.le_succ index) hin, List.length_singleton]
        omega
    · rfl

theorem Numbered.updateToPrinted (hr : r.Numbered) (hs : r.syncing = false)
    {ps : List (Token V)} (hp : r.printed = some ps) (hok : updateToPrinted r = .ok () r') :
    List.Forall₂ (fun u t => u = t ∨ u.same r.cells t) r'.tokens ps ∧
      ∀ (i : Nat) (old t : Token V), r.tokens[i]? = some old → ps[i]? = some t →
        (r'.ids[i]? ≠ r.ids[i]? ↔ ¬ old.same r.cells t) := by
  have hwp : wp Region.updateToPrinted (fun _ s => s = r') (fun _ _ => False) r := by
    rw [wp, hok]
  rw [wp_updateToPrinted_some hs hp] at hwp
  split at hwp
  · rename_i hlen
    have hunder : r.underSync.Numbered := hr.congr rfl rfl rfl
    have hlen' : r'.tokens.length = r.tokens.length := by
      rw [← hwp]
      exact length_alignedFrom 0 ps r.underSync
    -- what becomes of the `i`th place
    have hat : ∀ {i : Nat} {old t : Token V}, r.tokens[i]? = some old → ps[i]? = some t →
        if old.same r.cells t then r'.tokens[i]? = some old ∧ r'.ids[i]? = r.ids[i]?
        else r'.tokens[i]? = some t ∧ ∃ id, r'.ids[i]? = some id ∧ r.nextView ≤ id := by
      intro i old t hold ht
      have hplace := alignedFrom_at 0 hunder ht (by rwa [Nat.zero_add])
      rw [Nat.zero_add] at hplace
      rw [← hwp]
      exact hplace
    refine ⟨List.forall₂_iff_get.2 ⟨by omega, fun i h₁ h₂ => ?_⟩, fun i old t hold ht => ?_⟩
    · have hplace := hat (List.getElem?_eq_getElem (by omega)) (List.getElem?_eq_getElem h₂)
      split at hplace
      · rename_i hsame
        obtain ⟨hin, htoken⟩ := List.getElem?_eq_some_iff.1 hplace.1
        rw [List.get_eq_getElem, htoken]
        exact .inr hsame
      · obtain ⟨hin, htoken⟩ := List.getElem?_eq_some_iff.1 hplace.1
        exact .inl htoken
    · have hplace := hat hold ht
      split at hplace
      · rename_i hsame
        simp [hplace.2, hsame]
      · rename_i hsame
        obtain ⟨-, id, hid, hge⟩ := hplace
        -- a number from the counter is none of the old ones
        have hnew : r'.ids[i]? ≠ r.ids[i]? := by
          intro heq
          have hlt := hr.lt_nextView id (List.mem_of_getElem? (heq ▸ hid))
          exact absurd hge (Nat.not_le_of_lt hlt)
        exact ⟨fun _ => hsame, fun _ => hnew⟩
  · exact hwp.elim

end

/-- Along a run, in each state the views have distinct numbers, one for each token; a number stands
for the same token in all states; one that is gone does not come back; and those that stay keep
their order. Bringing the row in line with its print makes it the print, and changes a number
exactly where the token was not the same as the printed one. -/
theorem views_keep_identity {l : Language V} {cells : Cells} {settings : Settings}
    (h : (Region.new l cells settings).Later r) (h' : r.Later r') (h'' : r'.Later r'') :
    (r.ids.Nodup ∧ ∀ id ∈ r.ids, (r.tokenOf? id).isSome) ∧
    (∀ id t t', r.tokenOf? id = some t → r'.tokenOf? id = some t' → t' = t) ∧
    (∀ id ∈ r.ids, id ∉ r'.ids → id ∉ r''.ids) ∧
    (r'.ids.filter (· ∈ r.ids)).Sublist r.ids ∧
    (r.syncing = false → ∀ ps s, r.printed = some ps → updateToPrinted r = .ok () s →
      List.Forall₂ (fun u t => u = t ∨ u.same r.cells t) s.tokens ps ∧
        ∀ (i : Nat) (old t : Token V), r.tokens[i]? = some old → ps[i]? = some t →
          (s.ids[i]? ≠ r.ids[i]? ↔ ¬ old.same r.cells t)) := by
  have hr := (h.renumbers (.new l cells settings)).distinct
  have hr' := h'.renumbers hr
  have hr'' := h''.renumbers hr'.distinct
  refine ⟨⟨hr.nodup, fun id hid => isSome_tokenOf? hr.length_eq hid⟩, fun id t t' ht ht' => ?_,
    fun id hid hgone hback => ?_, hr'.order_kept hr hr'.distinct,
    fun hs ps s hp hok => hr.updateToPrinted hs hp hok⟩
  · exact hr'.token_eq hr (mem_numbered_of_tokenOf? ht) (mem_numbered_of_tokenOf? ht')
  · have hlt : id < r'.nextView := Nat.lt_of_lt_of_le (hr.lt_nextView id hid) hr'.nextView_le
    exact hgone (hr''.mem_ids hr'.distinct hr''.distinct hback hlt)

/-- Aligning the row `01 + a` with its print `1 + a` gives the first place another number; the old
one does not come back, and the other two stand for what they stood for. -/
theorem views_keep_identity_padded :
    ∃ r s : Region Expr, (Region.new (Expr.language {}) {} {}).Later r ∧ r.Later s ∧
      updateToPrinted r = .ok () s ∧ r.ids = [0, 1, 2] ∧ s.ids = [3, 1, 2] ∧
      (∀ t, r.tokenOf? 1 = some t → ∀ t', s.tokenOf? 1 = some t' → t' = t) ∧
      s.ids[0]? ≠ r.ids[0]? ∧ ∀ c : Call Expr, 0 ∉ (s.after c.run).ids := by
  let r := (Region.new (Expr.language {}) {} {}).after
    (Call.op (.setTokens [.plain ['0', '1'], Expr.plusToken, .identifier ['a']])).run
  have hr : (Region.new (Expr.language {}) {} {}).Later r := .call _ .refl
  have hends : endsWith updateToPrinted (fun _ s => s.ids == [3, 1, 2]) r := by decide +kernel
  obtain ⟨_, s, hrun, hids⟩ := exists_of_endsWith hends
  have hs : r.Later s := by
    have hafter : r.after (Call.op .updateToPrinted).run = s := by
      show r.after updateToPrinted = s
      rw [after, hrun]
    exact hafter ▸ .call _ .refl
  have hids' : r.ids = [0, 1, 2] := by decide +kernel
  obtain ⟨-, htoken, -, -, hupdate⟩ := views_keep_identity hr hs .refl
  obtain ⟨-, hchanged⟩ := hupdate (by decide +kernel)
    [.plain ['1'], Expr.plusToken, .identifier ['a']] s (by decide +kernel) hrun
  refine ⟨r, s, hr, hs, hrun, hids', beq_iff_eq.1 hids, fun t ht t' ht' => htoken 1 t t' ht ht',
    (hchanged 0 (.plain ['0', '1']) (.plain ['1']) (by decide +kernel) rfl).2 (by decide +kernel),
    fun c => ?_⟩
  obtain ⟨-, -, hgone, -, -⟩ := views_keep_identity hr hs (.call c .refl)
  exact hgone 0 (by rw [hids']; decide) (by rw [beq_iff_eq.1 hids]; decide)

end Region

end TokenEditor
