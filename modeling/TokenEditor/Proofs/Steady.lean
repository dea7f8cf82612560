import TokenEditor.Proofs.LaterItems

/-! # Views that show their tokens

A key first changes the text of one view and only then the row, so in between that view drifts from
its token. `Editor.Steady L C drift e`: the region is in step, no view but the one at `drift` differs
from its token, and all items that the menu holds or waits for do nothing but put in tokens of `C`.

`Language.Mild` is what this asks of the languages. Then an edit of the row fails in range only if a
language miscounts, and one that replaces the drifting token leaves nothing adrift. Typing without
drift never has to type a character again: if the text of the view does not resolve and the caret is
at its end, then all but the last character is the text of the token.

Values are left out: their views show a text of cells that may change, and take no input. -/

namespace TokenEditor
variable {V : Type} {L : Language V → Prop} {C : Token V → Prop}

namespace Item
variable {items : List (Item V)}

/-- Wherever it is applied, the item puts in tokens of `C` and does nothing else. -/
def Puts (C : Token V → Prop) (i : Item V) : Prop :=
  ∀ scope t cells, ∃ new : Insertion V,
    ((i.effect scope t).run cells).1 = .insert new ∧ ∀ u ∈ new.tokens, C u

theorem Puts.mono {C' : Token V → Prop} {i : Item V} (h : i.Puts C) (hC : ∀ t, C t → C' t) :
    i.Puts C' := by
  intro scope t cells
  obtain ⟨new, heffect, hnew⟩ := h scope t cells
  exact ⟨new, heffect, fun u hu => hC u (hnew u hu)⟩

theorem Puts.isPlain {i : Item V} (h : i.Puts C) : i.IsPlain := by
  intro scope t cells
  obtain ⟨new, heffect, -⟩ := h scope t cells
  exact ⟨[], some new, heffect⟩

theorem captured_of_insert {i : Item V} {t : Text} {cells : Cells} {new : Insertion V}
    (h : ((i.effect .nowhere t).run cells).1 = .insert new) :
    ((i.captured t).run cells).1 = some new.tokens := by
  show ((((i.effect .nowhere t).run cells).1.captured none).run _).1 = _
  rw [h]
  rfl

theorem mem_resolve (hitems : ∀ i ∈ items, i.Puts C) {t : Text} {cells : Cells}
    {ts : List (Token V)} (h : ((resolve items t).run cells).1 = some ts) : ∀ u ∈ ts, C u := by
  unfold resolve at h
  split at h
  · rename_i item hsingle
    have hmem : item ∈ matching items t := by simp [hsingle]
    obtain ⟨new, heffect, hnew⟩ := hitems item (mem_of_mem_matching hmem) .nowhere t cells
    have htokens : ((item.captured t).run cells).1.filter (fun ts => !ts.isEmpty) = some ts := h
    rw [captured_of_insert heffect] at htokens
    cases (Option.filter_eq_some_iff.1 htokens).1
    exact hnew
  · cases h

theorem tokenOrError_eq (items : List (Item V)) (t : Text) (cells : Cells) :
    ((tokenOrError items t).run cells).1 = match ((resolve items t).run cells).1 with
      | some [u] => u
      | _ => .error t := by
  simp only [tokenOrError, resolveToken, StateT.run_bind]
  generalize (resolve items t).run cells = result
  obtain ⟨_ | ⟨_ | ⟨u, _ | ⟨v, ts⟩⟩⟩, cells'⟩ := result <;> rfl

theorem mem_tokenOrError (hitems : ∀ i ∈ items, i.Puts C) {t : Text} (herror : C (.error t))
    (cells : Cells) : C ((tokenOrError items t).run cells).1 := by
  rw [tokenOrError_eq]
  split
  · rename_i u hu
    exact mem_resolve hitems hu u (by simp)
  · exact herror

end Item

/-- The languages of `L` bring in tokens of `C` only, among them all that are no values. -/
structure Language.Mild [Payload V] (L : Language V → Prop) (C : Token V → Prop) : Prop
    extends Language.Prints L C where
  plain : ∀ t, t.isValue = false → C t
  offers : ∀ l, L l → l.Offers (Item.Puts C)
  tokenize : ∀ l, L l → ∀ t cells, ∀ u ∈ ((l.tokenize t).run cells).1, C u

/-- The languages also print as many tokens as they read. -/
structure Language.Tame [Payload V] (L : Language V → Prop) (C : Token V → Prop) : Prop
    extends Language.Mild L C where
  counts : ∀ l, L l → l.Counts C

theorem Language.Tame.not_miscounts [Payload V] (ht : Language.Tame L C) {err : EditError} :
    ¬ Language.Miscounts L C err := by
  rintro ⟨-, l, hl, hmis⟩
  exact hmis (ht.counts l hl)

theorem Token.text_of_not_isValue [Payload V] {t : Token V} (h : t.isValue = false)
    (cells cells' : Cells) : t.text cells = t.text cells' := by
  cases t with
  | value v => cases h
  | _ => rfl

/-! ### Regions whose views show their tokens -/

/-- The view that drifts, if one does, is among those from `start` up to `stop`. -/
def DriftIn (drift : Option Nat) (start stop : Nat) : Prop :=
  ∀ i, drift = some i → start ≤ i ∧ i < stop

theorem DriftIn.none (start stop : Nat) : DriftIn none start stop := by
  rintro i ⟨⟩

theorem DriftIn.self (index : Nat) : DriftIn (some index) index (index + 1) := by
  rintro i ⟨⟩
  exact ⟨Nat.le_refl _, Nat.lt_succ_self _⟩

namespace Region
variable [Payload V] {drift : Option Nat} {r r' : Region V} {index start stop : Nat}
  {new : List (Token V)}

omit [Payload V] in
theorem wp_onCells {α : Type} {f : StateM Cells α} {post : α → Region V → Prop}
    {fail : EditError → Region V → Prop} : wp (onCells f) post fail r ↔
      post (f.run r.cells).1 { r with cells := (f.run r.cells).2 } := Iff.rfl

/-- Every view has the text of its token, except for values and for the view at `drift`. -/
def ShowsBut (drift : Option Nat) (r : Region V) : Prop :=
  ∀ (i : Nat) v t, r.views[i]? = some v → r.tokens[i]? = some t → drift ≠ some i →
    t.isValue = false → v.text = t.text r.cells

theorem getElem?_ofTokens (cells : Cells) (id : ViewId) (ts : List (Token V)) (i : Nat) :
    (View.ofTokens cells id ts)[i]? = (ts[i]?).map (View.ofToken cells (id + i)) := by
  induction ts generalizing id i with
  | nil => rfl
  | cons t ts ih =>
    cases i with
    | zero => rfl
    | succ i =>
      rw [View.ofTokens, List.getElem?_cons_succ, List.getElem?_cons_succ, ih,
        Nat.add_right_comm, Nat.add_assoc]

theorem ShowsBut.spliced (h : r.ShowsBut drift) (hlen : r.views.length = r.tokens.length)
    (hdrift : DriftIn drift start stop) (hle : start ≤ stop)
    (hin : stop ≤ r.tokens.length) : (r.spliced start stop new).ShowsBut none := by
  intro i v t hv ht _ hplain
  simp only [Region.spliced, List.append_assoc] at hv ht
  -- before the splice, in what it puts in, and after it
  by_cases hbefore : i < start
  · rw [List.getElem?_append_left (by simp; omega), List.getElem?_take_of_lt hbefore] at hv ht
    refine h i v t hv ht (fun hi => ?_) hplain
    have := hdrift i hi
    omega
  rw [List.getElem?_append_right (by simp; omega), List.length_take, Nat.min_eq_left (by omega)]
    at hv ht
  by_cases hnew : i - start < new.length
  · rw [List.getElem?_append_left (by simpa using hnew)] at hv ht
    rw [getElem?_ofTokens, ht] at hv
    cases hv
    rfl
  · have hbeyond : new.length ≤ i - start := by omega
    rw [List.getElem?_append_right (by simpa using hbeyond), List.getElem?_drop] at hv ht
    rw [length_ofTokens] at hv
    refine h _ v t hv ht (fun hi => ?_) hplain
    have := hdrift _ hi
    omega

theorem ShowsBut.keepsRow (h : r.ShowsBut drift) (hk : r.KeepsRow r') : r'.ShowsBut drift := by
  intro i v t hv ht hi hplain
  rw [hk.views] at hv
  rw [hk.tokens] at ht
  exact (h i v t hv ht hi hplain).trans (Token.text_of_not_isValue hplain _ _)

theorem Moves.showsBut (h : r.Moves r') (hr : r.Projected) (ht : r.ShowsBut none) :
    r'.ShowsBut none := by
  induction h with
  | refl => exact ht
  | splice new hmoves hle hin ih =>
    exact ih.spliced (hmoves.projected hr).length_eq (.none _ _) hle hin
  | silent _ hk ih => exact ih.keepsRow hk

/-- In step, with one view per token that shows it. -/
structure Steady (L : Language V → Prop) (C : Token V → Prop) (drift : Option Nat) (r : Region V) :
    Prop where
  inStep : r.InStep L C
  projected : r.Projected
  shows : r.ShowsBut drift

namespace Steady

theorem congr (h : r.Steady L C drift) (hrow : r.KeepsRow r') (hstep : r'.InStep L C) :
    r'.Steady L C drift :=
  ⟨hstep, (Moves.of_keepsRow hrow).projected h.projected, h.shows.keepsRow hrow⟩

theorem setCells (h : r.Steady L C drift) (cells : Cells) (stale : Bool)
    (subscriptions : List Subscription) : Steady L C drift
      { r with cells := cells, stale := stale, subscriptions := subscriptions } :=
  h.congr ⟨rfl, rfl, rfl⟩ (h.inStep.setCells cells stale subscriptions)

theorem modifyView (h : r.Steady L C drift) {drift' : Option Nat} {f : View → View}
    (hf : View.Edit f) (hshows : (r.modifyView index f).ShowsBut drift') :
    (r.modifyView index f).Steady L C drift' :=
  ⟨h.inStep.modifyView index f, h.projected.modifyView index hf, hshows⟩

theorem edit (h : r.Steady L C none) {f : View → View} (hf : View.Edit f) :
    (r.modifyView index f).Steady L C (some index) := by
  refine h.modifyView hf fun i v t hv ht hi hplain => ?_
  have hne : index ≠ i := fun hi' => hi (congrArg some hi')
  simp only [Region.modifyView, List.getElem?_modify, if_neg hne, id_map'] at hv
  exact h.shows i v t hv ht (by simp) hplain

theorem setCaret (h : r.Steady L C drift) (caret : Nat) :
    (r.modifyView index fun v => v.setCaret caret).Steady L C drift := by
  refine h.modifyView (.setCaret caret) fun i v t hv ht hi hplain => ?_
  simp only [Region.modifyView, List.getElem?_modify, Option.map_eq_map,
    Option.map_eq_some_iff] at hv
  obtain ⟨v₀, hv₀, rfl⟩ := hv
  have htext := h.shows i v₀ t hv₀ ht hi hplain
  split_ifs
  · exact htext
  · exact htext

theorem settle (h : r.Steady L C drift) (hdrift : DriftIn drift index (index + 1))
    (htext : ∀ v t, r.views[index]? = some v → r.tokens[index]? = some t → t.isValue = false →
      v.text = t.text r.cells) : r.Steady L C none := by
  refine ⟨h.inStep, h.projected, fun i v t hv ht _ hplain => ?_⟩
  by_cases hi : drift = some i
  · have hbounds := hdrift i hi
    obtain rfl : i = index := by omega
    exact htext v t hv ht hplain
  · exact h.shows i v t hv ht hi hplain

theorem restoreText (h : r.Steady L C drift) (hdrift : DriftIn drift index (index + 1))
    {f : View → View} (hf : View.Edit f) (htext : ∀ v t, r.views[index]? = some v →
      r.tokens[index]? = some t → t.isValue = false → (f v).text = t.text r.cells) :
    (r.modifyView index f).Steady L C none := by
  refine h.modifyView hf fun i v t hv ht _ hplain => ?_
  simp only [Region.modifyView, List.getElem?_modify, Option.map_eq_map,
    Option.map_eq_some_iff] at hv
  obtain ⟨v₀, hv₀, rfl⟩ := hv
  by_cases hi : index = i
  · subst hi
    rw [if_pos rfl]
    exact htext v₀ t hv₀ ht hplain
  · rw [if_neg hi]
    refine h.shows i v₀ t hv₀ ht (fun hi' => ?_) hplain
    have hbounds := hdrift i hi'
    omega

variable (ht : Language.Mild L C)
include ht

theorem splice (h : r.Steady L C drift) (hdrift : DriftIn drift start stop)
    (hnew : ∀ t ∈ new, C t) (hle : start ≤ stop) (hin : stop ≤ r.tokens.length) :
    wp (splice start stop new) (fun _ r' => r'.Steady L C none)
      (fun err _ => Language.Miscounts L C err) r := by
  refine wp_mono (h.inStep.splice ht.toPrints hnew hle hin) ?_ fun _ _ h => h
  rintro - r' ⟨hstep, hrow⟩
  have hmoves : r.Moves r' := .silent (.splice new .refl hle hin) hrow
  exact ⟨hstep, hmoves.projected h.projected,
    (h.shows.spliced h.projected.length_eq hdrift hle hin).keepsRow hrow⟩

omit ht in
/-- Other acts splice the row as well, if they change it. -/
theorem act (h : r.Steady L C none) {act : Act V}
    (hact : wp act.run (fun _ r' => r'.InStep L C) (fun err _ => Language.Miscounts L C err) r) :
    wp act.run (fun _ r' => r'.Steady L C none) (fun err _ => Language.Miscounts L C err) r := by
  refine wp_mono (wp_and hact (act.moves r)) ?_ fun _ _ h => h.1
  rintro - r' ⟨hstep, hmoves⟩
  exact ⟨hstep, hmoves.projected h.projected, hmoves.showsBut h.projected h.shows⟩

end Steady

end Region

/-! ### Editors at rest and in the middle of a key -/

namespace Editor
variable {drift : Option Nat} {e e' : Editor V} {index : Nat}

/-- The offer applies to a place in the row, over the view that drifts. -/
def Fits (drift : Option Nat) (e : Editor V) (offer : Offer V) : Prop :=
  match offer.placement with
  | .replace => offer.target < e.tokens.length ∧ DriftIn drift offer.target (offer.target + 1)
  | .beside _ => offer.target ≤ e.tokens.length ∧ drift = none
  | .fill => drift = none

theorem fits_token (params : Params) (hin : index < e.tokens.length)
    (hdrift : DriftIn drift index (index + 1)) :
    e.Fits drift ((Supplier.token index).offer params e) :=
  ⟨hin, hdrift⟩

theorem fits_typingOffer (hin : index < e.tokens.length)
    (hdrift : DriftIn drift index (index + 1)) : e.Fits drift (e.typingOffer (.token index)) := by
  unfold typingOffer
  split
  · exact ⟨hin, hdrift⟩
  · exact ⟨hin, hdrift⟩

theorem fits_side (params : Params) (hin : index < e.tokens.length) {delta : Nat} (hd : delta ≤ 1) :
    e.Fits none ((Supplier.side index delta).offer params e) := by
  refine ⟨?_, rfl⟩
  show (if params.endRight then index + 1 else index + delta) ≤ e.tokens.length
  split <;> omega

variable [Payload V]

/-- Only the view at `drift` may differ from its token. -/
structure Steady (L : Language V → Prop) (C : Token V → Prop) (drift : Option Nat) (e : Editor V) :
    Prop where
  region : e.region.Steady L C drift
  items : ∀ i, e.Held i → i.Puts C

namespace Steady

theorem new {l : Language V} (hl : L l) (cells : Cells) {settings : Settings}
    (hauto : settings.autoReparse = true) : (Editor.new l cells settings).Steady L C none := by
  refine ⟨⟨.new hl cells hauto, .nil, ?_⟩, (Supplied.new hl cells settings).items⟩
  rintro i v t ⟨⟩

theorem supplied (h : e.Steady L C drift) : e.Supplied L (Item.Puts C) :=
  ⟨h.region.inStep.language, h.items⟩

theorem length_eq (h : e.Steady L C drift) : e.views.length = e.tokens.length :=
  h.region.projected.length_eq

theorem lt_of_focusedIndex? (h : e.Steady L C drift) {index : Nat}
    (hi : e.focusedIndex? = some index) : index < e.tokens.length :=
  h.length_eq ▸ Editor.lt_of_focusedIndex? hi

theorem setRegion (h : e.Steady L C drift) {drift' : Option Nat} {r : Region V}
    (hr : r.Steady L C drift') : Steady L C drift' { e with region := r } :=
  ⟨hr, fun i hi => h.items i (hi.aside rfl rfl)⟩

theorem setCells (h : e.Steady L C drift) (cells : Cells) :
    Steady L C drift { e with region := { e.region with cells := cells } } :=
  h.setRegion (h.region.setCells cells e.region.stale e.region.subscriptions)

theorem closeMenu (h : e.Steady L C drift) : e.closeMenu.Steady L C drift :=
  ⟨h.region, h.supplied.closeMenu.items⟩

theorem pollMenu (h : e.Steady L C drift) : e.pollMenu.2.Steady L C drift :=
  ⟨(region_pollMenu e).symm ▸ h.region, h.supplied.pollMenu.items⟩

/-- Focus, placeholder and selection play no part. -/
theorem aside (h : e.Steady L C drift) (hregion : e'.region = e.region) (hmenu : e'.menu = e.menu)
    (hchannels : e'.channels = e.channels) : e'.Steady L C drift :=
  ⟨hregion ▸ h.region, fun i hi => h.items i (hi.aside hmenu hchannels)⟩

theorem selectToken (h : e.Steady L C drift) (index : Nat) (position : Position) :
    (e.selectToken index position).Steady L C drift := by
  have hcaret : ∀ caret, (e.modifyView index fun v => v.setCaret caret).Steady L C drift :=
    fun caret => h.setRegion (h.region.setCaret caret)
  unfold Editor.selectToken
  split
  · exact h
  · simp only
    split_ifs
    · exact (hcaret _).aside rfl rfl rfl
    · exact (hcaret _).closeMenu.aside rfl rfl rfl

theorem repairFocus (h : e.Steady L C drift) : e.repairFocus.Steady L C drift := by
  have hre : e.refocused.Steady L C drift := by
    unfold refocused
    split_ifs
    · exact h.aside rfl rfl rfl
    · exact h.selectToken _ _
    · exact h
  rw [repairFocus_eq]
  split
  · split_ifs
    · exact hre.aside rfl rfl rfl
    · exact hre
  · exact hre

variable (ht : Language.Mild L C)
include ht

theorem activateMenu (h : e.Steady L C drift) : e.activateMenu.Steady L C drift := by
  refine ⟨?_, (h.supplied.activateMenu ht.offers).items⟩
  rw [activateMenu_eq, region_pollMenu, region_opened]
  exact h.region

theorem run (h : e.Steady L C drift) (m : Move) : (e.run m).Steady L C drift := by
  have hmoved : (e.moved m).Steady L C drift := by
    unfold moved
    split
    · exact h.selectToken _ _
    · exact h.aside rfl rfl rfl
    · exact h
  rw [run_eq]
  split_ifs
  · exact hmoved.repairFocus.activateMenu ht
  · exact hmoved.repairFocus

theorem proposes (h : e.Steady L C drift) : e.Proposes (Item.Puts C) :=
  h.supplied.proposes ht.offers

theorem puts_looseItems (h : e.Steady L C drift) : ∀ i ∈ e.looseItems, i.Puts C :=
  h.supplied.mem_looseItems ht.offers

end Steady

/-- From `e` the operation goes well unless a language miscounts, and then every view shows its
token. -/
abbrev Recovers (L : Language V → Prop) (C : Token V → Prop) {α : Type} (f : EditM V α)
    (e : Editor V) : Prop :=
  wp f (fun _ e' => e'.Steady L C none) (fun err _ => Language.Miscounts L C err) e

theorem Recovers.bind {α β : Type} {f : EditM V α} {g : α → EditM V β} (hf : Recovers L C f e)
    (hg : ∀ a e', e'.Steady L C none → Recovers L C (g a) e') : Recovers L C (f >>= g) e :=
  wp_seq hf hg

theorem Recovers.discard {α : Type} {f : EditM V α} (hf : Recovers L C f e) :
    Recovers L C (discard f) e :=
  (wp_discard f).2 hf

section
variable (ht : Language.Mild L C) {start stop : Nat} {new : List (Token V)}
include ht

theorem Recovers.thenRun {f : EditM V Move} (hf : Recovers L C f e) :
    Recovers L C (do
      let move ← f
      modify (Editor.run move)) e :=
  hf.bind fun move _ h => h.run ht move

namespace Steady

theorem splice (h : e.Steady L C drift) (hdrift : DriftIn drift start stop)
    (hnew : ∀ t ∈ new, C t) (hle : start ≤ stop) (hin : stop ≤ e.tokens.length) :
    Recovers L C (onRegion (Region.splice start stop new)) e :=
  wp_onRegion.2 (wp_mono (h.region.splice ht hdrift hnew hle hin) (fun _ _ => h.setRegion)
    fun _ _ h => h)

omit ht in
theorem act (h : e.Steady L C none) (act : Region.Act V)
    (hact : wp act.run (fun _ r => r.InStep L C) (fun err _ => Language.Miscounts L C err)
      e.region) : Recovers L C (onRegion act.run) e :=
  wp_onRegion.2 (wp_mono (h.region.act hact) (fun _ _ => h.setRegion) fun _ _ h => h)

theorem spliceUpdated (h : e.Steady L C drift)
    (hdrift : DriftIn drift start stop) (hnew : ∀ t ∈ new, C t)
    (hle : start ≤ stop) (hin : stop ≤ e.tokens.length) :
    Recovers L C (spliceUpdated start stop new) e := by
  refine (h.splice ht hdrift hnew hle hin).bind fun _ e' h' => h'.act .align ?_
  exact wp_mono h'.region.inStep.updateToPrinted (fun _ _ h => h.1) fun _ _ h => h.elim

theorem replace (h : e.Steady L C drift) (hdrift : DriftIn drift index (index + 1))
    (hin : index < e.tokens.length) {t : Token V} (hC : C t) :
    Recovers L C (onRegion (Region.replace index t)) e := by
  have hat : e.region.tokens[index]? = some (e.region.tokens.get ⟨index, hin⟩) :=
    List.getElem?_eq_getElem hin
  rw [Recovers, wp_onRegion, Region.wp_replace, hat]
  exact wp_onRegion.1 (h.splice ht hdrift (by simpa using hC) (Nat.le_succ _) hin)

theorem remove (h : e.Steady L C drift) (hdrift : DriftIn drift index (index + 1))
    (hin : index < e.tokens.length) : Recovers L C (onRegion (Region.remove index)) e := by
  have hat : e.region.tokens[index]? = some (e.region.tokens.get ⟨index, hin⟩) :=
    List.getElem?_eq_getElem hin
  rw [Recovers, wp_onRegion, Region.remove, wp_bind, Region.wp_tokenAt, hat]
  exact (wp_bind _ _).2 (wp_onRegion.1 (h.splice ht hdrift (by simp) (Nat.le_succ _) hin))

theorem completeReplacing (h : e.Steady L C drift) (hdrift : DriftIn drift index (index + 1))
    (hin : index < e.tokens.length) (selected : Nat) (hnew : ∀ t ∈ new, C t) :
    Recovers L C (completeReplacing index selected new) e := by
  have hat : e.views[index]? = some (e.views.get ⟨index, h.length_eq ▸ hin⟩) :=
    List.getElem?_eq_getElem _
  unfold Editor.completeReplacing
  rw [Recovers, wp_bind, wp_get, hat]
  exact Recovers.bind (h.spliceUpdated ht hdrift hnew (Nat.le_succ _) hin) fun _ _ h => h

theorem completeBeside (h : e.Steady L C none) (params : Params) (hin : index ≤ e.tokens.length)
    (selected : Nat) (hnew : ∀ t ∈ new, C t) :
    Recovers L C (completeBeside params index selected new) e := by
  unfold Editor.completeBeside
  rw [Recovers, wp_bind, wp_get]
  refine Recovers.bind (h.spliceUpdated ht (.none _ _) hnew ?_ ?_) fun _ _ h => h
  · split <;> omega
  · split
    · rename_i hover
      -- the value to be replaced is there
      obtain ⟨t, hat, -⟩ := (Option.any_eq_true _ _).1 (Bool.and_eq_true_iff.1 hover).2
      exact (List.getElem?_eq_some_iff.1 hat).1
    · exact hin

theorem completeFilling (h : e.Steady L C none) (selected : Nat) (hnew : ∀ t ∈ new, C t) :
    Recovers L C (completeFilling selected new) e := by
  unfold Editor.completeFilling
  rw [Recovers, wp_bind, wp_get]
  exact Recovers.bind (h.spliceUpdated ht (.none _ _) hnew (Nat.le_refl _) (Nat.le_refl _))
    fun _ _ h => h

end Steady

namespace Steady

theorem complete (h : e.Steady L C drift) {offer : Offer V} (hfits : e.Fits drift offer)
    (selected : Nat) (hnew : ∀ t ∈ new, C t) :
    Recovers L C (complete offer.placement offer.target selected new) e := by
  unfold Fits at hfits
  cases hp : offer.placement with
  | replace =>
    rw [hp] at hfits
    exact h.completeReplacing ht hfits.2 hfits.1 selected hnew
  | beside params =>
    rw [hp] at hfits
    obtain ⟨hin, rfl⟩ := hfits
    exact h.completeBeside ht params hin selected hnew
  | fill =>
    rw [hp] at hfits
    cases hfits
    exact h.completeFilling ht selected hnew

theorem applyItem (h : e.Steady L C drift) {offer : Offer V} (hfits : e.Fits drift offer)
    {item : Item V} (hitem : item.Puts C) (t : Text) :
    Recovers L C (applyItem offer item t) e := by
  obtain ⟨new, heffect, hnew⟩ := hitem (e.scope offer) t e.region.cells
  unfold Editor.applyItem
  rw [Recovers, wp_bind, wp_get, wp_bind, wp_onRegion, Region.wp_onCells, heffect, applyEffect_insert]
  have hcells := h.setCells ((item.effect (e.scope offer) t).run e.region.cells).2
  exact hcells.complete ht hfits new.selected hnew

theorem completeMatch (h : e.Steady L C drift) {offer : Offer V} (hfits : e.Fits drift offer)
    (hitems : ∀ i ∈ offer.items, i.Puts C) {t : Text}
    (hmatch : drift = none ∨ Item.hasMatch offer.items t) :
    Recovers L C (completeMatch offer t) e := by
  unfold Editor.completeMatch applyMatch
  split
  · rename_i hnone
    rcases hmatch with rfl | hmatch
    · exact h
    · simp [Item.hasMatch, hnone] at hmatch
  · rename_i item rest hsome
    have hitem : item ∈ offer.items := Item.mem_of_mem_matching (t := t) (by simp [hsome])
    simp only [bind_assoc, pure_bind]
    exact (h.applyItem ht hfits (hitems item hitem) t).bind fun move e' h' =>
      h'.closeMenu.run ht move

theorem acceptItem (h : e.Steady L C drift) {offer : Offer V} (hfits : e.Fits drift offer)
    {item : Item V} (hitem : item.Puts C) (t : Text) :
    Recovers L C (acceptItem offer item t) e := by
  refine (h.applyItem ht hfits hitem t).bind fun move e' h' => ?_
  rw [Recovers, wp_modify]
  simp only
  split_ifs
  · have hcleared : Steady L C none { e' with placeholder := [] } := h'.aside rfl rfl rfl
    exact hcleared.closeMenu.run ht move
  · exact h'.closeMenu.run ht move

omit ht in
theorem reportEmptied (h : e.Steady L C none) : Recovers L C (reportEmptied : EditM V Move) e :=
  h.aside rfl rfl rfl

theorem deleteToken (h : e.Steady L C drift) {delta : Int} {target : Nat}
    (hshift : shifted? index delta = some target) (hin : target < e.tokens.length)
    (hdrift : DriftIn drift target (target + 1)) :
    Recovers L C (deleteToken index delta : EditM V Move) e := by
  unfold Editor.deleteToken shifted
  simp only [hshift, pure_bind]
  refine Recovers.bind (h.remove ht hdrift hin).discard fun _ e' h' => ?_
  rw [Recovers, wp_bind, wp_get]
  split_ifs
  · exact h'.reportEmptied
  all_goals exact h'

theorem replaceToken (h : e.Steady L C drift) (hdrift : DriftIn drift index (index + 1))
    (hin : index < e.tokens.length) {t : Token V} (hC : C t) :
    Recovers L C (replaceToken index t) e :=
  (h.replace ht hdrift hin hC).discard.bind fun _ _ h => h

theorem expandToError (h : e.Steady L C none) (text : Text) {delta : Nat}
    (hin : index + delta ≤ e.tokens.length) :
    Recovers L C (expandToError index text delta : EditM V Move) e :=
  (h.splice ht (.none _ _) (by simpa using ht.plain _ rfl) (Nat.le_refl _) hin).bind
    fun _ _ h => h

omit ht in
theorem afterInsertion (h : e.Steady L C none) (start count : Nat) :
    Recovers L C (afterInsertion start count : EditM V Move) e := by
  unfold Editor.afterInsertion
  rw [Recovers, wp_bind, wp_get]
  split_ifs
  · exact h.reportEmptied
  · exact h

end Steady

end

end Editor

end TokenEditor
