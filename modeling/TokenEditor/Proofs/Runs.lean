import Mathlib.Tactic.SplitIfs
import TokenEditor.Editor.Completing
import TokenEditor.Proofs.Payload

/-! # Running operations on a region

`wp f post fail s` says how a run of `f` from `s` ends: well, with `post`, or with an error and
`fail`. The operations on the row all come down to one splice followed by one reading of the row;
what they do to the fields that reading leaves alone is stated here once. -/

namespace TokenEditor

/-- Running `f` from `s` ends well with `post`, or with an error and `fail`. -/
def wp {ε σ α : Type} (f : EStateM ε σ α) (post : α → σ → Prop) (fail : ε → σ → Prop) (s : σ) :
    Prop :=
  match f s with
  | .ok a s => post a s
  | .error e s => fail e s

section
variable {ε σ α β : Type} {post post' : α → σ → Prop} {fail fail' : ε → σ → Prop} {s : σ}

theorem wp_mono {f : EStateM ε σ α} (h : wp f post fail s) (hp : ∀ a s, post a s → post' a s)
    (hf : ∀ e s, fail e s → fail' e s) : wp f post' fail' s := by
  unfold wp at h ⊢
  split at h
  · exact hp _ _ h
  · exact hf _ _ h

theorem wp_and {f : EStateM ε σ α} (h : wp f post fail s) (h' : wp f post' fail' s) :
    wp f (fun a s => post a s ∧ post' a s) (fun e s => fail e s ∧ fail' e s) s := by
  unfold wp at h h' ⊢
  split <;> simp_all

theorem exists_of_wp {f : EStateM ε σ α} (h : wp f post (fun _ _ => False) s) :
    ∃ a s', f s = .ok a s' ∧ post a s' := by
  unfold wp at h
  split at h
  · exact ⟨_, _, ‹_›, h⟩
  · exact h.elim

/-- The run ends well, with an outcome that passes the test. -/
def endsWith (f : EStateM ε σ α) (test : α → σ → Bool) (s : σ) : Bool :=
  match f s with
  | .ok a s => test a s
  | .error _ _ => false

theorem exists_of_endsWith {f : EStateM ε σ α} {test : α → σ → Bool} (h : endsWith f test s) :
    ∃ a s', f s = .ok a s' ∧ test a s' := by
  unfold endsWith at h
  split at h
  · exact ⟨_, _, ‹_›, h⟩
  · cases h

@[simp] theorem wp_pure (a : α) : wp (pure a : EStateM ε σ α) post fail s ↔ post a s := Iff.rfl

@[simp] theorem wp_throw (e : ε) : wp (throw e : EStateM ε σ α) post fail s ↔ fail e s := Iff.rfl

@[simp] theorem wp_bind (f : EStateM ε σ β) (g : β → EStateM ε σ α) :
    wp (f >>= g) post fail s ↔ wp f (fun b s => wp (g b) post fail s) fail s := by
  unfold wp
  simp only [bind, EStateM.bind]
  cases f s <;> rfl

theorem wp_seq {mid : β → σ → Prop} {f : EStateM ε σ β} {g : β → EStateM ε σ α}
    (hf : wp f mid fail s) (hg : ∀ b s', mid b s' → wp (g b) post fail s') :
    wp (f >>= g) post fail s :=
  (wp_bind f g).2 (wp_mono hf hg fun _ _ h => h)

@[simp] theorem wp_map (f : EStateM ε σ β) (g : β → α) :
    wp (g <$> f) post fail s ↔ wp f (fun b s => post (g b) s) fail s := by
  unfold wp
  simp only [Functor.map, EStateM.map]
  cases f s <;> rfl

@[simp] theorem wp_get {post : σ → σ → Prop} : wp (get : EStateM ε σ σ) post fail s ↔ post s s :=
  Iff.rfl

@[simp] theorem wp_set {post : PUnit → σ → Prop} (s' : σ) :
    wp (set s' : EStateM ε σ PUnit) post fail s ↔ post ⟨⟩ s' := Iff.rfl

@[simp] theorem wp_modify {post : PUnit → σ → Prop} (f : σ → σ) :
    wp (modify f : EStateM ε σ PUnit) post fail s ↔ post ⟨⟩ (f s) := Iff.rfl

@[simp] theorem wp_ite {c : Prop} [Decidable c] (f g : EStateM ε σ α) :
    wp (if c then f else g) post fail s ↔ if c then wp f post fail s else wp g post fail s := by
  split <;> rfl

@[simp] theorem wp_discard (f : EStateM ε σ α) {post : Unit → σ → Prop} :
    wp (discard f) post fail s ↔ wp f (fun _ s => post () s) fail s :=
  wp_map f fun _ => ()

/-- How a run ends can be observed from within; what it has done stays done. -/
@[simp] theorem wp_observing (f : EStateM ε σ β) {post : Except ε β → σ → Prop} :
    wp (observing f) post fail s ↔
      wp f (fun b s => post (.ok b) s) (fun err s => post (.error err) s) s := by
  unfold wp
  simp only [observing, tryCatch, tryCatchThe, MonadExceptOf.tryCatch, EStateM.tryCatch, bind,
    EStateM.bind]
  cases f s <;> rfl

/-- To look at an error only to throw it again is not to look. -/
theorem observing_bind_of_throw (f : EStateM ε σ β) {g : Except ε β → EStateM ε σ α}
    (h : ∀ err, g (.error err) = throw err) : observing f >>= g = f >>= fun b => g (.ok b) := by
  funext s
  simp only [observing, tryCatch, tryCatchThe, MonadExceptOf.tryCatch, EStateM.tryCatch, bind,
    EStateM.bind]
  cases f s with
  | ok b s => rfl
  | error err s => exact congrFun (h err) s

end

namespace Cells
variable {a b : Cells}

theorem Keeps.of_texts (h : b.entries.map Cell.text = a.entries.map Cell.text) : a.Keeps b := by
  have hlen : b.entries.length = a.entries.length := by
    simpa using congrArg List.length h
  refine ⟨Nat.le_of_eq hlen.symm, fun c hc => ?_⟩
  have hget : (b.entries.map Cell.text)[c]? = (a.entries.map Cell.text)[c]? := by rw [h]
  rw [List.getElem?_map, List.getElem?_map, List.getElem?_eq_getElem hc,
    List.getElem?_eq_getElem (hlen ▸ hc)] at hget
  simpa [text, List.getElem?_eq_getElem hc, List.getElem?_eq_getElem (hlen ▸ hc)] using hget

theorem texts_subscribe (a : Cells) (c : CellId) :
    (a.subscribe c).2.entries.map Cell.text = a.entries.map Cell.text := by
  unfold subscribe
  split
  · rfl
  · rename_i cell hcell
    refine List.ext_getElem? fun i => ?_
    simp only [List.getElem?_map, List.getElem?_set]
    split
    · rename_i hi
      subst hi
      obtain ⟨hc, rfl⟩ := List.getElem?_eq_some_iff.1 hcell
      simp [hc]
    · rfl

theorem texts_unsubscribe (a : Cells) (s : Subscription) :
    (a.unsubscribe s).entries.map Cell.text = a.entries.map Cell.text := by
  refine List.ext_getElem? fun i => ?_
  simp only [unsubscribe, List.getElem?_map, List.getElem?_modify]
  cases a.entries[i]? with
  | none => rfl
  | some cell =>
    simp only [Option.map_some]
    split <;> rfl

theorem texts_subscribeAll (a : Cells) (cs : List CellId) :
    (a.subscribeAll cs).2.entries.map Cell.text = a.entries.map Cell.text := by
  induction cs generalizing a with
  | nil => rfl
  | cons c cs ih => exact (ih (a.subscribe c).2).trans (texts_subscribe a c)

theorem texts_unsubscribeAll (a : Cells) (ss : List Subscription) :
    (a.unsubscribeAll ss).entries.map Cell.text = a.entries.map Cell.text := by
  induction ss generalizing a with
  | nil => rfl
  | cons s ss ih => exact (ih (a.unsubscribe s)).trans (texts_unsubscribe a s)

end Cells

/-! ### Splicing and reading -/

namespace Region
variable {V : Type}

/-- `after` is `before` up to what reading and printing set, and no cell has changed its text. -/
structure Reread (before after : Region V) : Prop where
  language : after.language = before.language
  tokens : after.tokens = before.tokens
  views : after.views = before.views
  nextView : after.nextView = before.nextView
  syncing : after.syncing = before.syncing
  restoring : after.restoring = before.restoring
  modifications : after.modifications = before.modifications
  autoReparse : after.autoReparse = before.autoReparse
  autoReprint : after.autoReprint = before.autoReprint
  cells : before.cells.Keeps after.cells

namespace Reread
variable {r r' r'' : Region V}

theorem trans (h : r.Reread r') (h' : r'.Reread r'') : r.Reread r'' :=
  ⟨h'.language.trans h.language, h'.tokens.trans h.tokens, h'.views.trans h.views,
    h'.nextView.trans h.nextView, h'.syncing.trans h.syncing, h'.restoring.trans h.restoring,
    h'.modifications.trans h.modifications, h'.autoReparse.trans h.autoReparse,
    h'.autoReprint.trans h.autoReprint, h.cells.trans h'.cells⟩

theorem endSync (hs : r.syncing = false) (h : Reread { r with syncing := true } r') :
    r.Reread r'.endSync :=
  ⟨h.language, h.tokens, h.views, h.nextView, hs.symm, h.restoring, h.modifications, h.autoReparse,
    h.autoReprint, h.cells⟩

end Reread

theorem keeps_dispose (r : Region V) : r.cells.Keeps r.dispose.cells :=
  .of_texts (Cells.texts_unsubscribeAll _ _)

theorem keeps_watch (cs : List CellId) (r : Region V) : r.cells.Keeps (r.watch cs).cells :=
  .of_texts ((Cells.texts_unsubscribeAll _ _).trans (Cells.texts_subscribeAll _ _))

theorem reread_reprint (r : Region V) : r.Reread r.reprint := by
  unfold reprint
  split
  · exact ⟨rfl, rfl, rfl, rfl, rfl, rfl, rfl, rfl, rfl, r.keeps_watch _⟩
  · exact ⟨rfl, rfl, rfl, rfl, rfl, rfl, rfl, rfl, rfl, r.keeps_dispose⟩

@[simp] theorem value_reprint (r : Region V) : r.reprint.value = r.value := by
  unfold reprint
  split <;> rfl

theorem reprint_none {r : Region V} (h : r.value = none) :
    r.reprint.tree = none ∧ r.reprint.printed = some [] ∧ r.reprint.stale = r.stale := by
  unfold reprint
  split
  · simp_all
  · exact ⟨rfl, rfl, rfl⟩

theorem reprint_some {r : Region V} {v : V} (h : r.value = some v) :
    r.reprint.tree = some (r.language.printed r.cells v).tree ∧
      r.reprint.printed = some (r.language.printed r.cells v).tokens ∧ r.reprint.stale = false := by
  unfold reprint
  split
  · rename_i w hw
    cases h.symm.trans hw
    exact ⟨rfl, rfl, rfl⟩
  · simp_all

/-- The tokens that the value is printed with. -/
def valueRow (r : Region V) : List (Token V) :=
  match r.value with
  | some v => (r.language.printed r.cells v).tokens
  | none => []

theorem printed_reprint (r : Region V) : r.reprint.printed = some r.valueRow := by
  unfold reprint valueRow
  cases r.value <;> rfl

/-- The region while a synchronisation runs. -/
def underSync (r : Region V) : Region V :=
  { r with syncing := true }

/-- The region while a restore runs, or no longer. -/
def setRestoring (restoring : Bool) (r : Region V) : Region V :=
  { r with restoring := restoring }

theorem endSync_underSync {r : Region V} (h : r.syncing = false) : r.underSync.endSync = r := by
  rw [endSync, underSync, ← h]

/-- The region with an empty row, as reading leaves it. -/
def emptied (r : Region V) : Region V :=
  { r.dispose with value := none, valid := true, tree := none, printed := some [] }

theorem reread_emptied (r : Region V) : r.Reread r.emptied :=
  ⟨rfl, rfl, rfl, rfl, rfl, rfl, rfl, rfl, rfl, r.keeps_dispose⟩

variable [Payload V]

@[simp] theorem length_ofTokens (cells : Cells) (id : ViewId) (ts : List (Token V)) :
    (View.ofTokens cells id ts).length = ts.length := by
  induction ts generalizing id with
  | nil => rfl
  | cons t ts ih => simp [View.ofTokens, ih]

/-- The region with its row spliced, before the row is read. -/
def spliced (start stop : Nat) (new : List (Token V)) (r : Region V) : Region V :=
  { r with
    tokens := r.tokens.take start ++ new ++ r.tokens.drop stop
    views := r.views.take start ++ View.ofTokens r.cells r.nextView new ++ r.views.drop stop
    nextView := r.nextView + new.length
    modifications := r.modifications + 1 }

section
variable {start stop : Nat} {new : List (Token V)} {r : Region V} {post : Unit → Region V → Prop}
  {fail : EditError → Region V → Prop}

theorem mem_spliced {t : Token V} (h : t ∈ (r.spliced start stop new).tokens) :
    t ∈ r.tokens ∨ t ∈ new := by
  rcases List.mem_append.1 h with h | h
  · rcases List.mem_append.1 h with h | h
    · exact .inl (List.mem_of_mem_take h)
    · exact .inr h
  · exact .inl (List.mem_of_mem_drop h)

theorem wp_splice : wp (splice start stop new) post fail r ↔
    if stop < start ∨ r.tokens.length < stop then fail (.outOfBounds stop r.tokens.length) r
    else if r.autoReparse then wp (sync reparse) post fail (r.spliced start stop new)
    else post () (r.spliced start stop new) := by
  simp only [splice, edited, wp_bind, wp_get, wp_ite, wp_throw, wp_set, wp_modify, wp_pure]
  rfl

omit [Payload V] in
theorem wp_sync {f : RegionM V Unit} : wp (sync f) post fail r ↔
    if r.syncing then post () r
    else wp f (fun _ r => post () r.endSync) (fun e r => fail e r.endSync) r.underSync := by
  unfold wp sync beginSync?
  cases h : r.syncing with
  | true => rfl
  | false =>
    simp only [Bool.false_eq_true, if_false, underSync]
    cases f { r with syncing := true } <;> rfl

end

/-- The copy of the row that the language sees, and the store with its cells. -/
def copied (r : Region V) : List (Token V) × Cells :=
  (Token.detachAll r.tokens).run r.cells

/-- The region whose row does not read. -/
def refused (r : Region V) : Region V :=
  { r with
    cells := r.copied.2
    parses := r.parses + 1
    valid := false
    tree := none
    printed := none }

/-- The region whose row reads as `v`, before the value is printed. -/
def taking (v : V) (r : Region V) : Region V :=
  { r with cells := r.copied.2, parses := r.parses + 1, value := some v, valid := true }

/-- The region whose row reads as `v`. -/
def took (v : V) (r : Region V) : Region V :=
  (r.taking v).reprint

/-- How reading the row goes: not at all during a restore; an empty row has no value; a row that
does not read is refused; and what is read is printed at once, and must give as many tokens. -/
theorem reparse_eq (r : Region V) : reparse r =
    if r.restoring then .ok () r
    else if r.tokens.isEmpty then .ok () r.emptied
    else match r.language.parse r.copied.2 r.copied.1 with
      | none => .ok () r.refused
      | some v =>
        if (r.language.printed r.copied.2 v).tokens.length = r.tokens.length then .ok () (r.took v)
        else .error (.mismatch (r.language.printed r.copied.2 v).tokens.length r.tokens.length)
          (r.took v) :=
  rfl

theorem wp_reparse {r : Region V} {post : Unit → Region V → Prop}
    {fail : EditError → Region V → Prop} : wp reparse post fail r ↔
    if r.restoring then post () r
    else if r.tokens.isEmpty then post () r.emptied
    else match r.language.parse r.copied.2 r.copied.1 with
      | none => post () r.refused
      | some v =>
        if (r.language.printed r.copied.2 v).tokens.length = r.tokens.length then post () (r.took v)
        else fail (.mismatch (r.language.printed r.copied.2 v).tokens.length r.tokens.length)
          (r.took v) := by
  unfold wp
  rw [reparse_eq]
  split_ifs
  · rfl
  · rfl
  · cases r.language.parse r.copied.2 r.copied.1 with
    | none => rfl
    | some v =>
      simp only
      split_ifs <;> rfl

section
variable {start stop index : Nat} {new : List (Token V)} {r : Region V}
  {post : Unit → Region V → Prop} {fail : EditError → Region V → Prop}

/-- While a synchronisation or a restore is under way a splice does not read the row. -/
theorem wp_splice_guarded (hg : r.syncing = true ∨ r.restoring = true)
    (hin : ¬ (stop < start ∨ r.tokens.length < stop)) :
    wp (splice start stop new) post fail r ↔ post () (r.spliced start stop new) := by
  rw [wp_splice, if_neg hin]
  split_ifs
  · rw [wp_sync]
    cases hs : (r.spliced start stop new).syncing with
    | true => rfl
    | false =>
      have hr : (r.spliced start stop new).underSync.restoring = true :=
        hg.resolve_left (Bool.not_eq_true _ ▸ hs)
      rw [if_neg (by simp), wp_reparse, if_pos hr, endSync_underSync hs]
  · rfl

omit [Payload V] in
theorem wp_tokenAt {post : Token V → Region V → Prop} : wp (tokenAt index) post fail r ↔
    match r.tokens[index]? with
    | some t => post t r
    | none => fail (.outOfBounds index r.tokens.length) r := by
  simp only [tokenAt, wp_bind, wp_get]
  cases r.tokens[index]? <;> rfl

/-- The row replaced by the print of the value. -/
def reprinted (r : Region V) : Region V :=
  { r.reprint.spliced 0 r.reprint.tokens.length (r.reprint.printed.getD []) with valid := true }

theorem tokens_reprinted (r : Region V) : r.reprinted.tokens = r.valueRow := by
  simp [reprinted, spliced, printed_reprint]

theorem wp_reprintToTokens_guarded (hg : r.syncing = true ∨ r.restoring = true) :
    wp reprintToTokens post fail r ↔ post () r.reprinted := by
  have hreread := reread_reprint r
  simp only [reprintToTokens, wp_bind, wp_modify, wp_get]
  rw [wp_splice_guarded (by rwa [hreread.syncing, hreread.restoring]) (by simp)]
  rfl

theorem wp_replace {t : Token V} {post : Token V → Region V → Prop} :
    wp (replace index t) post fail r ↔
    match r.tokens[index]? with
    | some old => wp (splice index (index + 1) [t]) (fun _ r => post old r) fail r
    | none => fail (.outOfBounds index r.tokens.length) r := by
  simp only [replace, wp_bind, wp_pure, wp_tokenAt]

end

/-- A restore puts the saved row back while no reading takes place, and reads it in the end. -/
theorem wp_restore {r : Region V} {saved : Option (List (Token V))}
    {post : Unit → Region V → Prop} {fail : EditError → Region V → Prop} :
    wp (restore saved) post fail r ↔
    if r.restoring then fail .restoring r
    else wp (putBack saved)
      (fun _ r => if saved.isSome then wp (sync reparse) post fail (r.setRestoring false)
        else post () (r.setRestoring false))
      (fun e r => fail e (r.setRestoring false)) (r.setRestoring true) := by
  unfold wp restore
  cases h : r.restoring with
  | true => rfl
  | false =>
    simp only [Bool.false_eq_true, if_false, setRestoring]
    cases putBack saved { r with restoring := true } with
    | error e r => rfl
    | ok a r => cases saved <;> rfl

/-- `after` is `before` up to the row and its views. -/
structure Relaid (before after : Region V) : Prop where
  language : after.language = before.language
  cells : after.cells = before.cells
  value : after.value = before.value
  valid : after.valid = before.valid
  tree : after.tree = before.tree
  printed : after.printed = before.printed
  syncing : after.syncing = before.syncing
  restoring : after.restoring = before.restoring
  subscriptions : after.subscriptions = before.subscriptions
  stale : after.stale = before.stale
  autoReparse : after.autoReparse = before.autoReparse
  autoReprint : after.autoReprint = before.autoReprint

namespace Relaid
variable {r r' r'' : Region V}

omit [Payload V] in
theorem refl (r : Region V) : r.Relaid r :=
  ⟨rfl, rfl, rfl, rfl, rfl, rfl, rfl, rfl, rfl, rfl, rfl, rfl⟩

omit [Payload V] in
theorem trans (h : r.Relaid r') (h' : r'.Relaid r'') : r.Relaid r'' :=
  ⟨h'.language.trans h.language, h'.cells.trans h.cells, h'.value.trans h.value,
    h'.valid.trans h.valid, h'.tree.trans h.tree, h'.printed.trans h.printed,
    h'.syncing.trans h.syncing, h'.restoring.trans h.restoring,
    h'.subscriptions.trans h.subscriptions, h'.stale.trans h.stale,
    h'.autoReparse.trans h.autoReparse, h'.autoReprint.trans h.autoReprint⟩

theorem spliced (r : Region V) (start stop : Nat) (new : List (Token V)) :
    r.Relaid (r.spliced start stop new) :=
  ⟨rfl, rfl, rfl, rfl, rfl, rfl, rfl, rfl, rfl, rfl, rfl, rfl⟩

end Relaid

/-- Aligning goes through the row token by token, and takes over each listed token that is not the
same as the one in its place. -/
theorem wp_alignFrom [LawfulPayload V] (r : Region V) (done todo ts : List (Token V))
    {fail : EditError → Region V → Prop} (hg : r.syncing = true) (ht : r.tokens = done ++ todo)
    (hlen : todo.length = ts.length) (hviews : r.views.length = r.tokens.length) :
    wp (alignFrom done.length ts) (fun _ r' => r.Relaid r' ∧ r'.views.length = r'.tokens.length ∧
      ∃ todo', r'.tokens = done ++ todo' ∧ SameRow r.cells todo' ts ∧
        ∀ t ∈ todo', t ∈ todo ∨ t ∈ ts) fail r := by
  induction ts generalizing r done todo with
  | nil =>
    obtain rfl := List.eq_nil_of_length_eq_zero hlen
    exact ⟨.refl r, hviews, [], ht, .nil, by simp⟩
  | cons t ts ih =>
    obtain ⟨old, todo, rfl⟩ := List.exists_cons_of_length_eq_add_one hlen
    have hold : r.tokens[done.length]? = some old := by simp [ht]
    -- the rest of the row, once `x` stands in the place of `old`
    have rest : ∀ (r₁ : Region V) (x : Token V), r.Relaid r₁ → r₁.tokens = done ++ x :: todo →
        r₁.views.length = r₁.tokens.length → x.same r.cells t → x = old ∨ x = t →
        wp (alignFrom (done.length + 1) ts) (fun _ r' => r.Relaid r' ∧
          r'.views.length = r'.tokens.length ∧ ∃ todo', r'.tokens = done ++ todo' ∧
            SameRow r.cells todo' (t :: ts) ∧ ∀ u ∈ todo', u ∈ old :: todo ∨ u ∈ t :: ts)
          fail r₁ := by
      intro r₁ x h₁ ht₁ hv₁ hx hor
      have hstep := ih r₁ (done ++ [x]) todo (h₁.syncing.trans hg)
        (by simpa using ht₁) (by simpa using hlen) hv₁
      rw [List.length_append, List.length_singleton] at hstep
      refine wp_mono hstep (fun _ r' h' => ?_) (fun _ _ h => h)
      obtain ⟨hr', hviews', todo', htokens, hsame, hmem⟩ := h'
      refine ⟨h₁.trans hr', hviews', x :: todo', by simpa using htokens,
        .cons hx (h₁.cells ▸ hsame), fun u hu => ?_⟩
      rcases List.mem_cons.1 hu with rfl | hu
      · rcases hor with rfl | rfl <;> simp
      · rcases hmem u hu with h | h <;> simp [h]
    rw [alignFrom]
    simp only [wp_bind, wp_get, hold]
    by_cases hs : old.same r.cells t
    · simp only [hs, if_true]
      exact rest r old (.refl r) ht hviews hs (.inl rfl)
    · simp only [hs, Bool.false_eq_true, if_false, wp_bind, wp_discard, wp_replace, hold]
      rw [wp_splice_guarded (.inl hg) (by simp [ht])]
      refine rest _ t (.spliced r _ _ _) ?_ ?_ (t.same_refl _) (.inr rfl)
      · simp [spliced, ht]
      · simp [spliced, hviews, ht]
        omega

theorem wp_alignFrom_self (r : Region V) (done : List (Token V)) {todo ts : List (Token V)}
    (ht : r.tokens = done ++ todo) (hs : SameRow r.cells todo ts) {post : Unit → Region V → Prop}
    {fail : EditError → Region V → Prop} :
    wp (alignFrom done.length ts) post fail r ↔ post () r := by
  induction hs generalizing done with
  | nil => rfl
  | @cons t u todo ts htu _ ih =>
    have hold : r.tokens[done.length]? = some t := by simp [ht]
    have hrest := ih (done ++ [t]) (by simp [ht])
    rw [List.length_append, List.length_singleton] at hrest
    rw [alignFrom]
    simp only [wp_bind, wp_get, hold, htu, if_true, hrest]

theorem wp_updateToPrinted_self {r : Region V} {ps : List (Token V)} (hs : r.syncing = false)
    (hp : r.printed = some ps) (hrow : SameRow r.cells r.tokens ps) {post : Unit → Region V → Prop}
    {fail : EditError → Region V → Prop} : wp updateToPrinted post fail r ↔ post () r := by
  have halign : wp (alignFrom 0 ps) (fun _ r => post () r.endSync) (fun e r => fail e r.endSync)
      r.underSync ↔ post () r.underSync.endSync :=
    wp_alignFrom_self r.underSync [] rfl hrow
  simp only [updateToPrinted, wp_bind, wp_get, hp, wp_sync, hs, hrow.length_eq, if_true,
    Bool.false_eq_true, if_false]
  rw [halign, endSync_underSync hs]

theorem keeps_took (r : Region V) (v : V) : r.copied.2.Keeps (r.took v).cells :=
  (reread_reprint (r.taking v)).cells

section
variable [LawfulPayload V] {r : Region V}

/-- The language sees a copy of the row, on cells of its own. -/
theorem copied_spec (h : r.cells.Has (rowCells r.tokens)) :
    r.cells.Copies (rowCells r.tokens) (rowCells r.copied.1) r.copied.2 ∧
      SameRow r.copied.2 r.copied.1 r.tokens :=
  detachAll_detaches r.tokens r.cells h

theorem reread_refused (h : r.cells.Has (rowCells r.tokens)) : r.Reread r.refused :=
  ⟨rfl, rfl, rfl, rfl, rfl, rfl, rfl, rfl, rfl, (copied_spec h).1.keeps⟩

theorem reread_took (h : r.cells.Has (rowCells r.tokens)) (v : V) : r.Reread (r.took v) := by
  have hcopy : r.Reread (r.taking v) :=
    ⟨rfl, rfl, rfl, rfl, rfl, rfl, rfl, rfl, rfl, (copied_spec h).1.keeps⟩
  exact hcopy.trans (reread_reprint _)

end

end Region

namespace Editor
variable {V : Type}

theorem wp_onRegion {α : Type} {f : RegionM V α} {post : α → Editor V → Prop}
    {fail : EditError → Editor V → Prop} {ed : Editor V} :
    wp (onRegion f) post fail ed ↔ wp f (fun a r => post a { ed with region := r })
      (fun e r => fail e { ed with region := r }) ed.region := by
  unfold wp onRegion
  cases f ed.region <;> rfl

variable [Payload V]

theorem applyEffect_complete (offer : Offer V) (selected : Nat) (tokens : List (Token V))
    {next : Except EditError Move → Effect V} (h : ∀ err, next (.error err) = .fail err) :
    applyEffect offer (.complete selected tokens next) =
      complete offer.placement offer.target selected tokens >>= fun move =>
        applyEffect offer (next (.ok move)) :=
  observing_bind_of_throw _ fun err => by rw [h]; rfl

theorem applyEffect_remove (offer : Offer V) (index : Nat)
    {next : Except EditError (Token V) → Effect V} (h : ∀ err, next (.error err) = .fail err) :
    applyEffect offer (.remove index next) =
      removeBefore offer.kind offer.target index >>= fun t =>
        applyEffect { offer with target := offer.target - 1 } (next (.ok t)) :=
  observing_bind_of_throw _ fun err => by rw [h]; rfl

theorem applyEffect_insert (offer : Offer V) (new : Insertion V) : applyEffect offer (.insert new) =
    complete offer.placement offer.target new.selected new.tokens :=
  (applyEffect_complete offer _ _ fun _ => rfl).trans (bind_pure _)

/-- What survives changes of cells and the calls of items, failing or not, survives their effects. -/
theorem wp_applyEffect {I : Editor V → Prop}
    (hcells : ∀ {e : Editor V} {cells}, I e → I { e with region := { e.region with cells := cells } })
    (hcomplete : ∀ {e : Editor V} placement target selected tokens, I e →
      wp (complete placement target selected tokens) (fun _ => I) (fun _ => I) e)
    (hremove : ∀ {e : Editor V} kind target index, I e →
      wp (removeBefore kind target index) (fun _ => I) (fun _ => I) e)
    (offer : Offer V) (effect : Effect V) {e : Editor V} (h : I e) :
    wp (applyEffect offer effect) (fun _ => I) (fun _ => I) e := by
  induction effect generalizing offer e with
  | done move => exact h
  | fail err => exact h
  | look change next ih =>
    rw [applyEffect, wp_bind, wp_get, wp_bind, wp_onRegion]
    exact ih _ _ offer (hcells h)
  | complete selected tokens next ih =>
    rw [applyEffect, wp_bind, wp_observing]
    exact wp_mono (hcomplete _ _ _ _ h) (fun _ _ h' => ih _ offer h') fun _ _ h' => ih _ offer h'
  | remove index next ih =>
    rw [applyEffect, wp_bind, wp_observing]
    exact wp_mono (hremove _ _ _ h) (fun _ _ h' => ih _ _ h') fun _ _ h' => ih _ _ h'

end Editor

end TokenEditor
