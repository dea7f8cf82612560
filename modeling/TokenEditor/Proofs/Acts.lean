import Mathlib.Data.List.Forall2
import TokenEditor.Proofs.Changes

/-! # What an editor does to its region

An editor acts on its region in six ways (`Act`): it splices the row, brings it in line with its
print, replaces the value, restores a saved row, takes in a change of a watched cell, or changes
the language. Two facts about the acts carry the invariants of editors.

* Whatever becomes of an act, the row has been spliced some times and otherwise stays
  (`Act.moves`). So the views go on to project their tokens, and as long as the count of edits is
  the same the row is the same.
* In a region that reads by itself an act that goes well leaves row, print and tree at one length
  (`InStep`), and it fails with a mismatch only if the language prints a value with another number
  of tokens than it was read from (`Act.inStep`). -/

namespace TokenEditor

namespace View
variable {V : Type} {v : View} {t : Token V}

/-- The view has the marks of the token, and its caret is in its text. -/
structure Projects (v : View) (t : Token V) : Prop where
  editable : v.editable = !t.isValue
  focusable : v.focusable = !(t.isSimple && t.glue.left && t.glue.right)
  glue : v.glue = t.glue
  caret : v.caret ≤ v.text.length

/-- What moving the caret, typing and deleting do to a view. -/
inductive Edit : (View → View) → Prop
  | setCaret (caret : Nat) : Edit fun v => v.setCaret caret
  | setText (text : Text) (caret : Nat) : Edit fun v => v.setText text caret
  | insert (piece : Text) : Edit fun v => v.insert piece
  | eraseBefore : Edit eraseBefore
  | eraseAfter : Edit eraseAfter

@[simp] theorem id_eraseBefore (v : View) : v.eraseBefore.id = v.id := by
  unfold eraseBefore
  split <;> rfl

theorem Edit.id_eq {f : View → View} (hf : Edit f) (v : View) : (f v).id = v.id := by
  cases hf with
  | eraseBefore => exact id_eraseBefore v
  | _ => rfl

theorem Edit.projects {f : View → View} (hf : Edit f) (h : v.Projects t) : (f v).Projects t := by
  obtain ⟨hedit, hfocus, hglue, hcaret⟩ := h
  cases hf with
  | setCaret caret => exact ⟨hedit, hfocus, hglue, Nat.min_le_right _ _⟩
  | setText text caret => exact ⟨hedit, hfocus, hglue, Nat.min_le_right _ _⟩
  | insert piece =>
    refine ⟨hedit, hfocus, hglue, ?_⟩
    show v.caret + piece.length ≤ (v.text.insertAt v.caret piece).length
    simp only [Text.insertAt, List.length_append, List.length_take, List.length_drop]
    omega
  | eraseBefore =>
    unfold View.eraseBefore
    split
    · exact ⟨hedit, hfocus, hglue, hcaret⟩
    · refine ⟨hedit, hfocus, hglue, ?_⟩
      show v.caret - 1 ≤ (v.text.eraseIdx (v.caret - 1)).length
      rw [List.length_eraseIdx]
      split <;> omega
  | eraseAfter =>
    refine ⟨hedit, hfocus, hglue, ?_⟩
    show v.caret ≤ (v.text.eraseIdx v.caret).length
    rw [List.length_eraseIdx]
    split <;> omega

variable [Payload V]

theorem projects_ofToken (cells : Cells) (id : ViewId) (t : Token V) :
    (ofToken cells id t).Projects t :=
  ⟨rfl, rfl, rfl, Nat.zero_le _⟩

theorem projects_ofTokens (cells : Cells) (id : ViewId) (ts : List (Token V)) :
    List.Forall₂ Projects (ofTokens cells id ts) ts := by
  induction ts generalizing id with
  | nil => exact .nil
  | cons t ts ih => exact .cons (projects_ofToken cells id t) (ih (id + 1))

end View

namespace Forest
variable {ν τ : Type}

@[simp] theorem leafCount_append (f g : Forest ν τ) :
    (f ++ g).leafCount = f.leafCount + g.leafCount := by
  rw [← length_leaves, leaves_append, List.length_append, length_leaves, length_leaves]

theorem le_of_mem_spans {f : Forest ν τ} {start : Nat} {s : Nat × Nat} (h : s ∈ f.spans start) :
    s.2 ≤ start + f.leafCount := by
  induction f generalizing start with
  | nil => simp at h
  | leaf t rest ih =>
    have := ih h
    simp only [leafCount]
    omega
  | node l cs rest ihc ihr =>
    simp only [spans_node, List.mem_cons, List.mem_append] at h
    simp only [leafCount]
    rcases h with rfl | h | h
    · show start + cs.leafCount ≤ _
      omega
    · have := ihc h
      omega
    · have := ihr h
      omega

namespace Builder

def pendingCount : List (ν × Forest ν τ) → Nat
  | [] => 0
  | (_, cs) :: outer => cs.leafCount + pendingCount outer

/-- The leaves added so far. -/
def count (b : Builder ν τ) : Nat :=
  b.done.leafCount + pendingCount b.pending

theorem count_add (b : Builder ν τ) (f : Forest ν τ) : (b.add f).count = b.count + f.leafCount := by
  unfold add
  split
  · rename_i h
    simp [count, pendingCount, h]
  · rename_i h
    simp [count, pendingCount, h]
    omega

theorem count_closeNode (b : Builder ν τ) : b.closeNode.count = b.count := by
  unfold closeNode
  split
  · rfl
  · rename_i l cs outer h
    rw [count_add]
    simp [count, pendingCount, h, leafCount]
    omega

theorem leafCount_go (b : Builder ν τ) (inner : Forest ν τ) (outer : List (ν × Forest ν τ)) :
    (finish.go b inner outer).leafCount =
      b.done.leafCount + inner.leafCount + pendingCount outer := by
  induction outer generalizing inner with
  | nil => simp [finish.go, pendingCount]
  | cons p outer ih =>
    rw [finish.go, ih]
    simp [pendingCount, leafCount]
    omega

theorem leafCount_finish (b : Builder ν τ) : b.finish.leafCount = b.count := by
  unfold finish
  split
  · rename_i h
    simp [count, pendingCount, h]
  · rename_i h
    rw [leafCount_go]
    simp [count, pendingCount, h, leafCount]
    omega

end Builder

end Forest

namespace Printed
variable {V : Type}

theorem count_foldl_build (steps : List (PrintStep V)) (b : Forest.Builder V (Token V)) :
    (steps.foldl PrintStep.build b).count =
      b.count + (steps.filterMap PrintStep.token?).length := by
  induction steps generalizing b with
  | nil => rfl
  | cons step steps ih =>
    rw [List.foldl_cons, ih]
    rw [List.filterMap_cons]
    cases step with
    | enter v =>
      simp [PrintStep.build, PrintStep.token?, Forest.Builder.openNode, Forest.Builder.count,
        Forest.Builder.pendingCount, Forest.leafCount]
    | token t =>
      simp [PrintStep.build, PrintStep.token?, Forest.Builder.leaf, Forest.Builder.count_add,
        Forest.leafCount]
      omega
    | close => simp [PrintStep.build, PrintStep.token?, Forest.Builder.count_closeNode]
    | watch c => simp [PrintStep.build, PrintStep.token?]

theorem tokenCount_tree (v : V) (steps : List (PrintStep V)) :
    (ofSteps v steps).tree.tokenCount = (ofSteps v steps).tokens.length := by
  show (steps.foldl PrintStep.build .empty).finish.leafCount = _
  rw [Forest.Builder.leafCount_finish, count_foldl_build]
  exact Nat.zero_add _

end Printed

theorem PrintTree.le_of_mem_spans {V : Type} {t : PrintTree V} {s : Nat × Nat} (h : s ∈ t.spans) :
    s.2 ≤ t.tokenCount := by
  rw [spans_eq] at h
  rcases List.mem_cons.1 h with rfl | h
  · exact Nat.le_refl _
  · have := Forest.le_of_mem_spans h
    rwa [Nat.zero_add] at this

/-! ### What becomes of the row -/

namespace Region
variable {V : Type} {r r' r'' : Region V}

/-- Every view projects the token in its place. -/
def Projected (r : Region V) : Prop :=
  List.Forall₂ View.Projects r.views r.tokens

theorem Projected.length_eq (h : r.Projected) : r.views.length = r.tokens.length :=
  List.Forall₂.length_eq h

theorem Projected.projects (h : r.Projected) {i : Nat} {v : View} {t : Token V}
    (hv : r.views[i]? = some v) (ht : r.tokens[i]? = some t) : v.Projects t := by
  obtain ⟨hi, rfl⟩ := List.getElem?_eq_some_iff.1 hv
  obtain ⟨hi', rfl⟩ := List.getElem?_eq_some_iff.1 ht
  exact List.Forall₂.get h hi hi'

theorem Projected.modifyView (h : r.Projected) (index : Nat) {f : View → View} (hf : View.Edit f) :
    (r.modifyView index f).Projected := by
  refine List.forall₂_iff_get.2 ⟨by simp [Region.modifyView, h.length_eq], fun i h₁ h₂ => ?_⟩
  have hi : i < r.views.length := by simpa [Region.modifyView] using h₁
  have hat : (r.views.get ⟨i, hi⟩).Projects (r.tokens.get ⟨i, h₂⟩) := h.get hi h₂
  simp only [Region.modifyView, List.get_eq_getElem, List.getElem_modify] at hat ⊢
  split
  · exact hf.projects hat
  · exact hat

variable [Payload V]

/-- The row of `after` comes about from that of `before` by splices. -/
inductive Moves (before : Region V) : Region V → Prop
  | refl : Moves before before
  | splice {r : Region V} {start stop : Nat} (new : List (Token V)) :
      Moves before r → start ≤ stop → stop ≤ r.tokens.length →
      Moves before (r.spliced start stop new)
  | silent {r r' : Region V} : Moves before r → r.KeepsRow r' → Moves before r'

namespace Moves

theorem trans (h : r.Moves r') (h' : r'.Moves r'') : r.Moves r'' := by
  induction h' with
  | refl => exact h
  | splice new _ hle hin ih => exact .splice new ih hle hin
  | silent _ hk ih => exact .silent ih hk

theorem of_keepsRow (h : r.KeepsRow r') : r.Moves r' :=
  .silent .refl h

theorem of_passes {S : Supply V} (h : r.Passes S r') : r.Moves r' := by
  refine h.invariant (I := fun r' => r.Moves r') (fun hstep hr => ?_) .refl
  obtain ⟨start, stop, new, hle, hin, rfl⟩ | ⟨hkeeps, -⟩ := hstep.row
  · exact hr.splice new hle hin
  · exact hr.silent hkeeps

theorem projected (h : r.Moves r') (hr : r.Projected) : r'.Projected := by
  induction h with
  | refl => exact hr
  | @splice r start stop new _ _ _ ih =>
    exact List.rel_append
      (List.rel_append (List.forall₂_take start ih) (View.projects_ofTokens r.cells r.nextView new))
      (List.forall₂_drop stop ih)
  | silent _ hk ih =>
    unfold Projected
    rwa [hk.views, hk.tokens]

/-- The count of edits never goes back, and as long as it stands the row does. -/
theorem advances (h : r.Moves r') : r.modifications ≤ r'.modifications ∧
    (r'.modifications = r.modifications → r'.tokens = r.tokens) := by
  induction h with
  | refl => exact ⟨Nat.le_refl _, fun _ => rfl⟩
  | @splice r' start stop new _ _ _ ih =>
    have hmods : (r'.spliced start stop new).modifications = r'.modifications + 1 := rfl
    exact ⟨by omega, fun h => absurd h (by omega)⟩
  | silent _ hk ih => rwa [hk.tokens, hk.modifications]

end Moves

theorem keepsRow_read (r : Region V) :
    wp (sync reparse) (fun _ r' => r.KeepsRow r') (fun _ r' => r.KeepsRow r') r := by
  rw [wp_sync]
  split
  · exact .refl r
  have htook : ∀ v, r.KeepsRow (r.underSync.took v).endSync := by
    intro v
    have hk := keepsRow_reprint (r.underSync.taking v)
    exact ⟨hk.tokens, hk.views, hk.modifications⟩
  rw [wp_reparse]
  split_ifs
  · exact ⟨rfl, rfl, rfl⟩
  · exact ⟨rfl, rfl, rfl⟩
  · split
    · exact ⟨rfl, rfl, rfl⟩
    · split_ifs <;> exact htook _

theorem wp_splice_row (start stop : Nat) (new : List (Token V)) (r : Region V) :
    wp (splice start stop new) (fun _ r' => start ≤ stop ∧ stop ≤ r.tokens.length ∧
      (r.spliced start stop new).KeepsRow r') (fun _ _ => True) r := by
  rw [wp_splice]
  split_ifs
  · exact wp_mono (keepsRow_read _) (fun _ _ h => ⟨by omega, by omega, h⟩) (fun _ _ _ => trivial)
  · exact ⟨by omega, by omega, .refl _⟩

/-- However `f` ends, it has only spliced the row. -/
def Rewrites {α : Type} (f : RegionM V α) : Prop :=
  ∀ r, wp f (fun _ r' => r.Moves r') (fun _ r' => r.Moves r') r

theorem Undergoes.rewrites {α : Type} {S : Supply V} {f : RegionM V α} (h : Undergoes S f) :
    Rewrites f :=
  fun r => wp_mono (h r) (fun _ _ h => .of_passes h) (fun _ _ h => .of_passes h)

/-- Tokens and values from anywhere, but the language stays. -/
def Supply.edits : Supply V :=
  ⟨fun _ => True, fun _ => True, fun _ => False⟩

theorem Passes.language_eq (h : r.Passes .edits r') : r'.language = r.language := by
  refine h.invariant (I := fun r' => r'.language = r.language) (fun hchange hr => ?_) rfl
  cases hchange with
  | reprint => exact (reread_reprint _).language.trans hr
  | setLanguage hl => exact hl.elim
  | _ => exact hr

/-- An act of an editor on its region. -/
inductive Act (V : Type) where
  | splice (start stop : Nat) (new : List (Token V))
  | align
  | setValue (v : Option V)
  | restore (saved : Option (List (Token V)))
  | processChanges
  | setLanguage (l : Language V)

namespace Act

def run : Act V → RegionM V Unit
  | splice start stop new => Region.splice start stop new
  | align => updateToPrinted
  | setValue v => Region.setValue v
  | restore saved => Region.restore saved
  | processChanges => discard Region.processChanges
  | setLanguage l => Region.setLanguage l

/-- The acts that keys come down to. -/
def IsEdit : Act V → Prop
  | splice _ _ _ | align => True
  | _ => False

theorem undergoes (act : Act V) : Undergoes .unlimited act.run := by
  cases act with
  | splice start stop new => exact .splice fun _ _ => trivial
  | align => exact .updateToPrinted
  | setValue v => exact .setValue fun _ _ => trivial
  | restore saved => exact .restore fun _ _ _ _ => trivial
  | processChanges => exact Undergoes.processChanges.discard
  | setLanguage l => exact .setLanguage trivial

theorem moves (act : Act V) : Rewrites act.run :=
  act.undergoes.rewrites

theorem undergoes_edits {act : Act V} (h : ∀ l, act ≠ .setLanguage l) : Undergoes .edits act.run := by
  cases act with
  | splice start stop new => exact .splice fun _ _ => trivial
  | align => exact .updateToPrinted
  | setValue v => exact .setValue fun _ _ => trivial
  | restore saved => exact .restore fun _ _ _ _ => trivial
  | processChanges => exact Undergoes.processChanges.discard
  | setLanguage l => exact absurd rfl (h l)

/-- However an act ends, the language is one that it sets or the one that was there. -/
theorem language {L : Language V → Prop} {act : Act V} (hact : ∀ l, act = .setLanguage l → L l)
    (hl : L r.language) :
    wp act.run (fun _ r' => L r'.language) (fun _ r' => L r'.language) r := by
  have hrest : ∀ {α : Type} {f : RegionM V α} {r : Region V}, Undergoes .edits f → L r.language →
      wp f (fun _ r' => L r'.language) (fun _ r' => L r'.language) r := fun {_ _ r} hf hl =>
    wp_mono (hf r) (fun _ _ h => h.language_eq.symm ▸ hl) fun _ _ h => h.language_eq.symm ▸ hl
  by_cases hset : ∃ l, act = .setLanguage l
  · obtain ⟨l, rfl⟩ := hset
    rw [run, Region.setLanguage, wp_bind, wp_modify]
    refine hrest (.bind .get fun r => ?_) (hact l rfl)
    split
    · exact (Undergoes.sync .reparse).bind fun _ => .updateToPrinted
    · exact .pure _
  · exact hrest (undergoes_edits fun l h => hset ⟨l, h⟩) hl

end Act

end Region

/-! ### Row, print and tree at one length -/

@[simp] def EditError.IsMismatch : EditError → Prop
  | mismatch _ _ => True
  | _ => False

namespace Language
variable {V : Type}

/-- What is read from tokens of `C` prints as as many tokens. -/
def Counts (C : Token V → Prop) (l : Language V) : Prop :=
  ∀ cells ts v, (∀ t ∈ ts, C t) → l.parse cells ts = some v →
    (l.printed cells v).tokens.length = ts.length

/-- Copies of tokens of `C` are in `C`, and so is all that the languages of `L` print. -/
structure Prints [Payload V] (L : Language V → Prop) (C : Token V → Prop) : Prop where
  detach : ∀ t cells, C t → C (Token.detach t cells).1
  printed : ∀ l, L l → ∀ cells v, ∀ t ∈ (l.printed cells v).tokens, C t

theorem prints_any [Payload V] (L : Language V → Prop) : Prints L fun _ => True :=
  ⟨fun _ _ _ => trivial, fun _ _ _ _ _ _ => trivial⟩

/-- The error is a mismatch, and a language of `L` is to blame. -/
def Miscounts (L : Language V → Prop) (C : Token V → Prop) (err : EditError) : Prop :=
  err.IsMismatch ∧ ∃ l, L l ∧ ¬ l.Counts C

end Language

namespace Region
variable {V : Type} {L : Language V → Prop} {C : Token V → Prop} {r r' : Region V}

/-- A region at rest that reads by itself, with a language of `L` and tokens of `C`. -/
structure Ready (L : Language V → Prop) (C : Token V → Prop) (r : Region V) : Prop where
  language : L r.language
  autoReparse : r.autoReparse = true
  syncing : r.syncing = false
  restoring : r.restoring = false
  row : ∀ t ∈ r.tokens, C t

/-- The print and the tree, if there are any, have as many tokens as the row. -/
structure Level (C : Token V → Prop) (r : Region V) : Prop where
  printed : ∀ ps, r.printed = some ps → ps.length = r.tokens.length ∧ ∀ t ∈ ps, C t
  tree : ∀ t, r.tree = some t → t.tokenCount = r.tokens.length

structure InStep (L : Language V → Prop) (C : Token V → Prop) (r : Region V) : Prop
    extends Ready L C r, Level C r

theorem Ready.congr (h : r.Ready L C) (hl : r'.language = r.language)
    (hauto : r'.autoReparse = r.autoReparse) (hsync : r'.syncing = r.syncing)
    (hrest : r'.restoring = r.restoring) (hrow : r'.tokens = r.tokens) : r'.Ready L C :=
  ⟨hl ▸ h.language, hauto.trans h.autoReparse, hsync.trans h.syncing, hrest.trans h.restoring,
    hrow ▸ h.row⟩

theorem Level.congr (h : r.Level C) (hrow : r'.tokens = r.tokens) (hprinted : r'.printed = r.printed)
    (htree : r'.tree = r.tree) : r'.Level C :=
  ⟨fun ps hps => hrow ▸ h.printed ps (hprinted ▸ hps), fun t ht => hrow ▸ h.tree t (htree ▸ ht)⟩

namespace InStep

/-- Neither the cells nor the views play a part. -/
theorem setCells (h : r.InStep L C) (cells : Cells) (stale : Bool)
    (subscriptions : List Subscription) : InStep L C
      { r with cells := cells, stale := stale, subscriptions := subscriptions } :=
  ⟨h.toReady.congr rfl rfl rfl rfl rfl, h.toLevel.congr rfl rfl rfl⟩

theorem modifyView (h : r.InStep L C) (index : Nat) (f : View → View) :
    (r.modifyView index f).InStep L C :=
  ⟨h.toReady.congr rfl rfl rfl rfl rfl, h.toLevel.congr rfl rfl rfl⟩

theorem mono (h : r.InStep L C) {D : Token V → Prop} (hD : ∀ t, C t → D t) : r.InStep L D :=
  ⟨⟨h.language, h.autoReparse, h.syncing, h.restoring, fun t ht => hD t (h.row t ht)⟩,
    fun ps hps => ⟨(h.printed ps hps).1, fun t ht => hD t ((h.printed ps hps).2 t ht)⟩, h.tree⟩

end InStep

variable [Payload V]

theorem mem_detachAll (hC : Language.Prints L C) {ts : List (Token V)} {cells : Cells}
    (h : ∀ t ∈ ts, C t) : ∀ t ∈ ((Token.detachAll ts).run cells).1, C t := by
  induction ts generalizing cells with
  | nil => exact fun _ h => absurd h List.not_mem_nil
  | cons t ts ih =>
    intro u hu
    rcases List.mem_cons.1 hu with rfl | hu
    · exact hC.detach t cells (h t (by simp))
    · exact ih (fun t ht => h t (by simp [ht])) u hu

theorem length_detachAll (ts : List (Token V)) (cells : Cells) :
    ((Token.detachAll ts).run cells).1.length = ts.length := by
  induction ts generalizing cells with
  | nil => rfl
  | cons t ts ih => exact congrArg (· + 1) (ih _)

theorem length_spliced {start stop : Nat} (new : List (Token V)) (hle : start ≤ stop)
    (hin : stop ≤ r.tokens.length) : (r.spliced start stop new).tokens.length =
      start + new.length + (r.tokens.length - stop) := by
  simp only [spliced, List.length_append, List.length_take, List.length_drop]
  omega

namespace Ready

theorem of_spliced (h : r.Ready L C) {D : Token V → Prop} {start stop : Nat} {new : List (Token V)}
    (hrow : ∀ t ∈ (r.spliced start stop new).tokens, D t) : (r.spliced start stop new).Ready L D :=
  ⟨h.language, h.autoReparse, h.syncing, h.restoring, hrow⟩

theorem spliced (h : r.Ready L C) (start stop : Nat) {new : List (Token V)}
    (hnew : ∀ t ∈ new, C t) : (r.spliced start stop new).Ready L C :=
  h.of_spliced fun t ht => (mem_spliced ht).elim (h.row t) (hnew t)

theorem reparse (hC : Language.Prints L C) (h : r.Ready L C) :
    wp (sync reparse) (fun _ r' => r'.InStep L C ∧ r.KeepsRow r')
      (fun err _ => Language.Miscounts L C err) r := by
  rw [wp_sync, if_neg (by simp [h.syncing]), wp_reparse,
    if_neg (show ¬ r.underSync.restoring = true by simp [Region.underSync, h.restoring])]
  by_cases hempty : r.tokens = []
  · rw [if_pos (by simp [Region.underSync, hempty])]
    refine ⟨⟨⟨h.language, h.autoReparse, rfl, h.restoring, h.row⟩, ?_, by rintro t ⟨⟩⟩,
      ⟨rfl, rfl, rfl⟩⟩
    rintro ps ⟨⟩
    exact ⟨(congrArg List.length hempty).symm, by simp⟩
  rw [if_neg (by simpa [Region.underSync] using hempty)]
  cases hparse : r.underSync.language.parse r.underSync.copied.2 r.underSync.copied.1 with
  | none =>
    exact ⟨⟨⟨h.language, h.autoReparse, rfl, h.restoring, h.row⟩, by rintro ps ⟨⟩, by rintro t ⟨⟩⟩,
      ⟨rfl, rfl, rfl⟩⟩
  | some v =>
    have hcopy : r.underSync.copied.1.length = r.tokens.length := length_detachAll _ _
    simp only
    -- the language reads a copy of the row, and what it printed is compared with the row itself
    split_ifs with hcount
    · obtain ⟨htree, hprinted, -⟩ := reprint_some (r := r.underSync.taking v) rfl
      have hread := reread_reprint (r.underSync.taking v)
      refine ⟨⟨⟨hread.language ▸ h.language, hread.autoReparse.trans h.autoReparse, rfl,
        hread.restoring.trans h.restoring, ?_⟩, ?_, ?_⟩, ⟨hread.tokens, hread.views,
        hread.modifications⟩⟩
      · exact fun t ht => h.row t (hread.tokens ▸ ht)
      · intro ps hps
        cases hprinted.symm.trans hps
        exact ⟨hcount.trans (congrArg List.length hread.tokens).symm, hC.printed _ h.language _ v⟩
      · intro t ht
        cases htree.symm.trans ht
        exact (Printed.tokenCount_tree _ _).trans
          (hcount.trans (congrArg List.length hread.tokens).symm)
    · refine ⟨trivial, r.language, h.language, fun hcounts => hcount ?_⟩
      exact (hcounts _ _ v (mem_detachAll hC h.row) hparse).trans hcopy

end Ready

theorem level_reprinted (hC : Language.Prints L C) (hl : L r.language) :
    (∀ t ∈ r.reprinted.tokens, C t) ∧ r.reprinted.Level C := by
  have hrow : ∀ ps, r.reprint.printed = some ps → r.reprinted.tokens = ps := by
    intro ps hps
    simp [reprinted, spliced, hps]
  cases hv : r.value with
  | none =>
    obtain ⟨htree, hprinted, -⟩ := reprint_none hv
    rw [hrow _ hprinted]
    refine ⟨by simp, fun ps hps => ?_, fun t ht => ?_⟩
    · cases hprinted.symm.trans hps
      rw [hrow _ hprinted]
      exact ⟨rfl, by simp⟩
    · cases htree.symm.trans ht
  | some v =>
    obtain ⟨htree, hprinted, -⟩ := reprint_some hv
    have hmem := hC.printed _ hl r.cells v
    rw [hrow _ hprinted]
    refine ⟨hmem, fun ps hps => ?_, fun t ht => ?_⟩
    · cases hprinted.symm.trans hps
      rw [hrow _ hprinted]
      exact ⟨rfl, hmem⟩
    · cases htree.symm.trans ht
      rw [hrow _ hprinted]
      exact Printed.tokenCount_tree _ _

namespace Ready

theorem reprintToTokens (hC : Language.Prints L C) (h : r.Ready L C) :
    wp (sync reprintToTokens) (fun _ r' => r'.InStep L C) (fun _ _ => False) r := by
  rw [wp_sync, if_neg (by simp [h.syncing]), wp_reprintToTokens_guarded (.inl rfl)]
  have hread := reread_reprint r.underSync
  obtain ⟨hrow, hlevel⟩ := level_reprinted (r := r.underSync) hC h.language
  exact ⟨⟨hread.language ▸ h.language, hread.autoReparse.trans h.autoReparse, rfl,
    hread.restoring.trans h.restoring, hrow⟩, hlevel.printed, hlevel.tree⟩

end Ready

/-- Aligning a row with tokens of `C`, under a synchronisation, changes neither its length nor what
was printed. -/
theorem aligns_alignFrom {ts : List (Token V)} (hts : ∀ t ∈ ts, C t) (index : Nat)
    (hs : r.syncing = true) (hrow : ∀ t ∈ r.tokens, C t) :
    wp (alignFrom index ts) (fun _ r' => r.Relaid r' ∧ r'.tokens.length = r.tokens.length ∧
      ∀ t ∈ r'.tokens, C t) (fun _ _ => False) r := by
  induction ts generalizing index r with
  | nil => exact ⟨.refl r, rfl, hrow⟩
  | cons t ts ih =>
    have hrest : ∀ r₁ : Region V, r.Relaid r₁ → r₁.tokens.length = r.tokens.length →
        (∀ t ∈ r₁.tokens, C t) → wp (alignFrom (index + 1) ts) (fun _ r' => r.Relaid r' ∧
          r'.tokens.length = r.tokens.length ∧ ∀ t ∈ r'.tokens, C t) (fun _ _ => False) r₁ := by
      intro r₁ hrel hlen hrow₁
      refine wp_mono (ih (fun u hu => hts u (by simp [hu])) (index + 1) (hrel.syncing.trans hs) hrow₁)
        (fun _ r' h => ?_) (fun _ _ h => h)
      exact ⟨hrel.trans h.1, h.2.1.trans hlen, h.2.2⟩
    rw [alignFrom]
    simp only [wp_bind, wp_get]
    cases hold : r.tokens[index]? with
    | none => exact hrest r (.refl r) rfl hrow
    | some old =>
      have hin : index + 1 ≤ r.tokens.length := (List.getElem?_eq_some_iff.1 hold).1
      simp only
      split
      · exact hrest r (.refl r) rfl hrow
      · simp only [wp_bind, wp_discard, wp_replace, hold]
        rw [wp_splice_guarded (.inl hs) (by omega)]
        refine hrest _ (.spliced r _ _ _) ?_ fun u hu => ?_
        · rw [length_spliced _ (Nat.le_succ _) hin, List.length_singleton]
          omega
        · rcases mem_spliced hu with hu | hu
          · exact hrow u hu
          · exact List.mem_singleton.1 hu ▸ hts t (by simp)

namespace InStep

omit [Payload V] in
theorem new {l : Language V} (hl : L l) (cells : Cells) {settings : Settings}
    (hauto : settings.autoReparse = true) : (Region.new l cells settings).InStep L C := by
  refine ⟨⟨hl, hauto, rfl, rfl, by rintro t ⟨⟩⟩, ?_, by rintro t ⟨⟩⟩
  rintro ps ⟨⟩
  exact ⟨rfl, by rintro t ⟨⟩⟩

theorem splice (hC : Language.Prints L C) (h : r.InStep L C) {start stop : Nat}
    {new : List (Token V)} (hnew : ∀ t ∈ new, C t) (hle : start ≤ stop)
    (hin : stop ≤ r.tokens.length) :
    wp (splice start stop new)
      (fun _ r' => r'.InStep L C ∧ (r.spliced start stop new).KeepsRow r')
      (fun err _ => Language.Miscounts L C err) r := by
  rw [wp_splice, if_neg (by omega), if_pos h.autoReparse]
  exact (h.toReady.spliced start stop hnew).reparse hC

/-- Row and print have the same length, so the one can be brought in line with the other. -/
theorem updateToPrinted (h : r.InStep L C) :
    wp updateToPrinted (fun _ r' => r'.InStep L C ∧ r'.tokens.length = r.tokens.length)
      (fun _ _ => False) r := by
  simp only [Region.updateToPrinted, wp_bind, wp_get]
  cases hp : r.printed with
  | none => exact ⟨h, rfl⟩
  | some ps =>
    obtain ⟨hlen, hmem⟩ := h.printed ps hp
    simp only [if_pos hlen, wp_sync, h.syncing, Bool.false_eq_true, if_false]
    refine wp_mono (aligns_alignFrom hmem 0 rfl h.row) (fun _ r' h' => ?_) (fun _ _ h => h)
    obtain ⟨hrel, hcount, hrow⟩ := h'
    refine ⟨⟨⟨hrel.language ▸ h.language, hrel.autoReparse.trans h.autoReparse, rfl,
      hrel.restoring.trans h.restoring, hrow⟩, fun qs hqs => ?_, fun t ht => ?_⟩, hcount⟩
    · obtain ⟨hq, hqC⟩ := h.printed qs (hrel.printed ▸ hqs)
      exact ⟨hq.trans hcount.symm, hqC⟩
    · exact (h.tree t (hrel.tree ▸ ht)).trans hcount.symm

theorem setValue (hC : Language.Prints L C) (h : r.InStep L C) (v : Option V) :
    wp (setValue v) (fun _ r' => r'.InStep L C) (fun _ _ => False) r := by
  have hset : Ready L C { r with value := v } := h.toReady.congr rfl rfl rfl rfl rfl
  simp only [Region.setValue, wp_bind, wp_modify, wp_get, wp_ite, wp_pure]
  split_ifs
  · exact hset.reprintToTokens hC
  · exact ⟨hset, h.printed, h.tree⟩

theorem processChanges (hC : Language.Prints L C) (h : r.InStep L C) :
    wp processChanges (fun _ r' => r'.InStep L C) (fun _ _ => False) r := by
  have hstale : Ready L C { r with stale := false } := h.toReady.congr rfl rfl rfl rfl rfl
  simp only [Region.processChanges, wp_bind, wp_get, wp_ite, wp_set, wp_pure]
  split_ifs
  · exact hstale.reprintToTokens hC
  · exact ⟨hstale, h.printed, h.tree⟩
  · exact h

theorem restore (hC : Language.Prints L C) (h : r.InStep L C) {saved : Option (List (Token V))}
    (hsaved : ∀ ts, saved = some ts → ∀ t ∈ ts, C t) :
    wp (restore saved) (fun _ r' => r'.InStep L C) (fun err _ => Language.Miscounts L C err) r := by
  rw [wp_restore, if_neg (by simp [h.restoring])]
  cases saved with
  | some ts =>
    have hts := hsaved ts rfl
    have hback : (((r.setRestoring true).spliced 0 (r.setRestoring true).tokens.length ts
        ).setRestoring false).Ready L C :=
      have hsp := h.toReady.spliced 0 r.tokens.length hts
      ⟨hsp.language, hsp.autoReparse, hsp.syncing, rfl, hsp.row⟩
    simp only [putBack, setTokens, wp_bind, wp_get, Option.isSome_some, if_true]
    rw [wp_splice_guarded (.inr rfl) (by simp [setRestoring])]
    exact wp_mono (hback.reparse hC) (fun _ _ h => h.1) (fun _ _ h => h)
  | none =>
    simp only [putBack, wp_bind, wp_get, Option.isSome_none, Bool.false_eq_true, if_false]
    cases hv : (r.setRestoring true).valid with
    | true =>
      simp only [if_true, wp_pure]
      exact ⟨⟨h.language, h.autoReparse, h.syncing, rfl, h.row⟩, h.printed, h.tree⟩
    | false =>
      simp only [Bool.false_eq_true, if_false]
      rw [wp_reprintToTokens_guarded (.inr rfl)]
      have hread := reread_reprint (r.setRestoring true)
      obtain ⟨hrow, hlevel⟩ := level_reprinted (r := r.setRestoring true) hC h.language
      exact ⟨⟨hread.language ▸ h.language, hread.autoReparse.trans h.autoReparse,
        hread.syncing.trans h.syncing, rfl, hrow⟩, hlevel.printed, hlevel.tree⟩

theorem setLanguage (hC : Language.Prints L C) (h : r.InStep L C) {l : Language V} (hl : L l) :
    wp (setLanguage l) (fun _ r' => r'.InStep L C) (fun err _ => Language.Miscounts L C err) r := by
  have hset : Ready L C { r with language := l, parses := 0 } :=
    ⟨hl, h.autoReparse, h.syncing, h.restoring, h.row⟩
  simp only [Region.setLanguage, wp_bind, wp_modify, wp_get, wp_ite, if_pos h.autoReparse]
  refine wp_mono (hset.reparse hC) (fun _ r' h' => ?_) (fun _ _ h => h)
  exact wp_mono h'.1.updateToPrinted (fun _ _ h => h.1) (fun _ _ h => h.elim)

end InStep

namespace Act

/-- The act brings in tokens of `C` and languages of `L` only. -/
def Within (L : Language V → Prop) (C : Token V → Prop) : Act V → Prop
  | splice _ _ new => ∀ t ∈ new, C t
  | restore saved => ∀ ts, saved = some ts → ∀ t ∈ ts, C t
  | setLanguage l => L l
  | align | setValue _ | processChanges => True

/-- An act keeps a region in step. It fails if a language miscounts, or at a place that is not
there, and then it has done nothing. -/
theorem inStep (hC : Language.Prints L C) {act : Act V} (hact : act.Within L C)
    (h : r.InStep L C) :
    wp act.run (fun _ r' => r'.InStep L C) (fun err r' => Language.Miscounts L C err ∨
      r'.InStep L C ∧ ∃ index length, err = .outOfBounds index length) r := by
  cases act with
  | splice start stop new =>
    by_cases hout : stop < start ∨ r.tokens.length < stop
    · rw [run, wp_splice, if_pos hout]
      exact .inr ⟨h, _, _, rfl⟩
    · exact wp_mono (h.splice hC hact (by omega) (by omega)) (fun _ _ h => h.1) (fun _ _ => .inl)
  | align => exact wp_mono h.updateToPrinted (fun _ _ h => h.1) (fun _ _ h => h.elim)
  | setValue v => exact wp_mono (h.setValue hC v) (fun _ _ h => h) (fun _ _ h => h.elim)
  | restore saved => exact wp_mono (h.restore hC hact) (fun _ _ h => h) (fun _ _ => .inl)
  | processChanges =>
    exact (wp_discard _).2 (wp_mono (h.processChanges hC) (fun _ _ h => h) (fun _ _ h => h.elim))
  | setLanguage l => exact wp_mono (h.setLanguage hC hact) (fun _ _ h => h) (fun _ _ => .inl)

end Act

end Region

end TokenEditor
