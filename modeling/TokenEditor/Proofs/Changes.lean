import Mathlib.Logic.Relation
import TokenEditor.Proofs.Runs

/-! # What operations do to a region

However it ends, an operation has done to its region a series of a few kinds of changes
(`Undergoes`): it has spliced the row, printed the value, taken in what was read, set a field. An
invariant of regions need only be checked against the kinds of changes, and then holds for all
operations. What a change brings in from outside is in the supply of its caller. -/

namespace TokenEditor.Region
variable {V : Type} {r r' r'' : Region V}

/-- What a caller may bring into a region. -/
structure Supply (V : Type) where
  token : Token V → Prop
  value : V → Prop
  language : Language V → Prop

def Supply.unlimited : Supply V :=
  ⟨fun _ => True, fun _ => True, fun _ => True⟩

/-- Row, views and the count of edits are what they were. -/
structure KeepsRow (before after : Region V) : Prop where
  tokens : after.tokens = before.tokens
  views : after.views = before.views
  modifications : after.modifications = before.modifications

theorem KeepsRow.refl (r : Region V) : r.KeepsRow r :=
  ⟨rfl, rfl, rfl⟩

theorem keepsRow_reprint (r : Region V) : r.KeepsRow r.reprint :=
  have h := reread_reprint r
  ⟨h.tokens, h.views, h.modifications⟩

variable [Payload V] {S : Supply V}

/-- One change. Tokens put into the row are in the supply or have been printed. -/
inductive Change (S : Supply V) : Region V → Region V → Prop
  | splice {r : Region V} {start stop : Nat} {new : List (Token V)} : start ≤ stop →
      stop ≤ r.tokens.length → (∀ t ∈ new, S.token t ∨ t ∈ r.printed.getD []) →
      Change S r (r.spliced start stop new)
  | reprint (r : Region V) : Change S r r.reprint
  | empty (r : Region V) : Change S r r.emptied
  | refuse (r : Region V) : Change S r r.refused
  | take {r : Region V} {v : V} : r.language.parse r.copied.2 r.copied.1 = some v →
      Change S r (r.taking v)
  | setValue (r : Region V) {v : Option V} : (∀ w, v = some w → S.value w) →
      Change S r { r with value := v }
  | setLanguage (r : Region V) {l : Language V} : S.language l →
      Change S r { r with language := l, parses := 0 }
  | flag (r : Region V) (valid syncing restoring autoReparse autoReprint : Bool) :
      Change S r { r with
        valid := valid, syncing := syncing, restoring := restoring, autoReparse := autoReparse,
        autoReprint := autoReprint }
  | calm (r : Region V) : Change S r { r with stale := false }
  | dispose (r : Region V) : Change S r r.dispose

/-- Only splices touch the row, its views and their numbers. -/
theorem Change.row (h : Change S r r') :
    (∃ start stop new, start ≤ stop ∧ stop ≤ r.tokens.length ∧ r' = r.spliced start stop new) ∨
      r.KeepsRow r' ∧ r'.nextView = r.nextView := by
  cases h with
  | splice hle hin _ => exact .inl ⟨_, _, _, hle, hin, rfl⟩
  | reprint => exact .inr ⟨keepsRow_reprint r, (reread_reprint r).nextView⟩
  | _ => exact .inr ⟨⟨rfl, rfl, rfl⟩, rfl⟩

/-- The region has come by changes, and is being restored if it was. -/
structure Passes (S : Supply V) (before after : Region V) : Prop where
  changes : Relation.ReflTransGen (Change S) before after
  restoring : after.restoring = before.restoring

namespace Passes

theorem refl (r : Region V) : Passes S r r :=
  ⟨.refl, rfl⟩

theorem trans (h : Passes S r r') (h' : Passes S r' r'') : Passes S r r'' :=
  ⟨h.changes.trans h'.changes, h'.restoring.trans h.restoring⟩

theorem of_change (h : Change S r r') (hr : r'.restoring = r.restoring) : Passes S r r' :=
  ⟨.single h, hr⟩

theorem reprint (r : Region V) : Passes S r r.reprint :=
  of_change (.reprint r) (reread_reprint r).restoring

/-- What holds and survives every change holds in the end. -/
theorem invariant {I : Region V → Prop} (h : Passes S r r')
    (hchange : ∀ {r r' : Region V}, Change S r r' → I r → I r') (hr : I r) : I r' := by
  obtain ⟨hchanges, -⟩ := h
  induction hchanges with
  | refl => exact hr
  | tail _ hstep ih => exact hchange hstep ih

end Passes

/-- However `f` ends, the region has come by changes. -/
def Undergoes {α : Type} (S : Supply V) (f : RegionM V α) : Prop :=
  ∀ r, wp f (fun _ => Passes S r) (fun _ => Passes S r) r

namespace Undergoes
variable {α β : Type} {f : RegionM V α} {g : α → RegionM V β}

theorem pure (a : α) : Undergoes S (pure a : RegionM V α) := .refl

theorem get : Undergoes S (get : RegionM V (Region V)) := .refl

theorem bind (hf : Undergoes S f) (hg : ∀ a, Undergoes S (g a)) : Undergoes S (f >>= g) := by
  intro r
  refine wp_seq (hf r) fun a r' h => ?_
  exact wp_mono (hg a r') (fun _ _ h' => h.trans h') (fun _ _ h' => h.trans h')

theorem modify {f : Region V → Region V} (hf : ∀ r : Region V, Passes S r (f r)) :
    Undergoes S (modify f : RegionM V PUnit) := hf

theorem discard (hf : Undergoes S f) : Undergoes S (discard f) := fun r => (wp_discard f).2 (hf r)

end Undergoes

section
variable {f : RegionM V Unit} {start stop index : Nat} {new ts : List (Token V)}

/-- Under a synchronisation `f` need only be known where one is running. -/
theorem passes_sync (hf : r.syncing = false → wp f (fun _ => Passes S r.underSync)
    (fun _ => Passes S r.underSync) r.underSync) :
    wp (sync f) (fun _ => Passes S r) (fun _ => Passes S r) r := by
  rw [wp_sync]
  split_ifs with hs
  · exact .refl r
  · have hunder : Passes S r r.underSync := .of_change (.flag r r.valid true r.restoring _ _) rfl
    have hend : ∀ r' : Region V, Passes S r.underSync r' → Passes S r r'.endSync := fun r' h =>
      (hunder.trans h).trans (.of_change (.flag r' r'.valid false r'.restoring _ _) rfl)
    exact wp_mono (hf (Bool.not_eq_true _ ▸ hs)) (fun _ => hend) (fun _ => hend)

theorem Undergoes.sync (hf : Undergoes S f) : Undergoes S (sync f) :=
  fun _ => passes_sync fun _ => hf _

theorem Undergoes.reparse : Undergoes S (reparse : RegionM V Unit) := by
  intro r
  have htook : ∀ v, r.language.parse r.copied.2 r.copied.1 = some v → Passes S r (r.took v) :=
    fun v hv => (Passes.of_change (.take hv) rfl).trans (.reprint _)
  rw [wp_reparse]
  split_ifs
  · exact .refl r
  · exact .of_change (.empty r) rfl
  · split
    · exact .of_change (.refuse r) rfl
    · split_ifs <;> exact htook _ ‹_›

theorem passes_splice (hnew : ∀ t ∈ new, S.token t ∨ t ∈ r.printed.getD []) :
    wp (splice start stop new) (fun _ => Passes S r) (fun _ => Passes S r) r := by
  rw [wp_splice]
  split_ifs with hout
  · exact .refl r
  all_goals
    have hspliced : Passes S r (r.spliced start stop new) :=
      .of_change (.splice (by omega) (by omega) hnew) rfl
  · exact wp_mono (Undergoes.reparse.sync _) (fun _ _ h => hspliced.trans h)
      (fun _ _ h => hspliced.trans h)
  · exact hspliced

end

/-- The region with `t` in place of the token at `index`, unless that one is the same. -/
def settled (index : Nat) (t : Token V) (r : Region V) : Region V :=
  match r.tokens[index]? with
  | some old => if old.same r.cells t then r else r.spliced index (index + 1) [t]
  | none => r

/-- The region with the listed tokens in place of those from `index` on, where they differ. -/
def alignedFrom : Nat → List (Token V) → Region V → Region V
  | _, [], r => r
  | index, t :: ts, r => (r.settled index t).alignedFrom (index + 1) ts

section
variable {index : Nat} {ts : List (Token V)}

theorem relaid_settled (index : Nat) (t : Token V) (r : Region V) : r.Relaid (r.settled index t) := by
  unfold settled
  split
  · split
    · exact .refl r
    · exact .spliced r _ _ _
  · exact .refl r

theorem relaid_alignedFrom (index : Nat) (ts : List (Token V)) (r : Region V) :
    r.Relaid (r.alignedFrom index ts) := by
  induction ts generalizing index r with
  | nil => exact .refl r
  | cons t ts ih => exact (relaid_settled index t r).trans (ih _ _)

theorem wp_alignFrom_guarded {post : Unit → Region V → Prop} {fail : EditError → Region V → Prop}
    (hs : r.syncing = true) :
    wp (alignFrom index ts) post fail r ↔ post () (r.alignedFrom index ts) := by
  induction ts generalizing index r with
  | nil => rfl
  | cons t ts ih =>
    have hs' : (r.settled index t).syncing = true := (relaid_settled index t r).syncing.trans hs
    rw [alignedFrom, ← ih hs', alignFrom, settled]
    simp only [wp_bind, wp_get]
    cases hold : r.tokens[index]? with
    | none => rfl
    | some old =>
      obtain ⟨hin, -⟩ := List.getElem?_eq_some_iff.1 hold
      by_cases hsame : old.same r.cells t
      · simp only [hsame, if_true]
      · simp only [hsame, Bool.false_eq_true, if_false, wp_bind, wp_discard, wp_replace, hold]
        rw [wp_splice_guarded (.inl hs) (by omega)]

/-- At rest, the row is brought in line with a print of its length. -/
theorem wp_updateToPrinted_some {ps : List (Token V)} {post : Unit → Region V → Prop}
    {fail : EditError → Region V → Prop} (hs : r.syncing = false) (hp : r.printed = some ps) :
    wp updateToPrinted post fail r ↔ if ps.length = r.tokens.length
      then post () (r.underSync.alignedFrom 0 ps).endSync
      else fail (.mismatch ps.length r.tokens.length) r := by
  simp only [updateToPrinted, wp_bind, wp_get, hp, wp_ite, wp_throw, wp_sync, hs,
    Bool.false_eq_true, if_false]
  rw [wp_alignFrom_guarded rfl]

theorem passes_settled {t : Token V} (ht : t ∈ r.printed.getD []) :
    Passes S r (r.settled index t) := by
  unfold settled
  split
  · rename_i old hold
    obtain ⟨hin, -⟩ := List.getElem?_eq_some_iff.1 hold
    split
    · exact .refl r
    · exact .of_change (.splice (by omega) hin (by simp [ht])) rfl
  · exact .refl r

/-- The print stays, so all of its tokens may be put into the row. -/
theorem passes_alignedFrom (hts : ∀ t ∈ ts, t ∈ r.printed.getD []) :
    Passes S r (r.alignedFrom index ts) := by
  induction ts generalizing index r with
  | nil => exact .refl r
  | cons t ts ih =>
    obtain ⟨ht, hts⟩ := List.forall_mem_cons.1 hts
    refine (passes_settled ht).trans (ih ?_)
    rwa [(relaid_settled index t r).printed]

end

namespace Undergoes
variable {start stop index : Nat} {t : Token V} {new : List (Token V)}

theorem splice (hnew : ∀ t ∈ new, S.token t) : Undergoes S (splice start stop new) :=
  fun _ => passes_splice fun t ht => .inl (hnew t ht)

theorem setTokens (hnew : ∀ t ∈ new, S.token t) : Undergoes S (setTokens new) :=
  get.bind fun _ => splice hnew

theorem tokenAt : Undergoes S (tokenAt index : RegionM V (Token V)) := by
  intro r
  rw [wp_tokenAt]
  split <;> exact .refl r

theorem remove : Undergoes S (remove index : RegionM V (Token V)) :=
  tokenAt.bind fun t => (splice (by simp)).bind fun _ => pure t

theorem replace (ht : S.token t) : Undergoes S (replace index t) :=
  tokenAt.bind fun old => (splice (by simp [ht])).bind fun _ => pure old

theorem reprintToTokens : Undergoes S (reprintToTokens (V := V)) := by
  intro r
  have hprint : Passes S r r.reprint := .reprint r
  simp only [Region.reprintToTokens, wp_bind, wp_modify, wp_get]
  refine wp_mono (passes_splice fun t ht => .inr ht) (fun _ r' h => ?_) (fun _ _ h => hprint.trans h)
  exact (hprint.trans h).trans (.of_change (.flag r' true r'.syncing r'.restoring _ _) rfl)

theorem updateToPrinted : Undergoes S (updateToPrinted (V := V)) := by
  intro r
  simp only [Region.updateToPrinted, wp_bind, wp_get]
  cases hp : r.printed with
  | none => exact .refl r
  | some ps =>
    simp only [wp_ite, wp_throw]
    split_ifs
    · refine passes_sync fun _ => (wp_alignFrom_guarded rfl).2 (passes_alignedFrom ?_)
      simp [underSync, hp]
    · exact .refl r

theorem setValue {v : Option V} (hv : ∀ w, v = some w → S.value w) : Undergoes S (setValue v) := by
  refine (modify fun r => .of_change (.setValue r hv) rfl).bind fun _ => get.bind fun r => ?_
  split_ifs
  · exact reprintToTokens.sync
  · exact pure _

theorem putBack {saved : Option (List (Token V))} (h : ∀ ts, saved = some ts → ∀ t ∈ ts, S.token t) :
    Undergoes S (putBack saved) := by
  cases saved with
  | some ts => exact setTokens (h ts rfl)
  | none =>
    refine get.bind fun r => ?_
    split
    · exact pure _
    · exact reprintToTokens

theorem restore {saved : Option (List (Token V))} (h : ∀ ts, saved = some ts → ∀ t ∈ ts, S.token t) :
    Undergoes S (restore saved) := by
  intro r
  rw [wp_restore]
  split
  · exact .refl r
  · rename_i hr
    -- whatever is put back, the mark of the restore is taken away again
    have hback : ∀ r' : Region V, Passes S (r.setRestoring true) r' →
        Passes S r (r'.setRestoring false) := fun r' h' =>
      ⟨.trans (.head (.flag r r.valid r.syncing true _ _) h'.changes)
        (.single (.flag r' r'.valid r'.syncing false _ _)), (Bool.not_eq_true _ ▸ hr).symm⟩
    refine wp_mono (putBack h _) (fun _ r' h' => ?_) (fun _ r' h' => hback r' h')
    split
    · exact wp_mono (reparse.sync _) (fun _ _ h => (hback r' h').trans h)
        (fun _ _ h => (hback r' h').trans h)
    · exact hback r' h'

theorem processChanges : Undergoes S (processChanges (V := V)) := by
  intro r
  have hcalm : Passes S r { r with stale := false } := .of_change (.calm r) rfl
  simp only [Region.processChanges, wp_bind, wp_get, wp_ite, wp_set, wp_pure]
  split_ifs
  · exact wp_mono (reprintToTokens.sync _) (fun _ _ h => hcalm.trans h) (fun _ _ h => hcalm.trans h)
  · exact hcalm
  · exact .refl r

theorem setLanguage {l : Language V} (hl : S.language l) : Undergoes S (setLanguage l) := by
  refine (modify fun r => .of_change (.setLanguage r hl) rfl).bind fun _ => get.bind fun r => ?_
  split_ifs
  · exact reparse.sync.bind fun _ => updateToPrinted
  · exact pure _

end Undergoes

end TokenEditor.Region
