import Mathlib.Data.List.Pairwise
import Mathlib.Logic.Function.Iterate
import TokenEditor.Proofs.Histories
import TokenEditor.Proofs.PrintTrees

/-! # Selections walk the tree

The spans of a tree's nodes are nested or disjoint, and the widest of them is the whole row. Over
such spans a selection in the row grows until it is the whole row, and from a node's span that holds
the focus one step out and one step in lead back (`Outlines`). A valid row that is not empty has a
tree of its own length, whatever calls have led to it (`Treed`), so this is how selections move
(`selections_walk_tree`).

Calls that leave their moves to the caller may leave a selection that reaches past the end of the
row. It is then no part of the row that grows, and the whole row is selected in its place. As in
`WellFormed` no item may keep to itself that the language has miscounted, or the tree is not of the
row's length. -/

namespace TokenEditor

namespace Span
variable {ss spans : List Span} {s s' t : Span} {focus : Option Nat} {n i : Nat}

theorem exists_shortest? (ht : t ∈ ss) : ∃ s, shortest? ss = some s := by
  cases ss with
  | nil => cases ht
  | cons u ss =>
    unfold shortest?
    split
    · exact ⟨u, rfl⟩
    · split_ifs
      · exact ⟨_, rfl⟩
      · exact ⟨_, rfl⟩

theorem exists_longest? (ht : t ∈ ss) : ∃ s, longest? ss = some s := by
  cases ss with
  | nil => cases ht
  | cons u ss =>
    unfold longest?
    split
    · exact ⟨u, rfl⟩
    · split_ifs
      · exact ⟨_, rfl⟩
      · exact ⟨_, rfl⟩

theorem shortest?_le (h : shortest? ss = some s) (ht : t ∈ ss) : s.length ≤ t.length := by
  induction ss generalizing s with
  | nil => cases ht
  | cons u ss ih =>
    simp only [shortest?] at h
    split at h
    · rename_i hnone
      cases h
      rcases List.mem_cons.1 ht with rfl | ht
      · exact Nat.le_refl _
      · obtain ⟨v, hv⟩ := exists_shortest? ht
        cases hnone.symm.trans hv
    · rename_i v hv
      have hrest : t ∈ ss → v.length ≤ t.length := ih hv
      split_ifs at h
      all_goals
        cases h
        rcases List.mem_cons.1 ht with rfl | ht
        · omega
        · have := hrest ht
          omega

theorem le_longest? (h : longest? ss = some s) (ht : t ∈ ss) : t.length ≤ s.length := by
  induction ss generalizing s with
  | nil => cases ht
  | cons u ss ih =>
    simp only [longest?] at h
    split at h
    · rename_i hnone
      cases h
      rcases List.mem_cons.1 ht with rfl | ht
      · exact Nat.le_refl _
      · obtain ⟨v, hv⟩ := exists_longest? ht
        cases hnone.symm.trans hv
    · rename_i v hv
      have hrest : t ∈ ss → t.length ≤ v.length := ih hv
      split_ifs at h
      all_goals
        cases h
        rcases List.mem_cons.1 ht with rfl | ht
        · omega
        · have := hrest ht
          omega

/-- Spans of nodes in a row of `n` tokens: any two are nested or disjoint, and one is the row. -/
structure Outlines (n : Nat) (spans : List Span) : Prop where
  whole : ⟨0, n⟩ ∈ spans
  inRow : ∀ s ∈ spans, s.stop ≤ n
  nested : ∀ s ∈ spans, ∀ t ∈ spans,
    s.covers t = true ∨ t.covers s = true ∨ s.stop ≤ t.start ∨ t.stop ≤ s.start

theorem covers_iff : s.covers t = true ↔ s.start ≤ t.start ∧ t.stop ≤ s.stop := by
  simp [covers]

theorem has_iff : s.has i = true ↔ s.start ≤ i ∧ i < s.stop := by
  simp [has]

theorem length_lt_of_ne_whole (hn : 0 < n) (hin : s.stop ≤ n) (hne : s ≠ ⟨0, n⟩) :
    s.length < n := by
  obtain ⟨a, b⟩ := s
  simp only [ne_eq, mk.injEq, length] at *
  omega

/-- Two spans with a token in common and one length, one within the other, are the same. -/
theorem eq_of_covers (hcover : s.covers t = true) (hi : t.has i = true)
    (hle : s.length ≤ t.length) : s = t := by
  obtain ⟨a, b⟩ := s
  obtain ⟨c, d⟩ := t
  simp only [covers_iff, has_iff, length, mk.injEq] at *
  omega

namespace Outlines

/-- A selection in the row grows to the shortest span that properly contains it. -/
theorem expand (h : Outlines n spans) (focus : Option Nat) (hn : 0 < n) (hin : s.stop ≤ n)
    (hne : s ≠ ⟨0, n⟩) :
    ∃ s' ∈ spans, Span.expand (some s) focus (some spans) n = some s' ∧ s'.covers s = true ∧
      s.length < s'.length ∧
      ∀ t ∈ spans, t.covers s = true → s.length < t.length → s'.length ≤ t.length := by
  have hmem : ∀ t, t ∈ spans.filter (fun t => t.covers s && s.length < t.length) ↔
      t ∈ spans ∧ t.covers s = true ∧ s.length < t.length := by simp
  have hwhole := (hmem ⟨0, n⟩).2 ⟨h.whole, covers_iff.2 ⟨Nat.zero_le _, hin⟩,
    length_lt_of_ne_whole hn hin hne⟩
  obtain ⟨s', hs'⟩ := exists_shortest? hwhole
  obtain ⟨hspans, hcovers, hlength⟩ := (hmem s').1 (mem_of_shortest? hs')
  refine ⟨s', hspans, ?_, hcovers, hlength, fun t ht hc hl => ?_⟩
  · simp only [Span.expand, hs', Option.some_or]
  · exact shortest?_le hs' ((hmem t).2 ⟨ht, hc, hl⟩)

/-- Where no span properly contains the selection, the row is selected. -/
theorem expand_whole (h : Outlines n spans) (hs : n < s.stop ∨ s = ⟨0, n⟩) :
    Span.expand (some s) focus (some spans) n = some ⟨0, n⟩ := by
  have hnone : spans.filter (fun t => t.covers s && s.length < t.length) = [] := by
    refine List.filter_eq_nil_iff.2 fun t ht => ?_
    have hin := h.inRow t ht
    rw [Bool.and_eq_true, covers_iff, decide_eq_true_eq, length, length]
    rintro ⟨⟨-, hstop⟩, hlength⟩
    rcases hs with hs | rfl
    · omega
    · simp only at hlength
      omega
  simp only [Span.expand, hnone, shortest?, Option.none_or]

/-- Growing and shrinking again leads back to a node's span that holds the focus: a longer span on
the way back would have been met on the way out. -/
theorem shrink_expand (h : Outlines n spans) (hs : s ∈ spans) (hi : s.has i = true)
    (hcovers : s'.covers s = true) (hlength : s.length < s'.length)
    (hleast : ∀ t ∈ spans, t.covers s = true → s.length < t.length → s'.length ≤ t.length) :
    shrink s' i (some spans) = some s := by
  have hmem : ∀ t, t ∈ spans.filter (fun t => s'.covers t && t.length < s'.length && t.has i) ↔
      t ∈ spans ∧ (s'.covers t = true ∧ t.length < s'.length) ∧ t.has i = true := by simp
  have hcandidate := (hmem s).2 ⟨hs, ⟨hcovers, hlength⟩, hi⟩
  obtain ⟨t, ht⟩ := exists_longest? hcandidate
  obtain ⟨htmem, ⟨-, htlength⟩, hti⟩ := (hmem t).1 (mem_of_longest? ht)
  have hle : s.length ≤ t.length := le_longest? ht hcandidate
  suffices s = t by rw [shrink, ht, this]
  rcases h.nested s hs t htmem with hst | hts | hapart | hapart
  · exact eq_of_covers hst hti hle
  · by_cases hlt : s.length < t.length
    · have := hleast t htmem hts hlt
      omega
    · exact (eq_of_covers hts hi (by omega)).symm
  · rw [has_iff] at hi hti
    omega
  · rw [has_iff] at hi hti
    omega

end Outlines

end Span

namespace Region
variable {V : Type} [Payload V] {r : Region V} {L : Language V → Prop} {C : Token V → Prop}

/-- A valid row that is not empty has a tree. -/
def Treed (r : Region V) : Prop :=
  r.valid = true → r.tokens ≠ [] → ∃ t, r.tree = some t

theorem treed_reparse (hs : r.syncing = false) (hr : r.restoring = false) :
    wp (sync reparse) (fun _ r' => r'.Treed) (fun err _ => err.IsMismatch) r := by
  rw [wp_sync, if_neg (by simp [hs]), wp_reparse, if_neg (by simp [underSync, hr])]
  split_ifs with hempty
  · exact fun _ hne => absurd (List.isEmpty_iff.1 hempty) hne
  · split
    · exact fun hvalid => absurd hvalid Bool.false_ne_true
    · split_ifs
      · exact fun _ _ => ⟨_, (reprint_some rfl).1⟩
      · trivial

theorem treed_reprinted (r : Region V) : r.reprinted.Treed := by
  intro _ hne
  cases hv : r.value with
  | none => exact absurd (by simp [reprinted, spliced, (reprint_none hv).2.1]) hne
  | some v => exact ⟨_, (reprint_some hv).1⟩

theorem treed_reprintToTokens (hs : r.syncing = false) :
    wp (sync reprintToTokens) (fun _ r' => r'.Treed) (fun err _ => err.IsMismatch) r := by
  rw [wp_sync, if_neg (by simp [hs]), wp_reprintToTokens_guarded (.inl rfl)]
  exact treed_reprinted r.underSync

namespace Treed

theorem updateToPrinted (h : r.Treed) (hstep : r.InStep L C) :
    wp updateToPrinted (fun _ r' => r'.Treed) (fun err _ => err.IsMismatch) r := by
  cases hp : r.printed with
  | none => simpa [Region.updateToPrinted, hp] using h
  | some ps =>
    have hcount := wp_mono hstep.updateToPrinted (fun _ _ h => h.2) (fun _ _ _ => trivial)
    rw [wp_updateToPrinted_some hstep.syncing hp] at hcount ⊢
    split_ifs at hcount ⊢
    · have hrel := relaid_alignedFrom 0 ps r.underSync
      intro hvalid hne
      refine hrel.tree ▸ h (hrel.valid ▸ hvalid) fun hnil => hne ?_
      exact List.eq_nil_of_length_eq_zero (hcount.trans (by rw [hnil]; rfl))
    · trivial

theorem setValue (h : r.Treed) (hs : r.syncing = false) (v : Option V) :
    wp (setValue v) (fun _ r' => r'.Treed) (fun err _ => err.IsMismatch) r := by
  simp only [Region.setValue, wp_bind, wp_modify, wp_get, wp_ite, wp_pure]
  split_ifs
  · exact treed_reprintToTokens hs
  · exact h

theorem processChanges (h : r.Treed) (hs : r.syncing = false) :
    wp processChanges (fun _ r' => r'.Treed) (fun err _ => err.IsMismatch) r := by
  simp only [Region.processChanges, wp_bind, wp_get, wp_ite, wp_set, wp_pure]
  split_ifs
  · exact treed_reprintToTokens hs
  · exact h
  · exact h

theorem restore (h : r.Treed) (hs : r.syncing = false) (hr : r.restoring = false)
    (saved : Option (List (Token V))) :
    wp (restore saved) (fun _ r' => r'.Treed) (fun err _ => err.IsMismatch) r := by
  rw [wp_restore, if_neg (by simp [hr])]
  cases saved with
  | some ts =>
    simp only [putBack, setTokens, wp_bind, wp_get, Option.isSome_some, if_true]
    rw [wp_splice_guarded (.inr rfl) (by simp [setRestoring])]
    exact treed_reparse hs rfl
  | none =>
    simp only [putBack, wp_bind, wp_get, Option.isSome_none, Bool.false_eq_true, if_false]
    split
    · exact h
    · rw [wp_reprintToTokens_guarded (.inr rfl)]
      exact treed_reprinted (r.setRestoring true)

end Treed

/-- Every act leaves a tree for a valid row, unless it fails with a mismatch. -/
theorem Act.treed (hC : Language.Prints L C) {act : Act V} (hact : act.Within L C)
    (hstep : r.InStep L C) (h : r.Treed) :
    wp act.run (fun _ r' => r'.Treed) (fun err r' => err.IsMismatch ∨ r'.Treed) r := by
  have fails : ∀ {f : RegionM V Unit} {r : Region V},
      wp f (fun _ r' => r'.Treed) (fun err _ => err.IsMismatch) r →
      wp f (fun _ r' => r'.Treed) (fun err r' => err.IsMismatch ∨ r'.Treed) r := fun hf =>
    wp_mono hf (fun _ _ h => h) fun _ _ => .inl
  cases act with
  | splice start stop new =>
    rw [run, wp_splice, if_pos hstep.autoReparse]
    split_ifs
    · exact .inr h
    · exact fails (treed_reparse hstep.syncing hstep.restoring)
  | align => exact fails (h.updateToPrinted hstep)
  | setValue v => exact fails (h.setValue hstep.syncing v)
  | restore saved => exact fails (h.restore hstep.syncing hstep.restoring saved)
  | processChanges => exact fails ((wp_discard _).2 (h.processChanges hstep.syncing))
  | setLanguage l =>
    have hset : Ready L C { r with language := l, parses := 0 } :=
      ⟨hact, hstep.autoReparse, hstep.syncing, hstep.restoring, hstep.row⟩
    simp only [run, Region.setLanguage, wp_bind, wp_modify, wp_get, wp_ite,
      if_pos hstep.autoReparse]
    have hread := wp_and (hset.reparse hC) (treed_reparse hset.syncing hset.restoring)
    refine wp_mono hread (fun _ r' h' => ?_) fun _ _ h' => .inl h'.2
    exact fails (h'.2.updateToPrinted h'.1.1)

end Region

namespace Editor
variable {V : Type} {e e' start : Editor V} {s : Span} {spans : List Span}

theorem nodeSpans_of_tree {t : PrintTree V} (hvalid : e.region.valid = true)
    (ht : e.region.tree = some t) :
    e.nodeSpans = some (t.spans.map fun s => ⟨s.1, s.2⟩) := by
  simp only [nodeSpans, hvalid, ht, if_true]
  rfl

theorem outlines_of_tree (t : PrintTree V) :
    Span.Outlines t.tokenCount (t.spans.map fun s => ⟨s.1, s.2⟩) where
  whole := by simp [PrintTree.spans_eq]
  inRow s hs := by
    obtain ⟨q, hq, rfl⟩ := List.mem_map.1 hs
    exact PrintTree.le_of_mem_spans hq
  nested s hs s' hs' := by
    obtain ⟨q, hq, rfl⟩ := List.mem_map.1 hs
    obtain ⟨q', hq', rfl⟩ := List.mem_map.1 hs'
    simp only [Span.covers_iff]
    -- the listing names the outer of two nested nodes first; here it may be either
    refine List.Pairwise.forall_of_forall_of_flip (R := fun q q' : Nat × Nat =>
      (q.1 ≤ q'.1 ∧ q'.2 ≤ q.2) ∨ (q'.1 ≤ q.1 ∧ q.2 ≤ q'.2) ∨ q.2 ≤ q'.1 ∨ q'.2 ≤ q.1)
      (fun q _ => by omega) ?_ ?_ hq hq'
    · exact t.spans_laminar.imp fun {q q'} h => by omega
    · exact t.spans_laminar.imp fun {q q'} h => by simp only [flip]; omega

/-- The editor with `s` selected. -/
def selecting (s : Span) (e : Editor V) : Editor V :=
  { e with selection := some s }

theorem selecting_of_selection (h : e.selection = some s) : e.selecting s = e := by
  rw [selecting, ← h]

theorem expandSelection_of_expand {s' : Span} (hs : e.selection = some s)
    (hspans : e.nodeSpans = some spans)
    (h : Span.expand (some s) e.focusedIndex? (some spans) e.tokens.length = some s') :
    e.expandSelection = (true, e.selecting s') := by
  rw [expandSelection, hs, hspans, h]
  rfl

section
variable (hspans : e.nodeSpans = some spans) (h : Span.Outlines e.tokens.length spans)
include hspans h

theorem expandSelection_whole (hs : e.selection = some s)
    (hout : e.tokens.length < s.stop ∨ s = ⟨0, e.tokens.length⟩) :
    e.expandSelection = (true, e.selecting ⟨0, e.tokens.length⟩) :=
  expandSelection_of_expand hs hspans (h.expand_whole hout)

theorem iterate_expandSelection_whole (m : Nat) :
    (fun e : Editor V => e.expandSelection.2)^[m] (e.selecting ⟨0, e.tokens.length⟩) =
      e.selecting ⟨0, e.tokens.length⟩ := by
  refine Function.iterate_fixed ?_ m
  have hstays := expandSelection_whole (e := e.selecting ⟨0, e.tokens.length⟩) hspans h rfl
    (.inr rfl)
  exact congrArg Prod.snd hstays

/-- A selection in the row that is grown again and again takes in a token at least with each step,
until it is the row. -/
theorem expands_to_whole (hn : 0 < e.tokens.length) (hin : s.stop ≤ e.tokens.length) :
    ∃ k ≤ e.tokens.length - s.length, ∀ m, k ≤ m →
      (fun e : Editor V => e.expandSelection.2)^[m] (e.selecting s) =
        e.selecting ⟨0, e.tokens.length⟩ := by
  induction hd : e.tokens.length - s.length using Nat.strong_induction_on generalizing s with
  | _ d ih =>
    by_cases hne : s = ⟨0, e.tokens.length⟩
    · exact ⟨0, Nat.zero_le _, fun m _ => hne ▸ iterate_expandSelection_whole hspans h m⟩
    · obtain ⟨s', hs', hexpand, -, hlength, -⟩ := h.expand e.focusedIndex? hn hin hne
      have hin' := h.inRow s' hs'
      have hle : s'.length ≤ e.tokens.length := Nat.le_trans (Nat.sub_le _ _) hin'
      obtain ⟨k, hk, hiterate⟩ := ih (e.tokens.length - s'.length) (by omega) hin' rfl
      refine ⟨k + 1, by omega, fun m hm => ?_⟩
      obtain ⟨m, rfl⟩ : ∃ m', m = m' + 1 := ⟨m - 1, by omega⟩
      rw [Function.iterate_succ_apply,
        expandSelection_of_expand (e := e.selecting s) rfl hspans hexpand]
      exact hiterate m (by omega)

/-- So is any selection: one that reaches past the end at the first step. -/
theorem reaches_whole (hn : 0 < e.tokens.length) (hs : e.selection = some s) :
    ∃ k ≤ e.tokens.length, ∀ m, k ≤ m →
      (fun e : Editor V => e.expandSelection.2)^[m] e = e.selecting ⟨0, e.tokens.length⟩ := by
  rcases Nat.lt_or_ge e.tokens.length s.stop with hpast | hin
  · refine ⟨1, hn, fun m hm => ?_⟩
    obtain ⟨m, rfl⟩ : ∃ m', m = m' + 1 := ⟨m - 1, by omega⟩
    rw [Function.iterate_succ_apply, expandSelection_whole hspans h hs (.inl hpast)]
    exact iterate_expandSelection_whole hspans h m
  · obtain ⟨k, hk, hiterate⟩ := expands_to_whole hspans h hn hin
    rw [selecting_of_selection hs] at hiterate
    exact ⟨k, by omega, hiterate⟩

theorem shrinkSelection_expandSelection {i : Nat} (hn : 0 < e.tokens.length)
    (hsel : e.selection = some s) (hs : s ∈ spans) (hne : s ≠ ⟨0, e.tokens.length⟩)
    (hfocus : e.focusedIndex? = some i) (hi : s.has i = true) :
    e.expandSelection.2.shrinkSelection = (true, e) := by
  obtain ⟨s', -, hexpand, hcovers, hlength, hleast⟩ :=
    h.expand e.focusedIndex? hn (h.inRow s hs) hne
  have hshrink : Span.shrink s' ((e.selecting s').focusedIndex?.getD s'.start)
      (e.selecting s').nodeSpans = some s := by
    rw [show (e.selecting s').focusedIndex? = some i from hfocus,
      show (e.selecting s').nodeSpans = some spans from hspans]
    exact h.shrink_expand hs hi hcovers hlength hleast
  rw [expandSelection_of_expand hsel hspans hexpand, shrinkSelection]
  simp only [selecting] at hshrink ⊢
  rw [hshrink, ← hsel]

end

/-! ### All states -/

variable [Payload V]

/-- The states that calls lead to as long as they go well: operations, and completions by hand,
which leave their moves to the caller. Languages are in `L`, and items in `I`. -/
inductive Visited (L : Language V → Prop) (I : Item V → Prop) (start : Editor V) : Editor V → Prop
  | refl : Visited L I start start
  | call {e e' : Editor V} {op : Op V} : Visited L I start e → op.Speaks L I →
      op.run e = .ok () e' → Visited L I start e'
  | complete {e e' : Editor V} {placement : Placement} {target selected : Nat}
      {new : List (Token V)} {move : Move} : Visited L I start e →
      complete placement target selected new e = .ok move e' → Visited L I start e'
  | applyItem {e e' : Editor V} {offer : Offer V} {item : Item V} {t : Text} {move : Move} :
      Visited L I start e → I item → applyItem offer item t e = .ok move e' → Visited L I start e'

variable {L : Language V → Prop} {I : Item V → Prop}

/-- Row, print and tree are in step, and a valid row has a tree. -/
structure Charted (L : Language V → Prop) (r : Region V) : Prop where
  inStep : r.InStep L fun _ => True
  treed : r.Treed

theorem Charted.act (hsafe : (∀ l, L l → l.Counts fun _ => True) ∨ ∀ i, I i → i.HandsOn)
    {r : Region V} (h : Charted L r) {act : Region.Act V} (hact : act.Within L fun _ => True) :
    wp act.run (fun _ r' => Charted L r')
      (fun err r' => ((∀ i, I i → i.HandsOn) → ¬ err.IsMismatch) → Charted L r') r := by
  have hboth := wp_and (Region.Act.inStep (Language.prints_any L) hact h.inStep)
    (Region.Act.treed (Language.prints_any L) hact h.inStep h.treed)
  refine wp_mono hboth (fun _ _ h => ⟨h.1, h.2⟩) ?_
  rintro err r' ⟨⟨hmismatch, l, hl, hmis⟩ | ⟨hstep, index, length, rfl⟩, htreed⟩ herr
  · rcases hsafe with hcounts | hon
    · exact absurd (hcounts l hl) hmis
    · exact absurd hmismatch (herr hon)
  · exact ⟨hstep, htreed.resolve_left (by simp)⟩

/-- What may be done along the way. -/
abbrev Visited.terms (L : Language V → Prop) (I : Item V → Prop) : Terms V :=
  ⟨fun act => act.Within L fun _ => True, I, False⟩

theorem Path.charted (hr : Language.Reliable L I) {evs : List (Event V)}
    (h : Path (Visited.terms L I) e evs e') (hstart : Charted L e.region) : Charted L e'.region := by
  have hacts : ∀ {act : Region.Act V} {r : Region V}, act.IsEdit ∨ (Visited.terms L I).acts act →
      Charted L r → wp act.run (fun _ r' => Charted L r')
        (fun err r' => ((∀ i, I i → i.HandsOn) → ¬ err.IsMismatch) → Charted L r') r := by
    intro act r hact hcharted
    refine hcharted.act hr.safe ?_
    rcases hact with hedit | hact
    · cases act <;> first | exact hedit.elim | simp [Region.Act.Within]
    · exact hact
  refine h.region (I := Charted L) (fun {act r r'} hact hrun hr => ?_)
    (fun {act err r r'} hact hrun herr hr => ?_)
    (fun {r index f} _ hr => ⟨hr.inStep.modifyView index f, hr.treed⟩)
    (fun hr => ⟨hr.inStep.setCells _ _ _, hr.treed⟩) hstart
  · have hwp := hacts hact hr
    rwa [wp, hrun] at hwp
  · have hwp := hacts hact hr
    rw [wp, hrun] at hwp
    exact hwp herr

theorem Reached.visited {allowed : Editor V → Op V → Prop}
    (hallowed : ∀ e op, allowed e op → op.Speaks L I) (h : Reached allowed start e) :
    Visited L I start e := by
  induction h with
  | refl => exact .refl
  | call _ hop hrun ih => exact ih.call (hallowed _ _ hop) hrun

theorem Visited.path (hL : ∀ l, L l → l.Offers I) (hstart : start.Supplied L I)
    (h : Visited L I start e) : ∃ evs, Path (Visited.terms L I) start evs e := by
  have hvia : ∀ {e : Editor V}, (∃ evs, Path (Visited.terms L I) start evs e) →
      Via (Visited.terms L I) False start e := fun h => ⟨h, False.elim⟩
  induction h with
  | refl => exact ⟨_, .refl⟩
  | @call e e' op _ hop hrun ih =>
    have hleads := Op.leads (T := Visited.terms L I) ⟨fun _ hact => hop.within (.inr hact), hop.items⟩
      (hstart.supplies hL fun _ hl => hl) False.elim False.elim e ⟨hvia ih, False.elim⟩
    rw [wp, hrun] at hleads
    exact hleads.path
  | @complete e e' placement target selected new move _ hrun ih =>
    have hleads := Walks.complete placement target selected new e (hvia ih)
    rw [wp, hrun] at hleads
    exact hleads.path
  | @applyItem e e' offer item t move _ hitem hrun ih =>
    have hleads := Walks.applyItem (T := Visited.terms L I) offer hitem t e (hvia ih)
    rw [wp, hrun] at hleads
    exact hleads.path

omit [Payload V] in
theorem Charted.new {l : Language V} (hl : L l) (cells : Cells) {settings : Settings}
    (h : settings.autoReparse = true) : Charted L (Editor.new l cells settings).region :=
  ⟨.new hl cells h, fun _ hne => absurd rfl hne⟩

omit [Payload V] in
/-- A valid row that is not empty has the spans of its tree's nodes. -/
theorem Charted.outlines (h : Charted L e.region) (hvalid : e.region.valid = true)
    (hne : e.tokens ≠ []) :
    ∃ spans, e.nodeSpans = some spans ∧ Span.Outlines e.tokens.length spans := by
  obtain ⟨t, ht⟩ := h.treed hvalid hne
  have hcount : t.tokenCount = e.tokens.length := h.inStep.tree t ht
  exact ⟨_, nodeSpans_of_tree hvalid ht, hcount ▸ outlines_of_tree t⟩

/-- As long as only operations were called that look after the selection themselves, it lies in the
row. -/
theorem Reached.selection_le (hr : Language.Reliable L I)
    (h : Reached (fun _ op => op.IsIntent ∧ op.Speaks L I) start e)
    (hstart : start.InOrder L I True) (hs : e.selection = some s) : s.stop ≤ e.tokens.length := by
  suffices e.InOrder L I True from this.placed.selection trivial s hs
  clear hs
  induction h with
  | refl => exact hstart
  | call _ hop hrun ih => exact ih.call hr.offers (fun _ => hr) hop.1 hop.2 hrun

/-- In every state that calls have led to, by-hand edits and completions among them, a valid row
that is not empty has nodes along which the selection walks, as long as no miscount was kept from the
caller. One that lies in the row grows to a wider node that contains it; one that reaches past the
end, which only by-hand calls leave, is replaced by the whole row. Either way the row is reached in no
more steps than it has tokens. From a node that holds the focus a step out and a step in lead back. -/
theorem selections_walk_tree (hr : Language.Reliable L I) {l : Language V} (hl : L l) (cells : Cells)
    {settings : Settings} (hauto : settings.autoReparse = true)
    (h : Visited L I (Editor.new l cells settings) e) (hvalid : e.region.valid = true)
    (hne : e.tokens ≠ []) :
    ∃ spans, e.nodeSpans = some spans ∧
    (∀ s, e.selection = some s → s.stop ≤ e.tokens.length → s ≠ ⟨0, e.tokens.length⟩ →
      ∃ s' ∈ spans, e.expandSelection = (true, { e with selection := some s' }) ∧
        s'.covers s = true ∧ s.length < s'.length) ∧
    (∀ s, e.selection = some s → e.tokens.length < s.stop →
      e.expandSelection = (true, { e with selection := some ⟨0, e.tokens.length⟩ })) ∧
    (∀ s, e.selection = some s → ∃ k ≤ e.tokens.length, ∀ m, k ≤ m →
      (fun e : Editor V => e.expandSelection.2)^[m] e =
        { e with selection := some ⟨0, e.tokens.length⟩ }) ∧
    (∀ s i, e.selection = some s → s ∈ spans → s ≠ ⟨0, e.tokens.length⟩ →
      e.focusedIndex? = some i → s.has i = true →
      e.expandSelection.2.shrinkSelection = (true, e)) ∧
    (Reached (fun _ op => op.IsIntent ∧ op.Speaks L I) (Editor.new l cells settings) e →
      ∀ s, e.selection = some s → s.stop ≤ e.tokens.length) := by
  obtain ⟨evs, hpath⟩ := h.path hr.offers (.new hl cells settings)
  have hn : 0 < e.tokens.length := List.length_pos_iff.2 hne
  obtain ⟨spans, hspans, houtlines⟩ :=
    (hpath.charted hr (.new hl cells hauto)).outlines hvalid hne
  refine ⟨spans, hspans, ?_, ?_, ?_, ?_, ?_⟩
  · intro s hs hin hwhole
    obtain ⟨s', hs', hexpand, hcovers, hlength, -⟩ :=
      houtlines.expand e.focusedIndex? hn hin hwhole
    exact ⟨s', hs', expandSelection_of_expand hs hspans hexpand, hcovers, hlength⟩
  · intro s hs hpast
    exact expandSelection_whole hspans houtlines hs (.inl hpast)
  · intro s hs
    exact reaches_whole hspans houtlines hn hs
  · intro s i hs hmem hwhole hfocus hi
    exact shrinkSelection_expandSelection hspans houtlines hn hs hmem hwhole hfocus hi
  · exact fun hreached s hs => hreached.selection_le hr (.new hl cells hauto) hs

/-- In `a ++ + b` the selected `a` grows to `a ++` and shrinks back, and grows to the row. -/
theorem selections_walk_tree_sum :
    ∃ e : Editor Sum, [.setTokens [.identifier ['a'], Sum.incToken, Sum.plusToken,
        .identifier ['b']], .selectToken 0 .last, .selectRange 0 1].forM Op.run
          (Editor.new (Sum.language {}) {} {}) = .ok () e ∧
      e.selection = some ⟨0, 1⟩ ∧ e.expandSelection.2.selection = some ⟨0, 2⟩ ∧
      e.expandSelection.2.shrinkSelection = (true, e) ∧
      ∃ k ≤ e.tokens.length, ∀ m, k ≤ m → (fun e : Editor Sum => e.expandSelection.2)^[m] e =
        { e with selection := some ⟨0, e.tokens.length⟩ } := by
  have hends : endsWith ([.setTokens [.identifier ['a'], Sum.incToken, Sum.plusToken,
      .identifier ['b']], .selectToken 0 .last, .selectRange 0 1].forM Op.run)
      (fun _ e => (e.region.valid = true ∧ e.tokens.length = 4) ∧ e.selection = some ⟨0, 1⟩ ∧
        e.expandSelection.2.selection = some ⟨0, 2⟩ ∧ e.focusedIndex? = some 0 ∧
        e.nodeSpans = some [⟨0, 4⟩, ⟨0, 2⟩, ⟨0, 1⟩, ⟨3, 4⟩])
      (Editor.new (Sum.language {}) {} {}) := by
    decide +kernel
  obtain ⟨_, e, hrun, htest⟩ := exists_of_endsWith hends
  obtain ⟨⟨hvalid, hlength⟩, hselection, hgrown, hfocus, hnodes⟩ := of_decide_eq_true htest
  have hreached : Reached (fun _ => Op.Speaks Sum.IsLanguage Item.IsPlain)
      (Editor.new (Sum.language {}) {} {}) e := Reached.refl.forM (by simp [Op.Speaks]) hrun
  have hne : e.tokens ≠ [] := fun hnil => by simp [hnil] at hlength
  obtain ⟨spans, hspans, -, -, hrow, hback, -⟩ := selections_walk_tree Sum.reliable ⟨{}, rfl⟩ {}
    rfl (hreached.visited fun _ _ h => h) hvalid hne
  cases hnodes.symm.trans hspans
  have hwhole : (⟨0, 1⟩ : Span) ≠ ⟨0, e.tokens.length⟩ := by simp [hlength]
  exact ⟨e, hrun, hselection, hgrown, hback _ 0 hselection (by decide) hwhole hfocus rfl,
    hrow _ hselection⟩

/-- A token deleted by hand, without the move that comes of it: the selection reaches past the end
of the row, and growing makes it shorter. And a mismatch kept by an item: the tree is longer than the
row, and the selected row grows. -/
theorem expandSelection_shortens :
    (∃ e : Editor Sum, [.setTokens [.identifier ['a'], Sum.incToken, Sum.incToken],
        .selectRange 0 3, .deleteToken 2 0].forM Op.run (Editor.new (Sum.language {}) {} {}) =
          .ok () e ∧
      e.region.valid = true ∧ e.tokens.length = 2 ∧ e.selection = some ⟨0, 3⟩ ∧
      e.expandSelection.2.selection = some ⟨0, 2⟩ ∧ Span.covers ⟨0, 2⟩ ⟨0, 3⟩ = false) ∧
    ∃ e : Editor Sum, [.typeChar 'x', .selectRange 0 1].forM Op.run (Editor.new Sum.secretive {} {}) =
        .ok () e ∧
      e.region.valid = true ∧ e.tokens.length = 1 ∧ e.selection = some ⟨0, 1⟩ ∧
      e.expandSelection.2.selection = some ⟨0, 2⟩ := by
  constructor
  · have hends : endsWith ([.setTokens [.identifier ['a'], Sum.incToken, Sum.incToken],
        .selectRange 0 3, .deleteToken 2 0].forM Op.run)
        (fun _ e => e.region.valid = true ∧ e.tokens.length = 2 ∧ e.selection = some ⟨0, 3⟩ ∧
          e.expandSelection.2.selection = some ⟨0, 2⟩) (Editor.new (Sum.language {}) {} {}) := by
      decide +kernel
    obtain ⟨_, e, hrun, htest⟩ := exists_of_endsWith hends
    obtain ⟨hvalid, hlength, hselection, hgrown⟩ := of_decide_eq_true htest
    exact ⟨e, hrun, hvalid, hlength, hselection, hgrown, rfl⟩
  · have hends : endsWith ([.typeChar 'x', .selectRange 0 1].forM Op.run)
        (fun _ e => e.region.valid = true ∧ e.tokens.length = 1 ∧ e.selection = some ⟨0, 1⟩ ∧
          e.expandSelection.2.selection = some ⟨0, 2⟩) (Editor.new Sum.secretive {} {}) := by
      decide +kernel
    obtain ⟨_, e, hrun, htest⟩ := exists_of_endsWith hends
    exact ⟨e, hrun, of_decide_eq_true htest⟩

end Editor

end TokenEditor
