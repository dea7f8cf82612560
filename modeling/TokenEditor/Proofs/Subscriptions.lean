import TokenEditor.Proofs.Identity
import TokenEditor.Proofs.Tally
import TokenEditor.Proofs.Updates

/-! # Subscriptions match the value

A region subscribes when it prints: to the cells of its value, once per occurrence, and to nothing
else. A call either has the row read, prints the value over the row, or does neither (`Deed`). Only
the last kind can part the subscriptions from the value, and only by giving them up or by setting a
value that is not printed.

So `listeners_match_value`: the listeners that a region has added to a cell are as many as the
occurrences of the cell in its value, in every state of every run, until one of these two is called
and as soon as the region prints again. -/

namespace TokenEditor

namespace Region
variable {V : Type} [Payload V] {r r₁ r' : Region V}

/-- The cells of the value from left to right, once per occurrence. -/
def valueCells (r : Region V) : List CellId :=
  match r.value with
  | some v => Payload.cellsOf v
  | none => []

/-- The region has subscribed to the cells of its value and to nothing else. -/
def Exact (r : Region V) : Prop :=
  r.subscriptions.map Subscription.cell = r.valueCells

theorem exact_reprint (hl : r.language.Linear) : r.reprint.Exact := by
  unfold Exact valueCells
  rw [value_reprint]
  unfold reprint
  cases r.value with
  | some v => exact (Cells.map_cell_subscribeAll _ _).trans (hl.print_watched r.cells v)
  | none => rfl

omit [Payload V] in
theorem length_cells_reprint (r : Region V) :
    r.reprint.cells.entries.length = r.cells.entries.length := by
  have htexts : r.reprint.cells.entries.map Cell.text = r.cells.entries.map Cell.text := by
    unfold reprint
    split
    · exact (Cells.texts_unsubscribeAll _ _).trans (Cells.texts_subscribeAll _ _)
    · exact Cells.texts_unsubscribeAll _ _
  simpa using congrArg List.length htexts

/-- The row has a value, or is empty. -/
def readable (r : Region V) : Bool :=
  r.tokens.isEmpty || (r.language.parse r.copied.2 r.copied.1).isSome

/-- The region after its row has been read. -/
def read (r : Region V) : Region V :=
  if r.tokens.isEmpty then r.emptied
  else
    match r.language.parse r.copied.2 r.copied.1 with
    | none => r.refused
    | some v => r.took v

theorem after_reparse (hr : r.restoring = false) : r.after reparse = r.read := by
  refine (after_iff (P := fun r' => r' = r.read)).2 (wp_reparse.2 ?_)
  rw [if_neg (by simp [hr]), read]
  split_ifs
  · rfl
  · cases r.language.parse r.copied.2 r.copied.1 with
    | none => rfl
    | some v => simp

omit [Payload V] in
theorem after_sync_of_syncing {f : RegionM V Unit} (hs : r.syncing = true) :
    r.after (sync f) = r := by
  refine (after_iff (P := fun r' => r' = r)).2 (wp_sync.2 ?_)
  rw [if_pos hs]

/-- At rest, a reading ends as it does whether or not the print is as long as the row. -/
theorem after_sync_reparse (hs : r.syncing = false) (hr : r.restoring = false) :
    r.after (sync reparse) = r.underSync.read.endSync := by
  refine (after_iff (P := fun r' => r' = r.underSync.read.endSync)).2 (wp_sync.2 ?_)
  rw [if_neg (by simp [hs])]
  refine (after_iff (P := fun r' => r'.endSync = r.underSync.read.endSync)).1 ?_
  rw [after_reparse (r := r.underSync) hr]

theorem tokens_read (r : Region V) : r.read.tokens = r.tokens := by
  unfold read
  split_ifs
  · rfl
  · split
    · rfl
    · exact (reread_reprint (r.taking _)).tokens

theorem read_of_readable (h : r.readable = true) :
    r.tokens = [] ∧ r.read = r.emptied ∨
      ∃ v, r.language.parse r.copied.2 r.copied.1 = some v ∧ r.read = r.took v := by
  unfold readable at h
  unfold read
  by_cases ht : r.tokens.isEmpty
  · exact .inl ⟨List.isEmpty_iff.1 ht, if_pos ht⟩
  · have hsome : (r.language.parse r.copied.2 r.copied.1).isSome := by simpa [ht] using h
    obtain ⟨v, hv⟩ := Option.isSome_iff_exists.1 hsome
    exact .inr ⟨v, hv, by rw [if_neg ht, hv]⟩

theorem read_of_not_readable (h : r.readable = false) : r.tokens ≠ [] ∧ r.read = r.refused := by
  unfold readable at h
  obtain ⟨ht, hnone⟩ := Bool.or_eq_false_iff.1 h
  have hparse : r.language.parse r.copied.2 r.copied.1 = none := by simpa using hnone
  refine ⟨by simpa using ht, ?_⟩
  rw [read, if_neg (by simp [ht]), hparse]

theorem exact_read (hl : r.language.Linear) (h : r.readable = true) : r.read.Exact := by
  rcases read_of_readable h with ⟨-, hread⟩ | ⟨v, -, hread⟩ <;> rw [hread]
  · rfl
  · exact exact_reprint (r := r.taking v) hl

theorem subscriptions_read (h : r.tokens = []) : r.read.subscriptions = [] := by
  rw [read, if_pos (by simp [h])]
  rfl

theorem fresh_read [LawfulPayload V] (hs : r.Stocked) (h : r.readable = true) {x : CellId}
    (hx : r.cells.Has [x]) : x ∉ r.read.valueCells := by
  rcases read_of_readable h with ⟨-, hread⟩ | ⟨v, hv, hread⟩ <;> rw [hread]
  · exact List.not_mem_nil
  · obtain ⟨hcopy, -⟩ := copied_spec hs.row
    have hcells : (r.took v).valueCells = rowCells r.copied.1 := by
      rw [valueCells, took, value_reprint]
      exact hs.language.parse_cells hv
    rw [hcells, hcopy.fresh, List.mem_range'_1]
    have hlt := hx x (by simp)
    omega

/-! ### What a call does -/

/-- The splice that an edit of the row comes to. -/
def Op.edit? (r : Region V) : Op V → Option (Nat × Nat × List (Token V))
  | setTokens ts => some (0, r.tokens.length, ts)
  | clear => some (0, r.tokens.length, [])
  | op => op.splice?

theorem Op.after_edit {op : Op V} {start stop : Nat} {new : List (Token V)}
    (h : op.edit? r = some (start, stop, new)) : r.after op.run = r.after (Region.splice start stop new) := by
  cases op with
  | setTokens ts => cases h; rfl
  | clear => cases h; rfl
  | insert index t => exact after_eq_splice (show (Op.insert index t).splice? = _ from h) r
  | remove index => exact after_eq_splice (show (Op.remove index).splice? = _ from h) r
  | replace index t => exact after_eq_splice (show (Op.replace index t).splice? = _ from h) r
  | splice i j ts => exact after_eq_splice (show (Op.splice i j ts).splice? = _ from h) r
  | _ => cases h

/-- A call has the row of a region read, prints the value of a region over its row, or does
neither. -/
inductive Deed (V : Type) where
  | reads (r : Region V)
  | prints (r : Region V)
  | neither

def Op.deed (r : Region V) : Op V → Deed V
  | reprintToTokens =>
    if r.autoReparse && !r.syncing then
      .reads (r.reprint.spliced 0 r.reprint.tokens.length (r.reprint.printed.getD [])).underSync
    else .prints r
  | setValue v =>
    if r.autoReprint && !r.syncing then .prints { r with value := v, syncing := true } else .neither
  | processChanges =>
    if r.stale && r.autoReprint && !r.syncing then .prints { r with stale := false, syncing := true }
    else .neither
  | restore none => if r.valid then .neither else .prints (r.setRestoring true)
  | restore (some ts) =>
    if r.syncing then .neither else .reads (r.spliced 0 r.tokens.length ts).underSync
  | op =>
    match op.edit? r with
    | some (start, stop, new) =>
      if start ≤ stop && stop ≤ r.tokens.length && r.autoReparse && !r.syncing then
        .reads (r.spliced start stop new).underSync
      else .neither
    | none => .neither

def Call.deed (r : Region V) : Call V → Deed V
  | .op o => o.deed r
  | .setLanguage l =>
    if r.autoReparse && !r.syncing then .reads { r with language := l, parses := 0, syncing := true }
    else .neither
  | _ => .neither

/-- The regions have the same value, print, subscriptions and store, and rows of one length. -/
structure Shares (before after : Region V) : Prop where
  cells : after.cells = before.cells
  value : after.value = before.value
  subscriptions : after.subscriptions = before.subscriptions
  printed : after.printed = before.printed
  length : after.tokens.length = before.tokens.length

namespace Shares

omit [Payload V] in
theorem refl (r : Region V) : r.Shares r := ⟨rfl, rfl, rfl, rfl, rfl⟩

omit [Payload V] in
theorem trans (h : r.Shares r₁) (h' : r₁.Shares r') : r.Shares r' :=
  ⟨h'.cells.trans h.cells, h'.value.trans h.value, h'.subscriptions.trans h.subscriptions,
    h'.printed.trans h.printed, h'.length.trans h.length⟩

omit [Payload V] in
theorem endSync (r : Region V) : r.Shares r.endSync := ⟨rfl, rfl, rfl, rfl, rfl⟩

theorem exact_iff (h : r.Shares r') : r'.Exact ↔ r.Exact := by
  unfold Exact valueCells
  rw [h.subscriptions, h.value]

theorem updateToPrinted (r : Region V) : r.Shares (r.after updateToPrinted) := by
  refine (after_iff (P := r.Shares)).2 ?_
  cases hp : r.printed with
  | none => simpa [Region.updateToPrinted, hp] using refl r
  | some ps =>
    cases hs : r.syncing with
    | false =>
      rw [wp_updateToPrinted_some hs hp]
      have hrelaid := relaid_alignedFrom 0 ps r.underSync
      split_ifs
      · exact ⟨hrelaid.cells, hrelaid.value, hrelaid.subscriptions, hrelaid.printed,
          length_alignedFrom 0 ps r.underSync⟩
      · exact refl r
    | true =>
      simp only [Region.updateToPrinted, wp_bind, wp_get, hp, wp_ite, wp_throw, wp_sync, hs, if_true]
      split_ifs <;> exact refl r

end Shares

section
variable {start stop : Nat} {new : List (Token V)}

theorem after_splice (hauto : r.autoReparse = true) (hin : start ≤ stop ∧ stop ≤ r.tokens.length) :
    r.after (splice start stop new) = (r.spliced start stop new).after (sync reparse) := by
  refine (after_iff (P := fun r' => r' = (r.spliced start stop new).after (sync reparse))).2 ?_
  rw [wp_splice, if_neg (by omega), if_pos hauto]
  exact after_iff.1 rfl

theorem after_splice_unread
    (h : ¬ (start ≤ stop && stop ≤ r.tokens.length && r.autoReparse && !r.syncing)) :
    r.after (splice start stop new) = r ∨
      (start ≤ stop && stop ≤ r.tokens.length && (r.syncing || !r.autoReparse)) = true ∧
        r.after (splice start stop new) = r.spliced start stop new := by
  by_cases hin : start ≤ stop ∧ stop ≤ r.tokens.length
  · have hskip : (r.syncing || !r.autoReparse) = true := by
      revert h
      cases r.syncing <;> cases r.autoReparse <;> simp [hin]
    refine .inr ⟨by simp [hin, hskip], ?_⟩
    refine (after_iff (P := fun r' => r' = r.spliced start stop new)).2 ?_
    cases hs : r.syncing with
    | true => rw [wp_splice_guarded (.inl hs) (by omega)]
    | false =>
      have hauto : r.autoReparse = false := by simpa [hs] using hskip
      rw [wp_splice, if_neg (by omega), if_neg (by simp [hauto])]
  · refine .inl ((after_iff (P := fun r' => r' = r)).2 ?_)
    rw [wp_splice, if_pos (by omega)]

end

/-- The restore of a saved row comes to a splice, which is read when the restore is over. -/
theorem wp_restore_some {post : Unit → Region V → Prop} {fail : EditError → Region V → Prop}
    (hr : r.restoring = false) (ts : List (Token V)) : wp (restore (some ts)) post fail r ↔
      wp (sync reparse) post fail (r.spliced 0 r.tokens.length ts) := by
  have hback : ((r.setRestoring true).spliced 0 r.tokens.length ts).setRestoring false =
      r.spliced 0 r.tokens.length ts := by
    rw [setRestoring, setRestoring, spliced, spliced, ← hr]
  rw [wp_restore, if_neg (by simp [hr])]
  simp only [putBack, setTokens, wp_bind, wp_get, Option.isSome_some, if_true]
  rw [wp_splice_guarded (.inr rfl) (by simp [setRestoring])]
  exact hback ▸ Iff.rfl

theorem after_restore (hr : r.restoring = false) (ts : List (Token V)) :
    r.after (restore (some ts)) = (r.spliced 0 r.tokens.length ts).after (sync reparse) :=
  (after_iff (P := fun r' => r' = (r.spliced 0 r.tokens.length ts).after (sync reparse))).2
    ((wp_restore_some hr ts).2 (after_iff.1 rfl))

/-- The region whose row an operation has read has its own row spliced, if it does not print
first. -/
theorem Op.edits_of_reads {op : Op V} (hr : r.restoring = false) (h : op.deed r = .reads r₁)
    (hop : op ≠ .reprintToTokens) : r.syncing = false ∧ ∃ start stop, start ≤ stop ∧
      stop ≤ r.tokens.length ∧ r₁ = (r.spliced start stop op.tokens).underSync ∧
        r.after op.run = (r.spliced start stop op.tokens).after (sync reparse) := by
  have edit : ∀ {start stop : Nat}, op.edit? r = some (start, stop, op.tokens) →
      (if start ≤ stop && stop ≤ r.tokens.length && r.autoReparse && !r.syncing then
        Deed.reads (r.spliced start stop op.tokens).underSync else .neither) = .reads r₁ →
      r.syncing = false ∧ ∃ start stop, start ≤ stop ∧ stop ≤ r.tokens.length ∧
        r₁ = (r.spliced start stop op.tokens).underSync ∧
          r.after op.run = (r.spliced start stop op.tokens).after (sync reparse) := by
    intro start stop hedit h
    split_ifs at h with hc
    cases h
    simp only [Bool.and_eq_true, decide_eq_true_eq, Bool.not_eq_true'] at hc
    obtain ⟨⟨hin, hauto⟩, hs⟩ := hc
    exact ⟨hs, start, stop, hin.1, hin.2, rfl, (after_edit hedit).trans (after_splice hauto hin)⟩
  cases op with
  | setTokens ts => exact edit rfl h
  | insert index t => exact edit rfl h
  | remove index => exact edit rfl h
  | replace index t => exact edit rfl h
  | splice start stop ts => exact edit rfl h
  | clear => exact edit rfl h
  | reprintToTokens => exact absurd rfl hop
  | restore saved =>
    cases saved with
    | none =>
      simp only [deed] at h
      split_ifs at h
    | some ts =>
      simp only [deed] at h
      split_ifs at h with hs
      cases h
      exact ⟨Bool.eq_false_iff.2 hs, 0, r.tokens.length, Nat.zero_le _, Nat.le_refl _, rfl,
        after_restore hr ts⟩
  | setValue v =>
    simp only [deed] at h
    split_ifs at h
  | processChanges =>
    simp only [deed] at h
    split_ifs at h
  | updateToPrinted => cases h
  | dispose => cases h

/-- What a call has read: its own row with new tokens, the print of its value, or its row in another
language. -/
theorem Call.reads_cases {c : Call V} (hr : r.restoring = false) (h : c.deed r = .reads r₁) :
    r.syncing = false ∧
      ((c ≠ .op .reprintToTokens ∧ ∃ start stop, start ≤ stop ∧ stop ≤ r.tokens.length ∧
          r₁ = (r.spliced start stop c.tokens).underSync ∧
            r.after c.run = (r.spliced start stop c.tokens).after (sync reparse)) ∨
        (c = .op .reprintToTokens ∧ r.autoReparse = true ∧ r₁ =
          (r.reprint.spliced 0 r.reprint.tokens.length (r.reprint.printed.getD [])).underSync) ∨
        ∃ l, c = .setLanguage l ∧ r.autoReparse = true ∧
          r₁ = ({ r with language := l, parses := 0 } : Region V).underSync) := by
  cases c with
  | op o =>
    by_cases ho : o = .reprintToTokens
    · subst ho
      simp only [deed, Op.deed] at h
      split_ifs at h with hc
      cases h
      obtain ⟨hauto, hs⟩ : r.autoReparse = true ∧ r.syncing = false := by simpa using hc
      exact ⟨hs, .inr (.inl ⟨rfl, hauto, rfl⟩)⟩
    · obtain ⟨hs, hedit⟩ := Op.edits_of_reads hr h ho
      exact ⟨hs, .inl ⟨by simpa using ho, hedit⟩⟩
  | setLanguage l =>
    simp only [deed] at h
    split_ifs at h with hc
    cases h
    obtain ⟨hauto, hs⟩ : r.autoReparse = true ∧ r.syncing = false := by simpa using hc
    exact ⟨hs, .inr (.inr ⟨l, rfl, hauto, rfl⟩)⟩
  | _ => cases h

theorem Call.shares_read {c : Call V} (hr : r.restoring = false) (h : c.deed r = .reads r₁) :
    r₁.read.Shares (r.after c.run) := by
  obtain ⟨hs, ⟨-, start, stop, -, -, rfl, hafter⟩ | ⟨rfl, hauto, rfl⟩ | ⟨l, rfl, hauto, rfl⟩⟩ :=
    reads_cases hr h
  · rw [hafter, after_sync_reparse (r := r.spliced start stop c.tokens) hs hr]
    exact .endSync _
  · have hreread := reread_reprint r
    have hread := after_sync_reparse
      (r := r.reprint.spliced 0 r.reprint.tokens.length (r.reprint.printed.getD []))
      (hreread.syncing.trans hs) (hreread.restoring.trans hr)
    rw [← after_splice (hreread.autoReparse.trans hauto) ⟨Nat.zero_le _, Nat.le_refl _⟩] at hread
    refine (after_iff (P := Shares _)).2 ?_
    simp only [Call.run, Op.run, reprintToTokens, wp_bind, wp_modify, wp_get]
    refine wp_mono ((after_iff (P := fun r' => r' = _)).1 hread) ?_ ?_
    · rintro _ _ rfl
      exact ⟨rfl, rfl, rfl, rfl, rfl⟩
    · rintro _ _ rfl
      exact .endSync _
  · have hread := after_sync_reparse (r := { r with language := l, parses := 0 }) hs hr
    refine (after_iff (P := Shares _)).2 ?_
    simp only [Call.run, Region.setLanguage, wp_bind, wp_modify, wp_get, wp_ite]
    rw [if_pos hauto]
    refine wp_mono ((after_iff (P := fun r' => r' = _)).1 hread) ?_ ?_
    · rintro _ _ rfl
      exact after_iff.1 (Shares.trans (.endSync _) (.updateToPrinted _))
    · rintro _ _ rfl
      exact .endSync _

theorem Call.passes_reads {S : Supply V} {c : Call V} (hc : c.Within S) (hr : r.restoring = false)
    (h : c.deed r = .reads r₁) : Passes S r r₁ := by
  have hunder : ∀ r : Region V, Passes S r r.underSync := fun r =>
    .of_change (.flag r r.valid true r.restoring _ _) rfl
  obtain ⟨-, ⟨-, start, stop, hle, hin, rfl, -⟩ | ⟨-, -, rfl⟩ | ⟨l, rfl, -, rfl⟩⟩ := reads_cases hr h
  · exact Passes.trans (.of_change (.splice hle hin fun t ht => .inl (hc.tokens t ht)) rfl) (hunder _)
  · exact ((Passes.reprint r).trans (.of_change (.splice (Nat.zero_le _) (Nat.le_refl _) fun t ht =>
      .inr ht) rfl)).trans (hunder _)
  · exact Passes.trans (.of_change (.setLanguage r (hc.language l rfl)) rfl) (hunder _)

theorem printed_reprinted (r : Region V) : r.reprinted.printed = some r.reprinted.tokens := by
  have hprinted : ∃ ps, r.reprint.printed = some ps := by
    cases hv : r.value with
    | none => exact ⟨_, (reprint_none hv).2.1⟩
    | some v => exact ⟨_, (reprint_some hv).2.1⟩
  obtain ⟨ps, hps⟩ := hprinted
  simp [reprinted, spliced, hps]

theorem exact_reprinted (hl : r.language.Linear) : r.reprinted.Exact :=
  exact_reprint hl

theorem Op.shares_reprinted {op : Op V} (hr : r.restoring = false) (h : op.deed r = .prints r₁) :
    r₁.language = r.language ∧ r₁.reprinted.Shares (r.after op.run) := by
  cases op with
  | reprintToTokens =>
    simp only [deed] at h
    split_ifs at h with hc
    cases h
    refine ⟨rfl, (after_iff (P := Shares _)).2 ?_⟩
    cases hs : r.syncing with
    | true => exact (wp_reprintToTokens_guarded (.inl hs)).2 (.refl _)
    | false =>
      have hauto : r.reprint.autoReparse = false := by
        rw [(reread_reprint r).autoReparse]
        simpa [hs] using hc
      simp only [Op.run, Region.reprintToTokens, wp_bind, wp_modify, wp_get, wp_splice]
      rw [if_neg (by simp), if_neg (by simp [hauto])]
      exact .refl _
  | setValue v =>
    simp only [deed] at h
    split_ifs at h with hc
    cases h
    refine ⟨rfl, (after_iff (P := Shares _)).2 ?_⟩
    obtain ⟨hauto, hs⟩ : r.autoReprint = true ∧ r.syncing = false := by simpa using hc
    simp only [Op.run, Region.setValue, wp_bind, wp_modify, wp_get, hauto, if_true, wp_sync, hs,
      Bool.false_eq_true, if_false]
    rw [wp_reprintToTokens_guarded (.inl rfl)]
    exact .endSync _
  | processChanges =>
    simp only [deed] at h
    split_ifs at h with hc
    cases h
    refine ⟨rfl, (after_iff (P := Shares _)).2 ?_⟩
    obtain ⟨⟨hstale, hauto⟩, hs⟩ : (r.stale = true ∧ r.autoReprint = true) ∧ r.syncing = false := by
      simpa using hc
    simp only [Op.run, wp_discard, Region.processChanges, wp_bind, wp_get, wp_set, wp_pure, hstale,
      hauto, if_true, wp_sync, hs, Bool.false_eq_true, if_false]
    rw [wp_reprintToTokens_guarded (.inl rfl)]
    exact .endSync _
  | restore saved =>
    cases saved with
    | some ts =>
      simp only [deed] at h
      split_ifs at h
    | none =>
      simp only [deed] at h
      split_ifs at h with hvalid
      cases h
      refine ⟨rfl, (after_iff (P := Shares _)).2 ?_⟩
      have hinvalid : (r.setRestoring true).valid = false := Bool.eq_false_iff.2 hvalid
      rw [Op.run, wp_restore, if_neg (by simp [hr])]
      simp only [putBack, wp_bind, wp_get, hinvalid, Option.isSome_none, Bool.false_eq_true, if_false]
      rw [wp_reprintToTokens_guarded (.inr rfl)]
      exact ⟨rfl, rfl, rfl, rfl, rfl⟩
  | updateToPrinted => cases h
  | dispose => cases h
  | _ =>
    simp only [deed, edit?, splice?] at h
    split_ifs at h

theorem Call.shares_reprinted {c : Call V} (hr : r.restoring = false)
    (h : c.deed r = .prints r₁) :
    r₁.language = r.language ∧ r₁.reprinted.Shares (r.after c.run) := by
  cases c with
  | op o => exact o.shares_reprinted hr h
  | setLanguage l =>
    simp only [deed] at h
    split_ifs at h
  | _ => cases h

namespace Call

def disposes : Call V → Bool
  | op .dispose => true
  | _ => false

/-- The call sets a value that is not printed. -/
def unprinted (r : Region V) : Call V → Bool
  | op (.setValue _) => r.syncing || !r.autoReprint
  | _ => false

/-- The call edits the row, and the row is not read. -/
def unread (r : Region V) : Call V → Bool
  | op (.restore (some _)) => r.syncing
  | op o =>
    match o.edit? r with
    | some (start, stop, _) =>
      start ≤ stop && stop ≤ r.tokens.length && (r.syncing || !r.autoReparse)
    | none => false
  | _ => false

/-- What is left as it was by a call that neither reads nor prints. -/
structure Leaves (c : Call V) (r r' : Region V) : Prop where
  subscriptions : c.disposes = false → r'.subscriptions = r.subscriptions
  value : c.unprinted r = false → r'.value = r.value
  length : c.unread r = false → r'.tokens.length = r.tokens.length

omit [Payload V] in
theorem Leaves.of_shares {c : Call V} (h : r.Shares r') : c.Leaves r r' :=
  ⟨fun _ => h.subscriptions, fun _ => h.value, fun _ => h.length⟩

theorem leaves_op {o : Op V} (hr : r.restoring = false) (h : o.deed r = .neither) :
    (op o).Leaves r (r.after o.run) := by
  -- an edit of the row
  have edit : ∀ {start stop : Nat} {new : List (Token V)}, o.edit? r = some (start, stop, new) →
      (op o).unread r =
        (start ≤ stop && stop ≤ r.tokens.length && (r.syncing || !r.autoReparse)) →
      (if start ≤ stop && stop ≤ r.tokens.length && r.autoReparse && !r.syncing then
        Deed.reads (r.spliced start stop new).underSync else .neither) = .neither →
      (op o).Leaves r (r.after o.run) := by
    intro start stop new hedit hunread h
    split_ifs at h with hc
    rw [Op.after_edit hedit]
    rcases after_splice_unread hc with hsame | ⟨hskip, hspliced⟩
    · rw [hsame]
      exact .of_shares (.refl r)
    · rw [hspliced]
      refine ⟨fun _ => rfl, fun _ => rfl, fun hread => ?_⟩
      rw [hunread, hskip] at hread
      cases hread
  cases o with
  | setTokens ts => exact edit rfl rfl h
  | insert index t => exact edit rfl rfl h
  | remove index => exact edit rfl rfl h
  | replace index t => exact edit rfl rfl h
  | splice start stop ts => exact edit rfl rfl h
  | clear => exact edit rfl rfl h
  | updateToPrinted => exact .of_shares (.updateToPrinted r)
  | dispose => exact ⟨by rintro ⟨⟩, fun _ => rfl, fun _ => rfl⟩
  | reprintToTokens =>
    simp only [Op.deed] at h
    split_ifs at h
  | restore saved =>
    cases saved with
    | none =>
      simp only [Op.deed] at h
      split_ifs at h with hvalid
      have hvalid : (r.setRestoring true).valid = true := hvalid
      refine .of_shares ((after_iff (P := r.Shares)).2 ?_)
      rw [Op.run, wp_restore, if_neg (by simp [hr])]
      simp only [putBack, wp_bind, wp_get, hvalid, if_true, wp_pure, Option.isSome_none,
        Bool.false_eq_true, if_false]
      exact ⟨rfl, rfl, rfl, rfl, rfl⟩
    | some ts =>
      simp only [Op.deed] at h
      split_ifs at h with hs
      rw [Op.run, after_restore hr, after_sync_of_syncing (r := r.spliced 0 r.tokens.length ts) hs]
      refine ⟨fun _ => rfl, fun _ => rfl, fun hread => ?_⟩
      exact absurd hs (Bool.eq_false_iff.1 hread)
  | processChanges =>
    simp only [Op.deed] at h
    split_ifs at h with hc
    refine .of_shares ((after_iff (P := r.Shares)).2 ?_)
    simp only [Op.run, wp_discard, Region.processChanges, wp_bind, wp_get, wp_ite, wp_set, wp_pure,
      wp_sync]
    split_ifs with hstale hauto hs
    · exact ⟨rfl, rfl, rfl, rfl, rfl⟩
    · exact absurd (by simp [hstale, hauto, hs]) hc
    · exact ⟨rfl, rfl, rfl, rfl, rfl⟩
    · exact .refl r
  | setValue v =>
    simp only [Op.deed] at h
    split_ifs at h with hc
    have hafter : r.after (Region.setValue v) = { r with value := v } := by
      refine (after_iff (P := fun r' => r' = { r with value := v })).2 ?_
      simp only [Region.setValue, wp_bind, wp_modify, wp_get, wp_ite, wp_pure, wp_sync]
      split_ifs with hauto hs
      exact absurd (by simp [hauto, hs]) hc
    rw [Op.run, hafter]
    refine ⟨fun _ => rfl, fun hp => ?_, fun _ => rfl⟩
    refine absurd ?_ hc
    have hp : (r.syncing || !r.autoReprint) = false := hp
    simpa [and_comm] using hp

theorem leaves_after {c : Call V} (hr : r.restoring = false) (h : c.deed r = .neither) :
    c.Leaves r (r.after c.run) := by
  cases c with
  | op o => exact leaves_op hr h
  | setLanguage l =>
    simp only [deed] at h
    split_ifs at h with hc
    have hset : r.Shares { r with language := l, parses := 0 } := ⟨rfl, rfl, rfl, rfl, rfl⟩
    refine .of_shares ((after_iff (P := r.Shares)).2 ?_)
    simp only [Call.run, Region.setLanguage, wp_bind, wp_modify, wp_get, wp_ite, wp_pure, wp_sync]
    split_ifs with hauto hs
    · exact after_iff.1 (hset.trans (.updateToPrinted _))
    · exact absurd (by simp [hauto, hs]) hc
    · exact hset
  | beginSync =>
    show Leaves _ r (r.beginSync?.getD r)
    unfold beginSync?
    split_ifs <;> exact .of_shares ⟨rfl, rfl, rfl, rfl, rfl⟩
  | _ => exact ⟨fun _ => rfl, fun _ => rfl, fun _ => rfl⟩

end Call

/-! ### Runs -/

namespace Call

def reprints : Call V → Bool
  | op .reprintToTokens => true
  | _ => false

theorem subscriptions_of_disposes {c : Call V} (h : c.disposes = true) (r : Region V) :
    (r.after c.run).subscriptions = [] :=
  match c, h with
  | op .dispose, _ => rfl

/-- Only the call that prints first has another value or other subscriptions when it reads. -/
theorem same_of_reads {c : Call V} (hr : r.restoring = false) (h : c.deed r = .reads r₁)
    (hc : c.reprints = false) : r₁.value = r.value ∧ r₁.subscriptions = r.subscriptions := by
  obtain ⟨-, ⟨-, start, stop, -, -, rfl, -⟩ | ⟨rfl, -, -⟩ | ⟨l, -, -, rfl⟩⟩ := reads_cases hr h
  · exact ⟨rfl, rfl⟩
  · cases hc
  · exact ⟨rfl, rfl⟩

theorem exact_of_reads {c : Call V} (hr : r.restoring = false) (hl : r.language.Linear)
    (h : c.deed r = .reads r₁) (hc : c.reprints = true) : r₁.Exact := by
  obtain ⟨-, ⟨hne, -⟩ | ⟨-, -, rfl⟩ | ⟨l, rfl, -, -⟩⟩ := reads_cases hr h
  · match c, hc with
    | op .reprintToTokens, _ => exact absurd rfl hne
  · exact exact_reprint hl
  · cases hc

theorem length_cells_of_reads {c : Call V} (hr : r.restoring = false) (h : c.deed r = .reads r₁) :
    r₁.cells.entries.length = r.cells.entries.length := by
  obtain ⟨-, ⟨-, start, stop, -, -, rfl, -⟩ | ⟨-, -, rfl⟩ | ⟨l, -, -, rfl⟩⟩ := reads_cases hr h
  · rfl
  · exact length_cells_reprint r
  · rfl

end Call

/-- A region with what has happened since it last printed: the subscriptions were given up, or a
value was set and not printed. And whether its row has been edited since it was last read or
printed. -/
structure Ledger (V : Type) where
  region : Region V
  disposed : Bool := false
  unprinted : Bool := false
  unread : Bool := false

namespace Ledger
variable {h : Ledger V} {c : Call V} {base : Cells}

def call (h : Ledger V) (c : Call V) : Ledger V :=
  let r := h.region.after c.run
  match c.deed h.region with
  | .reads r₁ =>
    -- a row without a value is not printed
    if r₁.readable || c.reprints then ⟨r, false, false, false⟩
    else ⟨r, h.disposed, h.unprinted, false⟩
  | .prints _ => ⟨r, false, false, false⟩
  | .neither =>
    ⟨r, h.disposed || c.disposes, h.unprinted || c.unprinted h.region,
      h.unread || c.unread h.region⟩

theorem region_call (h : Ledger V) (c : Call V) : (h.call c).region = h.region.after c.run := by
  unfold call
  split
  · split_ifs <;> rfl
  · rfl
  · rfl

/-- The ledgers of the runs of a new region, each call of which brings in linear languages and cells
of the store only. -/
inductive Reached (l : Language V) (cells : Cells) (settings : Settings) : Ledger V → Prop
  | new : Reached l cells settings ⟨Region.new l cells settings, false, false, false⟩
  | call {h : Ledger V} {c : Call V} : Reached l cells settings h →
      c.Within (stock h.region.cells) → Reached l cells settings (h.call c)

/-- What the ledger says of the subscriptions is so. -/
structure Sound (h : Ledger V) : Prop where
  exact : h.disposed = false → h.unprinted = false → h.region.Exact
  released : h.disposed = true → h.region.subscriptions = []
  bare : h.unread = false → h.region.tokens = [] → h.region.subscriptions = []

theorem Sound.neither (hs : h.Sound) (hr : h.region.restoring = false)
    (hd : c.deed h.region = .neither) : (h.call c).Sound := by
  have hl := Call.leaves_after hr hd
  unfold call
  rw [hd]
  constructor <;> dsimp only
  · intro hdisposed hunprinted
    obtain ⟨hdisposed, hkept⟩ := Bool.or_eq_false_iff.1 hdisposed
    obtain ⟨hunprinted, hset⟩ := Bool.or_eq_false_iff.1 hunprinted
    have hexact := hs.exact hdisposed hunprinted
    unfold Exact valueCells at hexact ⊢
    rwa [hl.subscriptions hkept, hl.value hset]
  · intro hdisposed
    cases hc : c.disposes with
    | true => exact Call.subscriptions_of_disposes hc h.region
    | false =>
      rw [hc, Bool.or_false] at hdisposed
      exact (hl.subscriptions hc).trans (hs.released hdisposed)
  · intro hunread hempty
    obtain ⟨hunread, hedit⟩ := Bool.or_eq_false_iff.1 hunread
    have hlen := hl.length hedit
    rw [hempty] at hlen
    have hnone := hs.bare hunread (List.length_eq_zero_iff.1 hlen.symm)
    cases hc : c.disposes with
    | true => exact Call.subscriptions_of_disposes hc h.region
    | false => exact (hl.subscriptions hc).trans hnone

theorem Sound.prints (hr : h.region.restoring = false) (hlang : h.region.language.Linear)
    (ha : (h.region.after c.run).Accounted base) (hd : c.deed h.region = .prints r₁) :
    (h.call c).Sound := by
  obtain ⟨hl, hshares⟩ := Call.shares_reprinted hr hd
  unfold call
  rw [hd]
  refine ⟨fun _ _ => hshares.exact_iff.2 (exact_reprinted (hl ▸ hlang)), (by rintro ⟨⟩),
    fun _ hempty => ?_⟩
  have hlen := hshares.length
  have hempty : (h.region.after c.run).tokens = [] := hempty
  rw [hempty] at hlen
  refine ha.bare ?_
  rw [hshares.printed, printed_reprinted, List.length_eq_zero_iff.1 hlen.symm]

theorem Sound.reads (hs : h.Sound) (hr : h.region.restoring = false)
    (hlang : h.region.language.Linear) (hlang₁ : r₁.language.Linear)
    (hd : c.deed h.region = .reads r₁) : (h.call c).Sound := by
  have hshares := Call.shares_read hr hd
  have hbare : (h.region.after c.run).tokens = [] → (h.region.after c.run).subscriptions = [] := by
    intro hempty
    have hlen := hshares.length
    rw [hempty, tokens_read] at hlen
    rw [hshares.subscriptions, subscriptions_read (List.length_eq_zero_iff.1 hlen.symm)]
  -- a row without a value leaves value and subscriptions as they were
  have hkept : r₁.readable = false →
      (h.region.after c.run).value = r₁.value ∧
        (h.region.after c.run).subscriptions = r₁.subscriptions := by
    intro hread
    rw [hshares.value, hshares.subscriptions, (read_of_not_readable hread).2]
    exact ⟨rfl, rfl⟩
  unfold call
  rw [hd]
  dsimp only
  cases hread : r₁.readable with
  | true => exact ⟨fun _ _ => hshares.exact_iff.2 (exact_read hlang₁ hread), by rintro ⟨⟩, fun _ => hbare⟩
  | false =>
    obtain ⟨hvalue, hsubs⟩ := hkept hread
    have hsame : (h.region.after c.run).Exact ↔ r₁.Exact := by
      unfold Exact valueCells
      rw [hvalue, hsubs]
    cases hc : c.reprints with
    | true =>
      exact ⟨fun _ _ => hsame.2 (Call.exact_of_reads hr hlang hd hc), by rintro ⟨⟩, fun _ => hbare⟩
    | false =>
      obtain ⟨hvalue₁, hsubs₁⟩ := Call.same_of_reads hr hd hc
      refine ⟨fun hdisposed hunprinted => hsame.2 ?_, fun hdisposed => ?_, fun _ => hbare⟩
      · have hexact := hs.exact hdisposed hunprinted
        unfold Exact valueCells at hexact ⊢
        rwa [hvalue₁, hsubs₁]
      · exact (hsubs.trans hsubs₁).trans (hs.released hdisposed)

theorem audited_reads [LawfulPayload V] [QuietPayload V] (hc : c.Within (stock r.cells))
    (hr : r.restoring = false) (h : r.Audited base r.cells) (hd : c.deed r = .reads r₁) :
    r₁.Audited base r.cells :=
  (Call.passes_reads hc hr hd).invariant (fun hchange h => h.change hchange) h

theorem Sound.call [LawfulPayload V] [QuietPayload V] (hc : c.Within (stock h.region.cells))
    (hr : h.region.restoring = false) (ha : h.region.Audited base h.region.cells) (hs : h.Sound) :
    (h.call c).Sound := by
  cases hd : c.deed h.region with
  | reads r₁ => exact hs.reads hr ha.stocked.language (audited_reads hc hr ha hd).stocked.language hd
  | prints r₁ => exact .prints hr ha.stocked.language (ha.call hc).accounted hd
  | neither => exact hs.neither hr hd

theorem Reached.sound [LawfulPayload V] [QuietPayload V] {l : Language V} (hl : l.Linear)
    (hcells : base.Numbered) {settings : Settings} (h₀ : Reached l base settings h) :
    h.region.restoring = false ∧ h.region.Audited base h.region.cells ∧ h.Sound := by
  induction h₀ with
  | new =>
    have hstocked : (Region.new l base settings).Stocked :=
      ⟨hl, Cells.has_nil, by rintro v ⟨⟩, Cells.has_nil⟩
    exact ⟨rfl, ⟨Nat.le_refl _, hstocked, .nil hcells, fun _ => rfl⟩,
      fun _ _ => rfl, fun _ => rfl, fun _ _ => rfl⟩
  | call _ hc ih =>
    obtain ⟨hr, ha, hs⟩ := ih
    have hafter := ha.call hc
    refine ⟨?_, ?_, hs.call hc hr ha⟩
    · rw [region_call]
      exact (Call.restoring_after hc _).trans hr
    · rw [region_call]
      exact ⟨Nat.le_refl _, hafter.stocked, hafter.accounted⟩

end Ledger

theorem Exact.listenerCount {base : Cells} (h : r.Exact) (ha : r.Accounted base) (x : CellId) :
    r.cells.listenerCount x = base.listenerCount x + r.valueCells.count x := by
  rw [ha.tally.count, h]

omit [Payload V] in
theorem Accounted.listenerCount_of_nil {base : Cells} (ha : r.Accounted base)
    (h : r.subscriptions = []) (x : CellId) : r.cells.listenerCount x = base.listenerCount x := by
  rw [ha.tally.count, h]
  rfl

/-- Reading makes new cells for the value, and nothing listens to the old ones any more. -/
theorem listenerCount_read [LawfulPayload V] {base : Cells} (hs : r.Stocked)
    (ha : r.read.Accounted base) (h : r.readable = true) {x : CellId} (hx : r.cells.Has [x]) :
    r.read.cells.listenerCount x = base.listenerCount x := by
  rw [(exact_read hs.language h).listenerCount ha, List.count_eq_zero_of_not_mem (fresh_read hs h hx),
    Nat.add_zero]

theorem listenerCount_copies [QuietPayload V] (h : r.readable = false) {x : CellId}
    (hx : ¬ r.cells.Has [x]) : r.read.cells.listenerCount x = 0 := by
  rw [(read_of_not_readable h).2]
  exact (Cells.listenerCount_adds (Token.detachAll_adds r.tokens r.cells) x).trans
    (Cells.listenerCount_of_not_has hx)

end Region

/-- A cell has one listener of the region for each of its occurrences in the value, unless the
subscriptions were given up or a value was set and not printed since the last print. It has none
when they were given up, or when the row is empty and not so by an edit that was not read. After a
reading that gives a value the cells there were have none, and after one that gives no value the
copies have none. -/
theorem listeners_match_value :
    (∀ {V : Type} [Payload V] [LawfulPayload V] [QuietPayload V] {l : Language V}, l.Linear →
      ∀ {cells : Cells}, cells.Numbered → ∀ {settings : Settings} {h : Region.Ledger V},
        Region.Ledger.Reached l cells settings h → ∀ x,
          (h.disposed = false → h.unprinted = false → h.region.cells.listenerCount x =
            cells.listenerCount x + h.region.valueCells.count x) ∧
          (h.disposed = true ∨ h.unread = false ∧ h.region.tokens = [] →
            h.region.cells.listenerCount x = cells.listenerCount x) ∧
          ∀ {c : Region.Call V} {r₁ : Region V}, c.Within (Region.stock h.region.cells) →
            c.deed h.region = .reads r₁ →
              (r₁.readable = true → h.region.cells.Has [x] →
                (h.call c).region.cells.listenerCount x = cells.listenerCount x) ∧
              (r₁.readable = false → ¬ h.region.cells.Has [x] →
                (h.call c).region.cells.listenerCount x = 0)) ∧
    (∀ p, (Expr.language p).Linear) ∧
    ∀ style : Sum.Style, style.dropLast = false → (Sum.language style).Linear := by
  refine ⟨fun {V} _ _ _ {l} hl {cells} hcells {settings h} hreached x => ?_,
    Expr.language_linear, fun style hstyle => Sum.language_linear hstyle⟩
  obtain ⟨hr, ha, hs⟩ := hreached.sound hl hcells
  refine ⟨fun hkept hprinted => (hs.exact hkept hprinted).listenerCount ha.accounted x, ?_, ?_⟩
  · rintro (hdisposed | ⟨hread, hempty⟩)
    · exact ha.accounted.listenerCount_of_nil (hs.released hdisposed) x
    · exact ha.accounted.listenerCount_of_nil (hs.bare hread hempty) x
  · intro c r₁ hc hd
    have hshares := Region.Call.shares_read hr hd
    have hlen := Region.Call.length_cells_of_reads hr hd
    have hhas : r₁.cells.Has [x] ↔ h.region.cells.Has [x] := by
      unfold Cells.Has
      rw [hlen]
    rw [Region.Ledger.region_call, hshares.cells]
    refine ⟨fun hread hx => ?_, fun hread hx => ?_⟩
    · have hafter : r₁.read.Accounted cells := by
        have := (ha.call hc).accounted
        exact ⟨hshares.cells ▸ hshares.subscriptions ▸ this.tally,
          hshares.printed ▸ hshares.subscriptions ▸ this.bare⟩
      exact Region.listenerCount_read (Region.Ledger.audited_reads hc hr ha hd).stocked hafter hread
        (hhas.2 hx)
    · exact Region.listenerCount_copies hread (mt hhas.1 hx)

namespace Expr

/-- A new region, and one text outside of it. -/
def besideText : Region.Ledger Expr :=
  ⟨Region.new (language {}) ⟨[{ text := ['x'] }]⟩ {}, false, false, false⟩

/-- The value uses one text twice, until a factorial sign has the row read. -/
theorem listeners_match_value_shared : ∃ h h' : Region.Ledger Expr,
    h = besideText.call (.op (.setValue (some (plus (text 0) (text 0))))) ∧
    h' = h.call (.op (.insert 3 factorialToken)) ∧
    h.region.cells.listenerCount 0 = 2 ∧
    h'.region.value = some (plus (text 1) (factorial (text 2))) ∧
    h'.region.cells.listenerCount 0 = 0 ∧ h'.region.cells.listenerCount 2 = 1 := by
  obtain ⟨hgeneral, hexpr, -⟩ := listeners_match_value
  have hnumbered : Cells.Numbered ⟨[{ text := ['x'] }]⟩ := by
    intro cell hcell
    rw [List.mem_singleton.1 hcell]
    exact ⟨.nil, by simp⟩
  have hnew : Region.Ledger.Reached (language {}) ⟨[{ text := ['x'] }]⟩ {} besideText := .new
  have hset := hnew.call (c := .op (.setValue (some (plus (text 0) (text 0)))))
    ⟨by rintro t ⟨⟩, by rintro v ⟨⟩ x hx; revert x; decide, by rintro l ⟨⟩⟩
  have hplain : ∀ t ∈ [factorialToken], (Region.stock (V := Expr) (besideText.call
      (.op (.setValue (some (plus (text 0) (text 0)))))).region.cells).token t := by
    intro t ht
    rw [List.mem_singleton.1 ht]
    exact Cells.has_nil
  have hinsert := hset.call (c := .op (.insert 3 factorialToken))
    ⟨hplain, by rintro v ⟨⟩, by rintro l ⟨⟩⟩
  have hcount := fun x => (hgeneral (hexpr {}) hnumbered hinsert x).1
    (by decide +kernel) (by decide +kernel)
  refine ⟨_, _, rfl, rfl, ?_, by decide +kernel, ?_, ?_⟩
  · rw [(hgeneral (hexpr {}) hnumbered hset 0).1 (by decide +kernel) (by decide +kernel)]
    decide +kernel
  · rw [hcount]
    decide +kernel
  · rw [hcount]
    decide +kernel

/-- A value that is set inside a sync stands without a listener when the sync is over, and a row
that is cleared inside one leaves the listeners of its value. -/
theorem sync_parts_listeners : ∃ h h' : Region.Ledger Expr,
    h = (((besideText.call (.op (.setValue (some (var ['a']))))).call .beginSync).call
      (.op (.setValue (some (text 0))))).call .endSync ∧
    h' = (((besideText.call (.op (.setValue (some (text 0))))).call .beginSync).call
      (.op .clear)).call .endSync ∧
    (h.region.valid = true ∧ h.region.syncing = false ∧ h.region.tokens ≠ [] ∧
      h.region.value = some (text 0) ∧ h.region.cells.listenerCount 0 = 0) ∧
    h'.region.valid = true ∧ h'.region.syncing = false ∧ h'.region.tokens = [] ∧
      h'.region.cells.listenerCount 0 = 1 :=
  ⟨_, _, rfl, rfl, by decide⟩

end Expr

end TokenEditor
