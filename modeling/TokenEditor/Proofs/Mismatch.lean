import TokenEditor.Proofs.Supplies

/-! # When a print does not match

A language counts right if every value that it reads from a row prints as as many tokens. In an
editor that reads by itself no operation then fails with a mismatch, whatever was called before and
whether it went well (`mismatch_only_unread`). Items may call on the editor as they like, and may pass
over what fails; only they may not make up a mismatch themselves.

An editor that does not read by itself never prints either: its print is that of the empty row. So
every completion, paste and split that leaves a row which is not empty fails with a mismatch of zero
printed tokens, after the row has been changed, and that is the only mismatch there is. No
disagreement between reading and printing is needed for it. -/

namespace TokenEditor
variable {V : Type}

namespace Region
variable {r : Region V}

/-- The region does not read by itself, and has no print but the one it started with. -/
structure Unread (r : Region V) : Prop where
  autoReparse : r.autoReparse = false
  syncing : r.syncing = false
  printed : r.printed = some []

namespace Unread

theorem congr {r' : Region V} (h : r.Unread) (hauto : r'.autoReparse = r.autoReparse)
    (hsyncing : r'.syncing = r.syncing) (hprinted : r'.printed = r.printed) : r'.Unread :=
  ⟨hauto.trans h.autoReparse, hsyncing.trans h.syncing, hprinted.trans h.printed⟩

variable [Payload V]

/-- Bringing the row of such a region in line with its print goes well for the empty row only. -/
theorem wp_updateToPrinted (h : r.Unread) {post : Unit → Region V → Prop}
    {fail : EditError → Region V → Prop} : wp updateToPrinted post fail r ↔
      if r.tokens = [] then post () r else fail (.mismatch 0 r.tokens.length) r := by
  rw [wp_updateToPrinted_some h.syncing h.printed, alignedFrom, endSync_underSync h.syncing,
    List.length_nil]
  by_cases hempty : r.tokens = []
  · rw [if_pos (by simp [hempty]), if_pos hempty]
  · have hlen : ¬ 0 = r.tokens.length := by
      intro hlen
      exact hempty (List.eq_nil_of_length_eq_zero hlen.symm)
    rw [if_neg hlen, if_neg hempty]

/-- An edit leaves such a region unread, however it ends. -/
theorem act (h : r.Unread) {act : Act V} (hact : act.IsEdit) :
    wp act.run (fun _ r' => r'.Unread) (fun err r' => r'.Unread ∧
      ∀ printed tokens, err = .mismatch printed tokens →
        printed = 0 ∧ tokens = r'.tokens.length ∧ 0 < tokens) r := by
  cases act with
  | splice start stop new =>
    simp only [Act.run, wp_splice, h.autoReparse, Bool.false_eq_true, if_false]
    split_ifs
    · exact ⟨h, by rintro printed tokens ⟨⟩⟩
    · exact h.congr rfl rfl rfl
  | align =>
    rw [Act.run, h.wp_updateToPrinted]
    split_ifs with hempty
    · exact h
    · refine ⟨h, ?_⟩
      rintro printed tokens ⟨⟩
      exact ⟨rfl, rfl, List.length_pos_iff.2 hempty⟩
  | setValue v => exact hact.elim
  | restore saved => exact hact.elim
  | processChanges => exact hact.elim
  | setLanguage l => exact hact.elim

end Unread

end Region

/-- The language counts right, and its items make up no mismatch. -/
structure Language.CountsRight [Payload V] (l : Language V) : Prop where
  counts : l.Counts fun _ => True
  offers : l.Offers Item.Sincere

namespace Editor
variable [Payload V] {e : Editor V} {op : Op V}

/-- The operation changes the language, if at all, to one that counts right, and brings in no items
that make up a mismatch. -/
abbrev Op.CountsRight (op : Op V) : Prop :=
  op.Speaks Language.CountsRight Item.Sincere

/-- The operation only edits the row, and brings in no items that make up a mismatch. -/
structure Op.OnlyEdits (op : Op V) : Prop where
  acts : ∀ act, ¬ op.Uses act
  items : op.Speaks (fun _ => True) Item.Sincere

/-- A region in step, with a language that counts right. -/
structure Counting (e : Editor V) : Prop where
  region : e.region.InStep Language.CountsRight fun _ => True
  supplied : e.Supplied Language.CountsRight Item.Sincere

theorem Counting.after (h : Counting e) (hop : op.CountsRight) : Counting (e.after op.run) ∧
    ∀ printed tokens e', op.run e ≠ .error (.mismatch printed tokens) e' := by
  let T : Terms V := ⟨op.Uses, Item.Sincere, False⟩
  have hoffers : ∀ l : Language V, l.CountsRight → l.Offers Item.Sincere := fun _ hl => hl.offers
  have hact : ∀ {act : Region.Act V} {r : Region V}, act.IsEdit ∨ T.acts act →
      r.InStep Language.CountsRight (fun _ => True) →
      wp act.run (fun _ r' => r'.InStep Language.CountsRight fun _ => True)
        (fun err r' => r'.InStep Language.CountsRight (fun _ => True) ∧ ¬ err.IsMismatch) r := by
    intro act r hact hr
    refine wp_mono (Region.Act.inStep (Language.prints_any _) (hop.within hact) hr) (fun _ _ h => h) ?_
    rintro err r' (⟨-, l, hl, hmis⟩ | ⟨hr', index, length, rfl⟩)
    · exact (hmis hl.counts).elim
    · exact ⟨hr', by simp⟩
  obtain ⟨hafter, hfail⟩ := region_after (T := T) (fun _ hr => hr.modifyView _ _)
    (fun hr => hr.setCells _ _ _) ⟨fun _ h => h, hop.items⟩
    (h.supplied.supplies hoffers fun l => hop.language) hact h.region
  refine ⟨⟨hafter, h.supplied.after hoffers hop⟩, fun printed tokens e' hrun => ?_⟩
  rcases hfail _ _ hrun with hne | hne
  · exact hne trivial
  · exact hne (fun _ hi => hi) trivial

/-- An editor that does not read, whose items make up no mismatch. -/
structure Unread (e : Editor V) : Prop where
  region : e.region.Unread
  supplied : e.Supplied (Language.Offers Item.Sincere) Item.Sincere

theorem Unread.after (h : e.Unread) (hop : op.OnlyEdits) :
    (e.after op.run).Unread ∧ ∀ printed tokens e',
      op.run e = .error (.mismatch printed tokens) e' →
        printed = 0 ∧ tokens = e'.tokens.length ∧ 0 < tokens := by
  have hspeaks : op.Speaks (Language.Offers Item.Sincere) Item.Sincere := by
    cases op with
    | setLanguage l => exact (hop.acts _ rfl).elim
    | _ => exact hop.items
  obtain ⟨hafter, hfail⟩ := region_after (T := ⟨fun _ => False, Item.Sincere, False⟩)
    (fun _ hr => hr.congr rfl rfl rfl) (fun hr => hr.congr rfl rfl rfl)
    ⟨fun act hact => hop.acts act hact, hop.items⟩
    (h.supplied.supplies (fun _ hl => hl) fun _ => False.elim)
    (fun hact hr => hr.act (hact.resolve_right id)) h.region
  refine ⟨⟨hafter, h.supplied.after (fun _ hl => hl) hspeaks⟩, fun printed tokens e' hrun => ?_⟩
  rcases hfail _ _ hrun with hmis | hne
  · exact hmis printed tokens rfl
  · exact (hne (fun _ hi => hi) trivial).elim

theorem Counting.afterAll {ops : List (Op V)} (h : Counting e) (hops : ∀ op ∈ ops, op.CountsRight) :
    Counting (afterAll ops e) := by
  induction ops generalizing e with
  | nil => exact h
  | cons op ops ih => exact ih (h.after (hops op (by simp))).1 fun op hop => hops op (by simp [hop])

theorem Unread.afterAll {ops : List (Op V)} (h : e.Unread) (hops : ∀ op ∈ ops, op.OnlyEdits) :
    (afterAll ops e).Unread := by
  induction ops generalizing e with
  | nil => exact h
  | cons op ops ih => exact ih (h.after (hops op (by simp))).1 fun op hop => hops op (by simp [hop])

theorem spliceUpdated_of_unread (h : e.region.Unread) {start stop : Nat} (new : List (Token V))
    (hle : start ≤ stop) (hin : stop ≤ e.tokens.length) :
    ∃ e', e'.tokens = e.tokens.take start ++ new ++ e.tokens.drop stop ∧
      spliceUpdated start stop new e =
        if e'.tokens.isEmpty then .ok () e' else .error (.mismatch 0 e'.tokens.length) e' := by
  have hspliced : (e.region.spliced start stop new).Unread := h.congr rfl rfl rfl
  have hout : ¬ (stop < start ∨ e.region.tokens.length < stop) := by
    unfold tokens at hin
    omega
  have hwp : wp (spliceUpdated start stop new)
      (fun _ e' => e'.tokens = e.tokens.take start ++ new ++ e.tokens.drop stop ∧ e'.tokens = [])
      (fun err e' => e'.tokens = e.tokens.take start ++ new ++ e.tokens.drop stop ∧
        e'.tokens ≠ [] ∧ err = .mismatch 0 e'.tokens.length) e := by
    simp only [spliceUpdated, wp_bind, wp_onRegion, Region.wp_splice, if_neg hout, h.autoReparse,
      Bool.false_eq_true, if_false]
    rw [hspliced.wp_updateToPrinted]
    split_ifs with hempty
    · exact ⟨rfl, hempty⟩
    · exact ⟨rfl, hempty, rfl⟩
  unfold wp at hwp
  cases hres : spliceUpdated start stop new e with
  | ok _ e' =>
    rw [hres] at hwp
    exact ⟨e', hwp.1, by rw [if_pos (by simp [hwp.2])]⟩
  | error err e' =>
    rw [hres] at hwp
    exact ⟨e', hwp.1, by rw [if_neg (by simpa using hwp.2.1), hwp.2.2]⟩

/-- With reading on, and languages that count right, no operation fails with a mismatch. With reading
off the only mismatch is that of a row which is not empty with no printed tokens, and everything that
brings the row in line with its print runs into it. -/
theorem mismatch_only_unread (l : Language V) (cells : Cells) (settings : Settings)
    (hl : l.Offers Item.Sincere) :
    (settings.autoReparse = true → (l.Counts fun _ => True) → ∀ ops : List (Op V),
      (∀ op ∈ ops, op.CountsRight) → ∀ op : Op V, op.CountsRight → ∀ printed tokens e',
        op.run (afterAll ops (Editor.new l cells settings)) ≠ .error (.mismatch printed tokens) e') ∧
    (settings.autoReparse = false → ∀ ops : List (Op V), (∀ op ∈ ops, op.OnlyEdits) →
      ∀ e, e = afterAll ops (Editor.new l cells settings) →
        (∀ op : Op V, op.OnlyEdits → ∀ printed tokens e',
          op.run e = .error (.mismatch printed tokens) e' →
            printed = 0 ∧ tokens = e'.tokens.length ∧ 0 < tokens) ∧
        ∀ start stop new, start ≤ stop → stop ≤ e.tokens.length →
          ∃ e', e'.tokens = e.tokens.take start ++ new ++ e.tokens.drop stop ∧
            spliceUpdated start stop new e = if e'.tokens.isEmpty then .ok () e'
              else .error (.mismatch 0 e'.tokens.length) e') := by
  constructor
  · intro hauto hcounts ops hops op hop
    have hnew : Counting (Editor.new l cells settings) :=
      ⟨.new ⟨hcounts, hl⟩ cells hauto, .new ⟨hcounts, hl⟩ cells settings⟩
    exact ((hnew.afterAll hops).after hop).2
  · rintro hauto ops hops e rfl
    have hnew : (Editor.new l cells settings).Unread := ⟨⟨hauto, rfl, rfl⟩, .new hl cells settings⟩
    have hunread := hnew.afterAll hops
    exact ⟨fun op hop => (hunread.after hop).2, fun start stop new =>
      spliceUpdated_of_unread hunread.region new⟩

/-- Of the sums only single names read. -/
def namesOnly : Language Sum :=
  { Sum.language {} with
    parse := fun _ ts => match ts with
      | [.identifier name] => some (.var name)
      | _ => none }

def isMismatch : EStateM.Result EditError (Editor V) Unit → Bool
  | .error (.mismatch _ _) _ => true
  | _ => false

omit [Payload V] in
theorem exists_of_isMismatch {result : EStateM.Result EditError (Editor V) Unit}
    (h : isMismatch result) : ∃ printed tokens e', result = .error (.mismatch printed tokens) e' := by
  unfold isMismatch at h
  split at h
  · exact ⟨_, _, _, rfl⟩
  · cases h

/-- Names print as one token each, and still typing one fails if reading is off. -/
theorem mismatch_only_unread_name : (namesOnly.Counts fun _ => True) ∧
    (∀ printed tokens e',
      typeChar 'a' (Editor.new namesOnly {} {}) ≠ .error (.mismatch printed tokens) e') ∧
    ∃ printed tokens e', typeChar 'a' (Editor.new namesOnly {} { autoReparse := false }) =
      .error (.mismatch printed tokens) e' ∧ printed = 0 ∧ tokens = e'.tokens.length ∧
        0 < tokens := by
  have hcounts : namesOnly.Counts fun _ => True := by
    intro cells ts v _ hparse
    simp only [namesOnly] at hparse
    split at hparse
    · cases hparse
      rfl
    · cases hparse
  have hends : isMismatch (typeChar 'a' (Editor.new namesOnly {} { autoReparse := false })) := by
    decide +kernel
  obtain ⟨printed, tokens, e', hrun⟩ := exists_of_isMismatch hends
  have hplain := Sum.offers_isPlain {}
  have hoffers : namesOnly.Offers Item.Sincere :=
    (⟨hplain.tokenItems, hplain.extraItems, hplain.laterItems⟩ : namesOnly.Offers Item.IsPlain).mono
      fun _ hi => hi.sincere
  obtain ⟨hon, -⟩ := mismatch_only_unread namesOnly {} {} hoffers
  obtain ⟨-, hoff⟩ := mismatch_only_unread namesOnly {} { autoReparse := false } hoffers
  exact ⟨hcounts, hon rfl hcounts [] (by simp) (.typeChar 'a') trivial, printed, tokens, e', hrun,
    (hoff rfl [] (by simp) _ rfl).1 (.typeChar 'a') ⟨fun _ h => h, trivial⟩ printed tokens e' hrun⟩

end Editor

end TokenEditor
