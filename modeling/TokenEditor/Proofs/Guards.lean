import TokenEditor.Proofs.Calls

/-! # Guards of the reading

Two marks keep a region from reading its row: one stands while a synchronisation runs, the other
during a restore. Every operation leaves both as it found them, however it ends, and asks the
language at most once; where a mark stands it does not ask at all. What a host does within a
synchronisation therefore never reads the row, whatever it calls there and however it goes on from
what it got. -/

namespace TokenEditor.Region
variable {V : Type} {r r' r'' : Region V} {m n : Nat}

/-- Both marks are as before, and the language has been asked at most `n` more times. -/
structure Spends (n : Nat) (before after : Region V) : Prop where
  syncing : after.syncing = before.syncing
  restoring : after.restoring = before.restoring
  least : before.parses ≤ after.parses
  most : after.parses ≤ before.parses + n

namespace Spends

theorem of_eq (hs : r'.syncing = r.syncing) (hr : r'.restoring = r.restoring)
    (hp : r'.parses = r.parses) : Spends n r r' :=
  ⟨hs, hr, by omega, by omega⟩

theorem refl (r : Region V) : Spends n r r :=
  .of_eq rfl rfl rfl

theorem trans (h : Spends m r r') (h' : Spends n r' r'') : Spends (m + n) r r'' :=
  ⟨h'.syncing.trans h.syncing, h'.restoring.trans h.restoring, h.least.trans h'.least, by
    have := h.most
    have := h'.most
    omega⟩

theorem mono (h : Spends m r r') (hmn : m ≤ n) : Spends n r r' :=
  ⟨h.syncing, h.restoring, h.least, h.most.trans (by omega)⟩

end Spends

@[simp] theorem parses_reprint (r : Region V) : r.reprint.parses = r.parses := by
  unfold reprint
  split <;> rfl

theorem spends_reprint (r : Region V) : Spends 0 r r.reprint :=
  .of_eq (reread_reprint r).syncing (reread_reprint r).restoring (parses_reprint r)

/-- How often the language may be asked: not while a mark stands. -/
def quota (r : Region V) : Nat :=
  if r.syncing || r.restoring then 0 else 1

theorem quota_le_one (r : Region V) : r.quota ≤ 1 := by
  unfold quota
  split <;> omega

theorem quota_of_syncing (h : r.syncing = true) : r.quota = 0 := by
  simp [quota, h]

theorem quota_of_restoring (h : r.restoring = true) : r.quota = 0 := by
  simp [quota, h]

theorem Spends.quota (h : Spends n r r') : r'.quota = r.quota := by
  unfold Region.quota
  rw [h.syncing, h.restoring]

/-- However `f` ends, it has asked the language at most `n` times. -/
def Costs {α : Type} (n : Nat) (f : RegionM V α) (r : Region V) : Prop :=
  wp f (fun _ => Spends n r) (fun _ => Spends n r) r

namespace Costs
variable {α β : Type} {f : RegionM V α} {g : α → RegionM V β}

theorem pure (a : α) : Costs n (pure a : RegionM V α) r := .refl r

theorem throw (e : EditError) : Costs n (throw e : RegionM V α) r := .refl r

theorem mono (h : Costs m f r) (hmn : m ≤ n) : Costs n f r :=
  wp_mono h (fun _ _ h => h.mono hmn) (fun _ _ h => h.mono hmn)

theorem bind (hf : Costs m f r) (hg : ∀ a r', Spends m r r' → Costs n (g a) r') :
    Costs (m + n) (f >>= g) r :=
  (wp_bind f g).2 (wp_mono hf
    (fun a r' h => wp_mono (hg a r' h) (fun _ _ h' => h.trans h') (fun _ _ h' => h.trans h'))
    (fun _ _ h => h.mono (by omega)))

theorem bind_left (hf : Costs 0 f r) (hg : ∀ a r', Spends 0 r r' → Costs n (g a) r') :
    Costs n (f >>= g) r :=
  (hf.bind hg).mono (by omega)

theorem bind_right (hf : Costs n f r) (hg : ∀ a r', Costs 0 (g a) r') : Costs n (f >>= g) r :=
  hf.bind fun a r' _ => hg a r'

theorem discard (hf : Costs n f r) : Costs n (discard f) r :=
  (wp_discard f).2 hf

theorem get_bind {g : Region V → RegionM V β} (hg : Costs n (g r) r) : Costs n (get >>= g) r :=
  hg

theorem set (h : Spends n r r') : Costs n (set r' : RegionM V PUnit) r :=
  h

theorem modify {f : Region V → Region V} (h : Spends n r (f r)) :
    Costs n (modify f : RegionM V PUnit) r :=
  h

end Costs

section
variable {f : RegionM V Unit}

theorem syncing_after_sync (f : RegionM V Unit) (r : Region V) :
    (r.after (sync f)).syncing = r.syncing := by
  refine after_iff (P := fun r' => r'.syncing = r.syncing).2 ?_
  rw [wp_sync]
  split_ifs with hs
  · rfl
  · have hdown : ∀ r' : Region V, r'.endSync.syncing = r.syncing := fun _ =>
      (Bool.not_eq_true _ ▸ hs).symm
    unfold wp
    cases f r.underSync <;> exact hdown _

theorem costs_sync (hf : Costs n f r.underSync) : Costs n (sync f) r := by
  unfold Costs
  rw [wp_sync]
  split_ifs with hs
  · exact .refl r
  · have hend : ∀ r' : Region V, Spends n r.underSync r' → Spends n r r'.endSync := fun r' h =>
      ⟨(Bool.not_eq_true _ ▸ hs).symm, h.restoring, h.least, h.most⟩
    exact wp_mono hf (fun _ => hend) (fun _ => hend)

/-- While a synchronisation runs, another one is not begun. -/
theorem costs_sync_of_syncing (hs : r.syncing = true) : Costs n (sync f) r := by
  unfold Costs
  rw [wp_sync, if_pos hs]
  exact .refl r

end

variable [Payload V]

theorem costs_reparse (r : Region V) : Costs (if r.restoring then 0 else 1) (reparse (V := V)) r := by
  have htook : ∀ v, Spends 1 r (r.took v) := fun v =>
    ⟨(reread_reprint _).syncing, (reread_reprint _).restoring, by simp [took, taking],
      by simp [took, taking]⟩
  unfold Costs
  rw [wp_reparse]
  split_ifs
  · exact .refl r
  · exact .of_eq rfl rfl rfl
  · cases r.language.parse r.copied.2 r.copied.1 with
    | none => exact ⟨rfl, rfl, by simp [refused], by simp [refused]⟩
    | some v =>
      simp only
      split_ifs <;> exact htook v

theorem costs_sync_reparse (r : Region V) : Costs r.quota (sync reparse) r := by
  cases hs : r.syncing with
  | true => exact costs_sync_of_syncing hs
  | false =>
    have hquota : r.quota = if r.restoring then 0 else 1 := by simp [quota, hs]
    rw [hquota]
    exact costs_sync (costs_reparse r.underSync)

section
variable {start stop index : Nat} {new ts : List (Token V)}

theorem costs_splice : Costs r.quota (splice start stop new) r := by
  have hspliced : Spends 0 r (r.spliced start stop new) := .of_eq rfl rfl rfl
  unfold Costs
  rw [wp_splice]
  split_ifs
  · exact .refl r
  · refine wp_mono (costs_sync_reparse _) (fun _ _ h => ?_) (fun _ _ h => ?_) <;>
      exact (hspliced.trans (hspliced.quota ▸ h)).mono (by omega)
  · exact hspliced.mono (by omega)

theorem costs_setTokens : Costs r.quota (setTokens new) r :=
  .get_bind costs_splice

omit [Payload V] in
theorem costs_tokenAt : Costs 0 (tokenAt index : RegionM V (Token V)) r := by
  unfold Costs
  rw [wp_tokenAt]
  split <;> exact .refl r

theorem costs_remove : Costs r.quota (remove index : RegionM V (Token V)) r :=
  costs_tokenAt.bind_left fun _ _ h => h.quota ▸ costs_splice.bind_right fun _ _ => .pure _

theorem costs_replace {t : Token V} : Costs r.quota (replace index t) r :=
  costs_tokenAt.bind_left fun _ _ h => h.quota ▸ costs_splice.bind_right fun _ _ => .pure _

theorem costs_reprintToTokens : Costs r.quota (reprintToTokens (V := V)) r := by
  have hvalid : ∀ r' : Region V, Spends 0 r' { r' with valid := true } := fun _ => .of_eq rfl rfl rfl
  refine (Costs.modify (spends_reprint r)).bind_left fun _ r' h => .get_bind ?_
  rw [← h.quota]
  exact costs_splice.bind_right fun _ r' => .modify (hvalid r')

theorem costs_sync_reprintToTokens : Costs 0 (sync (reprintToTokens (V := V))) r := by
  refine costs_sync ?_
  rw [← quota_of_syncing (r := r.underSync) rfl]
  exact costs_reprintToTokens

theorem spends_settled (index : Nat) (t : Token V) (r : Region V) : Spends 0 r (r.settled index t) := by
  unfold settled
  split
  · split
    · exact .refl r
    · exact .of_eq rfl rfl rfl
  · exact .refl r

theorem spends_alignedFrom (index : Nat) (ts : List (Token V)) (r : Region V) :
    Spends 0 r (r.alignedFrom index ts) := by
  induction ts generalizing index r with
  | nil => exact .refl r
  | cons t ts ih => exact (spends_settled index t r).trans (ih _ _)

theorem costs_updateToPrinted : Costs 0 (updateToPrinted (V := V)) r := by
  refine .get_bind ?_
  cases r.printed with
  | none => exact .pure _
  | some ps =>
    simp only
    split_ifs
    · exact costs_sync ((wp_alignFrom_guarded rfl).2 (spends_alignedFrom 0 ps _))
    · exact .throw _

theorem costs_setValue {v : Option V} : Costs 0 (setValue v) r := by
  refine Costs.bind_left (.modify (.of_eq rfl rfl rfl)) fun _ r' _ => .get_bind ?_
  split_ifs
  · exact costs_sync_reprintToTokens
  · exact .pure _

theorem costs_processChanges : Costs 0 (processChanges (V := V)) r := by
  have hcalm : Spends 0 r { r with stale := false } := .of_eq rfl rfl rfl
  refine .get_bind ?_
  split_ifs
  · exact (Costs.set hcalm).bind_left fun _ _ _ =>
      costs_sync_reprintToTokens.bind_left fun _ _ _ => .pure _
  · exact (Costs.set hcalm).bind_left fun _ _ _ => .pure _
  · exact .pure _

theorem costs_putBack {saved : Option (List (Token V))} : Costs r.quota (putBack saved) r := by
  cases saved with
  | some ts => exact costs_setTokens
  | none =>
    refine .get_bind ?_
    split
    · exact .pure _
    · exact costs_reprintToTokens

/-- Nothing is read before the mark of the restore is taken away. -/
theorem costs_restore {saved : Option (List (Token V))} : Costs r.quota (restore saved) r := by
  unfold Costs
  rw [wp_restore]
  split
  · exact .refl r
  · rename_i hr
    have hback : ∀ r' : Region V, Spends 0 (r.setRestoring true) r' →
        Spends 0 r (r'.setRestoring false) := fun r' h =>
      ⟨h.syncing, (Bool.not_eq_true _ ▸ hr).symm, h.least, h.most⟩
    have hput : Costs 0 (putBack saved) (r.setRestoring true) :=
      quota_of_restoring (r := r.setRestoring true) rfl ▸ costs_putBack
    refine wp_mono hput (fun _ r' h => ?_) (fun _ r' h => (hback r' h).mono (by omega))
    split
    · have hread := (hback r' h).quota ▸ costs_sync_reparse (r'.setRestoring false)
      exact wp_mono hread (fun _ _ h' => ((hback r' h).trans h').mono (by omega))
        (fun _ _ h' => ((hback r' h).trans h').mono (by omega))
    · exact (hback r' h).mono (by omega)

end

theorem Op.costs (op : Op V) (r : Region V) : Costs r.quota op.run r := by
  cases op with
  | setTokens ts => exact costs_setTokens
  | insert index t => exact costs_splice
  | remove index => exact costs_remove.discard
  | replace index t => exact costs_replace.discard
  | splice start stop ts => exact costs_splice
  | clear => exact costs_setTokens
  | updateToPrinted => exact costs_updateToPrinted.mono (Nat.zero_le _)
  | reprintToTokens => exact costs_reprintToTokens
  | restore saved => exact costs_restore
  | processChanges => exact costs_processChanges.discard.mono (Nat.zero_le _)
  | dispose => exact .modify (.of_eq rfl rfl rfl)
  | setValue v => exact costs_setValue.mono (Nat.zero_le _)

/-! ### Calls of a host -/

namespace Call

/-- The call is an operation, and not one end of a synchronisation. -/
def IsOperation : Call V → Prop
  | beginSync | endSync => False
  | _ => True

/-- The region as the call finds it. A language just taken up has not been asked yet. -/
def found : Call V → Region V → Region V
  | setLanguage l, r => { r with language := l, parses := 0 }
  | _, r => r

/-- How often the call asks the language. -/
def asks (c : Call V) (r : Region V) : Nat :=
  (r.after c.run).parses - (c.found r).parses

variable {c : Call V}

omit [Payload V] in
theorem syncing_found (c : Call V) (r : Region V) : (c.found r).syncing = r.syncing := by
  cases c <;> rfl

omit [Payload V] in
theorem restoring_found (c : Call V) (r : Region V) : (c.found r).restoring = r.restoring := by
  cases c <;> rfl

theorem spends (h : c.IsOperation) (r : Region V) : Spends r.quota (c.found r) (r.after c.run) := by
  cases c with
  | op o => exact after_iff.2 (o.costs r)
  | setLanguage l =>
    refine after_iff.2 ?_
    show Costs r.quota (do if (← get).autoReparse then (do sync reparse; updateToPrinted))
      { r with language := l, parses := 0 }
    refine .get_bind ?_
    split_ifs
    · exact (costs_sync_reparse _).bind_right fun _ _ => costs_updateToPrinted
    · exact .pure _
  | beginSync | endSync => exact h.elim
  | _ => exact .of_eq rfl rfl rfl

theorem syncing_after (h : c.IsOperation) (r : Region V) : (r.after c.run).syncing = r.syncing :=
  (spends h r).syncing.trans (c.syncing_found r)

theorem asks_le (h : c.IsOperation) (r : Region V) : c.asks r ≤ r.quota := by
  have := (spends h r).most
  unfold asks
  omega

theorem asks_eq_zero_of_costs {o : Op V} (h : Costs 0 o.run r) : (op o).asks r = 0 := by
  have := (after_iff.2 h : Spends 0 r (r.after o.run)).most
  exact Nat.sub_eq_zero_of_le this

end Call

/-- How a run ends. -/
def outcome (f : RegionM V Unit) (r : Region V) : Except EditError Unit :=
  match f r with
  | .ok _ _ => .ok ()
  | .error e _ => .error e

/-- What a host does on a region: it calls operations one after the other, also within
synchronisations of its own, goes on from how each has ended and from the region it finds then, and
in the end succeeds or fails. -/
inductive Script (V : Type) where
  | stop (result : Except EditError Unit)
  | call (c : Call V) (h : c.IsOperation) (next : Except EditError Unit → Region V → Script V)
  | sync (body : Script V) (next : Except EditError Unit → Region V → Script V)

namespace Script

def run : Script V → RegionM V Unit
  | stop (.ok _) => pure ()
  | stop (.error e) => throw e
  | call c _ next => fun r =>
    let r' := r.after c.run
    (next (outcome c.run r) r').run r'
  | sync body next => fun r =>
    let r' := r.after (Region.sync body.run)
    (next (outcome (Region.sync body.run) r) r').run r'

/-- How often the language is asked in all the calls of the script. -/
def asks : Script V → Region V → Nat
  | stop _, _ => 0
  | call c _ next, r =>
    let r' := r.after c.run
    c.asks r + (next (outcome c.run r) r').asks r'
  | sync body next, r =>
    let r' := r.after (Region.sync body.run)
    (if r.syncing then 0 else body.asks r.underSync) +
      (next (outcome (Region.sync body.run) r) r').asks r'

theorem syncing_after (s : Script V) (r : Region V) : (r.after s.run).syncing = r.syncing := by
  induction s generalizing r with
  | stop result => cases result <;> rfl
  | call c h next ih => exact (ih _ _ _).trans (c.syncing_after h r)
  | sync body next _ ih => exact (ih _ _ _).trans (syncing_after_sync body.run r)

/-- While a synchronisation runs, a script never asks the language: its calls do not, and the
synchronisations that it asks for are not begun. -/
theorem asks_eq_zero (s : Script V) (hs : r.syncing = true) : s.asks r = 0 := by
  induction s generalizing r with
  | stop result => rfl
  | call c h next ih =>
    have hasks : c.asks r ≤ 0 := quota_of_syncing hs ▸ c.asks_le h r
    rw [asks, ih _ _ ((c.syncing_after h r).trans hs)]
    omega
  | sync body next _ ih =>
    rw [asks, if_pos hs, ih _ _ ((syncing_after_sync body.run r).trans hs)]

end Script

/-- Every operation leaves the marks of the region as it found them, whether it succeeds or fails,
and asks the language at most once. It does not ask while a synchronisation runs, and neither
setting a value nor aligning the row nor acting on changed cells ever asks. So nothing that a host
does within a synchronisation asks, and whatever it does there, the mark is down again after it. -/
theorem one_reading_per_operation (r : Region V) :
    (∀ c : Call V, c.IsOperation →
      (r.after c.run).syncing = r.syncing ∧ (r.after c.run).restoring = r.restoring ∧
      (r.after c.run).parses = (c.found r).parses + c.asks r ∧ c.asks r ≤ 1 ∧
      (r.syncing = true → c.asks r = 0)) ∧
    (∀ v, (Call.op (.setValue v)).asks r = 0) ∧
    (Call.op .updateToPrinted).asks r = 0 ∧ (Call.op .processChanges).asks r = 0 ∧
    (∀ s : Script V, (r.after s.run).syncing = r.syncing ∧ s.asks r.underSync = 0 ∧
      (r.syncing = true → s.asks r = 0)) ∧
    ∀ f, (r.after (sync f)).syncing = r.syncing := by
  refine ⟨fun c hc => ?_, fun v => ?_, ?_, ?_, fun s => ?_, fun f => syncing_after_sync f r⟩
  · have hspends := c.spends hc r
    refine ⟨c.syncing_after hc r, hspends.restoring.trans (c.restoring_found r), ?_,
      (c.asks_le hc r).trans r.quota_le_one, fun hs => ?_⟩
    · exact (Nat.add_sub_of_le hspends.least).symm
    · exact Nat.le_zero.1 (quota_of_syncing hs ▸ c.asks_le hc r)
  · exact Call.asks_eq_zero_of_costs costs_setValue
  · exact Call.asks_eq_zero_of_costs costs_updateToPrinted
  · exact Call.asks_eq_zero_of_costs costs_processChanges.discard
  · exact ⟨s.syncing_after r, s.asks_eq_zero rfl, s.asks_eq_zero⟩

/-- Typing `a` into a region reads it once, but not within a synchronisation, whose mark is taken
away although the host fails there. -/
theorem one_reading_per_operation_insert :
    let r : Region Expr := Region.new (Expr.language {}) {} {}
    let c : Call Expr := .op (.insert 0 (.identifier ['a']))
    let s : Script Expr := .call c trivial fun _ _ => .stop (.error .restoring)
    c.asks r = 1 ∧ c.asks r ≤ 1 ∧ r.underSync.syncing = true ∧ c.asks r.underSync = 0 ∧
    s.asks r.underSync = 0 ∧ (r.after (sync s.run)).tokens.length = 1 ∧
    (r.after (sync s.run)).syncing = false := by
  intro r c s
  have hrest := one_reading_per_operation r
  have hsync := one_reading_per_operation r.underSync
  refine ⟨by decide +kernel, (hrest.1 c trivial).2.2.2.1, rfl, (hsync.1 c trivial).2.2.2.2 rfl,
    (hsync.2.2.2.2.1 s).2.2 rfl, by decide +kernel, (hrest.2.2.2.2.2 s.run).trans rfl⟩

end TokenEditor.Region
