import TokenEditor.Proofs.Changes
import TokenEditor.Proofs.Watching

/-! # Calls of a host

All that a host may do to a region. A synchronisation of the host is two calls, its beginning and
its end, with whatever is called in between; so every state inside it is a state of the run.

The operations come down to changes; the host alone makes cells and changes their texts. What
survives these three holds after every call. -/

namespace TokenEditor.Region
variable {V : Type} {r : Region V}

/-- A call of the host. -/
inductive Call (V : Type) where
  | op (o : Op V)
  | setLanguage (l : Language V)
  | setAutoReparse (on : Bool)
  | setAutoReprint (on : Bool)
  | beginSync
  | endSync
  | makeCells (texts : List Text)
  | setText (c : CellId) (t : Text)

theorem Op.undergoes [Payload V] {S : Supply V} {op : Op V} (ht : ∀ t ∈ op.tokens, S.token t)
    (hv : ∀ v, op.value? = some v → S.value v) : Undergoes S op.run := by
  cases op with
  | setTokens ts => exact .setTokens ht
  | insert index t => exact .splice ht
  | remove index => exact Undergoes.remove.discard
  | replace index t => exact (Undergoes.replace (ht t (by simp [tokens]))).discard
  | splice start stop ts => exact .splice ht
  | clear => exact .setTokens (by simp)
  | updateToPrinted => exact .updateToPrinted
  | reprintToTokens => exact .reprintToTokens
  | restore saved =>
    refine .restore ?_
    rintro ts rfl
    exact ht
  | processChanges => exact Undergoes.processChanges.discard
  | dispose => exact .modify fun r => .of_change (.dispose r) rfl
  | setValue v => exact .setValue hv

namespace Call

/-- The tokens that a call brings in. -/
def tokens : Call V → List (Token V)
  | op o => o.tokens
  | _ => []

/-- The value that a call brings in. -/
def value? : Call V → Option V
  | op o => o.value?
  | _ => none

/-- The language that a call brings in. -/
def language? : Call V → Option (Language V)
  | setLanguage l => some l
  | _ => none

variable [Payload V] {S : Supply V} {c : Call V}

def run : Call V → RegionM V Unit
  | op o => o.run
  | setLanguage l => Region.setLanguage l
  | setAutoReparse on => modify fun r => { r with autoReparse := on }
  | setAutoReprint on => modify fun r => { r with autoReprint := on }
  | beginSync => modify fun r => r.beginSync?.getD r
  | endSync => modify Region.endSync
  | makeCells texts => modify (Region.makeCells texts)
  | setText c t => modify (Region.setCellText c t)

/-- All that the call brings in is in the supply. -/
structure Within (S : Supply V) (c : Call V) : Prop where
  tokens : ∀ t ∈ c.tokens, S.token t
  value : ∀ v, c.value? = some v → S.value v
  language : ∀ l, c.language? = some l → S.language l

omit [Payload V] in
theorem within_unlimited (c : Call V) : c.Within .unlimited :=
  ⟨fun _ _ => trivial, fun _ _ => trivial, fun _ _ => trivial⟩

/-- What a call can do to a region. -/
theorem after_cases (h : c.Within S) (r : Region V) :
    Passes S r (r.after c.run) ∨ (∃ texts, r.after c.run = r.makeCells texts) ∨
      ∃ x t, c = .setText x t := by
  cases c with
  | op o => exact .inl (after_iff.2 (Op.undergoes h.tokens h.value r))
  | setLanguage l => exact .inl (after_iff.2 (Undergoes.setLanguage (h.language l rfl) r))
  | setAutoReparse on => exact .inl (.of_change (.flag r _ _ _ on r.autoReprint) rfl)
  | setAutoReprint on => exact .inl (.of_change (.flag r _ _ _ r.autoReparse on) rfl)
  | beginSync =>
    left
    show Passes S r (r.beginSync?.getD r)
    unfold beginSync?
    split
    · exact .refl r
    · exact .of_change (.flag r r.valid true r.restoring _ _) rfl
  | endSync => exact .inl (.of_change (.flag r r.valid false r.restoring _ _) rfl)
  | makeCells texts => exact .inr (.inl ⟨texts, rfl⟩)
  | setText x t => exact .inr (.inr ⟨x, t, rfl⟩)

/-- What survives every change, new cells and new texts of cells holds after a call. -/
theorem invariant {I : Region V → Prop} (h : c.Within S)
    (hchange : ∀ {r r' : Region V}, Change S r r' → I r → I r')
    (hcells : ∀ {r : Region V} (texts : List Text), I r → I (r.makeCells texts))
    (htext : ∀ {r : Region V} (x : CellId) (t : Text), I r → I (r.setCellText x t))
    (hr : I r) : I (r.after c.run) := by
  rcases after_cases h r with hpass | ⟨texts, hafter⟩ | ⟨x, t, rfl⟩
  · exact hpass.invariant hchange hr
  · rw [hafter]
    exact hcells texts hr
  · exact htext x t hr

theorem language_after (h : c.language? = none) (r : Region V) :
    (r.after c.run).language = r.language := by
  have hin : c.Within ⟨fun _ => True, fun _ => True, fun _ => False⟩ :=
    ⟨fun _ _ => trivial, fun _ _ => trivial, fun l hl => by simp [h] at hl⟩
  refine invariant (I := fun r' => r'.language = r.language) hin ?_ (fun _ h => h) (fun _ _ h => h) rfl
  rintro r₁ r₂ hchange h₁
  cases hchange with
  | reprint => exact (reread_reprint _).language.trans h₁
  | setLanguage hl => exact hl.elim
  | _ => exact h₁

theorem restoring_after (h : c.Within S) (r : Region V) :
    (r.after c.run).restoring = r.restoring := by
  rcases after_cases h r with hpass | ⟨texts, hafter⟩ | ⟨x, t, rfl⟩
  · exact hpass.restoring
  · rw [hafter]
    rfl
  · rfl

end Call

end TokenEditor.Region
