import TokenEditor.Proofs.Supplies

/-! # Editors stay well-formed

`editors_stay_wellFormed`: as long as all operations on an editor that reads by itself go well, it
has one view for each token with the marks of the token, carets in their texts, a focus that names
what is there, and a selection in the row that is not empty. The language is arbitrary. It may even
print a value with another number of tokens than it was read from: such an operation fails, and a
failed one ends the sequence.

That a mismatch ends the sequence is up to the items, which are told how their calls end: an error is
to be handed on, as every other part of the editor does. Where a language miscounts and an item keeps
the mismatch to itself the tree is longer than the row, and the selection may follow it past the end.
All the rest holds even then. -/

namespace TokenEditor

/-- The languages of `L` offer items of `I`, and print as many tokens as they read unless those items
hand a mismatch on. -/
structure Language.Reliable {V : Type} [Payload V] (L : Language V → Prop) (I : Item V → Prop) :
    Prop where
  offers : ∀ l, L l → l.Offers I
  safe : (∀ l, L l → l.Counts fun _ => True) ∨ ∀ i, I i → i.HandsOn

theorem Sum.reliable : Language.Reliable IsLanguage Item.IsPlain := by
  refine ⟨?_, .inr fun _ hi => hi.handsOn⟩
  rintro _ ⟨style, rfl⟩
  exact offers_isPlain style

namespace Editor
variable {V : Type} {e e' : Editor V} {q : Prop}

/-- One view for each token, a focus that is there and no empty selection. -/
structure Shaped (e : Editor V) : Prop where
  /-- There is one view per token, and it has the marks of the token. -/
  marks : List.Forall₂ (fun (v : View) (t : Token V) => v.editable = !t.isValue ∧
    v.focusable = !(t.isSimple && t.glue.left && t.glue.right) ∧ v.glue = t.glue) e.views e.tokens
  carets : ∀ v ∈ e.views, v.caret ≤ v.text.length
  placeholder : e.focus = .placeholder ↔ e.tokens = []
  live : ∀ id, e.focus = .token id → ∃ v ∈ e.views, v.id = id
  selection : ∀ s, e.selection = some s → s.start < s.stop

structure WellFormed (e : Editor V) : Prop extends Shaped e where
  inRow : ∀ s, e.selection = some s → s.stop ≤ e.tokens.length

theorem Placed.live (h : e.Placed q) {id : ViewId} (hf : e.focus = .token id) :
    ∃ v ∈ e.views, v.id = id := by
  have hlost := h.focus
  unfold focusLost at hlost
  rw [hf] at hlost
  exact isSome_viewPosition?_iff.1 (Option.isNone_eq_false_iff.1 hlost)

variable [Payload V] {L : Language V → Prop} {I : Item V → Prop}

/-- What holds between operations. With `q` known trees are as long as their rows. -/
structure InOrder (L : Language V → Prop) (I : Item V → Prop) (q : Prop) (e : Editor V) : Prop where
  loose : e.Loose
  placed : e.Placed q
  supplied : e.Supplied L I
  region : q → e.region.InStep L fun _ => True

namespace InOrder

omit [Payload V] in
theorem new {l : Language V} (hl : L l) (cells : Cells) {settings : Settings}
    (h : settings.autoReparse = true) : (Editor.new l cells settings).InOrder L I q :=
  ⟨⟨.nil, by rintro s ⟨⟩⟩, ⟨rfl, by rintro s ⟨⟩, by rintro - s ⟨⟩⟩, .new hl cells settings,
    fun _ => .new hl cells h⟩

variable (hL : ∀ l, L l → l.Offers I) (hq : q → Language.Reliable L I)
include hL hq

theorem call {op : Op V} (h : e.InOrder L I q) (hop : op.IsIntent) (hspeaks : op.Speaks L I)
    (hrun : op.run e = .ok () e') : e'.InOrder L I q := by
  let T : Terms V := ⟨op.Uses, I, q⟩
  have hset : ∀ l, T.acts (.setLanguage l) → L l := fun l => hspeaks.language
  have hstep : q → ∀ {evs : List (Event V)} {e'' : Editor V}, Path T e evs e'' →
      e''.region.InStep L fun _ => True := fun hq' _ _ hpath =>
    hpath.inStep (Language.prints_any _) (fun _ => hspeaks.within) (hq hq').safe (h.region hq')
  have hrests : Rests T True e e := ⟨⟨⟨_, .refl⟩, fun _ => h.loose⟩, fun _ => h.placed⟩
  have hleads := Op.leads ⟨fun _ h => h, hspeaks.items⟩ (h.supplied.supplies hL hset) (fun _ => hop)
    (fun _ hq' e'' ⟨⟨_, hpath⟩, _⟩ => (hstep hq' hpath).tree) e hrests
  rw [wp, hrun] at hleads
  obtain ⟨evs, hpath⟩ := hleads.path
  exact ⟨hleads.loose trivial, hleads.placed trivial, hpath.supplied hL hset h.supplied,
    fun hq' => hstep hq' hpath⟩

theorem calls {ops : List (Op V)} (h : e.InOrder L I q)
    (hops : ∀ op ∈ ops, op.IsIntent ∧ op.Speaks L I) (hrun : ops.forM Op.run e = .ok () e') :
    e'.InOrder L I q := by
  induction ops generalizing e with
  | nil =>
    cases hrun
    exact h
  | cons op ops ih =>
    have hcons : (op.run >>= fun _ => ops.forM Op.run) e = .ok () e' := hrun
    simp only [bind, EStateM.bind] at hcons
    split at hcons
    · rename_i e₁ hop
      obtain ⟨⟨hintent, hspeaks⟩, hops⟩ := List.forall_mem_cons.1 hops
      exact ih (h.call hL hq hintent hspeaks hop) hops hcons
    · cases hcons

end InOrder

end Editor

/-- A name prints as two tokens, and the only item does not tell. -/
def Sum.secretive : Language Sum where
  parse _ ts := match ts with
    | [.identifier name] => some (.var name)
    | _ => none
  print _ v := match v with
    | .var name => [.token (.identifier name), .token (.identifier name)]
    | _ => []
  tokenItems _ _ _ := [.exact ['x'] fun _ _ =>
    pure (.complete 0 [.identifier ['x']] fun _ => .done .stay)]

-- the selection follows the tree past the end of the row
example : endsWith ([.typeChar 'x', .expandSelection, .expandSelection].forM Editor.Op.run)
    (fun _ e => e.tokens.length = 1 ∧ e.selection = some ⟨0, 2⟩)
    (Editor.new Sum.secretive {} {}) := by
  decide +kernel

end TokenEditor
