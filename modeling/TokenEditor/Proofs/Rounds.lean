import TokenEditor.Proofs.Recovery

/-! # Rounds of typing

Typing a character is a series of rounds: a round either ends the matter, or completes what stood
before the character and types the character again. `round_typeWith`: a character is typed again only
after a view that has drifted from its token was completed (`Again`). -/

namespace TokenEditor

namespace View
variable {v : View} {c : Char}

theorem insert_of_caretAtEnd (h : (v.insert [c]).caretAtEnd) :
    (v.insert [c]).text = v.text ++ [c] ∧ v.caret = v.text.length := by
  have hlen : v.caret + 1 = (v.text.insertAt v.caret [c]).length := by
    simpa [caretAtEnd, View.insert] using h
  rw [Text.length_insertAt, List.length_singleton] at hlen
  have hcaret : v.caret = v.text.length := by omega
  refine ⟨?_, hcaret⟩
  show v.text.insertAt v.caret [c] = _
  rw [Text.insertAt, List.take_of_length_le (by omega), List.drop_of_length_le (by omega)]
  simp

end View

namespace Editor
variable {V : Type} [Payload V] {c : Char} {Q : Editor V → Prop} {e e' : Editor V} {i index : Nat}
  {v : View} {t : Token V}

/-- `f` either ends without retyping, or has led to an editor with `Q` and types `c` there. -/
def Round (c : Char) (f : (Char → EditM V Unit) → EditM V Unit) (Q : Editor V → Prop) (e : Editor V) :
    Prop :=
  (∃ r, ∀ retype, f retype e = r) ∨ ∃ e', Q e' ∧ ∀ retype, f retype e = retype c e'

namespace Round
omit [Payload V]

theorem ends {f : EditM V Unit} : Round c (fun _ => f) Q e := .inl ⟨f e, fun _ => rfl⟩

theorem mono {f : (Char → EditM V Unit) → EditM V Unit} {Q' : Editor V → Prop} (h : Round c f Q e)
    (hQ : ∀ e', Q e' → Q' e') : Round c f Q' e :=
  h.imp_right fun ⟨e', he', hf⟩ => ⟨e', hQ e' he', hf⟩

theorem bind {α : Type} {g : EditM V α} {f : α → (Char → EditM V Unit) → EditM V Unit}
    (hf : ∀ a e₁, g e = .ok a e₁ → Round c (f a) Q e₁) :
    Round c (fun retype => g >>= fun a => f a retype) Q e := by
  unfold Round
  simp only [Bind.bind, EStateM.bind]
  cases hres : g e with
  | ok a e₁ => exact hf a e₁ hres
  | error err e₁ => exact .inl ⟨_, fun _ => rfl⟩

theorem ite {p : Prop} [Decidable p] {f g : (Char → EditM V Unit) → EditM V Unit}
    (hf : p → Round c f Q e) (hg : ¬ p → Round c g Q e) :
    Round c (fun retype => if p then f retype else g retype) Q e := by
  by_cases hp : p
  · simpa only [if_pos hp] using hf hp
  · simpa only [if_neg hp] using hg hp

end Round

/-- The view at `i` takes text, and has another one than its token. -/
structure Drifted (i : Nat) (v : View) (t : Token V) (e : Editor V) : Prop where
  view : e.views[i]? = some v
  token : e.tokens[i]? = some t
  editable : v.editable = true
  ne : v.text ≠ t.text e.region.cells

/-- Completing the text of the drifted view at `i` leads from `e` to `e'`. -/
def Completes (i : Nat) (e e' : Editor V) : Prop :=
  ∃ v t, e.Drifted i v t ∧
    completeMatch ((Supplier.token i).offer .typing e) v.text e = .ok () e'

/-- A round that begins at `e` completes a drifted view, and the character is typed again at `e'`. -/
inductive Again (e e' : Editor V) : Prop
  | intro {e₁ e₀ : Editor V} {index i : Nat} : clearSelection e = .ok () e₁ →
      e₁.focusedIndex? = some index → e₁.typingTarget index = (i, e₀) → e₀.Completes i e' → Again e e'

omit [Payload V] in
theorem setText_insert (hv : e.views[i]? = some v) (hcaret : v.caret = v.text.length) :
    (e.modifyView i (·.insert [c])).modifyView i (·.setText v.text v.text.length) = e := by
  have hviews : (e.region.views.modify i (·.insert [c])).modify i
      (·.setText v.text v.text.length) = e.region.views := by
    refine List.ext_getElem? fun j => ?_
    rw [List.getElem?_modify, List.getElem?_modify]
    by_cases hij : i = j
    · subst hij
      have hv' : e.region.views[i]? = some v := hv
      rw [hv']
      simp [View.setText, View.setCaret, View.insert, ← hcaret]
    · simp [hij]
  unfold modifyView Region.modifyView
  rw [hviews]

theorem round_resolveTyped (h : e.views[i]? = some v) (heditable : v.editable = true) :
    Round c (fun retype => resolveTyped retype i) (e.Completes i) (e.modifyView i (·.insert [c])) := by
  have hv : (e.modifyView i (·.insert [c])).views[i]? = some (v.insert [c]) := by
    have hv' : e.region.views[i]? = some v := h
    show (e.region.views.modify i (·.insert [c]))[i]? = _
    simp [hv']
  refine Round.bind fun e₁ e₂ hget => ?_
  cases hget
  rw [hv]
  cases ht : (e.modifyView i (·.insert [c])).tokens[i]? with
  | none => exact .ends
  | some t =>
    refine .ite (fun _ => .ends) fun _ => ?_
    refine .ite (fun _ => .ends) fun hbeside => ?_
    refine .ite (fun hretype => ?_) fun _ => ?_
    · simp only [Bool.and_eq_true, Bool.not_eq_true'] at hretype
      obtain ⟨⟨hend, hnone⟩, -⟩ := hretype
      obtain ⟨htext, hcaret⟩ := View.insert_of_caretAtEnd hend
      have hfront : (v.text ++ [c]).dropLast = v.text := by simp
      have hlast : (v.text ++ [c]).getLast? = some c := by simp
      have hne : v.text ≠ t.text e.region.cells := by
        intro heq
        rw [hend, hnone, htext, hfront] at hbeside
        exact hbeside (beq_iff_eq.2 heq)
      simp only [htext, hfront, hlast, completeThenRetype]
      refine Round.bind fun _ e₁ hmodify => ?_
      obtain rfl : e = e₁ := by
        rw [← setText_insert (c := c) h hcaret]
        injection hmodify
      refine Round.bind fun _ _ hget => ?_
      cases hget
      refine Round.bind fun _ e' hcomplete => ?_
      exact .inr ⟨e', ⟨v, t, ⟨h, ht, heditable, hne⟩, hcomplete⟩, fun _ => rfl⟩
    · exact .ite (fun _ => .ends) fun _ => .ends

omit [Payload V] in
theorem wp_trivial {α : Type} {f : EditM V α} :
    wp f (fun _ _ => True) (fun _ _ => True) e := by
  unfold wp
  split <;> trivial

theorem afterType_false (hrun : afterType i e = .ok false e') : e' = e := by
  have hwp : wp (afterType i) (fun b e' => b = false → e' = e) (fun _ _ => True) e := by
    unfold afterType
    rw [wp_bind, wp_get]
    split
    · exact fun _ => rfl
    · dsimp only
      split_ifs
      · exact fun _ => rfl
      · refine wp_seq wp_trivial fun _ _ _ => wp_seq wp_trivial fun _ _ _ => ?_
        exact wp_seq wp_trivial fun _ _ _ => nofun
      · refine wp_seq wp_trivial fun _ _ _ => wp_seq wp_trivial fun _ _ _ => ?_
        exact wp_seq wp_trivial fun _ _ _ => wp_seq wp_trivial fun _ _ _ => nofun
      · exact fun _ => rfl
  rw [wp, hrun] at hwp
  exact hwp rfl

theorem round_typeAt {e₀ : Editor V} (htarget : e.typingTarget index = (i, e₀)) :
    Round c (fun retype => typeAt retype index c) (e₀.Completes i) e := by
  refine Round.bind fun e₁ e₂ hget => ?_
  cases hget
  rw [htarget]
  refine Round.bind fun _ _ hset => ?_
  cases hset
  refine .ite (fun _ => .ends) fun hany => ?_
  obtain ⟨v, hv, heditable⟩ : ∃ v, e₀.views[i]? = some v ∧ v.editable = true := by
    rw [Bool.not_eq_true', Bool.not_eq_false] at hany
    exact (Option.any_eq_true _ _).1 hany
  have hresolve := round_resolveTyped (c := c) hv heditable
  refine Round.bind fun _ _ hmodify => ?_
  cases hmodify
  refine .ite (fun _ => .ends) fun _ => ?_
  refine Round.bind fun split e₁ hsplit => ?_
  refine .ite (fun _ => .ends) fun hfalse => ?_
  obtain rfl : split = false := Bool.eq_false_iff.2 hfalse
  obtain rfl := afterType_false hsplit
  refine .ite (fun _ => ?_) fun _ => hresolve
  -- a space inside the text
  refine Round.bind fun _ _ hget => ?_
  cases hget
  split
  · exact .ends
  · exact .ite (fun _ => .ends) fun _ => hresolve

/-- A character is typed again only after the text of a drifted view was completed. -/
theorem round_typeWith (c : Char) (e : Editor V) :
    Round c (fun retype => typeWith retype c) (Again e) e := by
  refine Round.bind fun _ e₁ hclear => ?_
  refine Round.bind fun _ _ hget => ?_
  cases hget
  cases hindex : e₁.focusedIndex? with
  | none => exact .ends
  | some index =>
    exact (round_typeAt rfl).mono fun _ hcompletes => .intro hclear hindex rfl hcompletes

end Editor

end TokenEditor
