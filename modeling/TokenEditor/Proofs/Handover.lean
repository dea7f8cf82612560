import TokenEditor.Proofs.Offsets
import TokenEditor.Proofs.Retyping

/-! # Handing the caret over

`rendered` is the row as it stands on screen: the texts of the tokens, with a space between
neighbours unless they are glued. A move to an edge of a token goes to the neighbour glued to that
edge, if there is one, and that is the same spot on screen (`select_keeps_spot`). A token that takes
no focus is glued on both sides, so it always hands the caret over to a neighbour it has.

The neighbour is not asked whether it takes the focus. `select_finds_focus_iff`: inside the row the
caret comes to rest in a token that takes none if and only if such a token stands beside the
position that was asked for. -/

namespace TokenEditor
variable {V : Type}

/-- What stands between two neighbours on screen. -/
def gap (a b : Token V) : Text :=
  if a.glue.right || b.glue.left then [] else [' ']

/-- The row as it is rendered, piece by piece: the texts of the tokens and the gaps between them. -/
def pieces [Payload V] (cells : Cells) : List (Token V) → List Text
  | [] => []
  | [t] => [t.text cells]
  | a :: b :: ts => a.text cells :: gap a b :: pieces cells (b :: ts)

/-- The index of the neighbour that an edge of the token at `index` faces. -/
def Position.beside? (index : Nat) : Position → Option Nat
  | .first | .offset 0 => if index = 0 then none else some (index - 1)
  | .last => some (index + 1)
  | .offset (_ + 1) => none

theorem Position.eq_of_beside? {index k : Nat} {position : Position}
    (h : position.beside? index = some k) : k = index + 1 ∨ index = k + 1 := by
  unfold Position.beside? at h
  split at h
  · split_ifs at h
    cases h
    omega
  · split_ifs at h
    cases h
    omega
  · cases h
    exact .inl rfl
  · cases h

theorem getElem?_pieces [Payload V] (cells : Cells) {ts : List (Token V)} {i : Nat} {a b : Token V}
    (ha : ts[i]? = some a) (hb : ts[i + 1]? = some b) :
    (pieces cells ts)[2 * i + 1]? = some (gap a b) := by
  induction ts generalizing i with
  | nil => cases ha
  | cons c ts ih =>
    cases ts with
    | nil => cases hb
    | cons d ts =>
      cases i with
      | zero =>
        cases ha
        cases hb
        rfl
      | succ i => exact ih ha hb

theorem spot_le (texts : List Text) (index : Nat) (position : Position) :
    spot texts index position ≤ texts.flatten.length := by
  have hwithin : ∀ t : Text, position.within t ≤ t.length := by
    intro t
    cases position <;> simp [Position.within]
  have hsplit : texts.flatten.length =
      (texts.take index).flatten.length + (texts.drop index).flatten.length := by
    rw [← List.length_append, ← List.flatten_append, List.take_append_drop]
  rw [spot, hsplit]
  refine Nat.add_le_add_left (Nat.le_trans (hwithin _) ?_) _
  rw [← List.head?_drop]
  cases texts.drop index with
  | nil => exact Nat.zero_le _
  | cons t rest => simp

namespace Editor
variable {e : Editor V} {index : Nat} {position : Position}

/-- The token at `index` can hold the caret. -/
def takesFocus (index : Nat) (e : Editor V) : Bool :=
  (e.views[index]?).any View.focusable

theorem glued_beside (h : e.region.Projected) (hin : index < e.tokens.length) {k : Nat}
    (hbeside : position.beside? index = some k) (hk : k < e.tokens.length)
    (hfocus : e.takesFocus index = false ∨ e.takesFocus k = false) :
    gluedAt (min index k) e.tokens = true := by
  have hnext : min index k + 1 < e.tokens.length := by
    have := Position.eq_of_beside? hbeside
    omega
  obtain ⟨i, hi, hone⟩ : ∃ i, (i = min index k ∨ i = min index k + 1) ∧ e.takesFocus i = false := by
    have := Position.eq_of_beside? hbeside
    rcases hfocus with hfocus | hfocus
    · exact ⟨index, by omega, hfocus⟩
    · exact ⟨k, by omega, hfocus⟩
  have hin' : i < e.views.length := by
    have hlen : e.views.length = e.tokens.length := h.length_eq
    omega
  have hall : (e.views[i]?).all View.focusable = false := by
    rw [takesFocus, List.getElem?_eq_getElem hin'] at hone
    rw [List.getElem?_eq_getElem hin']
    exact hone
  have ha : e.tokens[min index k]? = some (e.tokens.get ⟨min index k, Nat.lt_of_succ_lt hnext⟩) :=
    List.getElem?_eq_getElem _
  have hb : e.tokens[min index k + 1]? = some (e.tokens.get ⟨min index k + 1, hnext⟩) :=
    List.getElem?_eq_getElem hnext
  rw [← handsOver_eq h ha hb hi, Move.handsOver, hall]
  simp

theorem takesFocus_of_apart (h : e.region.Projected) (hin : index < e.tokens.length) {k : Nat}
    (hbeside : position.beside? index = some k) (hk : k < e.tokens.length)
    (hapart : gluedAt (min index k) e.tokens = false) :
    e.takesFocus index = true ∧ e.takesFocus k = true := by
  have hnot : ¬ (e.takesFocus index = false ∨ e.takesFocus k = false) := by
    intro hfocus
    rw [glued_beside h hin hbeside hk hfocus] at hapart
    cases hapart
  simpa only [not_or, Bool.not_eq_false] using hnot

variable [Payload V]

/-- The row as it stands on screen. -/
def rendered (e : Editor V) : Text :=
  (pieces e.region.cells e.tokens).flatten

/-- The offset in the rendered text of a position in the token at `index`. -/
def screenSpot (index : Nat) (position : Position) (e : Editor V) : Nat :=
  spot (pieces e.region.cells e.tokens) (2 * index) position

theorem screenSpot_of_glued (h : gluedAt index e.tokens = true) :
    e.screenSpot index .last = e.screenSpot (index + 1) .first := by
  unfold gluedAt at h
  split at h
  · rename_i a b ha hb
    have hgap : (pieces e.region.cells e.tokens)[2 * index + 1]? = some [] := by
      rw [getElem?_pieces e.region.cells ha hb, gap, if_pos h]
    have hlt : 2 * index + 1 < (pieces e.region.cells e.tokens).length :=
      (List.getElem?_eq_some_iff.1 hgap).1
    calc e.screenSpot index .last
        = spot (pieces e.region.cells e.tokens) (2 * index + 1) .first :=
          spot_last _ (Nat.lt_of_succ_lt hlt)
      _ = spot (pieces e.region.cells e.tokens) (2 * index + 1) .last := by
          simp [spot, hgap, Position.within]
      _ = e.screenSpot (index + 1) .first := spot_last _ hlt
  · cases h

/-- A move to an edge goes to the neighbour glued to it, or else to the edge itself. -/
theorem select_edge (h : e.region.Projected) (hin : index < e.tokens.length)
    (hedge : position ∈ [.first, .last, .offset 0]) :
    ∃ j q, (e.select index position).target = .token j q ∧ j < e.tokens.length ∧
      e.screenSpot j q = e.screenSpot index position ∧
      ((position.beside? index = some j ∧ gluedAt (min index j) e.tokens = true) ∨
        (j = index ∧ ∀ k, position.beside? index = some k → gluedAt (min index k) e.tokens = false)) := by
  have hfirst : ∃ j q, (e.select index .first).target = .token j q ∧ j < e.tokens.length ∧
      e.screenSpot j q = e.screenSpot index .first ∧
      ((Position.first.beside? index = some j ∧ gluedAt (min index j) e.tokens = true) ∨
        (j = index ∧ ∀ k, Position.first.beside? index = some k →
          gluedAt (min index k) e.tokens = false)) := by
    cases index with
    | zero => exact ⟨0, .first, rfl, hin, rfl, .inr ⟨rfl, by simp [Position.beside?]⟩⟩
    | succ i =>
      have hmin : min (i + 1) i = i := by omega
      rw [select_first_eq h hin]
      cases hglued : gluedAt i e.tokens with
      | true =>
        exact ⟨i, .last, rfl, Nat.lt_of_succ_lt hin, screenSpot_of_glued hglued,
          .inl ⟨by simp [Position.beside?], by rw [hmin, hglued]⟩⟩
      | false =>
        refine ⟨i + 1, .first, rfl, hin, rfl, .inr ⟨rfl, fun k hk => ?_⟩⟩
        obtain rfl : i = k := by simpa [Position.beside?] using hk
        rw [hmin, hglued]
  simp only [List.mem_cons, List.not_mem_nil, or_false] at hedge
  rcases hedge with rfl | rfl | rfl
  · exact hfirst
  · have hmin : min index (index + 1) = index := by omega
    rw [select_last_eq h hin]
    cases hglued : gluedAt index e.tokens with
    | true =>
      have hnext : index + 1 < e.tokens.length := by
        by_contra hlast
        have hnone : e.tokens[index + 1]? = none := List.getElem?_eq_none (by omega)
        simp [gluedAt, hnone] at hglued
      exact ⟨index + 1, .first, rfl, hnext, (screenSpot_of_glued hglued).symm,
        .inl ⟨rfl, by rw [hmin, hglued]⟩⟩
    | false =>
      refine ⟨index, .last, rfl, hin, rfl, .inr ⟨rfl, fun k hk => ?_⟩⟩
      obtain rfl : index + 1 = k := by simpa [Position.beside?] using hk
      rw [hmin, hglued]
  · -- offset 0 is another name of the start
    have hspot : e.screenSpot index (.offset 0) = e.screenSpot index .first := by
      simp [screenSpot, spot, Position.within]
    rw [hspot]
    exact hfirst

/-- In every editor that any operations have led to, failing or not, a move to an edge of a token
leads to a token that is there and to the very spot on screen that was asked for. It goes to
another token exactly when one is glued to that edge. -/
theorem select_keeps_spot (l : Language V) (cells : Cells) (settings : Settings) (ops : List (Op V))
    (he : afterAll ops (Editor.new l cells settings) = e) (hin : index < e.tokens.length)
    (hedge : position ∈ [.first, .last, .offset 0]) :
    ∃ j q, (e.select index position).target = .token j q ∧ j < e.tokens.length ∧
      e.screenSpot j q = e.screenSpot index position ∧
      e.screenSpot index position ≤ e.rendered.length ∧
      (j ≠ index ↔ ∃ k, position.beside? index = some k ∧ gluedAt (min index k) e.tokens = true) := by
  have hnew : (Editor.new l cells settings).region.Projected := List.Forall₂.nil
  obtain ⟨j, q, htarget, hj, hspot, hgoes⟩ := select_edge (he ▸ projected_afterAll hnew ops) hin hedge
  refine ⟨j, q, htarget, hj, hspot, spot_le _ _ _, ?_⟩
  rcases hgoes with ⟨hbeside, hglued⟩ | ⟨rfl, hfree⟩
  · refine ⟨fun _ => ⟨j, hbeside, hglued⟩, fun _ => ?_⟩
    have := Position.eq_of_beside? hbeside
    omega
  · refine ⟨fun hne => absurd rfl hne, ?_⟩
    rintro ⟨k, hbeside, hglued⟩
    rw [hfree k hbeside] at hglued
    cases hglued

/-- The row `a + f(x)` in a new editor. -/
def addsCall : Editor Expr :=
  afterAll [.setTokens [.identifier ['a'], Expr.plusToken, .identifier ['f'], Expr.callToken,
    .identifier ['x'], Expr.closeToken]] (Editor.new (Expr.language {}) {} {})

/-- The start of its parenthesis is the end of the `f`, five characters in. -/
theorem select_keeps_spot_call : addsCall.rendered = ['a', ' ', '+', ' ', 'f', '(', 'x', ')'] ∧
    addsCall.screenSpot 3 .first = 5 ∧ (addsCall.select 3 .first).target = .token 2 .last ∧
    addsCall.screenSpot 2 .last = addsCall.screenSpot 3 .first := by
  have htest : addsCall.rendered = ['a', ' ', '+', ' ', 'f', '(', 'x', ')'] ∧
      addsCall.screenSpot 3 .first = 5 ∧ (addsCall.select 3 .first).target = .token 2 .last ∧
      3 < addsCall.tokens.length := by
    decide +kernel
  obtain ⟨hrendered, hspot, htarget, hin⟩ := htest
  have hedge : Position.first ∈ [.first, .last, .offset 0] := by decide
  obtain ⟨j, q, hsame, -, hkept, -, -⟩ :=
    select_keeps_spot (Expr.language {}) {} {} _ (show _ = addsCall from rfl) hin hedge
  cases htarget.symm.trans hsame
  exact ⟨hrendered, hspot, htarget, hkept⟩

theorem eq_zero_of_beside? (hedge : position ∈ [.first, .last, .offset 0])
    (h : position.beside? index = none) : index = 0 := by
  simp only [List.mem_cons, List.not_mem_nil, or_false] at hedge
  rcases hedge with rfl | rfl | rfl
  · by_contra hne
    simp [Position.beside?, hne] at h
  · cases h
  · by_contra hne
    simp [Position.beside?, hne] at h

/-- In every editor that any operations have led to, failing or not, a move to an edge of a token
leads to a token that takes the focus, or to the first or the last one, if and only if the position
that was asked for does not stand beside a token inside the row that takes none. A token that takes
none itself hands the caret over to the neighbour it has on that side. -/
theorem select_finds_focus_iff (l : Language V) (cells : Cells) (settings : Settings)
    (ops : List (Op V)) (he : afterAll ops (Editor.new l cells settings) = e)
    (hin : index < e.tokens.length) (hedge : position ∈ [.first, .last, .offset 0]) :
    ∃ j q, (e.select index position).target = .token j q ∧ j < e.tokens.length ∧
      ((e.takesFocus j = true ∨ j = 0 ∨ j + 1 = e.tokens.length) ↔
        ¬ ∃ k, position.beside? index = some k ∧ 0 < k ∧ k + 1 < e.tokens.length ∧
          e.takesFocus k = false) ∧
      (∀ k, position.beside? index = some k → k < e.tokens.length → e.takesFocus index = false →
        j = k) := by
  have hnew : (Editor.new l cells settings).region.Projected := List.Forall₂.nil
  have hviews : e.region.Projected := he ▸ projected_afterAll hnew ops
  obtain ⟨j, q, htarget, hj, -, hgoes⟩ := select_edge hviews hin hedge
  refine ⟨j, q, htarget, hj, ?_⟩
  rcases hgoes with ⟨hbeside, hglued⟩ | ⟨rfl, hfree⟩
  · -- the neighbour has the caret, whatever it is
    have hsame : ∀ k, position.beside? index = some k → j = k := fun k hk =>
      Option.some.inj (hbeside.symm.trans hk)
    refine ⟨⟨?_, fun hnone => ?_⟩, fun k hk _ _ => hsame k hk⟩
    · rintro hrests ⟨k, hk, hpos, hlt, hfocus⟩
      obtain rfl := hsame k hk
      rw [hfocus] at hrests
      simp only [Bool.false_eq_true, false_or] at hrests
      omega
    · by_contra hrests
      simp only [not_or, Bool.not_eq_true] at hrests
      exact hnone ⟨j, hbeside, by omega, by omega, hrests.1⟩
  · -- nothing is glued here, so neither of the two is a token that takes no focus
    have hapart : ∀ k, position.beside? j = some k → k < e.tokens.length →
        e.takesFocus j = true ∧ e.takesFocus k = true :=
      fun k hk hlt => takesFocus_of_apart hviews hin hk hlt (hfree k hk)
    refine ⟨⟨?_, fun _ => ?_⟩, fun k hk hlt hfocus => ?_⟩
    · rintro - ⟨k, hk, -, hlt, hfocus⟩
      rw [(hapart k hk (by omega)).2] at hfocus
      cases hfocus
    · cases hk : position.beside? j with
      | none => exact .inr (.inl (eq_zero_of_beside? hedge hk))
      | some k =>
        by_cases hlt : k < e.tokens.length
        · exact .inl (hapart k hk hlt).1
        · have := Position.eq_of_beside? hk
          exact .inr (.inr (by omega))
    · rw [(hapart k hk hlt).1] at hfocus
      cases hfocus

/-- The row `a.b` in a new editor. -/
def field : Editor Expr :=
  afterAll [.setTokens [.identifier ['a'], Expr.dotToken, .identifier ['b']]]
    (Editor.new (Expr.language {}) {} {})

/-- The end of its `a` is handed over to the point, which takes no focus. -/
theorem select_finds_focus_iff_field : field.tokens.length = 3 ∧
    (field.select 0 .last).target = .token 1 .first ∧ field.takesFocus 1 = false ∧
    ¬ (field.takesFocus 1 = true ∨ 1 = 0 ∨ 1 + 1 = field.tokens.length) := by
  have htest : field.tokens.length = 3 ∧ field.takesFocus 1 = false ∧
      (field.select 0 .last).target = .token 1 .first := by
    decide +kernel
  obtain ⟨hlength, hfocus, htarget⟩ := htest
  have hin : 0 < field.tokens.length := by omega
  have hedge : Position.last ∈ [.first, .last, .offset 0] := by decide
  obtain ⟨j, q, hsame, -, hrests, -⟩ :=
    select_finds_focus_iff (Expr.language {}) {} {} _ (show _ = field from rfl) hin hedge
  cases htarget.symm.trans hsame
  have hpoint : ∃ k, Position.last.beside? 0 = some k ∧ 0 < k ∧ k + 1 < field.tokens.length ∧
      field.takesFocus k = false := ⟨1, rfl, by decide, by omega, hfocus⟩
  exact ⟨hlength, htarget, hfocus, fun hrest => hrests.1 hrest hpoint⟩

end Editor

end TokenEditor
