import Mathlib.Data.List.Infix
import TokenEditor.Palette
import TokenEditor.Sum.Language

/-! # Pairs match and nest

Where no item both opens and closes, `partner?` is a matching (`partner?_eq_some_iff`): two items
are partners exactly if the first opens, the second closes, the two pair, and what stands between
them is balanced. The scan that looks ahead and the one that looks back count apart and ask in
opposite orders; they agree because a row is balanced exactly if it is balanced read backwards
(`balanced_reverse`). Balanced rows either nest or lie apart, and so do pairs. -/

namespace TokenEditor.Pairing
variable {α : Type} {left right opens closes : α → Bool} {pair : α → α → Bool} {items : List α}
  {a : α} {depth i j k : Nat}

/-- As many items open as close, and nowhere on the way have more closed than opened. -/
structure Balanced (left right : α → Bool) (items : List α) : Prop where
  never_below : ∀ front, front <+: items → front.countP right ≤ front.countP left
  level : items.countP left = items.countP right

/-- From `depth` open items on, the level comes down to zero and was never lower. -/
structure Lands (opens closes : α → Bool) (depth : Nat) (items : List α) : Prop where
  never_below : ∀ front, front <+: items → front.countP closes ≤ depth + front.countP opens
  level : depth + items.countP opens = items.countP closes

theorem lands_zero : Lands opens closes 0 items ↔ Balanced opens closes items := by
  constructor
  · rintro ⟨hbelow, hlevel⟩
    exact ⟨fun front h => by simpa using hbelow front h, by simpa using hlevel⟩
  · rintro ⟨hbelow, hlevel⟩
    exact ⟨fun front h => by simpa using hbelow front h, by simpa using hlevel⟩

theorem lands_nil : Lands opens closes depth ([] : List α) ↔ depth = 0 := by
  constructor
  · intro h
    simpa using h.level
  · rintro rfl
    refine ⟨fun front h => ?_, rfl⟩
    rw [List.prefix_nil.1 h]
    exact Nat.le_refl _

theorem lands_cons {depth' : Nat} (h : depth' + (if closes a then 1 else 0) =
    depth + if opens a then 1 else 0) :
    Lands opens closes depth (a :: items) ↔ Lands opens closes depth' items := by
  constructor
  · rintro ⟨hbelow, hlevel⟩
    refine ⟨fun front hfront => ?_, ?_⟩
    · have := hbelow (a :: front) (List.prefix_cons_inj a |>.2 hfront)
      rw [List.countP_cons, List.countP_cons] at this
      omega
    · rw [List.countP_cons, List.countP_cons] at hlevel
      omega
  · rintro ⟨hbelow, hlevel⟩
    refine ⟨fun front hfront => ?_, ?_⟩
    · rcases List.prefix_cons_iff.1 hfront with rfl | ⟨rest, rfl, hrest⟩
      · exact Nat.zero_le _
      · have := hbelow rest hrest
        rw [List.countP_cons, List.countP_cons]
        omega
    · rw [List.countP_cons, List.countP_cons]
      omega

/-- The item at `k` closes, and before it the level has come down to zero. -/
def Falls (opens closes : α → Bool) (depth : Nat) (items : List α) (k : Nat) : Prop :=
  ∃ b, items[k]? = some b ∧ closes b = true ∧ Lands opens closes depth (items.take k)

theorem falls_cons_zero :
    Falls opens closes depth (a :: items) 0 ↔ closes a = true ∧ depth = 0 := by
  simp [Falls, lands_nil]

theorem falls_cons_succ (depth' : Nat) (h : depth' + (if closes a then 1 else 0) =
    depth + if opens a then 1 else 0) :
    Falls opens closes depth (a :: items) (k + 1) ↔ Falls opens closes depth' items k := by
  simp only [Falls, List.getElem?_cons_succ, List.take_succ_cons, lands_cons h]

theorem not_falls_zero_cons_succ (ho : opens a = false) (hc : closes a = true) :
    ¬ Falls opens closes 0 (a :: items) (k + 1) := by
  rintro ⟨b, -, -, hlands⟩
  have := hlands.never_below [a] (by simp)
  simp [ho, hc] at this

theorem scan_eq_some_iff (hd : ∀ a ∈ items, opens a = true → closes a = false) :
    scan opens closes depth items = some k ↔ Falls opens closes depth items k := by
  fun_induction scan opens closes depth items generalizing k with
  | case1 => simp [Falls]
  | case2 depth a rest ho ih =>
    have hc := hd a List.mem_cons_self ho
    cases k with
    | zero => simp [falls_cons_zero, hc]
    | succ k =>
      rw [falls_cons_succ (depth + 1) (by simp [ho, hc])]
      simpa using ih fun b hb => hd b (List.mem_cons_of_mem a hb)
  | case3 a rest ho hc =>
    cases k with
    | zero => simp [falls_cons_zero, hc]
    | succ k => simp [not_falls_zero_cons_succ (by simpa using ho) hc]
  | case4 a rest ho hc depth ih =>
    cases k with
    | zero => simp [falls_cons_zero]
    | succ k =>
      rw [falls_cons_succ depth (by simp [ho, hc])]
      simpa using ih fun b hb => hd b (List.mem_cons_of_mem a hb)
  | case5 depth a rest ho hc ih =>
    cases k with
    | zero => simp [falls_cons_zero, hc]
    | succ k =>
      rw [falls_cons_succ depth (by simp [ho, hc])]
      simpa using ih fun b hb => hd b (List.mem_cons_of_mem a hb)

theorem Balanced.reverse (h : Balanced left right items) : Balanced right left items.reverse := by
  refine ⟨fun front hfront => ?_, ?_⟩
  · -- what is read backwards is a rest of the row, and its front has not closed more than it opened
    rw [← List.reverse_reverse front] at hfront
    obtain ⟨rest, hrest⟩ := List.reverse_prefix.1 hfront
    have hfirst := h.never_below rest ⟨front.reverse, hrest⟩
    have hlevel := h.level
    rw [← hrest, List.countP_append, List.countP_append, List.countP_reverse,
      List.countP_reverse] at hlevel
    omega
  · rw [List.countP_reverse, List.countP_reverse, h.level]

theorem balanced_reverse : Balanced right left items.reverse ↔ Balanced left right items :=
  ⟨fun h => by simpa using h.reverse, Balanced.reverse⟩

/-! ### Partners -/

/-- The items between those at `i` and `j`. -/
def between (items : List α) (i j : Nat) : List α :=
  (items.take j).drop (i + 1)

/-- The item at `i` opens and the one at `j` closes it. -/
structure Mates (left right : α → Bool) (pair : α → α → Bool) (items : List α) (i j : Nat) :
    Prop where
  lt : i < j
  ends : ∃ a b, items[i]? = some a ∧ items[j]? = some b ∧ left a = true ∧ right b = true ∧
    pair a b = true
  balanced : Balanced left right (between items i j)

theorem falls_ahead : Falls left right 0 (items.drop (i + 1)) k ↔
    ∃ b, items[i + 1 + k]? = some b ∧ right b = true ∧
      Balanced left right (between items i (i + 1 + k)) := by
  have hbetween : (items.drop (i + 1)).take k = between items i (i + 1 + k) := by
    rw [between, List.drop_take, Nat.add_sub_cancel_left]
  simp only [Falls, List.getElem?_drop, lands_zero, hbetween]

theorem falls_back (hk : k < i) (hi : i ≤ items.length) :
    Falls right left 0 (items.take i).reverse k ↔
      ∃ b, items[i - 1 - k]? = some b ∧ left b = true ∧
        Balanced left right (between items (i - 1 - k) i) := by
  have hlen : (items.take i).length = i := by
    rw [List.length_take]
    omega
  have hat : (items.take i).reverse[k]? = items[i - 1 - k]? := by
    rw [List.getElem?_reverse (by omega), hlen, List.getElem?_take, if_pos (by omega)]
  have hbetween : (items.take i).reverse.take k = (between items (i - 1 - k) i).reverse := by
    rw [List.take_reverse, hlen, between]
    congr 2
    omega
  simp only [Falls, hat, lands_zero, hbetween, balanced_reverse]

section
variable (hd : ∀ a ∈ items, left a = true → right a = false)
include hd

theorem partner?_of_left (ha : items[i]? = some a) (hl : left a = true) :
    partner? left right pair items i = some j ↔ Mates left right pair items i j := by
  have hscan : ∀ k, scan left right 0 (items.drop (i + 1)) = some k ↔
      ∃ b, items[i + 1 + k]? = some b ∧ right b = true ∧
        Balanced left right (between items i (i + 1 + k)) := fun k =>
    (scan_eq_some_iff fun b hb => hd b (List.mem_of_mem_drop hb)).trans falls_ahead
  simp only [partner?, ha, hl, if_true]
  constructor
  · intro h
    cases hk : scan left right 0 (items.drop (i + 1)) with
    | none => simp [hk] at h
    | some k =>
      obtain ⟨b, hb, hr, hbalanced⟩ := (hscan k).1 hk
      simp only [hk, hb] at h
      split_ifs at h with hpair
      cases h
      exact ⟨by omega, ⟨a, b, ha, hb, hl, hr, hpair⟩, hbalanced⟩
  · rintro ⟨hlt, ⟨a', b, ha', hb, -, hr, hpair⟩, hbalanced⟩
    cases ha.symm.trans ha'
    obtain ⟨k, rfl⟩ : ∃ k, j = i + 1 + k := ⟨j - (i + 1), by omega⟩
    simp [(hscan k).2 ⟨b, hb, hr, hbalanced⟩, hb, hpair]

theorem partner?_of_right (ha : items[i]? = some a) (hl : left a = false) (hr : right a = true) :
    partner? left right pair items i = some j ↔ Mates left right pair items j i := by
  have hin : i < items.length := (List.getElem?_eq_some_iff.1 ha).1
  have hback : ∀ b ∈ (items.take i).reverse, right b = true → left b = false := by
    intro b hb hrb
    have hmem : b ∈ items := List.mem_of_mem_take (List.mem_reverse.1 hb)
    by_contra hlb
    simp [hd b hmem (by simpa using hlb)] at hrb
  have hscan : ∀ k, scan right left 0 (items.take i).reverse = some k ↔
      Falls right left 0 (items.take i).reverse k := fun _ => scan_eq_some_iff hback
  simp only [partner?, ha, hl, hr, if_true, Bool.false_eq_true, if_false]
  constructor
  · intro h
    cases hk : scan right left 0 (items.take i).reverse with
    | none => simp [hk] at h
    | some k =>
      have hfalls := (hscan k).1 hk
      have hlt : k < i := by
        obtain ⟨b, hb, -⟩ := hfalls
        have := (List.getElem?_eq_some_iff.1 hb).1
        rw [List.length_reverse, List.length_take] at this
        omega
      obtain ⟨b, hb, hlb, hbalanced⟩ := (falls_back hlt hin.le).1 hfalls
      simp only [hk, hb] at h
      split_ifs at h with hpair
      cases h
      exact ⟨by omega, ⟨b, a, hb, ha, hlb, hr, hpair⟩, hbalanced⟩
  · rintro ⟨hlt, ⟨b, a', hb, ha', hlb, -, hpair⟩, hbalanced⟩
    cases ha.symm.trans ha'
    obtain ⟨k, hk, rfl⟩ : ∃ k, k < i ∧ j = i - 1 - k := ⟨i - 1 - j, by omega, by omega⟩
    have hfound := (hscan k).2 ((falls_back hk hin.le).2 ⟨b, hb, hlb, hbalanced⟩)
    simp [hfound, hb, hpair]

theorem partner?_eq_some_iff : partner? left right pair items i = some j ↔
    Mates left right pair items i j ∨ Mates left right pair items j i := by
  cases ha : items[i]? with
  | none =>
    refine iff_of_false (by simp [partner?, ha]) ?_
    rintro (⟨-, ⟨a, b, hi, -⟩, -⟩ | ⟨-, ⟨a, b, -, hi, -⟩, -⟩) <;> simp [ha] at hi
  | some a =>
    have hmem : a ∈ items := List.mem_of_getElem? ha
    -- an item has a partner on one side only
    have hopen : Mates left right pair items i j → left a = true := by
      rintro ⟨-, ⟨a', b, ha', -, hl, -⟩, -⟩
      cases ha.symm.trans ha'
      exact hl
    have hclose : Mates left right pair items j i → right a = true := by
      rintro ⟨-, ⟨b, a', -, ha', -, hr, -⟩, -⟩
      cases ha.symm.trans ha'
      exact hr
    cases hl : left a with
    | true =>
      rw [partner?_of_left hd ha hl]
      refine ⟨.inl, ?_⟩
      rintro (h | h)
      · exact h
      · exact absurd (hclose h) (by simp [hd a hmem hl])
    | false =>
      cases hr : right a with
      | true =>
        rw [partner?_of_right hd ha hl hr]
        refine ⟨.inr, ?_⟩
        rintro (h | h)
        · exact absurd (hopen h) (by simp [hl])
        · exact h
      | false =>
        refine iff_of_false (by simp [partner?, ha, hl, hr]) ?_
        rintro (h | h)
        · exact absurd (hopen h) (by simp [hl])
        · exact absurd (hclose h) (by simp [hr])

end

theorem between_split (hik : i < k) (hkj : k < j) (ha : items[k]? = some a) :
    between items i j = between items i k ++ a :: between items k j := by
  have hk : (items.take j)[k]? = some a := by rw [List.getElem?_take, if_pos hkj, ha]
  obtain ⟨hlt, rfl⟩ := List.getElem?_eq_some_iff.1 hk
  have hrow : items.take j = items.take k ++ (items.take j)[k] :: (items.take j).drop (k + 1) := by
    rw [← List.drop_eq_getElem_cons hlt]
    conv_lhs =>
      rw [← List.take_append_drop k (items.take j), List.take_take, Nat.min_eq_left hkj.le]
  have hlen : i + 1 ≤ (items.take k).length := by
    rw [List.length_take] at hlt ⊢
    omega
  unfold between
  conv_lhs => rw [hrow, List.drop_append_of_le_length hlen]

/-- Two pairs do not cross: what stands between the ends of the first would have opened more than it
closed where it meets the second. -/
theorem Mates.not_crossing {m : Nat} (hd : ∀ a ∈ items, left a = true → right a = false)
    (h : Mates left right pair items i j) (h' : Mates left right pair items k m) :
    ¬ (i < k ∧ k < j ∧ j < m) := by
  rintro ⟨hik, hkj, hjm⟩
  obtain ⟨a, -, ha, -, hl, -⟩ := h'.ends
  have hr := hd a (List.mem_of_getElem? ha) hl
  have hsplit := between_split hik hkj ha
  have hbefore := h.balanced.never_below _ ⟨_, hsplit.symm⟩
  have hafter := h'.balanced.never_below (between items k j)
    ((List.take_prefix_take_left hjm.le).drop (k + 1))
  have hlevel := h.balanced.level
  rw [hsplit, List.countP_append, List.countP_append, List.countP_cons, List.countP_cons] at hlevel
  simp only [hl, hr, if_true, Bool.false_eq_true, if_false] at hlevel
  omega

end TokenEditor.Pairing

namespace TokenEditor.Language
open Pairing
variable {V : Type}

/-- Two tokens are partners of each other, exactly if the first opens, the second closes, the two
pair and the tokens between them are balanced. Two pairs never cross. -/
theorem partners_match_and_nest (l : Language V) (cells : Cells) (tokens : List (Token V))
    (hd : ∀ t ∈ tokens, ¬ (l.pairLeft cells t = true ∧ l.pairRight cells t = true)) :
    (∀ i j, (l.partner? cells tokens i = some j ↔ l.partner? cells tokens j = some i) ∧
      (l.partner? cells tokens i = some j ↔ i ≠ j ∧
        ∃ a b, tokens[min i j]? = some a ∧ tokens[max i j]? = some b ∧
          l.pairLeft cells a = true ∧ l.pairRight cells b = true ∧ l.pair cells a b = true ∧
          Balanced (l.pairLeft cells) (l.pairRight cells) (between tokens (min i j) (max i j)))) ∧
    ∀ i j k m, l.partner? cells tokens i = some j → l.partner? cells tokens k = some m →
      ¬ (min i j < min k m ∧ min k m < max i j ∧ max i j < max k m) := by
  have hapart : ∀ t ∈ tokens, l.pairLeft cells t = true → l.pairRight cells t = false :=
    fun t ht hl => by simpa [hl] using hd t ht
  have hmates : ∀ i j, l.partner? cells tokens i = some j ↔ Mates (l.pairLeft cells)
      (l.pairRight cells) (l.pair cells) tokens (min i j) (max i j) := by
    intro i j
    rw [partner?, partner?_eq_some_iff hapart]
    rcases Nat.lt_trichotomy i j with hlt | rfl | hlt
    · rw [Nat.min_eq_left hlt.le, Nat.max_eq_right hlt.le]
      exact or_iff_left fun h => absurd h.lt (by omega)
    · simp
    · rw [Nat.min_eq_right hlt.le, Nat.max_eq_left hlt.le]
      exact or_iff_right fun h => absurd h.lt (by omega)
  refine ⟨fun i j => ⟨?_, ?_⟩, fun i j k m h h' => ?_⟩
  · rw [hmates, hmates, Nat.min_comm, Nat.max_comm]
  · rw [hmates]
    constructor
    · rintro ⟨hlt, ⟨a, b, ha, hb, hl, hr, hpair⟩, hbalanced⟩
      exact ⟨by omega, a, b, ha, hb, hl, hr, hpair, hbalanced⟩
    · rintro ⟨hne, a, b, ha, hb, hl, hr, hpair, hbalanced⟩
      exact ⟨by omega, ⟨a, b, ha, hb, hl, hr, hpair⟩, hbalanced⟩
  · exact ((hmates i j).1 h).not_crossing hapart ((hmates k m).1 h')

/-- Sums with two kinds of brackets. -/
def bracketed : Language Sum :=
  ({ pairs := [(['('], [')']), (['['], [']'])] } : Palette Sum).dress (Sum.language {})

/-- `( [ ] a ( ] )` -/
def bracketedRow : List (Token Sum) :=
  [.plain ['('], .plain ['['], .plain [']'], .identifier ['a'], .plain ['('], .plain [']'],
    .plain [')']]

/-- The brackets in the middle are of different kinds and have no partners; the outer ones have. -/
theorem partners_match_and_nest_kinds :
    (∀ t ∈ bracketedRow, ¬ (bracketed.pairLeft {} t = true ∧ bracketed.pairRight {} t = true)) ∧
    bracketed.partner? {} bracketedRow 0 = some 6 ∧ bracketed.partner? {} bracketedRow 6 = some 0 ∧
    Balanced (bracketed.pairLeft {}) (bracketed.pairRight {}) (between bracketedRow 0 6) ∧
    bracketed.partner? {} bracketedRow 4 = none := by
  have hd : ∀ t ∈ bracketedRow,
      ¬ (bracketed.pairLeft {} t = true ∧ bracketed.pairRight {} t = true) := by decide
  have hfirst : bracketed.partner? {} bracketedRow 0 = some 6 := by decide
  obtain ⟨hmatch, -⟩ := partners_match_and_nest bracketed {} bracketedRow hd
  obtain ⟨hback, hmates⟩ := hmatch 0 6
  obtain ⟨-, -, -, -, -, -, -, -, hbalanced⟩ := hmates.1 hfirst
  exact ⟨hd, hfirst, hback.1 hfirst, hbalanced, by decide⟩

end TokenEditor.Language
