import Mathlib.Data.List.Infix
import Mathlib.Logic.Relation
import Mathlib.Tactic.SplitIfs
import Mathlib.Tactic.Tauto
import TokenEditor.Completion.Tokenizer
import TokenEditor.Sum.Language

/-! # Cutting words greedily

Tokenizing with completion items cuts every word of a text into pieces. Each piece is the longest
beginning of what is left of the word that resolves, tried from the longest down, and what has no
such beginning is one error token at the end of the word. `Cut` says this of one word without
following the loop; `cutWord_iff` says that the loop does just that, so that its bound is never
reached. Trying a beginning may make cells even if it comes to nothing, so stores are passed on from
one try to the next.

Where items put in tokens that spell the text they stand for, nothing but blanks is lost. -/

namespace TokenEditor

namespace Text

/-- The words of a text: none is empty or has a blank in it, and after each of them comes a blank or
the end. -/
inductive Spaced : Text → List Text → Prop
  | nil : Spaced [] []
  | blank {c : Char} {t : Text} {ws : List Text} : isBlank c → Spaced t ws → Spaced (c :: t) ws
  | word {w t : Text} {ws : List Text} : w ≠ [] → (∀ c ∈ w, isBlank c = false) →
      (∀ c ∈ t.head?, isBlank c) → Spaced t ws → Spaced (w ++ t) (w :: ws)

theorem words_blank {c : Char} (h : isBlank c) (t : Text) : words (c :: t) = words t := by
  rw [words.eq_def]
  simp [h]

theorem words_append {w t : Text} (hw : w ≠ []) (hword : ∀ c ∈ w, isBlank c = false)
    (ht : ∀ c ∈ t.head?, isBlank c) : words (w ++ t) = w :: words t := by
  induction w with
  | nil => exact absurd rfl hw
  | cons c w ih =>
    obtain ⟨hc, hword⟩ := List.forall_mem_cons.1 hword
    rw [List.cons_append, words.eq_def]
    cases w with
    | nil =>
      cases t with
      | nil =>
        have hnil : words [] = [] := rfl
        simp [hc, hnil]
      | cons d t => simp [hc, ht d rfl]
    | cons d w =>
      have hd := (List.forall_mem_cons.1 hword).1
      have hrest := ih (by simp) hword
      rw [List.cons_append] at hrest
      simp [hc, hd, hrest]

theorem Spaced.eq_words {t : Text} {ws : List Text} (h : Spaced t ws) : ws = words t := by
  induction h with
  | nil => rfl
  | blank hc _ ih => rw [words_blank hc, ih]
  | word hw hword ht _ ih => rw [words_append hw hword ht, ih]

theorem spaced_words (t : Text) : Spaced t (words t) := by
  induction t with
  | nil => exact .nil
  | cons c t ih =>
    cases hc : isBlank c with
    | true =>
      rw [words_blank hc]
      exact .blank hc ih
    | false =>
      have hword : ∀ d ∈ [c], isBlank d = false := by simpa using hc
      generalize hws : words t = ws at ih
      cases ih with
      | nil =>
        have hwords : words [c] = [[c]] := words_append (t := []) (by simp) hword (by simp)
        rw [hwords]
        exact .word (w := [c]) (by simp) hword (by simp) .nil
      | @blank d t ws hd hrest =>
        have ht : ∀ x ∈ (d :: t).head?, isBlank x := by simpa using hd
        have hwords := words_append (w := [c]) (by simp) hword ht
        rw [List.singleton_append] at hwords
        rw [hwords, hws]
        exact .word (w := [c]) (by simp) hword ht (.blank hd hrest)
      | @word w t ws hw hblanks ht hrest =>
        -- the first character goes on into the first word
        have hlonger : ∀ d ∈ c :: w, isBlank d = false := List.forall_mem_cons.2 ⟨hc, hblanks⟩
        rw [← List.cons_append, words_append (by simp) hlonger ht, ← hrest.eq_words]
        exact .word (by simp) hlonger ht hrest

theorem spaced_iff {t : Text} {ws : List Text} : Spaced t ws ↔ ws = words t :=
  ⟨Spaced.eq_words, fun h => h ▸ spaced_words t⟩

end Text

namespace Item
variable {V : Type} {items : List (Item V)} {t : Text} {i : Item V}

/-- The item accepts the text, and it yields to none that does. -/
def Counts (items : List (Item V)) (t : Text) (i : Item V) : Prop :=
  i.matcher.accepts t ∧ (i.lowPriority → ∀ j ∈ items, j.matcher.accepts t → j.lowPriority)

/-- The item is the only one in the list that counts. -/
def Sole (items : List (Item V)) (t : Text) (i : Item V) : Prop :=
  ∃ before after, items = before ++ i :: after ∧ Counts items t i ∧
    ∀ j ∈ before ++ after, ¬ Counts items t j

theorem mem_of_sole (h : Sole items t i) : i ∈ items := by
  obtain ⟨before, after, rfl, -⟩ := h
  simp

open Classical in
theorem matching_eq (items : List (Item V)) (t : Text) :
    matching items t = items.filter fun i => Counts items t i := by
  unfold matching
  dsimp only
  split_ifs with hany
  · obtain ⟨j, hj, hhigh⟩ := List.any_eq_true.1 hany
    obtain ⟨hj, hacc⟩ := List.mem_filter.1 hj
    rw [List.filter_filter]
    refine List.filter_congr fun i hi => ?_
    rw [Bool.eq_iff_iff, Bool.and_eq_true, Bool.not_eq_true', decide_eq_true_iff, and_comm]
    refine and_congr_right fun _ => ⟨fun hlow hyields => ?_, fun hyields => ?_⟩
    · rw [hlow] at hyields
      cases hyields
    · cases hlow : i.lowPriority with
      | false => rfl
      | true =>
        rw [hyields hlow j hj hacc] at hhigh
        cases hhigh
  · refine List.filter_congr fun i hi => ?_
    rw [Bool.eq_iff_iff, decide_eq_true_iff]
    refine ⟨fun hacc => ⟨hacc, fun _ j hj hjacc => ?_⟩, And.left⟩
    cases hlow : j.lowPriority with
    | true => rfl
    | false =>
      exact absurd (List.any_eq_true.2 ⟨j, List.mem_filter.2 ⟨hj, hjacc⟩, by simp [hlow]⟩) hany

theorem matching_eq_singleton : matching items t = [i] ↔ Sole items t i := by
  classical
  rw [matching_eq, List.filter_eq_cons_iff]
  simp only [List.filter_eq_nil_iff, decide_eq_true_iff, Sole, List.forall_mem_append]
  refine exists_congr fun before => exists_congr fun after => ?_
  tauto

/-- The text resolves: its only item puts in tokens. -/
def Resolves (items : List (Item V)) (cells : Cells) (t : Text) (ts : List (Token V))
    (after : Cells) : Prop :=
  ∃ i, Sole items t i ∧ ts ≠ [] ∧ (i.captured t).run cells = (some ts, after)

/-- The text does not resolve: no single item stands for it, or the one that does puts in nothing. -/
inductive Fails (items : List (Item V)) (cells : Cells) (t : Text) : Cells → Prop
  | unmatched : (∀ i, ¬ Sole items t i) → Fails items cells t cells
  | idle {i : Item V} {slot : Option (List (Token V))} {after : Cells} : Sole items t i →
      (i.captured t).run cells = (slot, after) → (∀ ts, slot = some ts → ts = []) →
      Fails items cells t after

theorem resolve_of_sole (h : Sole items t i) (cells : Cells) : (resolve items t).run cells =
    (((i.captured t).run cells).1.filter fun ts => !ts.isEmpty, ((i.captured t).run cells).2) := by
  rw [resolve, matching_eq_singleton.2 h]
  rfl

theorem resolve_of_unmatched (h : ∀ i, ¬ Sole items t i) (cells : Cells) :
    (resolve items t).run cells = (none, cells) := by
  unfold resolve
  split
  · rename_i i hi
    exact absurd (matching_eq_singleton.1 hi) (h i)
  · rfl

theorem resolve_eq_some {cells after : Cells} {ts : List (Token V)} :
    (resolve items t).run cells = (some ts, after) ↔ Resolves items cells t ts after := by
  constructor
  · intro h
    by_cases hsole : ∃ i, Sole items t i
    · obtain ⟨i, hi⟩ := hsole
      rw [resolve_of_sole hi, Prod.mk.injEq, Option.filter_eq_some_iff] at h
      obtain ⟨⟨hslot, hne⟩, hafter⟩ := h
      exact ⟨i, hi, by simpa using hne, Prod.ext hslot hafter⟩
    · rw [resolve_of_unmatched fun i hi => hsole ⟨i, hi⟩] at h
      cases h
  · rintro ⟨i, hi, hne, hslot⟩
    rw [resolve_of_sole hi, hslot, Option.filter_eq_some_iff.2 ⟨rfl, by simpa using hne⟩]

theorem resolve_eq_none {cells after : Cells} :
    (resolve items t).run cells = (none, after) ↔ Fails items cells t after := by
  constructor
  · intro h
    by_cases hsole : ∃ i, Sole items t i
    · obtain ⟨i, hi⟩ := hsole
      rw [resolve_of_sole hi, Prod.mk.injEq, Option.filter_eq_none_iff] at h
      obtain ⟨hnone, rfl⟩ := h
      exact .idle hi rfl fun ts hts => by simpa using hnone ts hts
    · have hunmatched : ∀ i, ¬ Sole items t i := fun i hi => hsole ⟨i, hi⟩
      rw [resolve_of_unmatched hunmatched] at h
      cases h
      exact .unmatched hunmatched
  · intro h
    cases h with
    | unmatched h => exact resolve_of_unmatched h cells
    | idle hi hslot hidle =>
      rw [resolve_of_sole hi, hslot, Option.filter_eq_none_iff.2 fun ts hts => by simp [hidle ts hts]]

/-! ### Cutting a word -/

/-- One text after the other is tried, and none resolves. -/
inductive FailsAll (items : List (Item V)) : Cells → List Text → Cells → Prop
  | nil {cells : Cells} : FailsAll items cells [] cells
  | cons {before cells after : Cells} {u : Text} {us : List Text} : Fails items before u cells →
      FailsAll items cells us after → FailsAll items before (u :: us) after

/-- The beginnings of a text with more than `n` characters, the longest first. -/
def longer (n : Nat) (t : Text) : List Text :=
  (t.inits.drop (n + 1)).reverse

/-- One word cut into tokens: pieces, each the longest that resolves of what is left, and an error
token for what has no such beginning. -/
inductive Cut (items : List (Item V)) : Cells → Text → List (Token V) → Cells → Prop
  | done {cells : Cells} : Cut items cells [] [] cells
  | piece {before tried cells after : Cells} {w rest : Text} {ts out : List (Token V)} : w ≠ [] →
      FailsAll items before (longer w.length (w ++ rest)) tried → Resolves items tried w ts cells →
      Cut items cells rest out after → Cut items before (w ++ rest) (ts ++ out) after
  | leftover {before after : Cells} {r : Text} : r ≠ [] → FailsAll items before (longer 0 r) after →
      Cut items before r [.error r] after

/-- Words cut one after the other. -/
inductive CutAll (items : List (Item V)) : Cells → List Text → List (Token V) → Cells → Prop
  | nil {cells : Cells} : CutAll items cells [] [] cells
  | cons {before cells after : Cells} {w : Text} {ws : List Text} {ts out : List (Token V)} :
      Cut items before w ts cells → CutAll items cells ws out after →
      CutAll items before (w :: ws) (ts ++ out) after

section
variable {before cells after tried : Cells} {n k fuel : Nat} {w : Text} {ts out : List (Token V)}

theorem mem_longer {u : Text} : u ∈ longer n t ↔ ∃ k, n < k ∧ k ≤ t.length ∧ u = t.take k := by
  rw [longer, List.mem_reverse, List.mem_iff_getElem]
  simp only [List.getElem_drop, List.getElem_inits, List.length_drop, List.length_inits]
  constructor
  · rintro ⟨i, hi, rfl⟩
    exact ⟨n + 1 + i, by omega, by omega, rfl⟩
  · rintro ⟨k, hn, hk, rfl⟩
    refine ⟨k - (n + 1), by omega, ?_⟩
    rw [Nat.add_sub_of_le hn]

theorem longer_length (t : Text) : longer t.length t = [] := by
  simp [longer]

/-- Tries that leave the store as it is can be made one after the other. -/
theorem failsAll_of_fails {us : List Text} (h : ∀ u ∈ us, Fails items cells u cells) :
    FailsAll items cells us cells := by
  induction us with
  | nil => exact .nil
  | cons u us ih =>
    obtain ⟨hu, hus⟩ := List.forall_mem_cons.1 h
    exact .cons hu (ih hus)

theorem longer_take_succ (hn : n ≤ k) (hk : k < t.length) :
    longer n (t.take (k + 1)) = t.take (k + 1) :: longer n (t.take k) := by
  have hlast : t.take (k + 1) = t.take k ++ [t[k]] := (List.take_concat_get' t k hk).symm
  have hinits : (t.take (k + 1)).inits = (t.take k).inits ++ [t.take (k + 1)] := by
    rw [hlast, List.inits_append]
    rfl
  rw [longer, hinits, List.drop_append_of_le_length (by simp; omega), List.reverse_append]
  rfl

theorem longestResolving_of_failsAll (hn : n ≤ k) (hk : k ≤ t.length)
    (h : FailsAll items before (longer n (t.take k)) tried) :
    (longestResolving items t k).run before = (longestResolving items t n).run tried := by
  induction k generalizing before with
  | zero =>
    obtain rfl := Nat.le_zero.1 hn
    cases h
    rfl
  | succ k ih =>
    rcases Nat.lt_or_eq_of_le hn with hlt | rfl
    · rw [longer_take_succ (Nat.le_of_lt_succ hlt) hk] at h
      cases h with
      | cons hfails hrest =>
        rw [longestResolving, StateT.run_bind, resolve_eq_none.2 hfails]
        exact ih (Nat.le_of_lt_succ hlt) (Nat.le_of_succ_le hk) hrest
    · have hnil : longer (k + 1) (t.take (k + 1)) = [] := by
        simpa [Nat.min_eq_left hk] using longer_length (t.take (k + 1))
      rw [hnil] at h
      cases h
      rfl

/-- The beginnings of a text are tried down to the first that resolves, or down to the shortest. -/
theorem exists_longest (items : List (Item V)) (t : Text) (hk : k ≤ t.length) (before : Cells) :
    (∃ n tried ts after, n < k ∧ FailsAll items before (longer (n + 1) (t.take k)) tried ∧
      Resolves items tried (t.take (n + 1)) ts after) ∨
    ∃ after, FailsAll items before (longer 0 (t.take k)) after := by
  induction k generalizing before with
  | zero => exact .inr ⟨before, .nil⟩
  | succ k ih =>
    cases hresult : (resolve items (t.take (k + 1))).run before with
    | mk result cells =>
      cases result with
      | some ts =>
        have hnil : longer (k + 1) (t.take (k + 1)) = [] := by
          simpa [Nat.min_eq_left hk] using longer_length (t.take (k + 1))
        exact .inl ⟨k, before, ts, cells, Nat.lt_succ_self k, hnil ▸ .nil, resolve_eq_some.1 hresult⟩
      | none =>
        have hfails := resolve_eq_none.1 hresult
        rcases ih (Nat.le_of_succ_le hk) cells with ⟨n, tried, ts, after, hn, hall, hresolves⟩ | ⟨after, hall⟩
        · refine .inl ⟨n, tried, ts, after, Nat.lt_succ_of_lt hn, ?_, hresolves⟩
          rw [longer_take_succ hn hk]
          exact .cons hfails hall
        · refine .inr ⟨after, ?_⟩
          rw [longer_take_succ (Nat.zero_le k) hk]
          exact .cons hfails hall

theorem exists_cut (items : List (Item V)) (w : Text) (before : Cells) :
    ∃ out after, Cut items before w out after := by
  induction hlength : w.length using Nat.strong_induction_on generalizing w before with
  | h length ih =>
    by_cases hw : w = []
    · subst hw
      exact ⟨[], before, .done⟩
    have hlongest := exists_longest items w (Nat.le_refl _) before
    rw [List.take_length] at hlongest
    rcases hlongest with ⟨n, tried, ts, cells, hn, hall, hresolves⟩ | ⟨after, hall⟩
    · obtain ⟨out, after, hrest⟩ := ih (w.drop (n + 1)).length (by simp; omega) _ cells rfl
      refine ⟨ts ++ out, after, ?_⟩
      have hpiece : (w.take (n + 1)).length = n + 1 := by simp; omega
      rw [← List.take_append_drop (n + 1) w]
      refine .piece (List.ne_nil_of_length_pos (by omega)) ?_ hresolves hrest
      rwa [hpiece, List.take_append_drop]
    · exact ⟨[.error w], after, .leftover hw hall⟩

/-- A cut word is what the loop gives, if its bound is not below the length of the word. -/
theorem Cut.run (h : Cut items before w out after) (hfuel : w.length ≤ fuel) :
    (cutWord items fuel w).run before = (out, after) := by
  induction h generalizing fuel with
  | done => cases fuel <;> rfl
  | @piece before tried cells after w rest ts out hw hall hresolves hrest ih =>
    obtain ⟨c, w, rfl⟩ := List.exists_cons_of_ne_nil hw
    obtain ⟨fuel, rfl⟩ := Nat.exists_eq_add_of_le' (Nat.le_trans (Nat.le_add_left 1 _) hfuel)
    have hlongest : (longestResolving items (c :: (w ++ rest)) ((w ++ rest).length + 1)).run before =
        (some (w.length, ts), cells) := by
      have hwhole : (c :: (w ++ rest)).take ((w ++ rest).length + 1) = c :: w ++ rest := by simp
      have htake : (c :: (w ++ rest)).take (w.length + 1) = c :: w := by simp
      rw [longestResolving_of_failsAll (n := w.length + 1) (by simp) (by simp) (hwhole ▸ hall),
        longestResolving, StateT.run_bind, htake, resolve_eq_some.2 hresolves]
      rfl
    have hout := @ih fuel (by simp at hfuel; omega)
    rw [List.cons_append, cutWord, StateT.run_bind, hlongest]
    show (do return ts ++ (← cutWord items fuel ((w ++ rest).drop w.length)) : StateM Cells _).run cells = _
    rw [List.drop_left, StateT.run_bind, hout]
    rfl
  | @leftover before after r hr hall =>
    obtain ⟨c, r, rfl⟩ := List.exists_cons_of_ne_nil hr
    obtain ⟨fuel, rfl⟩ := Nat.exists_eq_add_of_le' (Nat.le_trans (Nat.le_add_left 1 _) hfuel)
    have hlongest : (longestResolving items (c :: r) (r.length + 1)).run before = (none, after) :=
      longestResolving_of_failsAll (Nat.zero_le _) (by simp) (by simpa using hall)
    rw [cutWord, StateT.run_bind, hlongest]
    rfl

theorem cutWord_iff (hfuel : w.length ≤ fuel) :
    (cutWord items fuel w).run before = (out, after) ↔ Cut items before w out after := by
  refine ⟨fun h => ?_, fun h => h.run hfuel⟩
  obtain ⟨out', after', hcut⟩ := exists_cut items w before
  cases h.symm.trans (hcut.run hfuel)
  exact hcut

theorem CutAll.run {ws : List Text} (h : CutAll items before ws out after) :
    (cutWords items ws).run before = (out, after) := by
  induction h with
  | nil => rfl
  | cons hcut _ ih =>
    rw [cutWords, StateT.run_bind, hcut.run (Nat.le_refl _)]
    show (do return _ ++ (← cutWords items _) : StateM Cells _).run _ = _
    rw [StateT.run_bind, ih]
    rfl

theorem exists_cutAll (items : List (Item V)) (ws : List Text) (before : Cells) :
    ∃ out after, CutAll items before ws out after := by
  induction ws generalizing before with
  | nil => exact ⟨[], before, .nil⟩
  | cons w ws ih =>
    obtain ⟨ts, cells, hcut⟩ := exists_cut items w before
    obtain ⟨out, after, hrest⟩ := ih cells
    exact ⟨ts ++ out, after, .cons hcut hrest⟩

theorem cutWords_iff {ws : List Text} :
    (cutWords items ws).run before = (out, after) ↔ CutAll items before ws out after := by
  refine ⟨fun h => ?_, CutAll.run⟩
  obtain ⟨out', after', hcut⟩ := exists_cutAll items ws before
  cases h.symm.trans hcut.run
  exact hcut

end

/-! ### Texts of the pieces -/

/-- Stores that applying the items leads to. -/
def LeadsTo (items : List (Item V)) : Cells → Cells → Prop :=
  Relation.ReflTransGen fun cells after => ∃ i ∈ items, ∃ t,
    after = ((i.captured t).run cells).2

/-- What a text resolves to spells the text, and goes on doing so while items are applied. -/
def Spell [Payload V] (items : List (Item V)) : Prop :=
  ∀ {cells after later : Cells} {t : Text} {ts : List (Token V)}, Resolves items cells t ts after →
    LeadsTo items after later → (ts.map (Token.text later)).flatten = t

section
variable {before after later : Cells} {w : Text} {ts out : List (Token V)}

theorem LeadsTo.of_captured (h : Sole items t i) {slot : Option (List (Token V))}
    (hslot : (i.captured t).run before = (slot, after)) : LeadsTo items before after :=
  .single ⟨i, mem_of_sole h, t, by rw [hslot]⟩

theorem Resolves.leadsTo (h : Resolves items before t ts after) : LeadsTo items before after := by
  obtain ⟨i, hi, -, hslot⟩ := h
  exact .of_captured hi hslot

theorem FailsAll.leadsTo {us : List Text} (h : FailsAll items before us after) :
    LeadsTo items before after := by
  induction h with
  | nil => exact .refl
  | cons hfails _ ih =>
    cases hfails with
    | unmatched => exact ih
    | idle hi hslot => exact (LeadsTo.of_captured hi hslot).trans ih

theorem Cut.leadsTo (h : Cut items before w out after) : LeadsTo items before after := by
  induction h with
  | done => exact .refl
  | piece _ hall hresolves _ ih => exact (hall.leadsTo.trans hresolves.leadsTo).trans ih
  | leftover _ hall => exact hall.leadsTo

theorem CutAll.leadsTo {ws : List Text} (h : CutAll items before ws out after) :
    LeadsTo items before after := by
  induction h with
  | nil => exact .refl
  | cons hcut _ ih => exact hcut.leadsTo.trans ih

variable [Payload V] (hspell : Spell items)
include hspell

theorem Cut.spells (h : Cut items before w out after) (hlater : LeadsTo items after later) :
    (out.map (Token.text later)).flatten = w := by
  induction h with
  | done => rfl
  | piece _ _ hresolves hrest ih =>
    rw [List.map_append, List.flatten_append, ih hlater,
      hspell hresolves (hrest.leadsTo.trans hlater)]
  | leftover => simp [Token.text]

theorem CutAll.spells {ws : List Text} (h : CutAll items before ws out after)
    (hlater : LeadsTo items after later) : (out.map (Token.text later)).flatten = ws.flatten := by
  induction h with
  | nil => rfl
  | cons hcut hrest ih =>
    rw [List.map_append, List.flatten_append, ih hlater,
      hcut.spells hspell (hrest.leadsTo.trans hlater), List.flatten_cons]

end

/-- Tokenizing with items cuts every word greedily; and if the items spell the texts they stand for,
the tokens show the text without its blanks. -/
theorem tokenize_cuts_greedily [Payload V] (items : List (Item V)) (t : Text) (cells : Cells) :
    (∀ out after, (tokenize items t).run cells = (out, after) ↔
      ∃ ws, Text.Spaced t ws ∧ CutAll items cells ws out after) ∧
    (Spell items → ∀ out after, (tokenize items t).run cells = (out, after) →
      (out.map (Token.text after)).flatten = t.filter fun c => !Text.isBlank c) := by
  refine ⟨fun out after => ?_, fun hspell out after h => ?_⟩
  · simp only [Text.spaced_iff, exists_eq_left]
    exact cutWords_iff
  · rw [(cutWords_iff.1 h).spells hspell .refl, Text.flatten_words]

/-- All items for sums that need no row put in one token with the text they stand for. -/
theorem spell_sum_tokenItems : Spell Sum.tokenItems := by
  rintro cells after later t ts ⟨i, hi, -, hslot⟩ -
  have hmem := mem_of_sole hi
  obtain ⟨-, -, -, ⟨haccepts, -⟩, -⟩ := hi
  simp only [Sum.tokenItems, List.mem_cons, List.not_mem_nil, or_false] at hmem
  have symbol : ∀ {u : Text}, (u == t) = true → [u].flatten = t :=
    fun h => (List.append_nil _).trans (beq_iff_eq.1 h)
  rcases hmem with rfl | rfl | rfl | rfl | rfl | rfl | rfl | rfl <;> cases hslot
  · exact symbol haccepts
  · exact symbol haccepts
  · exact symbol haccepts
  · exact symbol haccepts
  · exact symbol haccepts
  · exact List.append_nil t
  · exact List.append_nil t

/-- `<<` would remove a token, so that it is left over where there is no row. -/
theorem tokenize_cuts_greedily_sum : Spell Sum.tokenItems ∧ ∃ out after,
    (tokenize Sum.tokenItems "a1++ +++<<2*".toList).run {} = (out, after) ∧
      out.map (Token.text after) = ["a1", "++", "++", "+", "<<2*"].map String.toList ∧
      (out.map (Token.text after)).flatten = "a1+++++<<2*".toList := by
  refine ⟨spell_sum_tokenItems, _, _, rfl, by decide +kernel, ?_⟩
  exact (tokenize_cuts_greedily Sum.tokenItems "a1++ +++<<2*".toList {}).2 spell_sum_tokenItems _ _ rfl

end Item

end TokenEditor
